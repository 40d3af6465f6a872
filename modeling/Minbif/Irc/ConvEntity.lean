import Minbif.Core.Util
import Minbif.Lib.Batch
import Minbif.Lib.Runs

/-! The delayed send queue of a conversation's entity. -/
namespace Minbif
open Runs Batch

/-- An entity's queue, with what its conversation was given to send. -/
structure ConvEntity where
  enqueuedMessages : List Str := []
  /-- Timers of `flush_messages` that have not expired. -/
  timers : Nat := 0
  /-- The calls of `conv.sendMessage`, in order. -/
  sent : List Str := []
deriving DecidableEq, Repr

namespace ConvEntity

/-- A CTCP text. -/
def isCtcp (s : Str) : Bool := s.head? == some '\x01'

def enqueueMessage (c : ConvEntity) (text : Str) (delay : Int) : ConvEntity :=
  if delay = 0 then { c with sent := c.sent ++ [text] }
  else { c with
    enqueuedMessages := c.enqueuedMessages ++ [text]
    timers := if (c.enqueuedMessages ++ [text]).length = 1 then c.timers + 1 else c.timers }

/-- `if(!buf.empty()) conv.sendMessage(buf);` -/
def sendBuf (sent : List Str) (buf : Str) : List Str :=
  if buf.isEmpty then sent else sent ++ [buf]

/-- One turn of the loop of `flush_messages`: what was sent, and the buffer. -/
def flushTurn (sent : List Str × Str) (s : Str) : List Str × Str :=
  if isCtcp s then (sendBuf sent.1 sent.2 ++ [s], [])
  else (sent.1, (if sent.2.isEmpty then [] else sent.2 ++ ['\n']) ++ s)

def flushMessages (c : ConvEntity) : ConvEntity :=
  let (sent, buf) := c.enqueuedMessages.foldl flushTurn (c.sent, [])
  { c with enqueuedMessages := [], sent := sendBuf sent buf }

/-- What can happen to the entity. -/
inductive Event
  /-- A text, with the delay configured at that moment. -/
  | enqueue (text : Str) (delay : Int)
  | expire
deriving DecidableEq, Repr

def step (c : ConvEntity) : Event → Option ConvEntity
  | .enqueue text delay => some (c.enqueueMessage text delay)
  -- `flush_messages` returns false: its timer is not set again
  | .expire => if c.timers = 0 then none else some { c.flushMessages with timers := c.timers - 1 }

/-- The texts enqueued, in order. -/
def texts : List Event → List Str
  | [] => []
  | .enqueue text _ :: l => text :: texts l
  | .expire :: l => texts l

/-- What the conversation was given is what was enqueued, up to the texts that still wait, and a
timer is set for these. -/
def Faithful (past : List Event) (c : ConvEntity) : Prop :=
  (∃ done, texts past = done ++ c.enqueuedMessages ∧ Batched (isCtcp · = true) '\n' done c.sent) ∧
    c.timers = if c.enqueuedMessages.isEmpty then 0 else 1

/-- A direct send overtakes nothing, and an empty text has a text before it to be joined to. -/
def Orderly (c : ConvEntity) : Event → Prop
  | .enqueue text delay =>
    if delay = 0 then c.enqueuedMessages = []
    else text = [] → c.enqueuedMessages.getLast?.any (!isCtcp ·) = true
  | .expire => True

instance (c : ConvEntity) : DecidablePred c.Orderly := fun e => by
  cases e <;> dsimp only [Orderly] <;> infer_instance

/-- The loop over a queue, after the texts of the log were sent: the texts of the queue it sent,
and those the buffer joins. -/
structure Scanned (log sent queue g : List Str) : Prop where
  split : ∃ done, queue = done ++ g ∧
    Batched (isCtcp · = true) '\n' (log ++ done) (queue.foldl flushTurn (sent, [])).1
  plain : ∀ s ∈ g, ¬ isCtcp s = true
  buf : (queue.foldl flushTurn (sent, [])).2 = ['\n'].intercalate g
  full : g ≠ [] → ['\n'].intercalate g ≠ []
  last : g = [] → ∀ s ∈ queue.getLast?, isCtcp s = true

variable {c c' : ConvEntity} {past es : List Event} {log sent queue g : List Str} {s text : Str}
  {delay : Int} {e : Event}

theorem scanned_nil (h : Batched (isCtcp · = true) '\n' log sent) : Scanned log sent [] [] :=
  ⟨⟨[], rfl, by simpa using h⟩, nofun, rfl, fun h => (h rfl).elim, nofun⟩

theorem Scanned.buf_isEmpty (h : Scanned log sent queue g) :
    (queue.foldl flushTurn (sent, [])).2.isEmpty = g.isEmpty := by
  rw [h.buf]
  cases g with
  | nil => rfl
  | cons a g => simpa using h.full (List.cons_ne_nil a g)

/-- At the end of the loop the buffer is sent, and nothing of the queue is left. -/
theorem Scanned.flush (h : Scanned log sent queue g) :
    Batched (isCtcp · = true) '\n' (log ++ queue)
      (sendBuf (queue.foldl flushTurn (sent, [])).1 (queue.foldl flushTurn (sent, [])).2) := by
  obtain ⟨done, rfl, hsent⟩ := h.split
  rw [sendBuf, h.buf_isEmpty, h.buf, ← List.append_assoc]
  cases g with
  | nil => simpa using hsent
  | cons a g => exact hsent.append_joined (List.cons_ne_nil a g) h.plain

/-- A text joins the end of the queue. -/
theorem Scanned.append (h : Scanned log sent queue g)
    (hs : s = [] → queue.getLast?.any (!isCtcp ·) = true) :
    ∃ g', Scanned log sent (queue ++ [s]) g' := by
  have hturn : (queue ++ [s]).foldl flushTurn (sent, []) =
      flushTurn (queue.foldl flushTurn (sent, [])) s := by
    rw [List.foldl_append]
    rfl
  by_cases hctcp : isCtcp s = true
  · -- the buffer is flushed before the text is sent alone
    refine ⟨[], ⟨queue ++ [s], (List.append_nil _).symm, ?_⟩, nofun, ?_, fun h => (h rfl).elim, ?_⟩
    · rw [hturn, flushTurn, if_pos hctcp, ← List.append_assoc]
      exact h.flush.append_single s
    · rw [hturn, flushTurn, if_pos hctcp]
      rfl
    · simpa using hctcp
  · have hbuf : (queue.foldl flushTurn (sent, [])).2.isEmpty = g.isEmpty := h.buf_isEmpty
    have hjoin : (flushTurn (queue.foldl flushTurn (sent, [])) s).2 =
        ['\n'].intercalate (g ++ [s]) := by
      rw [flushTurn, if_neg hctcp, hbuf, h.buf]
      cases g with
      | nil => simp
      | cons a g =>
        rw [intercalate_concat (List.cons_ne_nil a g)]
        simp
    obtain ⟨done, hqueue, hsent⟩ := h.split
    refine ⟨g ++ [s], ⟨done, by rw [hqueue, List.append_assoc], ?_⟩, ?_, hturn ▸ hjoin, ?_, ?_⟩
    · rw [hturn, flushTurn, if_neg hctcp]
      exact hsent
    · intro t ht
      rcases List.mem_append.mp ht with ht | ht
      · exact h.plain t ht
      · exact List.mem_singleton.mp ht ▸ hctcp
    · intro _ hnil
      cases g with
      | nil =>
        obtain rfl : s = [] := by simpa using hnil
        have hplain := hs rfl
        cases hlast : queue.getLast? with
        | none => simp [hlast] at hplain
        | some t => simp [hlast, h.last rfl t hlast] at hplain
      | cons a g =>
        rw [intercalate_concat (List.cons_ne_nil a g)] at hnil
        simp at hnil
    · intro hnil
      simp at hnil

/-- What holds after the events of an orderly run. -/
def Inv (past : List Event) (c : ConvEntity) : Prop :=
  (∃ done g, texts past = done ++ c.enqueuedMessages ∧
    Batched (isCtcp · = true) '\n' done c.sent ∧ Scanned done c.sent c.enqueuedMessages g) ∧
    c.timers = if c.enqueuedMessages.isEmpty then 0 else 1

@[simp] theorem texts_append (a b : List Event) : texts (a ++ b) = texts a ++ texts b := by
  induction a with
  | nil => rfl
  | cons e a ih => cases e <;> simp [texts, ih]

theorem inv_step (h : Inv past c) (ho : c.Orderly e) (hs : c.step e = some c') :
    Inv (past ++ [e]) c' := by
  obtain ⟨⟨done, g, htexts, hdone, hscan⟩, htimer⟩ := h
  cases e with
  | enqueue text delay =>
    obtain rfl := Option.some.inj hs
    have hall : texts (past ++ [.enqueue text delay]) = done ++ c.enqueuedMessages ++ [text] := by
      rw [texts_append, htexts]
      rfl
    unfold enqueueMessage
    by_cases hd : delay = 0
    · -- with nothing queued the direct send comes after all that was sent
      have hq : c.enqueuedMessages = [] := by simpa [Orderly, hd] using ho
      have hnew := hdone.append_single text
      rw [if_pos hd]
      refine ⟨⟨done ++ [text], [], by simp [hall, hq], hnew, ?_⟩, htimer⟩
      exact hq ▸ scanned_nil hnew
    · have hempty : text = [] → c.enqueuedMessages.getLast?.any (!isCtcp ·) = true := by
        simpa only [Orderly, if_neg hd] using ho
      obtain ⟨g', hg'⟩ := hscan.append hempty
      rw [if_neg hd]
      refine ⟨⟨done, g', by rw [hall, List.append_assoc], hdone, hg'⟩, ?_⟩
      cases hq : c.enqueuedMessages with
      | nil => simp [htimer, hq]
      | cons a q => simp [htimer, hq]
  | expire =>
    simp only [step] at hs
    split at hs
    · cases hs
    · next ht =>
      obtain rfl := Option.some.inj hs
      have hflush := hscan.flush
      have hall : texts (past ++ [.expire]) = done ++ c.enqueuedMessages := by
        rw [texts_append, htexts]
        simp [texts]
      refine ⟨⟨done ++ c.enqueuedMessages, [], by simp [hall, flushMessages], hflush,
        scanned_nil hflush⟩, ?_⟩
      rw [htimer] at ht ⊢
      split <;> simp_all [flushMessages]

/-- Along every orderly run the queue delivers each text once and in order, and its timer is set
exactly while texts wait. -/
theorem run_faithful (ho : Along step Orderly {} es) (hr : run step {} es = some c) :
    Faithful es c := by
  have hinv : Inv [] {} := ⟨⟨[], [], rfl, .nil, scanned_nil .nil⟩, rfl⟩
  obtain ⟨⟨done, g, htexts, hdone, -⟩, htimer⟩ :=
    run_keeps (fun _ _ _ _ h ho hs => inv_step h ho hs) hinv ho hr
  exact ⟨⟨done, htexts, hdone⟩, htimer⟩

theorem run_faithful_joined :
    Faithful [.enqueue ['a'] 300, .enqueue ['b'] 300, .expire] ⟨[], 0, [['a', '\n', 'b']]⟩ :=
  run_faithful (by decide) (by decide)

/-- A delay set to zero while a text waits: the next text goes first. -/
theorem run_overtakes : ¬ ∀ es c, run step {} es = some c → Faithful es c := by
  intro h
  have hrun : run step {} [.enqueue ['a'] 300, .enqueue ['b'] 0] =
      some ⟨[['a']], 1, [['b']]⟩ := by decide
  obtain ⟨⟨done, hdone, -⟩, -⟩ := h _ _ hrun
  have hlast := congrArg List.getLast? hdone
  simp [texts] at hlast

end ConvEntity
end Minbif
