import Minbif.Irc.RoundTrip
import Minbif.Lib.Runs

/-! IPC framing: what `ipc_read` takes from a socket pair, and which handler it finds. -/
namespace Minbif
open Runs

/-- The IPC handlers. -/
inductive IpcCmd
  | wallops
  | rehash
  | die
  | oper
  | user
deriving DecidableEq, Repr

/-- The entries of `ipc_cmds`: command, handler and least number of arguments. -/
def ipcCmds : List (Str × IpcCmd × Nat) :=
  [(str "WALLOPS", .wallops, 2), (str "REHASH", .rehash, 0), (str "DIE", .die, 2),
    (str "OPER", .oper, 1), (str "USER", .user, 1)]

/-- What becomes of a message taken from the socket. -/
inductive Received
  | unknown (buf : Str)
  | malformed (buf : Str)
  | handled (f : IpcCmd) (m : Message)
deriving DecidableEq, Repr

/-- The second half of `ipc_read`: the line is parsed and its handler looked up. -/
def ipcDispatch (buf : Str) : Except Exn Received := do
  let m ← Message.parse buf
  match ipcCmds.find? (m.cmd == ·.1) with
  | none => .ok (.unknown buf)
  | some (_, f, minArgs) =>
    if m.args.length < minArgs then .ok (.malformed buf) else .ok (.handled f m)

/-- `strstr(buf, "\r\n")`, up to the end of the C string. -/
def eol : Str → Option Nat
  | [] => none
  | c :: l =>
    if c = '\x00' then none
    else if c = '\r' ∧ l.head? = some '\n' then some 0
    else (eol l).map (· + 1)

/-- One end of a socket pair, and what `ipc_read` made of the lines it took. -/
structure IpcSocket where
  unread : Str := []
  received : List (Except Exn Received) := []
deriving Repr

namespace IpcSocket

/-- `ipc_read`, when the first `recv` peeks at `r` bytes. -/
def ipcRead (s : IpcSocket) (r : Nat) : IpcSocket :=
  match eol (s.unread.take r) with
  | none => s
  | some i => ⟨s.unread.drop (i + 2), s.received ++ [ipcDispatch (s.unread.take i)]⟩

/-- What happens on the two ends. -/
inductive Event
  | write (m : Message)
  /-- `ipc_read` is called, and peeks at that many bytes. -/
  | read (r : Nat)

/-- `sizeof buf - 1` -/
def peekMax : Nat := 511

def step (s : IpcSocket) : Event → Option IpcSocket
  | .write m => some { s with unread := s.unread ++ m.format }
  | .read r => if 0 < r ∧ r ≤ peekMax ∧ r ≤ s.unread.length then some (s.ipcRead r) else none

def written : List Event → List Message
  | [] => []
  | .write m :: l => m :: written l
  | .read _ :: l => written l

/-- The line of a message, without its end. -/
def line (m : Message) : Str := m.format.dropLast.dropLast

/-- A message as the protocol wants it: one line that a peek can hold. -/
structure Fits (m : Message) : Prop where
  short : m.format.length ≤ peekMax
  noNul : '\x00' ∉ m.format
  oneLine : ¬ ['\r', '\n'] <:+: line m

variable {s t : IpcSocket} {m : Message} {a b : Str} {past es : List Event} {e : Event} {r : Nat}
  {sent done todo : List Message}

theorem format_eq (m : Message) : m.format = line m ++ ['\r', '\n'] := by
  have hend : ∃ a, m.format = a ++ ['\r', '\n'] := ⟨_, rfl⟩
  obtain ⟨a, ha⟩ := hend
  simp [line, ha]

theorem infix_tail {c : Char} (h : ¬ ['\r', '\n'] <:+: c :: a) : ¬ ['\r', '\n'] <:+: a :=
  fun ha => h (ha.trans (List.suffix_cons c a).isInfix)

/-- Inside a line the search goes on, whatever follows. -/
theorem eol_line (hnul : '\x00' ∉ a) (hone : ¬ ['\r', '\n'] <:+: a) (hb : b.head? ≠ some '\n') :
    eol (a ++ b) = (eol b).map (· + a.length) := by
  induction a with
  | nil => cases h : eol b <;> simp [h]
  | cons c a ih =>
    have hc : c ≠ '\x00' := fun h => hnul (by simp [h])
    have hcrlf : ¬ (c = '\r' ∧ (a ++ b).head? = some '\n') := by
      rintro ⟨rfl, hh⟩
      cases a with
      | nil => exact hb hh
      | cons d a =>
        obtain rfl : d = '\n' := by simpa using hh
        exact hone ⟨[], a, rfl⟩
    have hrest := ih (fun h => hnul (by simp [h])) (infix_tail hone)
    rw [List.cons_append, eol, if_neg hc, if_neg hcrlf, hrest]
    cases eol b <;> simp [Nat.add_assoc]

theorem eol_crlf : eol ('\r' :: '\n' :: b) = some 0 := by
  simp [eol]

theorem Fits.line_noNul (h : Fits m) : '\x00' ∉ line m := by
  have := h.noNul
  rw [format_eq] at this
  exact fun hm => this (by simp [hm])

/-- A peek that ends before the line does finds no end of line. -/
theorem eol_take_short (hnul : '\x00' ∉ line m) (hone : ¬ ['\r', '\n'] <:+: line m)
    (hr : r < m.format.length) : eol ((m.format ++ b).take r) = none := by
  rw [format_eq, List.length_append] at hr
  rw [format_eq, List.append_assoc]
  by_cases hle : r ≤ (line m).length
  · rw [List.take_append_of_le_length hle]
    have hsub := List.take_subset r (line m)
    have hpart : ¬ ['\r', '\n'] <:+: (line m).take r :=
      fun hc => hone (hc.trans (List.take_prefix r _).isInfix)
    have hnone := eol_line (b := []) (fun hc => hnul (hsub hc)) hpart nofun
    simpa [eol] using hnone
  · -- the peek ends between the CR and the LF
    have hr : r = (line m).length + 1 := by
      simp only [List.length_cons, List.length_nil] at hr
      omega
    have hcr := eol_line (b := ['\r']) hnul hone (by simp)
    rw [hr, List.take_append, List.take_of_length_le (by omega), Nat.add_sub_cancel_left]
    simpa [eol] using hcr

theorem eol_take_whole (h : Fits m) (hr : m.format.length ≤ r) :
    eol ((m.format ++ b).take r) = some (line m).length := by
  have hwhole : (m.format ++ b).take r = line m ++ '\r' :: '\n' :: b.take (r - m.format.length) := by
    rw [List.take_append, List.take_of_length_le hr]
    simp [format_eq m]
  rw [hwhole, eol_line h.line_noNul h.oneLine (by simp), eol_crlf]
  simp

/-- One call of `ipc_read` takes the first message, once the peek holds it whole, or nothing. -/
theorem ipcRead_eq (h : Fits m) (hu : s.unread = m.format ++ b) :
    s.ipcRead r = if r < m.format.length then s
      else ⟨b, s.received ++ [ipcDispatch (line m)]⟩ := by
  unfold ipcRead
  rw [hu]
  split
  · next hnone =>
    by_cases hr : r < m.format.length
    · rw [if_pos hr]
    · rw [eol_take_whole h (Nat.le_of_not_lt hr)] at hnone
      cases hnone
  · next i hsome =>
    by_cases hr : r < m.format.length
    · rw [eol_take_short h.line_noNul h.oneLine hr] at hsome
      cases hsome
    · rw [eol_take_whole h (Nat.le_of_not_lt hr)] at hsome
      obtain rfl := Option.some.inj hsome
      have htake : (m.format ++ b).take (line m).length = line m := by
        rw [format_eq, List.append_assoc, List.take_left]
      have hdrop : (m.format ++ b).drop ((line m).length + 2) = b := by
        rw [format_eq m, List.append_assoc, List.drop_append]
        simp
      rw [if_neg hr, htake, hdrop]

/-- The socket holds the messages that remain, and the others were received in order. -/
structure Framed (sent : List Message) (s : IpcSocket) (done todo : List Message) : Prop where
  all : sent = done ++ todo
  received : s.received = done.map fun m => ipcDispatch (line m)
  unread : s.unread = todo.flatMap Message.format

@[simp] theorem written_append (a b : List Event) : written (a ++ b) = written a ++ written b := by
  induction a with
  | nil => rfl
  | cons e a ih => cases e <;> simp [written, ih]

/-- What a peek of that many bytes does to the messages that remain. -/
theorem framed_read (h : Framed sent s done todo) (hfit : ∀ m ∈ sent, Fits m)
    (hr : 0 < r) (hlen : r ≤ s.unread.length) :
    ∃ m rest, todo = m :: rest ∧ s.ipcRead r = if r < m.format.length then s
      else ⟨rest.flatMap Message.format, s.received ++ [ipcDispatch (line m)]⟩ := by
  cases todo with
  | nil =>
    have := h.unread
    simp [this] at hlen
    omega
  | cons m rest =>
    have hm : Fits m := hfit m (by simp [h.all])
    exact ⟨m, rest, rfl, ipcRead_eq hm h.unread⟩

theorem framed_step (h : Framed sent s done todo) (hfit : ∀ m ∈ sent, Fits m)
    (hs : step s e = some t) :
    ∃ done todo, Framed (sent ++ written [e]) t done todo := by
  cases e with
  | write m =>
    obtain rfl := Option.some.inj hs
    exact ⟨done, todo ++ [m], by simp [h.all, written], h.received, by simp [h.unread]⟩
  | read r =>
    simp only [step] at hs
    split at hs
    case isFalse => cases hs
    case isTrue hr =>
      obtain rfl := Option.some.inj hs
      obtain ⟨m, rest, rfl, heq⟩ := framed_read h hfit hr.1 hr.2.2
      rw [heq]
      split
      · exact ⟨done, m :: rest, by simp [h.all, written], h.received, h.unread⟩
      · exact ⟨done ++ [m], rest, by simp [h.all, written], by simp [h.received], rfl⟩

/-- Over every schedule of writes and peeks: the messages are received once each and in order, the
unread bytes are those of the messages that remain, and the next call takes the first of them as a
whole or nothing at all. -/
theorem run_framing (hr : run step {} es = some s) (hfit : ∀ m ∈ written es, Fits m) :
    ∃ done todo, Framed (written es) s done todo ∧
      ∀ r, 0 < r → r ≤ peekMax → r ≤ s.unread.length → ∃ m rest, todo = m :: rest ∧
        m.format.length ≤ peekMax ∧ m.format.length ≤ s.unread.length ∧
        step s (.read r) = some (if r < m.format.length then s
          else ⟨rest.flatMap Message.format, s.received ++ [ipcDispatch (line m)]⟩) := by
  have hrun : (∀ m ∈ written es, Fits m) → ∃ done todo, Framed (written es) s done todo := by
    refine run_invariant (I := fun past s => (∀ m ∈ written past, Fits m) →
      ∃ done todo, Framed (written past) s done todo) ?_ (fun _ => ⟨[], [], rfl, rfl, rfl⟩) hr
    intro past s e t ih hs hfit
    rw [written_append] at hfit ⊢
    have hpast : ∀ m ∈ written past, Fits m := fun m hm => hfit m (List.mem_append_left _ hm)
    obtain ⟨done, todo, h⟩ := ih hpast
    exact framed_step h hpast hs
  obtain ⟨done, todo, h⟩ := hrun hfit
  refine ⟨done, todo, h, fun r hpos hmax hlen => ?_⟩
  obtain ⟨m, rest, rfl, heq⟩ := framed_read h hfit hpos hlen
  have hm : Fits m := hfit m (by simp [h.all])
  refine ⟨m, rest, rfl, hm.short, by simp [h.unread], ?_⟩
  rw [step, if_pos ⟨hpos, hmax, hlen⟩, heq]

theorem run_framing_twice : ∃ done todo,
    Framed [{ cmd := ['M'] }, { cmd := ['N'] }]
      ⟨['N', '\r', '\n'], [.ok (.unknown ['M'])]⟩ done todo :=
  have ⟨done, todo, h, _⟩ := @run_framing ⟨['N', '\r', '\n'], [.ok (.unknown ['M'])]⟩
    [.write { cmd := ['M'] }, .read 2, .write { cmd := ['N'] }, .read 5] (by rfl) (by
      intro m hm
      simp only [written, List.mem_cons, List.not_mem_nil, or_false] at hm
      rcases hm with rfl | rfl <;> exact ⟨by decide, by decide, by decide⟩)
  ⟨done, todo, h⟩

end IpcSocket
end Minbif
