import Minbif.Irc.DccSending
import Minbif.Lib.LittleEndian

/-! The acknowledgements of a transfer, from both its sides. -/
namespace Minbif
open Runs

/-- The four bytes of a word on the wire. -/
def be32 (n : Nat) : List UInt8 := (LittleEndian.encode 4 n).reverse

/-- How a number of the machine lies in the memory. -/
def memory (bigEndian : Bool) (width n : Nat) : List UInt8 :=
  if bigEndian then (LittleEndian.encode width n).reverse else LittleEndian.encode width n

/-- The number whose memory are the bytes on the wire. -/
def htonl (bigEndian : Bool) (n : Nat) : Nat :=
  if bigEndian then n % 2 ^ 32 else LittleEndian.value (be32 n)

/-- A `DCCGet`. -/
structure DccGetter where
  totalSize : Int
  bytesReceived : Nat := 0
  finished : Bool := false
  /-- What was written to the peer. -/
  written : List UInt8 := []
deriving DecidableEq, Repr

namespace DccGetter

def deinit (s : DccGetter) : DccGetter := { s with finished := true }

/-- `unsigned long l = htonl(dcc->bytes_received)`, of eight bytes. -/
def ack (bigEndian : Bool) (n : Nat) : List UInt8 := memory bigEndian 8 (htonl bigEndian n)

def dccRead (bigEndian : Bool) (s : DccGetter) (input : DccInput) (fwrites : Bool) : DccGetter :=
  match input with
  | .again => s
  | .closed => s.deinit
  | .bytes l =>
    let len := (l.take 1024).length
    if !fwrites then s.deinit
    else if s.totalSize ≤ (s.bytesReceived + len : Nat) then
      { s with
        bytesReceived := s.bytesReceived + len
        finished := true
        written := s.written ++ ack bigEndian (s.bytesReceived + len) }
    else { s with bytesReceived := s.bytesReceived + len }

end DccGetter

namespace DccEvent

/-- What happens while the peer is there. -/
def Ongoing : DccEvent → Prop
  | .listenCb .. | .connected .. | .dccRead .closed _ => False
  | .updated .. | .dccRead .again _ => True
  | .dccRead (.bytes l) _ => l ≠ [] ∧ l.length ≤ 64

def received : DccEvent → List UInt8
  | .dccRead (.bytes l) _ => l
  | .listenCb .. | .updated .. | .connected .. | .dccRead .again _ | .dccRead .closed _ => []

end DccEvent

namespace DccSender

variable {α : Type*} (totalSize : Nat) (file : List α)

/-- The values that the loop over the acknowledgements reads. -/
def acked : List UInt8 → List Nat
  | a :: b :: c :: d :: rest =>
    ntohl a b c d :: if totalSize ≤ ntohl a b c d then [] else acked rest
  | _ => []

/-- The values that it reads in the course of an event. -/
def ackedBy (s : DccSender α) : DccEvent → List Nat
  | .dccRead (.bytes l) _ => if s.fd = .peer then acked totalSize (s.rxqueue ++ l.take 64) else []
  | .listenCb .. | .updated .. | .connected .. | .dccRead .again _ | .dccRead .closed _ => []

def ackedAlong (s : DccSender α) (es : List DccEvent) : List Nat :=
  collect (step totalSize file) (ackedBy totalSize) s es

/-- The peer is there, and less than a word of it is left. -/
structure Reading (s : DccSender α) : Prop where
  fd : s.fd = .peer
  watcher : s.watcher = .dccRead
  listenData : s.listenData = false
  finished : s.finished = false
  pending : s.rxqueue.length < 4

/-- What the peer sends when it has received so many bytes. -/
def ackStream (counts : List Nat) : List UInt8 := counts.flatMap be32

variable {totalSize file} {s t : DccSender α} {e : DccEvent} {es : List DccEvent} {turn : SendTurn}
  {p q : List UInt8} {counts : List Nat} {n : Nat}

section Words

theorem length_be32 (n : Nat) : (be32 n).length = 4 := by simp [be32]

theorem ntohl_eq (a b c d : UInt8) : ntohl a b c d = LittleEndian.value [d, c, b, a] := by
  simp only [ntohl, LittleEndian.value_cons, LittleEndian.value_nil]
  omega

/-- A word on the wire is a number up to `2 ^ 32`. -/
theorem be32_cases (n : Nat) :
    ∃ a b c d, be32 n = [a, b, c, d] ∧ ntohl a b c d = n % 2 ^ 32 := by
  have hlen := length_be32 n
  match hbytes : be32 n, hlen with
  | [a, b, c, d], _ =>
    refine ⟨a, b, c, d, rfl, ?_⟩
    have henc : LittleEndian.encode 4 n = [d, c, b, a] := by
      rw [← List.reverse_reverse (LittleEndian.encode 4 n)]
      exact congrArg List.reverse hbytes
    have hpow : 256 ^ 4 = 2 ^ 32 := rfl
    rw [ntohl_eq, ← henc, LittleEndian.value_encode, hpow]

theorem acks_word (n : Nat) (q : List UInt8) :
    acks totalSize (be32 n ++ q) =
      if totalSize ≤ n % 2 ^ 32 then (true, q) else acks totalSize q := by
  obtain ⟨a, b, c, d, hbytes, hval⟩ := be32_cases n
  rw [hbytes, ← hval]
  rfl

theorem acked_word (n : Nat) (q : List UInt8) :
    acked totalSize (be32 n ++ q) =
      n % 2 ^ 32 :: if totalSize ≤ n % 2 ^ 32 then [] else acked totalSize q := by
  obtain ⟨a, b, c, d, hbytes, hval⟩ := be32_cases n
  rw [hbytes, ← hval]
  rfl

theorem acks_short (h : p.length < 4) : acks totalSize p = (false, p) := by
  match p, h with
  | [], _ | [_], _ | [_, _], _ | [_, _, _], _ => rfl

theorem acked_short (h : p.length < 4) : acked totalSize p = [] := by
  match p, h with
  | [], _ | [_], _ | [_, _], _ | [_, _, _], _ => rfl

/-- Less than a word is left. -/
theorem length_acks (h : (acks totalSize p).1 = false) : (acks totalSize p).2.length < 4 := by
  induction p using acks.induct totalSize with
  | case1 a b c d rest hle => simp [acks, hle] at h
  | case2 a b c d rest hle ih =>
    rw [acks, if_neg hle] at h ⊢
    exact ih h
  | case3 p hp =>
    match p with
    | [] | [_] | [_, _] | [_, _, _] => simp [acks]
    | a :: b :: c :: d :: rest => exact absurd rfl (hp a b c d rest)

/-- Where one word ends the transfer, nothing that follows matters. -/
theorem acks_append_of_true (h : (acks totalSize p).1 = true) (q : List UInt8) :
    (acks totalSize (p ++ q)).1 = true ∧ acked totalSize (p ++ q) = acked totalSize p := by
  induction p using acks.induct totalSize with
  | case1 a b c d rest hle => simp [acks, acked, hle]
  | case2 a b c d rest hle ih =>
    rw [acks, if_neg hle] at h
    simpa [acks, acked, hle] using ih h
  | case3 p hp =>
    match p with
    | [] | [_] | [_, _] | [_, _, _] => simp [acks] at h
    | a :: b :: c :: d :: rest => exact absurd rfl (hp a b c d rest)

/-- Else the loop goes on with what is left. -/
theorem acks_append_of_false (h : (acks totalSize p).1 = false) (q : List UInt8) :
    acks totalSize (p ++ q) = acks totalSize ((acks totalSize p).2 ++ q) ∧
      acked totalSize (p ++ q) =
        acked totalSize p ++ acked totalSize ((acks totalSize p).2 ++ q) := by
  induction p using acks.induct totalSize with
  | case1 a b c d rest hle => simp [acks, hle] at h
  | case2 a b c d rest hle ih =>
    rw [acks, if_neg hle] at h
    simpa [acks, acked, hle] using ih h
  | case3 p hp =>
    match p with
    | [] | [_] | [_, _] | [_, _, _] => simp [acks, acked]
    | a :: b :: c :: d :: rest => exact absurd rfl (hp a b c d rest)

end Words

section Reads

theorem dccSend_same (file : List α) (s : DccSender α) (turn : SendTurn) : ∃ fp sent delivered,
    s.dccSend file turn = { s with fp := fp, bytesSent := sent, delivered := delivered } := by
  unfold dccSend
  split
  · exact ⟨_, _, _, rfl⟩
  · cases s.fopen turn with
    | none => exact ⟨_, _, _, rfl⟩
    | some pos => exact ⟨_, _, _, rfl⟩

/-- What is left of the queue does not matter, nor does the file. -/
theorem Reading.dccSend (h : Reading s) (file : List α) (turn : SendTurn) (ft : Bool)
    (hq : q.length < 4) :
    Reading (DccSender.dccSend file { s with ft := ft, rxqueue := q } turn) ∧
      (DccSender.dccSend file { s with ft := ft, rxqueue := q } turn).rxqueue = q := by
  obtain ⟨fp, sent, delivered, hsend⟩ :=
    dccSend_same file { s with ft := ft, rxqueue := q } turn
  rw [hsend]
  exact ⟨⟨h.fd, h.watcher, h.listenData, h.finished, hq⟩, rfl⟩

/-- What is over reads nothing. -/
theorem acked_over (hfin : s.finished = true) (hw : s.watcher = .none) (hes : ∀ e ∈ es, e.Ongoing) :
    ackedAlong totalSize file s es = [] ∧
      ∀ t, run (step totalSize file) s es = some t → t.finished = true := by
  induction es with
  | nil =>
    refine ⟨rfl, fun t ht => ?_⟩
    obtain rfl := Option.some.inj ht
    exact hfin
  | cons e es ih =>
    obtain ⟨he, hrest⟩ := List.forall_mem_cons.mp hes
    obtain ⟨hnil, hlast⟩ := ih hrest
    cases e with
    | listenCb sock parsed => exact he.elim
    | connected conn late turn => exact he.elim
    | updated destroy late turn =>
      have hstep : s.step totalSize file (.updated destroy late turn) = some s := by
        simp [step, hfin]
      constructor
      · rw [ackedAlong, collect_cons hstep]
        exact hnil
      · intro t ht
        obtain ⟨u, hu, ht⟩ := run_cons.mp ht
        obtain rfl := Option.some.inj (hstep.symm.trans hu)
        exact hlast t ht
    | dccRead input turn =>
      have hstep : s.step totalSize file (.dccRead input turn) = none := by simp [step, hw]
      constructor
      · rw [ackedAlong, collect, hstep]
      · intro t ht
        obtain ⟨u, hu, -⟩ := run_cons.mp ht
        rw [hstep] at hu
        cases hu

theorem Reading.ackedBy (h : Reading s) (he : e.Ongoing) :
    s.ackedBy totalSize e = acked totalSize (s.rxqueue ++ e.received) := by
  cases e with
  | listenCb sock parsed => exact he.elim
  | connected conn late turn => exact he.elim
  | updated destroy late turn =>
    rw [DccSender.ackedBy, DccEvent.received, List.append_nil, acked_short h.pending]
  | dccRead input turn =>
    cases input with
    | again => rw [DccSender.ackedBy, DccEvent.received, List.append_nil, acked_short h.pending]
    | closed => exact he.elim
    | bytes l =>
      rw [DccSender.ackedBy, DccEvent.received, if_pos h.fd, List.take_of_length_le he.2]

/-- What arrives is read together with what was left, and the transfer ends or goes on. -/
theorem Reading.step (h : Reading s) (he : e.Ongoing) :
    ∃ t, s.step totalSize file e = some t ∧
      ((acks totalSize (s.rxqueue ++ e.received)).1 = true → t.finished = true ∧ t.watcher = .none) ∧
      ((acks totalSize (s.rxqueue ++ e.received)).1 = false →
        Reading t ∧ t.rxqueue = (acks totalSize (s.rxqueue ++ e.received)).2) := by
  -- without new bytes the loop has nothing to do
  have hidle : acks totalSize (s.rxqueue ++ []) = (false, s.rxqueue) := by
    rw [List.append_nil]
    exact acks_short h.pending
  cases e with
  | listenCb sock parsed => exact he.elim
  | connected conn late turn => exact he.elim
  | updated destroy late turn =>
    refine ⟨_, rfl, ?_⟩
    rw [DccEvent.received, hidle]
    refine ⟨nofun, fun _ => ?_⟩
    split
    · exact ⟨h, rfl⟩
    · rw [DccSender.updated]
      dsimp only
      rw [if_neg (by simp [h.fd, h.listenData])]
      exact h.dccSend file turn _ h.pending
  | dccRead input turn =>
    refine ⟨_, if_pos h.watcher, ?_⟩
    rw [DccSender.dccRead, if_pos h.fd]
    cases input with
    | again =>
      rw [DccEvent.received, hidle]
      exact ⟨nofun, fun _ => ⟨h, rfl⟩⟩
    | closed => exact he.elim
    | bytes l =>
      dsimp only
      rw [List.take_of_length_le he.2, DccEvent.received]
      constructor
      · intro hend
        rw [if_pos hend]
        exact ⟨rfl, rfl⟩
      · intro hgo
        rw [if_neg (by simp [hgo])]
        exact h.dccSend file turn s.ft (length_acks hgo)

/-- However the bytes arrive, the loop reads them as if they had arrived at once. -/
theorem Reading.run (h : Reading s) (hes : ∀ e ∈ es, e.Ongoing) :
    ackedAlong totalSize file s es = acked totalSize (s.rxqueue ++ es.flatMap DccEvent.received) ∧
      ∀ t, Runs.run (DccSender.step totalSize file) s es = some t →
        t.finished = (acks totalSize (s.rxqueue ++ es.flatMap DccEvent.received)).1 := by
  induction es generalizing s with
  | nil =>
    rw [List.flatMap_nil, List.append_nil, acks_short h.pending, acked_short h.pending]
    refine ⟨rfl, fun t ht => ?_⟩
    obtain rfl := Option.some.inj ht
    exact h.finished
  | cons e es ih =>
    obtain ⟨he, hes⟩ := List.forall_mem_cons.mp hes
    obtain ⟨u, hu, hend, hgo⟩ : ∃ u, s.step totalSize file e = some u ∧ _ := h.step he
    have hrun : ∀ t, Runs.run (DccSender.step totalSize file) s (e :: es) = some t →
        Runs.run (DccSender.step totalSize file) u es = some t := by
      intro t ht
      obtain ⟨v, hv, ht⟩ := run_cons.mp ht
      obtain rfl := Option.some.inj (hu.symm.trans hv)
      exact ht
    have hacked : ackedAlong totalSize file s (e :: es) =
        acked totalSize (s.rxqueue ++ e.received) ++ ackedAlong totalSize file u es := by
      rw [ackedAlong, collect_cons hu, h.ackedBy he]
      rfl
    rw [hacked, List.flatMap_cons, ← List.append_assoc]
    cases hacks : (acks totalSize (s.rxqueue ++ e.received)).1 with
    | true =>
      obtain ⟨hfin, hw⟩ := hend hacks
      obtain ⟨hnil, hover⟩ : ackedAlong totalSize file u es = [] ∧ _ := acked_over hfin hw hes
      obtain ⟨htrue, hsame⟩ := acks_append_of_true hacks (es.flatMap DccEvent.received)
      rw [hnil, List.append_nil, htrue, hsame]
      exact ⟨rfl, fun t ht => hover t (hrun t ht)⟩
    | false =>
      obtain ⟨hreading, hqueue⟩ := hgo hacks
      obtain ⟨hrest, hfinal⟩ := ih hreading hes
      obtain ⟨hacks', hacked'⟩ := acks_append_of_false hacks (es.flatMap DccEvent.received)
      rw [hacks', hacked', hrest, hqueue]
      exact ⟨rfl, fun t ht => by rw [← hqueue]; exact hfinal t (hrun t ht)⟩

end Reads

section Sizes

/-- A beginning of the stream ends the transfer with the first whole word that is high enough. -/
theorem acks_stream (hp : p <+: ackStream counts) :
    (acks totalSize p).1 = true ↔ ∃ c ∈ counts.take (p.length / 4), totalSize ≤ c % 2 ^ 32 := by
  induction counts generalizing p with
  | nil =>
    obtain rfl := List.prefix_nil.mp hp
    simp [acks]
  | cons c counts ih =>
    rw [ackStream, List.flatMap_cons] at hp
    by_cases hlen : p.length < 4
    · rw [acks_short hlen, Nat.div_eq_of_lt hlen]
      simp
    · have hword : be32 c <+: p := by
        refine List.prefix_of_prefix_length_le (List.prefix_append _ _) hp ?_
        rw [length_be32]
        omega
      obtain ⟨q, rfl⟩ := hword
      have hq : q <+: ackStream counts := (List.prefix_append_right_inj _).mp hp
      have hcount : (be32 c ++ q).length / 4 = q.length / 4 + 1 := by
        rw [List.length_append, length_be32]
        omega
      rw [hcount, List.take_succ_cons, acks_word, List.exists_mem_cons_iff, ← ih hq]
      by_cases hle : totalSize ≤ c % 2 ^ 32
      · rw [if_pos hle]
        exact iff_of_true rfl (.inl hle)
      · rw [if_neg hle]
        exact (or_iff_right hle).symm

/-- The transfer is finished exactly when the peer has acknowledged the whole file, if and only if
the file is one of less than `2 ^ 32` bytes or not all of it is acknowledged. -/
theorem finished_iff_acked (hs : Reading s) (hqueue : s.rxqueue = []) (hes : ∀ e ∈ es, e.Ongoing)
    (hcounts : ∀ c ∈ counts, c ≤ n) (hstream : es.flatMap DccEvent.received <+: ackStream counts)
    (hrun : run (step n file) s es = some t) :
    (t.finished = true ↔ n ∈ counts.take ((es.flatMap DccEvent.received).length / 4)) ↔
      n < 2 ^ 32 ∨ n ∉ counts.take ((es.flatMap DccEvent.received).length / 4) := by
  have hfin : t.finished = true ↔
      ∃ c ∈ counts.take ((es.flatMap DccEvent.received).length / 4), n ≤ c % 2 ^ 32 := by
    rw [(hs.run hes).2 t hrun, hqueue, List.nil_append, acks_stream hstream]
  rw [hfin]
  by_cases hn : n < 2 ^ 32
  · refine iff_of_true ⟨?_, fun hin => ⟨n, hin, ?_⟩⟩ (.inl hn)
    · rintro ⟨c, hin, hle⟩
      have hc := hcounts c (List.mem_of_mem_take hin)
      have hmod : c % 2 ^ 32 ≤ c := Nat.mod_le _ _
      obtain rfl : c = n := by omega
      exact hin
    · rw [Nat.mod_eq_of_lt hn]
  · rw [or_iff_right hn]
    refine ⟨fun h hin => ?_, fun hin => iff_of_false ?_ hin⟩
    · obtain ⟨c, -, hle⟩ := h.mpr hin
      omega
    · rintro ⟨c, -, hle⟩
      omega

/-- A transfer whose peer has just come, and one read from it. -/
def begun : DccSender UInt8 := { listenData := false, fd := .peer, watcher := .dccRead }

def oneRead (l : List UInt8) : List DccEvent := [.dccRead (.bytes l) ⟨false, 0, 0⟩]

theorem reading_begun : begun.Reading := ⟨rfl, rfl, rfl, rfl, Nat.zero_lt_succ 3⟩

theorem ongoing_oneRead {l : List UInt8} (hne : l ≠ []) (hlen : l.length ≤ 64) :
    ∀ e ∈ oneRead l, e.Ongoing := by
  intro e he
  obtain rfl := List.mem_singleton.mp he
  exact ⟨hne, hlen⟩

theorem finished_iff_acked_one : ∃ t, run (step 1 []) begun (oneRead [0, 0, 0, 1]) = some t ∧
    ((t.finished = true ↔
        1 ∈ [1].take (((oneRead [0, 0, 0, 1]).flatMap DccEvent.received).length / 4)) ↔
      1 < 2 ^ 32 ∨ 1 ∉ [1].take (((oneRead [0, 0, 0, 1]).flatMap DccEvent.received).length / 4)) :=
  ⟨_, rfl, finished_iff_acked reading_begun rfl (ongoing_oneRead nofun (by decide)) (by decide)
    (by decide) rfl⟩

/-- The peer has received all of a file of `2 ^ 32` bytes, and its count is zero again. -/
theorem acked_whole_goes_on : ¬ ∀ (n : Nat) (file : List UInt8) (s t : DccSender UInt8)
    (es : List DccEvent) (counts : List Nat), 1 ≤ n → s.Reading → s.rxqueue = [] →
    (∀ e ∈ es, e.Ongoing) → (∀ c ∈ counts, c ≤ n) →
    es.flatMap DccEvent.received <+: ackStream counts → run (step n file) s es = some t →
    (t.finished = true ↔ n ∈ counts.take ((es.flatMap DccEvent.received).length / 4)) := by
  intro h
  have hfin := (h (2 ^ 32) [] begun _ (oneRead [0, 0, 0, 0]) [2 ^ 32] (by decide) reading_begun rfl
    (ongoing_oneRead nofun (by decide)) (by decide) (by decide) rfl).mpr (by decide)
  revert hfin
  decide

end Sizes

section Getting

variable {bigEndian fwrites : Bool} {g : DccGetter} {input : DccInput} {bytes : List UInt8}

/-- Four of the eight bytes are zeros: the last ones, or the first. -/
theorem ack_eq (bigEndian : Bool) (n : Nat) :
    DccGetter.ack bigEndian n = if bigEndian then be32 0 ++ be32 n else be32 n ++ be32 0 := by
  have hzero : be32 0 = List.replicate 4 0 := by
    rw [be32, LittleEndian.encode_zero]
    rfl
  cases bigEndian with
  | true =>
    have hhigh : n % 256 ^ 4 / 256 ^ 4 = 0 := Nat.div_eq_of_lt (Nat.mod_lt _ (by decide))
    have hpow : 2 ^ 32 = 256 ^ 4 := rfl
    rw [DccGetter.ack, memory, htonl, if_pos rfl, if_pos rfl, if_pos rfl, hpow,
      LittleEndian.encode_add (w := 4) (v := 4), LittleEndian.encode_mod, hhigh,
      List.reverse_append]
    rfl
  | false =>
    rw [DccGetter.ack, memory, htonl, if_neg nofun, if_neg nofun, if_neg nofun, hzero,
      LittleEndian.encode_value (by rw [length_be32]; decide), length_be32]

/-- What is written acknowledges what was received. -/
theorem written_dccRead (bigEndian : Bool) (g : DccGetter) (input : DccInput) (fwrites : Bool) :
    (g.dccRead bigEndian input fwrites).written = g.written ∨
      (g.dccRead bigEndian input fwrites).written =
        g.written ++ DccGetter.ack bigEndian (g.dccRead bigEndian input fwrites).bytesReceived := by
  unfold DccGetter.dccRead
  split
  · exact .inl rfl
  · exact .inl rfl
  · dsimp only
    split
    · exact .inl rfl
    · split
      · exact .inr rfl
      · exact .inl rfl

/-- Fed to the loop of the sender in any parts, the acknowledgement is one of this count exactly if
its first word ends the transfer and is the one that holds the count. -/
theorem ack_agrees_iff (hwritten : (g.dccRead bigEndian input fwrites).written = g.written ++ bytes)
    (hack : bytes ≠ []) (hs : Reading s) (hqueue : s.rxqueue = []) (hes : ∀ e ∈ es, e.Ongoing)
    (hfed : es.flatMap DccEvent.received = bytes) :
    ackedAlong totalSize file s es =
        [(g.dccRead bigEndian input fwrites).bytesReceived % 2 ^ 32] ↔
      if bigEndian then
        totalSize = 0 ∧ (g.dccRead bigEndian input fwrites).bytesReceived % 2 ^ 32 = 0
      else totalSize ≤ (g.dccRead bigEndian input fwrites).bytesReceived % 2 ^ 32 := by
  have hbytes : bytes =
      DccGetter.ack bigEndian (g.dccRead bigEndian input fwrites).bytesReceived := by
    rcases written_dccRead bigEndian g input fwrites with hnone | hsome
    · rw [hnone] at hwritten
      exact absurd (List.self_eq_append_right.mp hwritten) hack
    · rw [hsome] at hwritten
      exact (List.append_cancel_left hwritten).symm
  generalize (g.dccRead bigEndian input fwrites).bytesReceived = n at hbytes ⊢
  have hword : ∀ k, acked totalSize (be32 k) = [k % 2 ^ 32] := by
    intro k
    rw [← List.append_nil (be32 k), acked_word]
    split <;> rfl
  rw [(hs.run hes).1, hqueue, List.nil_append, hfed, hbytes, ack_eq]
  cases bigEndian with
  | true =>
    rw [if_pos rfl, if_pos rfl, acked_word, hword, Nat.zero_mod]
    by_cases hzero : totalSize ≤ 0
    · rw [if_pos hzero]
      simp [Nat.le_zero.mp hzero, eq_comm]
    · rw [if_neg hzero]
      exact iff_of_false (by simp) fun h => hzero h.1.le
  | false =>
    rw [if_neg nofun, if_neg nofun, acked_word, hword]
    by_cases hends : totalSize ≤ n % 2 ^ 32
    · rw [if_pos hends]
      exact iff_of_true rfl hends
    · rw [if_neg hends]
      exact iff_of_false (by simp) hends

/-- A file of three bytes, whose last one comes alone. -/
theorem ack_agrees_three :
    ackedAlong 3 [] begun (oneRead [0, 0, 0, 3, 0, 0, 0, 0]) =
        [(DccGetter.dccRead false ⟨3, 2, false, []⟩ (.bytes [7]) true).bytesReceived % 2 ^ 32] ↔
      if false then
        3 = 0 ∧ (DccGetter.dccRead false ⟨3, 2, false, []⟩ (.bytes [7]) true).bytesReceived % 2 ^ 32 = 0
      else
        3 ≤ (DccGetter.dccRead false ⟨3, 2, false, []⟩ (.bytes [7]) true).bytesReceived % 2 ^ 32 := by
  have hwritten : (DccGetter.dccRead false ⟨3, 2, false, []⟩ (.bytes [7]) true).written =
      [] ++ [0, 0, 0, 3, 0, 0, 0, 0] := by decide
  exact ack_agrees_iff hwritten nofun reading_begun rfl (ongoing_oneRead nofun (by decide)) rfl

/-- Of a file of `2 ^ 32` bytes the sender reads two acknowledgements. -/
theorem ack_read_twice : ¬ ∀ (totalSize : Nat) (g : DccGetter) (input : DccInput)
    (bytes : List UInt8) (s : DccSender UInt8) (es : List DccEvent),
    (g.dccRead false input true).written = g.written ++ bytes → bytes ≠ [] → s.Reading →
    s.rxqueue = [] → (∀ e ∈ es, e.Ongoing) → es.flatMap DccEvent.received = bytes →
    ackedAlong totalSize [] s es = [(g.dccRead false input true).bytesReceived % 2 ^ 32] := by
  intro h
  have hacked := h (2 ^ 32) ⟨2 ^ 32, 2 ^ 32 - 1, false, []⟩ (.bytes [7]) [0, 0, 0, 0, 0, 0, 0, 0] begun
    (oneRead [0, 0, 0, 0, 0, 0, 0, 0]) (by decide) nofun reading_begun rfl
    (ongoing_oneRead nofun (by decide)) rfl
  revert hacked
  decide

end Getting

end DccSender
end Minbif
