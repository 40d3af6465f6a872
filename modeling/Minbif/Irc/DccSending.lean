import Mathlib.Data.List.Infix
import Mathlib.Tactic.Simps.Basic
import Minbif.Lib.Offsets
import Minbif.Lib.Runs

/-! A file that is sent to the client while libpurple still writes it. -/
namespace Minbif
open Runs

/-- What `fopen`, `fread` and `send` do if `dcc_send` gets to them. -/
structure SendTurn where
  opens : Bool
  /-- How much of the file there is to read. -/
  written : Nat
  /-- How much of the buffer `send` takes; nothing when it fails. -/
  takes : Nat

/-- The socket of a `DCCServer`. -/
inductive DccFd
  | closed
  | listening
  | peer
deriving DecidableEq, Repr

/-- The callback that waits for the socket. -/
inductive DccWatcher
  | none
  | connected
  | dccRead
deriving DecidableEq, Repr

/-- What `accept` returns. -/
inductive Accepted
  | error
  | zero
  | peer
deriving DecidableEq, Repr

/-- What `read` returns. -/
inductive DccInput
  | again
  | closed
  | bytes (l : List UInt8)
deriving DecidableEq, Repr

inductive DccEvent
  /-- Whether there is a socket, and whether the own address is one. -/
  | listenCb (sock parsed : Bool)
  /-- Whether the time for the peer to connect is over. -/
  | updated (destroy late : Bool) (turn : SendTurn)
  | connected (conn : Accepted) (late : Bool) (turn : SendTurn)
  | dccRead (input : DccInput) (turn : SendTurn)

/-- A `DCCSend`. -/
structure DccSender (α : Type*) where
  listenData : Bool := true
  fd : DccFd := .closed
  watcher : DccWatcher := .none
  finished : Bool := false
  /-- Whether `ft` is valid. -/
  ft : Bool := true
  /-- The position in the file, once it is open. -/
  fp : Option Nat := none
  bytesSent : Nat := 0
  rxqueue : List UInt8 := []
  /-- What the socket of the peer has taken. -/
  delivered : List α := []
deriving DecidableEq, Repr

namespace DccSender

variable {α β : Type*} (totalSize : Nat) (file : List α)

def deinit (s : DccSender α) : DccSender α :=
  { s with
    listenData := false
    fd := .closed
    watcher := .none
    finished := true
    fp := none
    rxqueue := [] }

/-- `fread` of a buffer. -/
def fread (pos : Nat) (turn : SendTurn) : List α := ((file.take turn.written).drop pos).take 512

/-- `fp`, which is opened if it is not. -/
def fopen (s : DccSender α) (turn : SendTurn) : Option Nat :=
  s.fp.or (if turn.opens then some 0 else none)

/-- The position advances by what was read, whatever `send` returns. -/
def dccSend (s : DccSender α) (turn : SendTurn) : DccSender α :=
  if s.finished || s.listenData || s.fd = .closed then s
  else
    match s.fopen turn with
    | none => s
    | some pos =>
      let buf := fread file pos turn
      { s with
        fp := some (pos + buf.length)
        bytesSent := s.bytesSent + buf.length
        -- a socket that listens takes nothing
        delivered := s.delivered ++ if s.fd = .peer then buf.take turn.takes else [] }

def updated (s : DccSender α) (destroy late : Bool) (turn : SendTurn) : DccSender α :=
  let s := { s with ft := s.ft && !destroy }
  if (s.fd = .closed || s.listenData) && late then s.deinit else s.dccSend file turn

def listenCb (s : DccSender α) (sock parsed : Bool) : DccSender α :=
  let s := { s with fd := if sock then .listening else .closed, listenData := false }
  if !parsed then s.deinit else { s with watcher := .connected }

/-- `accept` fails where nothing listens; only its result 0 counts as a failure. -/
def connected (s : DccSender α) (conn : Accepted) (late : Bool) (turn : SendTurn) : DccSender α :=
  match if s.fd = .listening then conn else .error with
  | .zero => s.deinit
  | .error => updated file { s with fd := .closed, watcher := .dccRead } false late turn
  | .peer => updated file { s with fd := .peer, watcher := .dccRead } false late turn

def ntohl (a b c d : UInt8) : Nat := ((a.toNat * 256 + b.toNat) * 256 + c.toNat) * 256 + d.toNat

/-- The loop over the acknowledgements: whether one of them ends the transfer, and what is left. -/
def acks : List UInt8 → Bool × List UInt8
  | a :: b :: c :: d :: rest => if totalSize ≤ ntohl a b c d then (true, rest) else acks rest
  | rest => (false, rest)

/-- `read` fails where there is no peer. -/
def dccRead (s : DccSender α) (input : DccInput) (turn : SendTurn) : DccSender α :=
  match if s.fd = .peer then input else .closed with
  | .again => s
  | .closed => s.deinit
  | .bytes l =>
    let r := acks totalSize (s.rxqueue ++ l.take 64)
    if r.1 then s.deinit else dccSend file { s with rxqueue := r.2 } turn

/-- An event, where its callback is registered; `IRC::updateDCC` passes one on to a transfer that is
not finished and still has its `ft`. -/
def step (s : DccSender α) : DccEvent → Option (DccSender α)
  | .listenCb sock parsed => if s.listenData then some (s.listenCb sock parsed) else none
  | .updated destroy late turn =>
    some (if s.finished || !s.ft then s else s.updated file destroy late turn)
  | .connected conn late turn =>
    if s.watcher = .connected then some (s.connected file conn late turn) else none
  | .dccRead input turn =>
    if s.watcher = .dccRead then some (s.dccRead totalSize file input turn) else none

/-- What the peer is given by `dcc_send`. -/
def given (s : DccSender α) (turn : SendTurn) : List α :=
  if s.finished || s.listenData || s.fd ≠ .peer then []
  else (s.fopen turn).elim [] fun pos => (fread file pos turn).take turn.takes

/-- What the peer is given in the course of an event. -/
def handedOver (s : DccSender α) : DccEvent → List α
  | .listenCb .. => []
  | .updated _ _ turn => if s.ft then s.given file turn else []
  | .connected conn _ turn =>
    if s.watcher = .connected ∧ s.fd = .listening ∧ conn = .peer then
      given file { s with fd := .peer } turn
    else []
  | .dccRead input turn =>
    match input with
    | .bytes l =>
      if s.watcher = .dccRead ∧ (acks totalSize (s.rxqueue ++ l.take 64)).1 = false then
        s.given file turn
      else []
    | _ => []

/-- The peer is given nothing once bytes that were read did not reach it. -/
def Gapless (s : DccSender α) (e : DccEvent) : Prop :=
  s.handedOver totalSize file e = [] ∨ s.bytesSent = s.delivered.length

instance [DecidableEq α] (s : DccSender α) (e : DccEvent) : Decidable (s.Gapless totalSize file e) :=
  inferInstanceAs (Decidable (_ ∨ _))

/-- The position is behind everything that was read. -/
structure Paced (s : DccSender α) : Prop where
  opened : ∀ pos ∈ s.fp, pos = s.bytesSent
  shut : s.fp = none → s.finished = true ∨ s.bytesSent = 0

variable {totalSize file} {s t : DccSender α} {e : DccEvent} {turn : SendTurn} {input : DccInput}
  {conn : Accepted} {destroy late sock parsed : Bool}

section Given

theorem dccSend_delivered (s : DccSender α) (turn : SendTurn) :
    (s.dccSend file turn).delivered = s.delivered ++ s.given file turn := by
  unfold dccSend given
  by_cases hpeer : s.fd = .peer
  · by_cases hidle : (s.finished || s.listenData) = true
    · simp [hpeer, hidle]
    · cases hfp : s.fopen turn <;> simp [hpeer, hidle]
  · split
    · simp [hpeer]
    · cases hfp : s.fopen turn <;> simp [hpeer]

theorem Paced.deinit (s : DccSender α) : Paced s.deinit := ⟨nofun, fun _ => .inl rfl⟩

/-- The sockets and the queue do not matter. -/
theorem Paced.moved (h : Paced s) (listenData : Bool) (fd : DccFd) (watcher : DccWatcher) (ft : Bool)
    (rxqueue : List UInt8) :
    Paced { s with listenData := listenData, fd := fd, watcher := watcher, ft := ft,
                   rxqueue := rxqueue } := ⟨h.opened, h.shut⟩

/-- Reading goes on where it stopped. -/
theorem Paced.fopen (h : Paced s) (hfin : s.finished = false) {pos : Nat}
    (hpos : s.fopen turn = some pos) : pos = s.bytesSent := by
  unfold DccSender.fopen at hpos
  cases hfp : s.fp with
  | some p =>
    rw [hfp, Option.some_or] at hpos
    cases hpos
    exact h.opened pos hfp
  | none =>
    rw [hfp, Option.none_or] at hpos
    split at hpos
    · cases hpos
      rcases h.shut hfp with hf | h0
      · rw [hfin] at hf
        cases hf
      · exact h0.symm
    · cases hpos

theorem Paced.dccSend (h : Paced s) (file : List α) (turn : SendTurn) :
    Paced (s.dccSend file turn) := by
  unfold DccSender.dccSend
  split
  · exact h
  · next hgo =>
    have hfin : s.finished = false := by simp_all
    cases hpos : s.fopen turn with
    | none => exact h
    | some pos =>
      have := h.fopen hfin hpos
      exact ⟨fun p hp => by cases hp; rw [this], nofun⟩

theorem Paced.given (h : Paced s) (turn : SendTurn) :
    s.given file turn <+: file.drop s.bytesSent := by
  unfold DccSender.given
  split
  · exact List.nil_prefix
  · next hgo =>
    have hfin : s.finished = false := by simp_all
    cases hpos : s.fopen turn with
    | none => exact List.nil_prefix
    | some pos =>
      rw [h.fopen hfin hpos]
      have hread : (file.take turn.written).drop s.bytesSent <+: file.drop s.bytesSent :=
        List.IsPrefix.drop (List.take_prefix _ _) _
      exact ((List.take_prefix _ _).trans (List.take_prefix _ _)).trans hread

theorem given_idle (h : s.fd ≠ .peer ∨ s.finished = true ∨ s.listenData = true) :
    s.given file turn = [] := by
  unfold given
  rw [if_pos]
  rcases h with h | h | h <;> simp [h]

theorem updated_delivered (s : DccSender α) (destroy late : Bool) (turn : SendTurn) :
    (s.updated file destroy late turn).delivered = s.delivered ++ s.given file turn := by
  unfold updated
  dsimp only
  split
  · next hlate =>
    have hidle : s.given file turn = [] := by
      apply given_idle
      by_cases hfd : s.fd = .closed
      · simp [hfd]
      · simp_all
    rw [hidle, List.append_nil]
    rfl
  · exact dccSend_delivered _ turn

theorem Paced.updated (h : Paced s) (file : List α) (destroy late : Bool) (turn : SendTurn) :
    Paced (s.updated file destroy late turn) := by
  unfold DccSender.updated
  dsimp only
  split
  · exact Paced.deinit _
  · exact (h.moved ..).dccSend file turn

end Given

section Steps

/-- What an event gives to the peer. -/
theorem step_delivered (ht : s.step totalSize file e = some t) :
    t.delivered = s.delivered ++ s.handedOver totalSize file e := by
  cases e with
  | listenCb sock parsed =>
    obtain ⟨-, ht⟩ := Option.ite_none_right_eq_some.mp ht
    cases ht
    unfold listenCb
    dsimp only
    split <;> simp [handedOver, deinit]
  | updated destroy late turn =>
    cases ht
    rw [handedOver]
    by_cases hon : (s.finished || !s.ft) = true
    · rw [if_pos hon]
      split
      · next hft =>
        rw [given_idle (.inr (.inl (by simpa [hft] using hon))), List.append_nil]
      · rw [List.append_nil]
    · rw [if_neg hon, if_pos (by simp_all)]
      exact updated_delivered s destroy late turn
  | connected conn late turn =>
    obtain ⟨hw, ht⟩ := Option.ite_none_right_eq_some.mp ht
    cases ht
    rw [connected, handedOver]
    by_cases hfd : s.fd = .listening
    · rw [if_pos hfd]
      cases conn with
      | peer =>
        rw [if_pos ⟨hw, hfd, rfl⟩]
        exact updated_delivered { s with fd := .peer, watcher := .dccRead } false late turn
      | zero => simp [deinit]
      | error =>
        rw [if_neg (by simp)]
        dsimp only
        rw [updated_delivered, given_idle (.inl (by simp))]
    · rw [if_neg hfd, if_neg fun h => hfd h.2.1]
      dsimp only
      rw [updated_delivered, given_idle (.inl (by simp))]
  | dccRead input turn =>
    obtain ⟨hw, ht⟩ := Option.ite_none_right_eq_some.mp ht
    cases ht
    rw [dccRead]
    by_cases hfd : s.fd = .peer
    · rw [if_pos hfd]
      cases input with
      | again => simp [handedOver]
      | closed => simp [handedOver, deinit]
      | bytes l =>
        simp only [handedOver, hw, true_and]
        cases hacks : (acks totalSize (s.rxqueue ++ l.take 64)).1 with
        | true => simp [deinit]
        | false =>
          rw [if_neg nofun, if_pos rfl]
          exact dccSend_delivered
            { s with
              watcher := .dccRead
              rxqueue := (acks totalSize (s.rxqueue ++ l.take 64)).2 } turn
    · rw [if_neg hfd]
      have hidle : s.given file turn = [] := given_idle (.inl hfd)
      cases input <;> simp [handedOver, deinit, hidle]

theorem Paced.step (h : Paced s) (ht : s.step totalSize file e = some t) : Paced t := by
  cases e with
  | listenCb sock parsed =>
    obtain ⟨-, ht⟩ := Option.ite_none_right_eq_some.mp ht
    cases ht
    unfold DccSender.listenCb
    dsimp only
    split
    · exact Paced.deinit _
    · exact h.moved ..
  | updated destroy late turn =>
    cases ht
    split
    · exact h
    · exact h.updated file destroy late turn
  | connected conn late turn =>
    obtain ⟨-, ht⟩ := Option.ite_none_right_eq_some.mp ht
    cases ht
    unfold DccSender.connected
    split
    · exact Paced.deinit _
    · exact Paced.updated (h.moved ..) file false late turn
    · exact Paced.updated (h.moved ..) file false late turn
  | dccRead input turn =>
    obtain ⟨-, ht⟩ := Option.ite_none_right_eq_some.mp ht
    cases ht
    unfold DccSender.dccRead
    split
    · exact h
    · exact Paced.deinit _
    · dsimp only
      split
      · exact Paced.deinit _
      · exact Paced.dccSend (h.moved ..) file turn

theorem Paced.handedOver (h : Paced s) (e : DccEvent) :
    s.handedOver totalSize file e <+: file.drop s.bytesSent := by
  unfold DccSender.handedOver
  cases e with
  | listenCb sock parsed => exact List.nil_prefix
  | updated destroy late turn =>
    dsimp only
    split
    · exact h.given turn
    · exact List.nil_prefix
  | connected conn late turn =>
    dsimp only
    split
    · exact Paced.given (h.moved ..) turn
    · exact List.nil_prefix
  | dccRead input turn =>
    cases input with
    | again | closed => exact List.nil_prefix
    | bytes l =>
      dsimp only
      split
      · exact h.given turn
      · exact List.nil_prefix

/-- Where no two bytes are equal, a step keeps to a beginning of the file exactly if nothing was
lost before it. -/
theorem step_prefix_iff (hnodup : file.Nodup) (h : Paced s) (hs : s.delivered <+: file)
    (ht : s.step totalSize file e = some t) : t.delivered <+: file ↔ s.Gapless totalSize file e := by
  rw [step_delivered ht, Gapless]
  by_cases hnil : s.handedOver totalSize file e = []
  · rw [hnil, List.append_nil]
    exact iff_of_true hs (.inl rfl)
  · rw [Offsets.append_prefix_iff hnodup hs (h.handedOver e) hnil]
    exact (or_iff_right hnil).symm

theorem handedOver_stuck (ht : s.step totalSize file e = none) :
    s.handedOver totalSize file e = [] := by
  cases e with
  | listenCb sock parsed => rfl
  | updated destroy late turn => cases ht
  | connected conn late turn =>
    have hw : s.watcher ≠ .connected := by simpa [step] using ht
    simp [handedOver, hw]
  | dccRead input turn =>
    have hw : s.watcher ≠ .dccRead := by simpa [step] using ht
    cases input <;> simp [handedOver, hw]

end Steps

section Opaque

/-- The transfer of a file whose bytes are renamed. -/
@[simps]
def map (f : α → β) (s : DccSender α) : DccSender β where
  listenData := s.listenData
  fd := s.fd
  watcher := s.watcher
  finished := s.finished
  ft := s.ft
  fp := s.fp
  bytesSent := s.bytesSent
  rxqueue := s.rxqueue
  delivered := s.delivered.map f

variable (f : α → β)

theorem fread_map (pos : Nat) : fread (file.map f) pos turn = (fread file pos turn).map f := by
  simp only [fread, List.map_take, List.map_drop]

theorem fopen_map : (s.map f).fopen turn = s.fopen turn := rfl

theorem dccSend_map : (s.map f).dccSend (file.map f) turn = (s.dccSend file turn).map f := by
  unfold dccSend
  simp only [fopen_map, map_finished, map_listenData, map_fd, fread_map]
  by_cases hidle : (s.finished || s.listenData || s.fd = .closed) = true
  · rw [if_pos hidle, if_pos hidle]
  · rw [if_neg hidle, if_neg hidle]
    cases s.fopen turn with
    | none => rfl
    | some pos => by_cases hfd : s.fd = .peer <;> simp [map, hfd]

theorem updated_map : (s.map f).updated (file.map f) destroy late turn =
    (s.updated file destroy late turn).map f := by
  unfold updated
  simp only [map_fd, map_listenData]
  by_cases hlate : ((s.fd = .closed || s.listenData) && late) = true
  · rw [if_pos hlate, if_pos hlate]
    rfl
  · rw [if_neg hlate, if_neg hlate]
    exact dccSend_map (s := { s with ft := s.ft && !destroy }) f

theorem connected_map : (s.map f).connected (file.map f) conn late turn =
    (s.connected file conn late turn).map f := by
  unfold connected
  rw [map_fd]
  cases if s.fd = .listening then conn else .error with
  | zero => rfl
  | error => exact updated_map (s := { s with fd := .closed, watcher := .dccRead }) f
  | peer => exact updated_map (s := { s with fd := .peer, watcher := .dccRead }) f

theorem dccRead_map : (s.map f).dccRead totalSize (file.map f) input turn =
    (s.dccRead totalSize file input turn).map f := by
  unfold dccRead
  rw [map_fd]
  cases if s.fd = .peer then input else .closed with
  | again => rfl
  | closed => rfl
  | bytes l =>
    dsimp only
    rw [map_rxqueue]
    split
    · rfl
    · exact dccSend_map (s := { s with rxqueue := (acks totalSize (s.rxqueue ++ l.take 64)).2 }) f

/-- No event looks at a byte of the file. -/
theorem step_map (s : DccSender α) (e : DccEvent) :
    (s.map f).step totalSize (file.map f) e = (s.step totalSize file e).map (map f) := by
  cases e with
  | listenCb sock parsed =>
    cases hon : s.listenData with
    | false => simp [step, map, hon]
    | true => cases parsed <;> simp [step, map, hon, listenCb, deinit]
  | updated destroy late turn =>
    rw [step, step, map_finished, map_ft, updated_map, Option.map_some]
    exact congrArg some (apply_ite (map f) ..).symm
  | connected conn late turn =>
    rw [step, step, map_watcher, connected_map]
    split <;> rfl
  | dccRead input turn =>
    rw [step, step, map_watcher, dccRead_map]
    split <;> rfl

theorem given_map : (s.map f).given (file.map f) turn = (s.given file turn).map f := by
  unfold given
  simp only [fopen_map, map_finished, map_listenData, map_fd, fread_map]
  by_cases hidle : (s.finished || s.listenData || s.fd ≠ .peer) = true
  · rw [if_pos hidle, if_pos hidle]
    rfl
  · rw [if_neg hidle, if_neg hidle]
    cases s.fopen turn with
    | none => rfl
    | some pos => simp only [Option.elim_some, List.map_take]

theorem handedOver_map (s : DccSender α) (e : DccEvent) :
    (s.map f).handedOver totalSize (file.map f) e = (s.handedOver totalSize file e).map f := by
  cases e with
  | listenCb sock parsed => rfl
  | updated destroy late turn =>
    rw [handedOver, handedOver, given_map, map_ft]
    split <;> rfl
  | connected conn late turn =>
    have hgiven : given (file.map f) (({ s with fd := .peer } : DccSender α).map f) turn =
        (given file { s with fd := .peer } turn).map f := given_map f
    rw [handedOver, handedOver, map_watcher, map_fd]
    split
    · exact hgiven
    · rfl
  | dccRead input turn =>
    cases input with
    | again => rfl
    | closed => rfl
    | bytes l =>
      simp only [handedOver, given_map, map_watcher, map_rxqueue]
      split <;> rfl

theorem gapless_map (s : DccSender α) (e : DccEvent) :
    (s.map f).Gapless totalSize (file.map f) e ↔ s.Gapless totalSize file e := by
  rw [Gapless, Gapless, handedOver_map, map_delivered, map_bytesSent, List.length_map,
    List.map_eq_nil_iff]

end Opaque

section Runs

/-- Of a file whose bytes are its own offsets. -/
theorem offsets_iff (totalSize n : Nat) (es : List DccEvent) :
    Throughout (step totalSize (List.range n)) (fun s => s.delivered <+: List.range n) {} es ↔
      Along (step totalSize (List.range n)) (Gapless totalSize (List.range n)) {} es := by
  refine throughout_iff_stops (I := Paced) (fun s e t h hs ht => ?_) (fun s e ht => ?_)
    ⟨nofun, fun _ => .inr rfl⟩ List.nil_prefix
  · exact ⟨fun _ => h.step ht, step_prefix_iff List.nodup_range h hs ht⟩
  · exact .inl (handedOver_stuck ht)

end Runs

end DccSender
end Minbif
