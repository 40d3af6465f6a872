import Minbif.Irc.DccAcks

/-! A `DCCSend` and the `DCCGet` that it sends to: two connected sockets, each with bytes that were
written to it and are not read yet. -/
namespace Minbif
open Runs DccSender

/-- Both sides, with the file that is written. -/
structure DccTransfer where
  sender : DccSender UInt8 := {}
  getter : DccGetter
  /-- What `fwrite` has put into the file of the getter. -/
  saved : List UInt8 := []
  /-- How many bytes of the acknowledgement the sender has read. -/
  acksRead : Nat := 0
  /-- The callback of the getter has run. -/
  called : Bool := false
  /-- An acknowledgement has ended the transfer. -/
  terminated : Bool := false

namespace DccTransfer

inductive Event
  /-- What happens to the sender, but for a read that finds bytes. -/
  | sender (e : DccEvent)
  /-- The sender reads up to so many bytes. -/
  | acks (n : Nat) (turn : SendTurn)
  /-- The getter reads up to so many bytes. -/
  | get (n : Nat) (fwrites : Bool)
  | getClosed

variable (bigEndian : Bool) (totalSize : Nat) (file : List UInt8)

/-- The getter was told the size. -/
def start : DccTransfer := { getter := { totalSize := totalSize } }

/-- What a read of the sender returns. -/
def ackBytes (t : DccTransfer) (n : Nat) : List UInt8 := (t.getter.written.drop t.acksRead).take n

/-- What a read of the getter returns. -/
def dataBytes (t : DccTransfer) (n : Nat) : List UInt8 :=
  (t.sender.delivered.drop t.saved.length).take n

def readAcks (t : DccTransfer) (l : List UInt8) (turn : SendTurn) : Option DccTransfer :=
  (t.sender.step totalSize file (.dccRead (.bytes l) turn)).map fun s =>
    { t with
      sender := s
      acksRead := t.acksRead + (l.take 64).length
      terminated := t.terminated ||
        (t.sender.fd = .peer && (DccSender.acks totalSize (t.sender.rxqueue ++ l.take 64)).1) }

/-- `DCCGet::dcc_read`; a finished one has run its callback unless `fwrite` failed. -/
def getData (t : DccTransfer) (l : List UInt8) (fwrites : Bool) : DccTransfer :=
  let g := t.getter.dccRead bigEndian (.bytes l) fwrites
  { t with
    getter := g
    saved := if fwrites then t.saved ++ l.take 1024 else t.saved
    called := t.called || (fwrites && g.finished) }

def step (t : DccTransfer) : Event → Option DccTransfer
  | .sender e =>
    match e with
    | .dccRead (.bytes _) _ => none
    | e => (t.sender.step totalSize file e).map fun s => { t with sender := s }
  | .acks n turn => if t.ackBytes n = [] then none else t.readAcks totalSize file (t.ackBytes n) turn
  | .get n fwrites =>
    if t.getter.finished ∨ t.dataBytes n = [] then none
    else some (t.getData bigEndian (t.dataBytes n) fwrites)
  | .getClosed => if t.getter.finished then none else some { t with getter := t.getter.deinit }

/-- The sender skips nothing of its file. -/
def Gapless (t : DccTransfer) : Event → Prop
  | .sender e => t.sender.Gapless totalSize file e
  | .acks n turn => t.sender.Gapless totalSize file (.dccRead (.bytes (t.ackBytes n)) turn)
  | .get _ _ | .getClosed => True

/-- What is saved is a beginning of the file; the contact is sent it only when it is whole, and the
sender takes the transfer for terminated only then. -/
structure Whole (t : DccTransfer) : Prop where
  saved : t.saved <+: file
  called : t.called = true → t.saved = file
  terminated : t.terminated = true → t.called = true

/-- The invariant; only a whole file is acknowledged. -/
structure Sound (t : DccTransfer) : Prop where
  paced : t.sender.Paced
  delivered : t.sender.delivered <+: file
  saved : t.saved <+: t.sender.delivered
  size : t.getter.totalSize = totalSize
  count : t.getter.bytesReceived = t.saved.length
  called : t.called = true → totalSize ≤ t.saved.length
  written : t.getter.written ≠ [] → t.called = true
  terminated : t.terminated = true → t.called = true

variable {bigEndian totalSize file} {t t' : DccTransfer} {s : DccSender UInt8} {e : Event} {l : List UInt8}
  {es : List Event}

theorem start_sound : (start totalSize).Sound totalSize file where
  paced := ⟨nofun, fun _ => .inr rfl⟩
  delivered := List.nil_prefix
  saved := List.nil_prefix
  size := rfl
  count := rfl
  called h := nomatch h
  written h := (h rfl).elim
  terminated h := nomatch h

/-- A gapless step of the sender keeps to a beginning of the file, and takes nothing back. -/
theorem sender_step {ev : DccEvent} (hp : s.Paced) (hd : s.delivered <+: file)
    (hg : s.Gapless totalSize file ev) {s' : DccSender UInt8} (hs : s.step totalSize file ev = some s') :
    s'.Paced ∧ s'.delivered <+: file ∧ s.delivered <+: s'.delivered := by
  have hgiven := step_delivered hs
  refine ⟨hp.step hs, ?_, hgiven ▸ List.prefix_append _ _⟩
  rw [hgiven]
  rcases hg with hnil | hcount
  · rwa [hnil, List.append_nil]
  · have hnext : s.handedOver totalSize file ev <+: file.drop s.bytesSent := hp.handedOver ev
    rw [hcount] at hnext
    have hsplit : s.delivered ++ file.drop s.delivered.length = file := List.prefix_iff_eq_append.mp hd
    have hpart := (List.prefix_append_right_inj s.delivered).mpr hnext
    rwa [hsplit] at hpart

theorem Sound.whole (h : t.Sound totalSize file) (hsize : file.length = totalSize) : t.Whole file where
  saved := h.saved.trans h.delivered
  called hc := by
    have hprefix := h.saved.trans h.delivered
    have hlen := h.called hc
    exact hprefix.eq_of_length_le (by omega)
  terminated := h.terminated

/-- What the getter reads comes next in its file. -/
theorem Sound.getData (h : t.Sound totalSize file) (hl : l <+: t.sender.delivered.drop t.saved.length)
    (hopen : t.getter.finished = false) (fwrites : Bool) :
    (t.getData bigEndian l fwrites).Sound totalSize file := by
  have hnext : t.saved ++ l.take 1024 <+: t.sender.delivered := by
    have hsplit : t.saved ++ t.sender.delivered.drop t.saved.length = t.sender.delivered :=
      List.prefix_iff_eq_append.mp h.saved
    have hpart := (List.prefix_append_right_inj t.saved).mpr ((List.take_prefix 1024 l).trans hl)
    rwa [hsplit] at hpart
  have hlen : (t.saved ++ l.take 1024).length = t.getter.bytesReceived + (l.take 1024).length := by
    rw [List.length_append, h.count]
  cases fwrites with
  | false =>
    exact ⟨h.paced, h.delivered, h.saved, h.size, h.count, by
      simpa [DccTransfer.getData] using h.called, by
      simpa [DccTransfer.getData, DccGetter.dccRead, DccGetter.deinit] using h.written, by
      simpa [DccTransfer.getData] using h.terminated⟩
  | true =>
    unfold DccTransfer.getData DccGetter.dccRead
    simp only [Bool.not_true, Bool.false_eq_true, if_false, if_true, Bool.true_and]
    by_cases hdone : t.getter.totalSize ≤ (t.getter.bytesReceived + (l.take 1024).length : Nat)
    · rw [if_pos hdone]
      have hwhole : totalSize ≤ (t.saved ++ l.take 1024).length := by
        rw [h.size] at hdone
        omega
      exact ⟨h.paced, h.delivered, hnext, h.size, hlen.symm, fun _ => hwhole,
        fun _ => Bool.or_true _, fun _ => Bool.or_true _⟩
    · rw [if_neg hdone]
      dsimp only
      rw [hopen, Bool.or_false]
      refine ⟨h.paced, h.delivered, hnext, h.size, hlen.symm, fun hc => ?_, h.written, h.terminated⟩
      have := h.called hc
      rw [List.length_append]
      omega

theorem Sound.step (h : t.Sound totalSize file) (hg : t.Gapless totalSize file e)
    (hs : t.step bigEndian totalSize file e = some t') : t'.Sound totalSize file := by
  cases e with
  | sender ev =>
    have hplain : ∃ s, t.sender.step totalSize file ev = some s ∧ t' = { t with sender := s } := by
      unfold DccTransfer.step at hs
      dsimp only at hs
      split at hs
      · cases hs
      · obtain ⟨s, hstep, rfl⟩ := Option.map_eq_some_iff.mp hs
        exact ⟨s, hstep, rfl⟩
    obtain ⟨s, hstep, rfl⟩ := hplain
    obtain ⟨hpaced, hfile, hgrow⟩ := sender_step h.paced h.delivered hg hstep
    exact ⟨hpaced, hfile, h.saved.trans hgrow, h.size, h.count, h.called, h.written, h.terminated⟩
  | acks n turn =>
    obtain ⟨hne, hs⟩ := Option.ite_none_left_eq_some.mp hs
    obtain ⟨s, hstep, rfl⟩ := Option.map_eq_some_iff.mp hs
    obtain ⟨hpaced, hfile, hgrow⟩ := sender_step h.paced h.delivered hg hstep
    have hwritten : t.getter.written ≠ [] := by
      intro hnil
      rw [ackBytes, hnil, List.drop_nil, List.take_nil] at hne
      exact hne rfl
    exact ⟨hpaced, hfile, h.saved.trans hgrow, h.size, h.count, h.called, h.written,
      fun _ => h.written hwritten⟩
  | get n fwrites =>
    obtain ⟨hopen, hs⟩ := Option.ite_none_left_eq_some.mp hs
    obtain rfl := Option.some.inj hs
    rw [not_or, Bool.not_eq_true] at hopen
    exact h.getData (List.take_prefix _ _) hopen.1 fwrites
  | getClosed =>
    obtain ⟨-, hs⟩ := Option.ite_none_left_eq_some.mp hs
    obtain rfl := Option.some.inj hs
    exact ⟨h.paced, h.delivered, h.saved, h.size, h.count, h.called, h.written, h.terminated⟩

/-- However the two sides take turns, and however their sockets cut what they carry. -/
theorem run_whole (hsize : file.length = totalSize)
    (hg : Along (step bigEndian totalSize file) (Gapless totalSize file) (start totalSize) es) :
    Throughout (step bigEndian totalSize file) (Whole file) (start totalSize) es :=
  throughout_of_along (I := Sound totalSize file) (fun _ h => h.whole hsize)
    (fun _ _ _ _ h hg hs => h.step hg hs) start_sound hg

instance (t : DccTransfer) : DecidablePred (t.Gapless totalSize file)
  | .sender e => inferInstanceAs (Decidable (t.sender.Gapless totalSize file e))
  | .acks n turn =>
    inferInstanceAs (Decidable (t.sender.Gapless totalSize file (.dccRead (.bytes (t.ackBytes n)) turn)))
  | .get _ _ | .getClosed => inferInstanceAs (Decidable True)

/-- Three bytes in two parts, while libpurple still writes the file. -/
theorem run_whole_three : Throughout (step false 3 [7, 8, 9]) (Whole [7, 8, 9]) (start 3)
    [.sender (.listenCb true true), .sender (.connected .peer false ⟨true, 2, 512⟩), .get 1 true,
      .sender (.updated true false ⟨true, 3, 512⟩), .get 512 true, .acks 3 ⟨true, 3, 512⟩,
      .acks 64 ⟨true, 3, 512⟩] :=
  run_whole rfl (by decide +kernel)

end DccTransfer
end Minbif
