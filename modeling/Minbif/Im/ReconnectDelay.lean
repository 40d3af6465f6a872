import Mathlib.Algebra.Order.Ring.Int
import Mathlib.Tactic.Positivity
import Minbif.Im.Reconnection

/-! How long the accounts wait before they reconnect. -/
namespace Minbif
open Function Runs

namespace Reconnections

variable {γ : Type*} {r r' : Reconnections} {a b : AccountRef} {id : UInt32} {e : Event}
  {es past : List Event} {reason : ConnectionError} {n : Nat}

/-- What an event makes of something that is kept for the account from one reset to the next. -/
def Event.tally (b : AccountRef) (retry : γ → γ) (reset : γ) : Event → γ → γ
  | .error a reason _, x => if a = b ∧ reason ≠ .unretried then retry x else x
  | .added a, x | .connected a, x | .squit a, x | .deleted a, x => if a = b then reset else x
  | .expired _, x | .sourceAdded _, x | .sourceEnded _, x | .restarted, x => x

theorem Event.tally_map {δ : Type*} (f : γ → δ) {retry : γ → γ} {retry' : δ → δ} {reset : γ}
    (hf : ∀ x, f (retry x) = retry' (f x)) (x : γ) :
    f (e.tally b retry reset x) = e.tally b retry' (f reset) (f x) := by
  cases e with
  | error a reason id => simp only [Event.tally, apply_ite f, hf]
  | added a | connected a | squit a | deleted a => exact apply_ite f ..
  | expired id | sourceAdded id | sourceEnded id | restarted => rfl

/-- The errors in a row that the account is to reconnect after. -/
def failures (a : AccountRef) (past : List Event) : Nat :=
  past.foldl (fun n e => e.tally a (· + 1) 0 n) 0

theorem failures_concat :
    failures a (past ++ [e]) = e.tally a (· + 1) 0 (failures a past) := by
  rw [failures, List.foldl_append]
  rfl

/-- What an error that is retried leaves: the timer before it was one of the delay stored then. -/
structure Prolonged (r r' : Reconnections) (a : AccountRef) (id : UInt32) : Prop where
  pos : 0 < (r'.delayReconnect a).toInt
  fits : (r'.delayReconnect a).toInt * 1000 < 2 ^ 31
  timer : ∃ interval, r'.sources id = some (.reconnect a interval) ∧
    (interval.toNat : Int) = (r'.delayReconnect a).toInt * 1000 ∧
    (r.delayReconnect a).toInt * 1000 ≤ interval.toNat

def Timely (r : Reconnections) (e : Event) (r' : Reconnections) : Prop :=
  ∀ a reason id, e = .error a reason id → reason ≠ .unretried → Prolonged r r' a id

/-- What the delay comes to after so many errors in a row, in an `int`. -/
def doubled (n : Nat) : Int32 := Int32.ofNat (15 * 2 ^ n)

def Counted (past : List Event) (r : Reconnections) : Prop :=
  ∀ a, r.delayReconnect a = doubled (failures a past)

theorem doubled_succ (n : Nat) : doubled (n + 1) = doubled n * 2 := by
  rw [doubled, Nat.pow_succ, ← Nat.mul_assoc]
  exact Int32.ofNat_mul ..

/-- As long as the delay is an `int`, it is exact; its product with 1000 is as long as that is an
`unsigned int`. -/
theorem doubled_exact (hn : n ≤ 18) : (doubled n).toInt = 15 * 2 ^ n ∧
    ((doubled n * 1000).toUInt32.toNat : Int) = 15 * 2 ^ n * 1000 := by
  have hpow : 2 ^ n ≤ 2 ^ 18 := Nat.pow_le_pow_right (by decide) hn
  constructor
  · rw [doubled, Int32.toInt_ofNat_of_lt (by omega)]
    rfl
  · have hmul : doubled n * 1000 = Int32.ofNat (15 * 2 ^ n * 1000) := (Int32.ofNat_mul ..).symm
    rw [hmul, Int32.toUInt32_ofNat', UInt32.toNat_ofNat', Nat.mod_eq_of_lt (by omega)]
    rfl

@[simp] theorem dropTimer_delayReconnect : (r.dropTimer a).delayReconnect = r.delayReconnect := by
  unfold dropTimer
  split <;> rfl

theorem removeReconnection_delay :
    (r.removeReconnection a).delayReconnect b = if a = b then 15 else r.delayReconnect b := by
  rw [removeReconnection, setReconnect]
  dsimp only
  rw [dropTimer_delayReconnect, update_apply]
  simp only [eq_comm]

theorem delayReconnection_delay (h : r.delayReconnection a id = some r') :
    r'.delayReconnect = update r.delayReconnect a (r.delayReconnect a * 2) ∧
      r'.sources id = some (.reconnect a (r.delayReconnect a * 2 * 1000).toUInt32) := by
  unfold delayReconnection sourceAdd at h
  split at h
  · cases h
  · obtain rfl := Option.some.inj h
    simp [setReconnect]

/-- What one step does to the delays. -/
theorem step_delay (h : step r e = some r') :
    r'.delayReconnect b = e.tally b (· * 2) 15 (r.delayReconnect b) := by
  cases e with
  | added a =>
    obtain ⟨-, h⟩ := Option.ite_none_left_eq_some.mp h
    obtain rfl := Option.some.inj h
    simp only [setReconnect, Event.tally, update_apply, eq_comm]
  | error a reason id =>
    obtain ⟨-, h⟩ := Option.ite_none_right_eq_some.mp h
    cases reason with
    | unretried =>
      obtain rfl := Option.some.inj h
      simp [Event.tally]
    | networkError | encryptionError | otherError =>
      rw [(delayReconnection_delay h).1, update_apply]
      rcases eq_or_ne b a with rfl | hb
      · simp [Event.tally]
      · simp [Event.tally, hb, hb.symm]
  | expired id =>
    simp only [step] at h
    split at h
    · obtain rfl := Option.some.inj h
      rfl
    · cases h
  | connected a | squit a =>
    obtain ⟨-, h⟩ := Option.ite_none_right_eq_some.mp h
    obtain rfl := Option.some.inj h
    exact removeReconnection_delay
  | deleted a =>
    obtain ⟨-, h⟩ := Option.ite_none_right_eq_some.mp h
    obtain rfl := Option.some.inj h
    exact removeReconnection_delay
  | sourceAdded id =>
    simp only [step, sourceAdd] at h
    split at h
    · cases h
    · obtain rfl := Option.some.inj h
      rfl
  | sourceEnded id =>
    simp only [step] at h
    split at h
    · obtain rfl := Option.some.inj h
      rfl
    · cases h
  | restarted =>
    obtain rfl := Option.some.inj h
    rfl

theorem Counted.step (h : Counted past r) (hs : step r e = some r') : Counted (past ++ [e]) r' := by
  intro a
  have hnext : doubled (e.tally a (· + 1) 0 (failures a past)) =
      e.tally a (· * 2) (doubled 0) (doubled (failures a past)) :=
    Event.tally_map doubled doubled_succ _
  rw [step_delay hs, h a, failures_concat, hnext]
  rfl

/-- After seventeen errors in a row the next interval is no `int` any more. -/
theorem Counted.prolonged_iff (h : Counted past r) (hpast : failures a past ≤ 17)
    (hr : r.delayReconnection a id = some r') :
    Prolonged r r' a id ↔ failures a past + 1 ≤ 17 := by
  obtain ⟨hdelay, htimer⟩ := delayReconnection_delay hr
  have hthen : r'.delayReconnect a = doubled (failures a past + 1) := by
    rw [hdelay, update_self, h a, doubled_succ]
  rw [h a, ← doubled_succ] at htimer
  obtain ⟨hnow, -⟩ := doubled_exact (n := failures a past) (by omega)
  obtain ⟨hnext, hinterval⟩ := doubled_exact (n := failures a past + 1) (by omega)
  rw [← hthen] at hnext
  rw [← h a] at hnow
  generalize failures a past = n at hpast hnow hnext hinterval htimer ⊢
  have hpos : (0 : Int) < 2 ^ n := by positivity
  have hdouble : (2 : Int) ^ (n + 1) = 2 * 2 ^ n := pow_succ' ..
  constructor
  · intro hprolonged
    have hfits := hprolonged.fits
    rw [hnext] at hfits
    by_contra hn
    obtain rfl : n = 17 := by omega
    exact absurd hfits (by decide)
  · intro hn
    have hpow : (2 : Int) ^ (n + 1) ≤ 2 ^ 17 := pow_le_pow_right₀ (by decide) hn
    refine ⟨?_, ?_, _, htimer, ?_, ?_⟩
    · rw [hnext]
      omega
    · rw [hnext]
      omega
    · rw [hinterval, hnext]
    · rw [hinterval, hnow]
      omega

/-- Other events make no series longer. -/
theorem failures_of_unretried (he : ∀ a reason id, e = .error a reason id → reason = .unretried)
    (b : AccountRef) (past : List Event) : failures b (past ++ [e]) ≤ failures b past := by
  rw [failures_concat]
  cases e with
  | error a reason id => simp [Event.tally, he a reason id rfl]
  | added a | connected a | squit a | deleted a =>
    rw [Event.tally]
    split
    · exact Nat.zero_le _
    · exact le_rfl
  | expired id | sourceAdded id | sourceEnded id | restarted => exact le_rfl

theorem Counted.timely_iff (h : Counted past r) (hpast : ∀ a, failures a past ≤ 17)
    (hs : r.step e = some r') : Timely r e r' ↔ ∀ a, failures a (past ++ [e]) ≤ 17 := by
  by_cases he : ∀ a reason id, e = .error a reason id → reason = .unretried
  · refine iff_of_true (fun a reason id heq hretried => ?_) fun b => ?_
    · exact absurd (he a reason id heq) hretried
    · exact (failures_of_unretried he b past).trans (hpast b)
  · simp only [not_forall] at he
    obtain ⟨a, reason, id, rfl, hretried⟩ := he
    obtain ⟨-, hr⟩ := Option.ite_none_right_eq_some.mp hs
    have hr : r.delayReconnection a id = some r' := by
      cases reason with
      | unretried => exact absurd rfl hretried
      | networkError | encryptionError | otherError => exact hr
    have hone : failures a (past ++ [.error a reason id]) = failures a past + 1 := by
      rw [failures_concat, Event.tally, if_pos ⟨rfl, hretried⟩]
    have hothers : ∀ b, b ≠ a → failures b (past ++ [.error a reason id]) = failures b past := by
      intro b hb
      rw [failures_concat, Event.tally, if_neg fun hand => hb hand.1.symm]
    rw [Timely]
    constructor
    · intro htimely b
      by_cases hb : b = a
      · rw [hb, hone]
        exact (h.prolonged_iff (hpast a) hr).mp (htimely a reason id rfl hretried)
      · rw [hothers b hb]
        exact hpast b
    · intro hall a' reason' id' heq _
      cases heq
      exact (h.prolonged_iff (hpast a) hr).mpr (hone ▸ hall a)

/-- In every run: each error in a row prolongs the delay, without overflow, exactly if no account has
more than seventeen of them without a connection or a `SQUIT` in between. -/
theorem run_timely_iff (hr : run step {} es = some r) :
    Stepwise step Timely {} es ↔ ∀ past, past <+: es → ∀ a, failures a past ≤ 17 :=
  stepwise_iff_past (I := Counted) (fun _ _ _ _ h hpast hs => ⟨h.timely_iff hpast hs, h.step hs⟩)
    (fun _ => rfl) (fun _ => Nat.zero_le _) hr

theorem run_timely_twice : Stepwise step Timely {}
      [.added 0, .error 0 .networkError 7, .expired 7, .error 0 .otherError 8] ↔
    ∀ past, past <+: [.added 0, .error 0 .networkError 7, .expired 7, .error 0 .otherError 8] →
      ∀ a, failures a past ≤ 17 :=
  run_timely_iff rfl

/-- The connection fails again each time that it is tried. -/
def failing (n : Nat) : List Event :=
  .added 0 :: (List.replicate n [.error 0 .networkError 7, .expired 7]).flatten

/-- The eighteenth delay is 3932160 seconds. -/
theorem run_overflows : ∃ r, run step {} (failing 18) = some r ∧
    ¬ Stepwise step Timely {} (failing 18) := by
  obtain ⟨r, hr⟩ : ∃ r, run step {} (failing 18) = some r :=
    Option.isSome_iff_exists.mp (by decide +kernel)
  refine ⟨r, hr, fun h => ?_⟩
  have hbound := (stepwise_iff_past (I := Counted)
    (fun _ _ _ _ h hpast hs => ⟨h.timely_iff hpast hs, h.step hs⟩) (fun _ => rfl)
    (fun _ => Nat.zero_le _) hr).mp h _ (List.prefix_refl _) 0
  revert hbound
  decide

end Reconnections
end Minbif
