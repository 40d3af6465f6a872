import Minbif.Core.Config

/-! What an item for a range of integers accepts, and what it keeps of the value before. -/
namespace Minbif

/-- Digits, or nothing. -/
def Digits (s : Str) : Prop := ∀ c ∈ s, c.isDigit = true

/-- The mark between the two numerals of a range. -/
def IsMark (c : Char) : Prop := c = ':' ∨ c = '-'

/-- What the scan finds before the mark and after it; without a mark, before the end. -/
def Halves (s x y : Str) : Prop :=
  Digits x ∧ Digits y ∧ ((s = x ∧ y = []) ∨ ∃ c, IsMark c ∧ s = x ++ c :: y)

/-- A numeral, a mark and a numeral that write a range within the bounds. -/
def Writes (min max : Int) (s : Str) (a b : Nat) : Prop :=
  ∃ x y c, x ≠ [] ∧ y ≠ [] ∧ Digits x ∧ Digits y ∧ IsMark c ∧ s = x ++ c :: y ∧
    a = decimal x ∧ b = decimal y ∧ min ≤ a ∧ a ≤ b ∧ (b : Int) ≤ max

/-- The item takes what writes a range within its bounds, and nothing else. -/
def ReadsExactly (min max : Int) (v : Value) (s : Str) : Prop :=
  let r := (ItemType.intrange min max).setValue v s
  (r.1 = true ↔ ∃ a b, Writes min max s a b) ∧
    ∀ a b, Writes min max s a b → (ItemType.intrange min max).content r.2 = .range a b

/-- A bound of which no digit is written is the one from before. -/
def bound (old : Int) (x : Str) : Int := if x = [] then old else decimal x

/-- No range within the bounds comes from a bound that is not written. -/
def NoneKept (min max : Int) (v : Value) (s : Str) : Prop :=
  ∀ x y, Halves s x y → x = [] ∨ y = [] →
    ¬ (min ≤ bound v.valueMin x ∧ bound v.valueMin x ≤ bound v.valueMax y ∧
      bound v.valueMax y ≤ max)

variable {s x y a b : Str} {c : Char} {min max : Int} {v : Value}

theorem not_isDigit_mark (h : IsMark c) : c.isDigit = false := by
  rcases h with rfl | rfl <;> decide

theorem digits_cons : Digits (c :: s) ↔ c.isDigit = true ∧ Digits s := List.forall_mem_cons

@[simp] theorem digits_nil : Digits [] := by simp [Digits]

/-- After the mark, digits to the end. -/
theorem rangeLoop_max : rangeLoop false a b s = some (x, y) ↔ x = a ∧ y = b ++ s ∧ Digits s := by
  induction s generalizing b with
  | nil =>
    simp only [rangeLoop, Option.some.injEq, Prod.mk.injEq, List.append_nil, digits_nil, and_true]
    exact and_congr eq_comm eq_comm
  | cons c s ih =>
    rw [rangeLoop, digits_cons]
    cases hc : c.isDigit with
    | true => simp [ih]
    | false => simp

theorem halves_nil : Halves [] x y ↔ x = [] ∧ y = [] := by
  constructor
  · rintro ⟨-, -, ⟨hx, hy⟩ | ⟨c, -, hs⟩⟩
    · exact ⟨hx.symm, hy⟩
    · simp at hs
  · rintro ⟨rfl, rfl⟩
    exact ⟨digits_nil, digits_nil, .inl ⟨rfl, rfl⟩⟩

theorem halves_digit (hc : c.isDigit = true) :
    Halves (c :: s) x y ↔ ∃ x', x = c :: x' ∧ Halves s x' y := by
  constructor
  · rintro ⟨hx, hy, ⟨rfl, hnil⟩ | ⟨d, hd, hs⟩⟩
    · exact ⟨s, rfl, (digits_cons.mp hx).2, hy, .inl ⟨rfl, hnil⟩⟩
    · cases x with
      | nil =>
        obtain ⟨rfl, -⟩ := List.cons.inj hs
        rw [not_isDigit_mark hd] at hc
        cases hc
      | cons e x' =>
        obtain ⟨rfl, htail⟩ := List.cons.inj hs
        exact ⟨x', rfl, (digits_cons.mp hx).2, hy, .inr ⟨d, hd, htail⟩⟩
  · rintro ⟨x', rfl, hx, hy, ⟨rfl, hnil⟩ | ⟨d, hd, rfl⟩⟩
    · exact ⟨digits_cons.mpr ⟨hc, hx⟩, hy, .inl ⟨rfl, hnil⟩⟩
    · exact ⟨digits_cons.mpr ⟨hc, hx⟩, hy, .inr ⟨d, hd, rfl⟩⟩

/-- What no digit begins is a mark and the second half. -/
theorem halves_other (hc : c.isDigit = false) :
    Halves (c :: s) x y ↔ IsMark c ∧ x = [] ∧ y = s ∧ Digits s := by
  have hhead : ∀ {x'}, ¬ Digits (c :: x') := fun h => by
    rw [digits_cons, hc] at h
    cases h.1
  constructor
  · rintro ⟨hx, hy, ⟨rfl, -⟩ | ⟨d, hd, hs⟩⟩
    · exact absurd hx hhead
    · cases x with
      | nil =>
        obtain ⟨rfl, rfl⟩ := List.cons.inj hs
        exact ⟨hd, rfl, rfl, hy⟩
      | cons e x' =>
        obtain ⟨rfl, -⟩ := List.cons.inj hs
        exact absurd hx hhead
  · rintro ⟨hmark, rfl, rfl, hs⟩
    exact ⟨digits_nil, hs, .inr ⟨c, hmark, rfl⟩⟩

/-- The scan is that of the grammar, but for the numerals that may be missing. -/
theorem rangeLoop_iff : rangeLoop true a [] s = some (x, y) ↔ ∃ x', x = a ++ x' ∧ Halves s x' y := by
  induction s generalizing a with
  | nil =>
    simp only [rangeLoop, halves_nil, Option.some.injEq, Prod.mk.injEq]
    constructor
    · rintro ⟨rfl, rfl⟩
      exact ⟨[], by simp, rfl, rfl⟩
    · rintro ⟨x', rfl, rfl, rfl⟩
      simp
  | cons c s ih =>
    rw [rangeLoop]
    cases hc : c.isDigit with
    | true =>
      rw [if_pos rfl, if_pos rfl, ih]
      constructor
      · rintro ⟨x', rfl, h⟩
        exact ⟨c :: x', by simp, (halves_digit hc).mpr ⟨x', rfl, h⟩⟩
      · rintro ⟨x', rfl, h⟩
        obtain ⟨x'', rfl, htail⟩ := (halves_digit hc).mp h
        exact ⟨x'', by simp, htail⟩
    | false =>
      rw [if_neg Bool.false_ne_true]
      have hmark : (true && (decide (c = ':') || decide (c = '-'))) = true ↔ IsMark c := by
        simp [IsMark]
      simp only [halves_other hc]
      by_cases hm : IsMark c
      · rw [if_pos (hmark.mpr hm), rangeLoop_max]
        constructor
        · rintro ⟨rfl, rfl, hs⟩
          exact ⟨[], by simp, hm, rfl, rfl, hs⟩
        · rintro ⟨x', rfl, -, rfl, rfl, hs⟩
          exact ⟨by simp, by simp, hs⟩
      · rw [if_neg (mt hmark.mp hm)]
        simp [hm]

theorem rangeLoop_halves : rangeLoop true [] [] s = some (x, y) ↔ Halves s x y := by
  simp [rangeLoop_iff]

theorem writes_iff {m n : Nat} : Writes min max s m n ↔
    ∃ x y, Halves s x y ∧ x ≠ [] ∧ y ≠ [] ∧ m = decimal x ∧ n = decimal y ∧
      min ≤ m ∧ m ≤ n ∧ (n : Int) ≤ max := by
  constructor
  · rintro ⟨x, y, c, hx, hy, hdx, hdy, hc, hs, h⟩
    exact ⟨x, y, ⟨hdx, hdy, .inr ⟨c, hc, hs⟩⟩, hx, hy, h⟩
  · rintro ⟨x, y, ⟨hdx, hdy, ⟨-, rfl⟩ | ⟨c, hc, hs⟩⟩, hx, hy, h⟩
    · exact absurd rfl hy
    · exact ⟨x, y, c, hx, hy, hdx, hdy, hc, hs, h⟩

theorem readInt_eq (old : Int) (x : Str) :
    readInt old x = if x = [] then old else Min.min (decimal x : Int) intMax := by
  unfold readInt decimal
  cases x <;> rfl

/-- Within bounds below the greatest integer, a numeral is stored as it is. -/
theorem accepted_iff (hmax : max < intMax) (p q : Int) :
    (min ≤ readInt p x ∧ readInt p x ≤ readInt q y ∧ readInt q y ≤ max) ↔
      (min ≤ bound p x ∧ bound p x ≤ bound q y ∧ bound q y ≤ max) := by
  rw [readInt_eq, readInt_eq, bound, bound]
  split <;> split <;> omega

theorem halves_unique {x' y' : Str} (h : Halves s x y) (h' : Halves s x' y') : x' = x ∧ y' = y := by
  rw [← rangeLoop_halves] at h h'
  rw [h] at h'
  simpa [eq_comm] using h'

/-- What `SetValue` returns and holds after a scan that goes through. -/
theorem setValue_range (h : Halves s x y) : (ItemType.intrange min max).setValue v s =
    (min ≤ readInt v.valueMin x && readInt v.valueMin x ≤ readInt v.valueMax y &&
        readInt v.valueMax y ≤ max,
      { v with valueMin := readInt v.valueMin x, valueMax := readInt v.valueMax y }) := by
  rw [ItemType.setValue, rangeLoop_halves.mpr h]

theorem setValue_refused (h : ∀ x y, ¬ Halves s x y) :
    (ItemType.intrange min max).setValue v s = (false, v) := by
  cases hloop : rangeLoop true [] [] s with
  | none => rw [ItemType.setValue, hloop]
  | some r => exact absurd (rangeLoop_halves.mp hloop) (h r.1 r.2)

theorem accepts_range (hmax : max < intMax) (h : Halves s x y) :
    ((ItemType.intrange min max).setValue v s).1 = true ↔
      (min ≤ bound v.valueMin x ∧ bound v.valueMin x ≤ bound v.valueMax y ∧
        bound v.valueMax y ≤ max) := by
  rw [setValue_range h, ← accepted_iff hmax, ← and_assoc]
  simp only [Bool.and_eq_true, decide_eq_true_eq]

/-- With both numerals written nothing of the value before is left. -/
theorem readsExactly_numerals (hmax : max < intMax) (h : Halves s x y) (hx : x ≠ []) (hy : y ≠ []) :
    ReadsExactly min max v s := by
  have hwrites : ∀ m n, Writes min max s m n → m = decimal x ∧ n = decimal y := by
    intro m n hw
    obtain ⟨x', y', h', -, -, rfl, rfl, -⟩ := writes_iff.mp hw
    obtain ⟨rfl, rfl⟩ := halves_unique h h'
    exact ⟨rfl, rfl⟩
  constructor
  · rw [accepts_range hmax h, bound, bound, if_neg hx, if_neg hy]
    constructor
    · rintro ⟨h1, h2, h3⟩
      exact ⟨_, _, writes_iff.mpr ⟨x, y, h, hx, hy, rfl, rfl, h1, by omega, h3⟩⟩
    · rintro ⟨m, n, hw⟩
      obtain ⟨x', y', h', -, -, rfl, rfl, h1, h2, h3⟩ := writes_iff.mp hw
      obtain ⟨rfl, rfl⟩ := halves_unique h h'
      exact ⟨h1, by omega, h3⟩
  · intro m n hw
    obtain ⟨-, -, -, -, -, -, -, h1, h2, h3⟩ := writes_iff.mp hw
    obtain ⟨rfl, rfl⟩ := hwrites m n hw
    rw [setValue_range h, ItemType.content, readInt_eq, readInt_eq, if_neg hx, if_neg hy]
    rw [Int.min_eq_left (by omega), Int.min_eq_left (by omega)]

/-- With a numeral missing the string writes no range, and is taken if the bound from before does. -/
theorem readsExactly_missing (hmax : max < intMax) (h : Halves s x y) (hmiss : x = [] ∨ y = []) :
    ReadsExactly min max v s ↔
      ¬ (min ≤ bound v.valueMin x ∧ bound v.valueMin x ≤ bound v.valueMax y ∧
        bound v.valueMax y ≤ max) := by
  have hnone : ∀ m n, ¬ Writes min max s m n := by
    intro m n hw
    obtain ⟨x', y', h', hx, hy, -⟩ := writes_iff.mp hw
    obtain ⟨rfl, rfl⟩ := halves_unique h h'
    exact hmiss.elim hx hy
  simp only [ReadsExactly, accepts_range hmax h]
  constructor
  · rintro ⟨htaken, -⟩ hbounds
    obtain ⟨m, n, hw⟩ := htaken.mp hbounds
    exact hnone m n hw
  · intro hout
    refine ⟨⟨fun hbounds => absurd hbounds hout, ?_⟩, fun m n hw => absurd hw (hnone m n)⟩
    rintro ⟨m, n, hw⟩
    exact absurd hw (hnone m n)

/-- Exactly the ranges within the bounds are taken, but where a numeral is missing and the bound that
the item held before makes up for it. -/
theorem range_read_iff (min max : Int) (hmax : max < intMax) (v : Value) (s : Str) :
    ReadsExactly min max v s ↔ NoneKept min max v s := by
  by_cases hscan : ∃ x y, Halves s x y
  · obtain ⟨x, y, h⟩ := hscan
    by_cases hmiss : x = [] ∨ y = []
    · rw [readsExactly_missing hmax h hmiss]
      constructor
      · intro hout x' y' h' _
        obtain ⟨rfl, rfl⟩ := halves_unique h h'
        exact hout
      · intro hkept
        exact hkept x y h hmiss
    · refine iff_of_true ?_ fun x' y' h' hmiss' => ?_
      · exact readsExactly_numerals hmax h (fun hx => hmiss (.inl hx)) fun hy => hmiss (.inr hy)
      · obtain ⟨rfl, rfl⟩ := halves_unique h h'
        exact absurd hmiss' hmiss
  · have hnone : ∀ x y, ¬ Halves s x y := fun x y h => hscan ⟨x, y, h⟩
    have hwrites : ∀ m n, ¬ Writes min max s m n := by
      intro m n hw
      obtain ⟨x, y, h, -⟩ := writes_iff.mp hw
      exact hnone x y h
    refine iff_of_true ?_ fun x y h _ => absurd h (hnone x y)
    simp only [ReadsExactly, setValue_refused hnone]
    refine ⟨⟨nofun, ?_⟩, fun m n hw => absurd hw (hwrites m n)⟩
    rintro ⟨m, n, hw⟩
    exact absurd hw (hwrites m n)

/-- The port range, over what an item without a value holds. -/
theorem range_read_ports : ReadsExactly 1024 65535 {} (str "2000-3000") := by
  refine (range_read_iff 1024 65535 (by decide) {} _).mpr fun x y h hmiss => ?_
  have hscan : Halves (str "2000-3000") (str "2000") (str "3000") :=
    rangeLoop_halves.mp (by decide)
  obtain ⟨rfl, rfl⟩ := halves_unique hscan h
  exact absurd hmiss (by decide)

/-- A numeral alone is taken as the lower bound of the range from before, and so is nothing at all. -/
theorem range_half_kept :
    ¬ ReadsExactly 1024 65535 { valueMin := 1024, valueMax := 65535 } (str "2000") ∧
    ¬ ReadsExactly 1024 65535 { valueMin := 1024, valueMax := 65535 } (str "-2000") ∧
    ¬ ReadsExactly 1024 65535 { valueMin := 1024, valueMax := 65535 } [] := by
  have htaken : ∀ {s}, ((ItemType.intrange 1024 65535).setValue
      { valueMin := 1024, valueMax := 65535 } s).1 = true →
      (∀ x y, Halves s x y → x = [] ∨ y = []) → ¬ ReadsExactly 1024 65535
        { valueMin := 1024, valueMax := 65535 } s := by
    intro s hs hmiss hread
    obtain ⟨m, n, hw⟩ := hread.1.mp hs
    obtain ⟨x, y, h, hx, hy, -⟩ := writes_iff.mp hw
    exact (hmiss x y h).elim hx hy
  refine ⟨htaken (by decide) fun x y h => ?_, htaken (by decide) fun x y h => ?_,
    htaken (by decide) fun x y h => ?_⟩
  · have hscan : Halves (str "2000") (str "2000") [] := rangeLoop_halves.mp (by decide)
    exact .inr (halves_unique hscan h).2
  · have hscan : Halves (str "-2000") [] (str "2000") := rangeLoop_halves.mp (by decide)
    exact .inl (halves_unique hscan h).1
  · exact .inl (halves_nil.mp h).1

end Minbif
