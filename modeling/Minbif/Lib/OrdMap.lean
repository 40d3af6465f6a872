import Mathlib.Data.List.Basic
import Mathlib.Order.Lattice

/-! Finite maps iterated in the order of their keys. -/

/-- Bindings with strictly increasing keys. -/
structure OrdMap (κ ν : Type) [LinearOrder κ] where
  entries : List (κ × ν) := []
  sorted : entries.Pairwise fun a b => a.1 < b.1 := by simp

namespace OrdMap

variable {κ ν : Type} [LinearOrder κ] {m : OrdMap κ ν} {k k' : κ} {v v' : ν} {l : List (κ × ν)}

def empty : OrdMap κ ν := {}

@[simp] theorem entries_empty : (empty : OrdMap κ ν).entries = [] := rfl

def insertEntry (k : κ) (v : ν) : List (κ × ν) → List (κ × ν)
  | [] => [(k, v)]
  | e :: l =>
    if k < e.1 then (k, v) :: e :: l
    else if k = e.1 then (k, v) :: l
    else e :: insertEntry k v l

theorem mem_insertEntry (h : l.Pairwise fun a b => a.1 < b.1) :
    (k', v') ∈ insertEntry k v l ↔ (k' = k ∧ v' = v) ∨ (k' ≠ k ∧ (k', v') ∈ l) := by
  induction l with
  | nil => simp [insertEntry]
  | cons e l ih =>
    obtain ⟨a, b⟩ := e
    obtain ⟨he, hl⟩ := List.pairwise_cons.mp h
    rw [insertEntry]
    split
    · next hlt =>
      have hne : (k', v') ∈ (a, b) :: l → k' ≠ k := by
        rintro hmem rfl
        rcases List.mem_cons.mp hmem with hmem | hmem
        · cases hmem
          exact lt_irrefl _ hlt
        · exact lt_asymm hlt (he _ hmem)
      rw [List.mem_cons, Prod.mk.injEq]
      exact or_congr_right ⟨fun hm => ⟨hne hm, hm⟩, And.right⟩
    split
    · next _ heq =>
      subst heq
      have hne : (k', v') ∈ l → k' ≠ k := by
        rintro hmem rfl
        exact lt_irrefl k' (he _ hmem)
      rw [List.mem_cons, List.mem_cons, Prod.mk.injEq, Prod.mk.injEq]
      exact or_congr_right
        ⟨fun hm => ⟨hne hm, .inr hm⟩, fun hm => hm.2.resolve_left fun h => hm.1 h.1⟩
    · next _ heq =>
      rw [List.mem_cons, List.mem_cons, Prod.mk.injEq, ih hl]
      constructor
      · rintro (⟨rfl, rfl⟩ | h | h)
        · exact .inr ⟨Ne.symm heq, .inl ⟨rfl, rfl⟩⟩
        · exact .inl h
        · exact .inr ⟨h.1, .inr h.2⟩
      · rintro (h | ⟨hne, h | h⟩)
        · exact .inr (.inl h)
        · exact .inl h
        · exact .inr (.inr ⟨hne, h⟩)

theorem insertEntry_sorted (h : l.Pairwise fun a b => a.1 < b.1) :
    (insertEntry k v l).Pairwise fun a b => a.1 < b.1 := by
  induction l with
  | nil => simp [insertEntry]
  | cons e l ih =>
    obtain ⟨he, hl⟩ := List.pairwise_cons.mp h
    rw [insertEntry]
    split
    · next hlt =>
      refine List.pairwise_cons.mpr ⟨fun a ha => ?_, h⟩
      rcases List.mem_cons.mp ha with rfl | ha
      · exact hlt
      · exact lt_trans hlt (he a ha)
    split
    · next _ heq => exact List.pairwise_cons.mpr ⟨fun a ha => heq ▸ he a ha, hl⟩
    · next hlt heq =>
      refine List.pairwise_cons.mpr ⟨fun a ha => ?_, ih hl⟩
      rcases (mem_insertEntry hl).mp ha with ⟨ha, -⟩ | ⟨-, ha⟩
      · exact ha ▸ lt_of_le_of_ne (not_lt.mp hlt) (Ne.symm heq)
      · exact he a ha

def insert (m : OrdMap κ ν) (k : κ) (v : ν) : OrdMap κ ν :=
  ⟨insertEntry k v m.entries, insertEntry_sorted m.sorted⟩

def erase (m : OrdMap κ ν) (k : κ) : OrdMap κ ν :=
  ⟨m.entries.filter fun e => e.1 ≠ k, m.sorted.filter _⟩

def find? (m : OrdMap κ ν) (k : κ) : Option ν := (m.entries.find? fun e => e.1 = k).map Prod.snd

def values (m : OrdMap κ ν) : List ν := m.entries.map Prod.snd

theorem mem_insert :
    (k', v') ∈ (m.insert k v).entries ↔ (k' = k ∧ v' = v) ∨ (k' ≠ k ∧ (k', v') ∈ m.entries) :=
  mem_insertEntry m.sorted

theorem mem_erase : (k', v') ∈ (m.erase k).entries ↔ (k', v') ∈ m.entries ∧ k' ≠ k := by
  simp [erase]

/-- A key is bound once. -/
theorem mem_unique (h : (k, v) ∈ m.entries) (h' : (k, v') ∈ m.entries) : v = v' := by
  have hs := m.sorted
  induction hm : m.entries generalizing m with
  | nil => simp [hm] at h
  | cons e l ih =>
    rw [hm] at h h' hs
    obtain ⟨he, hl⟩ := List.pairwise_cons.mp hs
    rcases List.mem_cons.mp h with rfl | h <;> rcases List.mem_cons.mp h' with h' | h'
    · simpa using h'.symm
    · exact (lt_irrefl k (he _ h')).elim
    · exact (lt_irrefl k (by simpa [← h'] using he _ h)).elim
    · exact ih (m := ⟨l, hl⟩) h h' hl rfl

theorem find?_eq_some : m.find? k = some v ↔ (k, v) ∈ m.entries := by
  constructor
  · intro h
    obtain ⟨e, he, rfl⟩ := Option.map_eq_some_iff.mp h
    have hk := List.find?_some he
    simp only [decide_eq_true_eq] at hk
    exact hk ▸ List.mem_of_find?_eq_some he
  · intro h
    cases hf : m.entries.find? fun e => e.1 = k with
    | none => simpa using List.find?_eq_none.mp hf _ h
    | some e =>
      have hk := List.find?_some hf
      simp only [decide_eq_true_eq] at hk
      have hmem := List.mem_of_find?_eq_some hf
      obtain ⟨a, b⟩ := e
      subst hk
      simp [find?, hf, mem_unique h hmem]

theorem find?_eq_none : m.find? k = none ↔ ∀ v, (k, v) ∉ m.entries := by
  constructor
  · intro h v hv
    simp [find?_eq_some.mpr hv] at h
  · intro h
    cases hf : m.find? k with
    | none => rfl
    | some v => exact (h v (find?_eq_some.mp hf)).elim

@[simp] theorem find?_insert_self : (m.insert k v).find? k = some v :=
  find?_eq_some.mpr (mem_insert.mpr (.inl ⟨rfl, rfl⟩))

theorem find?_insert_of_ne (h : k' ≠ k) : (m.insert k v).find? k' = m.find? k' := by
  cases hf : m.find? k' with
  | none =>
    rw [find?_eq_none] at hf ⊢
    simpa [mem_insert, h] using hf
  | some w => rw [find?_eq_some, mem_insert]; exact .inr ⟨h, find?_eq_some.mp hf⟩

theorem find?_insert : (m.insert k v).find? k' = if k' = k then some v else m.find? k' := by
  split
  · next h => rw [h, find?_insert_self]
  · next h => exact find?_insert_of_ne h

theorem mem_values {v : ν} : v ∈ m.values ↔ ∃ k, (k, v) ∈ m.entries := by
  simp [values]

/-- To insert the images of the bindings of a map is to look them up in it. -/
theorem find?_foldl_insert {α : Type} {f : κ × α → ν} (m' : OrdMap κ α) :
    (m'.entries.foldl (fun m e => m.insert e.1 (f e)) m).find? k =
      ((m'.find? k).map fun v => f (k, v)).or (m.find? k) := by
  have hlist : ∀ (l : List (κ × α)) (m : OrdMap κ ν), (l.Pairwise fun a b => a.1 < b.1) →
      (l.foldl (fun m e => m.insert e.1 (f e)) m).find? k =
        ((l.find? fun e => e.1 = k).map f).or (m.find? k) := by
    intro l
    induction l with
    | nil => exact fun m _ => rfl
    | cons e l ih =>
      intro m h
      obtain ⟨he, hl⟩ := List.pairwise_cons.mp h
      rw [List.foldl_cons, ih _ hl, List.find?_cons]
      by_cases hk : e.1 = k
      · have hnone : l.find? (fun e => e.1 = k) = none := by
          rw [List.find?_eq_none]
          intro e' he'
          simpa [← hk] using (ne_of_lt (he e' he')).symm
        simp [hnone, hk]
      · simp [hk, find?_insert_of_ne (Ne.symm hk)]
  rw [hlist _ _ m'.sorted]
  cases hf : m'.entries.find? fun e => e.1 = k with
  | none => simp [find?, hf]
  | some e =>
    obtain rfl : e.1 = k := by simpa using List.find?_some hf
    simp [find?, hf]

@[simp] theorem find?_erase_self : (m.erase k).find? k = none :=
  find?_eq_none.mpr fun _ hv => (mem_erase.mp hv).2 rfl

theorem find?_erase_of_ne (h : k' ≠ k) : (m.erase k).find? k' = m.find? k' := by
  cases hf : m.find? k' with
  | none =>
    rw [find?_eq_none] at hf ⊢
    simpa [mem_erase, h] using hf
  | some w => rw [find?_eq_some, mem_erase]; exact ⟨find?_eq_some.mp hf, h⟩

end OrdMap
