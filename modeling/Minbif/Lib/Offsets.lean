import Mathlib.Data.List.Nodup
import Mathlib.Data.List.Range

/-! Parts of a list, taken one after the other from a position that only goes forward. -/
namespace Offsets

variable {α β : Type*} {l d h : List α} {p : ℕ}

/-- The parts so far and the next one are a beginning of the list exactly if nothing is missing
between them. -/
theorem append_prefix_iff (hnodup : l.Nodup) (hd : d <+: l) (hh : h <+: l.drop p) (hne : h ≠ []) :
    d ++ h <+: l ↔ p = d.length := by
  have hl : d ++ l.drop d.length = l := List.prefix_iff_eq_append.mp hd
  constructor
  · intro happ
    rw [← hl, List.prefix_append_right_inj] at happ
    obtain ⟨a, h, rfl⟩ := List.exists_cons_of_ne_nil hne
    obtain ⟨r, hr⟩ := hh
    obtain ⟨r', hr'⟩ := happ
    have hp : l[p]? = some a := by
      rw [← List.head?_drop, ← hr]
      rfl
    have hd : l[d.length]? = some a := by
      rw [← List.head?_drop, ← hr']
      rfl
    exact (List.getElem?_inj (List.getElem?_eq_some_iff.mp hp).1 hnodup).mp (hp.trans hd.symm)
  · rintro rfl
    rw [← hl, List.prefix_append_right_inj]
    exact hh

/-- A list of offsets is a beginning of all of them if it is so under every assignment. -/
theorem prefix_range_iff {a b : β} (hab : a ≠ b) {l : List ℕ} {n : ℕ} :
    (∀ f : ℕ → β, l.map f <+: (List.range n).map f) ↔ l <+: List.range n := by
  constructor
  · intro h
    have hlen : l.length ≤ n := by simpa using (h fun _ => a).length_le
    rw [List.prefix_iff_getElem]
    refine ⟨by simpa using hlen, fun i hi => ?_⟩
    have hf := (h fun j => if j = i then a else b).getElem (i := i) (by simpa using hi)
    simp only [List.getElem_map, List.getElem_range, if_true] at hf
    by_contra hne
    rw [List.getElem_range] at hne
    rw [if_neg hne] at hf
    exact hab hf.symm
  · exact fun h f => h.map f

theorem map_getD_range (l : List α) (a : α) : (List.range l.length).map (l.getD · a) = l := by
  apply List.ext_getElem
  · simp
  · intro i h₁ h₂
    simp [List.getD, h₂]

end Offsets
