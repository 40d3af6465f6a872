import Mathlib.Data.List.Count

/-! Appending a letter to a name until nobody has it. -/
namespace Fresh

variable {α : Type} {taken : List α → Bool} {norm : List α → List α}
  {L : List (List α)} {a : α} {fuel : Nat} {s : List α}

/-- `while(taken(s)) s += a`. -/
def freshLoop (taken : List α → Bool) (a : α) : Nat → List α → List α
  | 0, s => s
  | fuel + 1, s => if taken s then freshLoop taken a fuel (s ++ [a]) else s

/-- The names still as long as `s` run out: each round uses one of them up. -/
theorem freshLoop_free (hlen : ∀ s, (norm s).length = s.length)
    (htaken : ∀ s, taken s = true → norm s ∈ L)
    (h : L.countP (fun x => s.length ≤ x.length) < fuel) :
    taken (freshLoop taken a fuel s) = false := by
  induction fuel generalizing s with
  | zero => omega
  | succ fuel ih =>
    rw [freshLoop]
    split
    · next hs =>
      apply ih
      have hlt : L.countP (fun x => (s ++ [a]).length ≤ x.length) <
          L.countP (fun x => s.length ≤ x.length) := by
        have hmem := htaken s hs
        have hsub : ∀ l : List (List α), l.countP (fun x => (s ++ [a]).length ≤ x.length) ≤
            l.countP (fun x => s.length ≤ x.length) := by
          intro l
          apply List.countP_mono_left
          intro x _ hx
          simp only [List.length_append, List.length_singleton, decide_eq_true_eq] at hx ⊢
          omega
        obtain ⟨l, r, rfl⟩ := List.append_of_mem hmem
        have hl := hsub l
        have hr := hsub r
        have hself : ¬ (s ++ [a]).length ≤ (norm s).length := by
          rw [hlen, List.length_append, List.length_singleton]
          omega
        have hone : s.length ≤ (norm s).length := Nat.le_of_eq (hlen s).symm
        rw [List.countP_append, List.countP_append, List.countP_cons_of_neg (by simpa using hself),
          List.countP_cons_of_pos (by simpa using hone)]
        omega
      omega
    · next hs => simpa using hs

/-- Every shorter name is taken. -/
theorem freshLoop_least : ∃ n, freshLoop taken a fuel s = s ++ List.replicate n a ∧
    ∀ m < n, taken (s ++ List.replicate m a) = true := by
  induction fuel generalizing s with
  | zero => exact ⟨0, by simp [freshLoop], nofun⟩
  | succ fuel ih =>
    rw [freshLoop]
    split
    · next hs =>
      obtain ⟨n, hn, hleast⟩ := ih (s := s ++ [a])
      refine ⟨n + 1, by rw [hn]; simp [List.replicate_succ], fun m hm => ?_⟩
      cases m with
      | zero => simpa using hs
      | succ m =>
        have hm' := hleast m (by omega)
        rwa [List.append_assoc, List.singleton_append, ← List.replicate_succ] at hm'
    · exact ⟨0, by simp, nofun⟩

theorem freshLoop_prefix : ∃ n, freshLoop taken a fuel s = s ++ List.replicate n a := by
  obtain ⟨n, hn, -⟩ := @freshLoop_least α taken a fuel s
  exact ⟨n, hn⟩

/-- `while(taken(s)) s += a` from `s` ends with `r`. -/
inductive Ends (taken : List α → Bool) (a : α) : List α → List α → Prop
  | stop {s : List α} (h : taken s = false) : Ends taken a s s
  | again {s r : List α} (h : taken s = true) (hr : Ends taken a (s ++ [a]) r) : Ends taken a s r

/-- Where it did not run out of fuel the loop is the loop. -/
theorem freshLoop_ends (h : taken (freshLoop taken a fuel s) = false) :
    Ends taken a s (freshLoop taken a fuel s) := by
  induction fuel generalizing s with
  | zero => exact .stop h
  | succ fuel ih =>
    rw [freshLoop] at h ⊢
    split
    · next hs =>
      rw [if_pos hs] at h
      exact .again hs (ih h)
    · next hs => exact .stop (by simpa using hs)

namespace Ends

variable {r : List α} {bound : Nat}

theorem suffix (h : Ends taken a s r) : ∃ n, r = s ++ List.replicate n a := by
  induction h with
  | stop _ => exact ⟨0, by simp⟩
  | again _ _ ih =>
    obtain ⟨n, rfl⟩ := ih
    exact ⟨n + 1, by simp [List.replicate_succ]⟩

/-- It stays short exactly when one of the short names is left. -/
theorem length_le_iff (h : Ends taken a s r) : r.length ≤ bound ↔
    ∃ n, s.length + n ≤ bound ∧ taken (s ++ List.replicate n a) = false := by
  induction h with
  | stop hs =>
    constructor
    · exact fun hlen => ⟨0, hlen, by simpa using hs⟩
    · rintro ⟨n, hn, -⟩
      omega
  | @again s r hs _ ih =>
    rw [ih]
    have hsnoc : ∀ n, s ++ [a] ++ List.replicate n a = s ++ List.replicate (n + 1) a := by
      intro n
      rw [List.append_assoc, List.singleton_append, List.replicate_succ]
    constructor
    · rintro ⟨n, hn, hfree⟩
      rw [List.length_append, List.length_singleton] at hn
      exact ⟨n + 1, by omega, hsnoc n ▸ hfree⟩
    · rintro ⟨n, hn, hfree⟩
      cases n with
      | zero =>
        rw [List.replicate_zero, List.append_nil, hs] at hfree
        cases hfree
      | succ n =>
        refine ⟨n, ?_, (hsnoc n).symm ▸ hfree⟩
        rw [List.length_append, List.length_singleton]
        omega

end Ends

/-- A name with the fewest letters at its end is the only one. -/
theorem least_unique {F : List α → Prop} {m n : Nat} (hm : F (s ++ List.replicate m a))
    (hm' : ∀ i < m, ¬ F (s ++ List.replicate i a)) (hn : F (s ++ List.replicate n a))
    (hn' : ∀ i < n, ¬ F (s ++ List.replicate i a)) : m = n := by
  rcases Nat.lt_trichotomy m n with h | h | h
  · exact (hn' m h hm).elim
  · exact h
  · exact (hm' n h hn).elim

end Fresh
