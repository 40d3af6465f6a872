import Mathlib.Data.List.Basic

/-! Texts delivered in order, some of them joined by a separator. -/
namespace Batch

variable {α : Type*}

/-- The deliveries are the texts in their order: a text that stands alone is a delivery of its own,
and consecutive others may share one. -/
inductive Batched (alone : List α → Prop) (sep : α) : List (List α) → List (List α) → Prop
  | nil : Batched alone sep [] []
  | single {t ts ss} : alone t → Batched alone sep ts ss → Batched alone sep (t :: ts) (t :: ss)
  | joined {g ts ss} : g ≠ [] → (∀ t ∈ g, ¬ alone t) → Batched alone sep ts ss →
      Batched alone sep (g ++ ts) ([sep].intercalate g :: ss)

variable {alone : List α → Prop} {sep : α} {t : List α} {g ts us ss rs : List (List α)}

theorem Batched.append (h : Batched alone sep ts ss) (h' : Batched alone sep us rs) :
    Batched alone sep (ts ++ us) (ss ++ rs) := by
  induction h with
  | nil => exact h'
  | single ha _ ih => exact .single ha ih
  | joined hg hn _ ih =>
    rw [List.append_assoc]
    exact .joined hg hn ih

theorem Batched.append_joined (h : Batched alone sep ts ss) (hg : g ≠ [])
    (hn : ∀ t ∈ g, ¬ alone t) : Batched alone sep (ts ++ g) (ss ++ [[sep].intercalate g]) := by
  simpa using h.append (.joined hg hn .nil)

/-- A text delivered by itself, whichever kind it is of. -/
theorem Batched.append_single (h : Batched alone sep ts ss) (t : List α) :
    Batched alone sep (ts ++ [t]) (ss ++ [t]) := by
  by_cases ha : alone t
  · exact h.append (.single ha .nil)
  · simpa using h.append_joined (List.cons_ne_nil t []) (by simpa using ha)

theorem intercalate_concat (hg : g ≠ []) (t : List α) :
    [sep].intercalate (g ++ [t]) = [sep].intercalate g ++ sep :: t := by
  induction g with
  | nil => exact (hg rfl).elim
  | cons a g ih =>
    cases g with
    | nil => simp [List.intercalate_cons_cons]
    | cons b g =>
      have := ih (List.cons_ne_nil b g)
      simp only [List.cons_append, List.intercalate_cons_cons] at this ⊢
      simp [this]

end Batch
