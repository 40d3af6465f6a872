import Mathlib.Data.List.Basic

/-! Text with tags in it, between two delimiters, and tags that open and close. -/
namespace Tagged

/-- A part of such a text. -/
inductive Chunk (α : Type*)
  | text (s : List α)
  | tag (t : List α)

variable {α : Type*} {lt gt : α} {s r t u : List α}

namespace Chunk

def write (lt gt : α) : Chunk α → List α
  | text s => s
  | tag t => lt :: t ++ [gt]

def text? : Chunk α → List α
  | text s => s
  | tag _ => []

def tag? : Chunk α → Option (List α)
  | text _ => none
  | tag t => some t

/-- It ends where it seems to end. -/
def Clean (lt gt : α) : Chunk α → Prop
  | text s => lt ∉ s
  | tag t => gt ∉ t

end Chunk

section Reading

variable [DecidableEq α]

/-- The text outside the tags; `inside` tells whether it starts in one. -/
def strip (lt gt : α) : Bool → List α → List α
  | _, [] => []
  | false, a :: s => if a = lt then strip lt gt true s else a :: strip lt gt false s
  | true, a :: s => strip lt gt (a ≠ gt) s

/-- What stands in the tags; the first one may have begun. -/
def tags (lt gt : α) : Option (List α) → List α → List (List α)
  | _, [] => []
  | none, a :: s => tags lt gt (if a = lt then some [] else none) s
  | some t, a :: s => if a = gt then t :: tags lt gt none s else tags lt gt (some (t ++ [a])) s

theorem strip_text (h : lt ∉ s) : strip lt gt false (s ++ r) = s ++ strip lt gt false r := by
  induction s with
  | nil => rfl
  | cons a s ih =>
    rw [List.mem_cons, not_or] at h
    rw [List.cons_append, strip, if_neg (Ne.symm h.1), ih h.2, List.cons_append]

theorem strip_tag (h : gt ∉ t) : strip lt gt true (t ++ gt :: r) = strip lt gt false r := by
  induction t with
  | nil => simp [strip]
  | cons a t ih =>
    rw [List.mem_cons, not_or] at h
    rw [List.cons_append, strip, decide_eq_true (Ne.symm h.1), ih h.2]

theorem tags_text (h : lt ∉ s) : tags lt gt none (s ++ r) = tags lt gt none r := by
  induction s with
  | nil => rfl
  | cons a s ih =>
    rw [List.mem_cons, not_or] at h
    rw [List.cons_append, tags, if_neg (Ne.symm h.1), ih h.2]

theorem tags_tag (h : gt ∉ t) :
    tags lt gt (some u) (t ++ gt :: r) = (u ++ t) :: tags lt gt none r := by
  induction t generalizing u with
  | nil => simp [tags]
  | cons a t ih =>
    rw [List.mem_cons, not_or] at h
    rw [List.cons_append, tags, if_neg (Ne.symm h.1), ih h.2, List.append_assoc,
      List.singleton_append]

theorem strip_write {l : List (Chunk α)} (h : ∀ x ∈ l, x.Clean lt gt) :
    strip lt gt false (l.flatMap (Chunk.write lt gt)) = l.flatMap Chunk.text? := by
  induction l with
  | nil => rfl
  | cons x l ih =>
    have hx := h x (by simp)
    have ih := ih fun y hy => h y (by simp [hy])
    rw [List.flatMap_cons, List.flatMap_cons]
    cases x with
    | text s => rw [Chunk.write, strip_text hx, ih, Chunk.text?]
    | tag t =>
      rw [Chunk.write, List.append_assoc, List.cons_append, strip, if_pos rfl,
        List.singleton_append, strip_tag hx, ih, Chunk.text?, List.nil_append]

theorem tags_write {l : List (Chunk α)} (h : ∀ x ∈ l, x.Clean lt gt) :
    tags lt gt none (l.flatMap (Chunk.write lt gt)) = l.filterMap Chunk.tag? := by
  induction l with
  | nil => rfl
  | cons x l ih =>
    have hx := h x (by simp)
    have ih := ih fun y hy => h y (by simp [hy])
    rw [List.flatMap_cons]
    cases x with
    | text s => rw [Chunk.write, tags_text hx, ih, List.filterMap_cons_none rfl]
    | tag t =>
      rw [Chunk.write, List.append_assoc, List.cons_append, tags, if_pos rfl,
        List.singleton_append, tags_tag hx, ih, List.nil_append]
      rfl

end Reading

/-- Every opening is closed and nothing else is, when so many are open at the start. -/
def BalancedFrom : Nat → List Bool → Prop
  | depth, [] => depth = 0
  | depth, true :: l => BalancedFrom (depth + 1) l
  | 0, false :: _ => False
  | depth + 1, false :: l => BalancedFrom depth l

instance BalancedFrom.decide : (depth : Nat) → (l : List Bool) → Decidable (BalancedFrom depth l)
  | depth, [] => inferInstanceAs (Decidable (depth = 0))
  | depth, true :: l => BalancedFrom.decide (depth + 1) l
  | 0, false :: _ => inferInstanceAs (Decidable False)
  | depth + 1, false :: l => BalancedFrom.decide depth l

end Tagged
