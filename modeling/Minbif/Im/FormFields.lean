import Minbif.Im.Request
import Minbif.Irc.DccOffer

/-! What the fields of a form can be given. -/
namespace Minbif
open Fresh

/-- What `purple_request_field_*_set_value` is given, or the item that is selected. -/
inductive FieldValue
  | string (s : Str)
  | int (n : Int)
  | bool (b : Bool)
  | choice (i : Nat)
  | selected (text : Str)
deriving DecidableEq, Repr

/-- Which of the fields that `RequestFieldList::addField` adds stands under each label. -/
def fieldsUnder (labels : List Str) : OrdMap Str Nat :=
  labels.zipIdx.foldl (fun fields f =>
    fields.insert (freshLoop (fun l => (fields.find? l).isSome) '_' (fields.entries.length + 1) f.1)
      f.2) {}

namespace PurpleField

def isSkipped : PurpleField → Bool
  | .skipped => true
  | _ => false

/-- The fields that `request_fields` asks for, with their positions among the visible ones. -/
def asked (visible : List PurpleField) : List (PurpleField × Nat) :=
  visible.zipIdx.filter fun f => !f.1.isSkipped

def isImage : PurpleField → Bool
  | .image _ => true
  | _ => false

/-- The fields that a question is asked for. -/
def answered (visible : List PurpleField) : List (PurpleField × Nat) :=
  (asked visible).filter fun f => !f.1.isImage

/-- What `process` gives the field; `none` where it throws `RequestFieldNotFound`, and of an image. -/
def process (f : PurpleField) (answer : Str) : Option FieldValue :=
  match f with
  | .string .. => some (.string answer)
  | .integer .. => some (.int (s2tSigned 32 answer))
  | .image _ | .skipped => none
  | .boolean _ =>
    ((fieldsUnder [str "true", str "false"]).find? answer).map fun i => .bool (i = 0)
  | .choice _ labels => ((fieldsUnder labels).find? answer).map .choice
  -- a label that is taken changes the text too, and the text is what is selected
  | .list _ items => ((fieldsUnder items).find? answer).map fun _ => .selected answer

end PurpleField

section Labels

variable {ν ν' : Type} {k : Str} {v : ν} {v' : ν'} {l : List (Str × ν)} {l' : List (Str × ν')}
  {m : OrdMap Str ν} {m' : OrdMap Str ν'} {labels : List Str}

theorem insertEntry_keys (h : l.map Prod.fst = l'.map Prod.fst) :
    (OrdMap.insertEntry k v l).map Prod.fst = (OrdMap.insertEntry k v' l').map Prod.fst := by
  induction l generalizing l' with
  | nil =>
    obtain rfl : l' = [] := by simpa using h.symm
    rfl
  | cons e l ih =>
    obtain ⟨e', l', rfl⟩ : ∃ e' l'', l' = e' :: l'' := by
      cases l' with
      | nil => cases h
      | cons e' l' => exact ⟨e', l', rfl⟩
    obtain ⟨hkey, hrest⟩ := List.cons.inj h
    simp only [OrdMap.insertEntry, hkey]
    split
    · simp [hkey, hrest]
    split
    · simp [hrest]
    · simp [hkey, ih hrest]

theorem isSome_find? : (m.find? k).isSome = true ↔ k ∈ m.entries.map Prod.fst := by
  rw [Option.isSome_iff_exists, List.mem_map]
  constructor
  · rintro ⟨v, hv⟩
    exact ⟨_, OrdMap.find?_eq_some.mp hv, rfl⟩
  · rintro ⟨⟨k', v⟩, he, rfl⟩
    exact ⟨v, OrdMap.find?_eq_some.mpr he⟩

theorem isSome_congr (h : m.entries.map Prod.fst = m'.entries.map Prod.fst) (k : Str) :
    (m.find? k).isSome = (m'.find? k).isSome := by
  rw [Bool.eq_iff_iff, isSome_find?, isSome_find?, h]

/-- The labels are those that the question shows. -/
theorem fieldsUnder_keys (labels : List Str) : (fieldsUnder labels).entries.map Prod.fst =
    (RequestFields.ofList (labels.map Asked.valueField)).entries.map Prod.fst := by
  have hgen : ∀ (fields : OrdMap Str Nat) (texts : RequestFields) (n : Nat),
      fields.entries.map Prod.fst = texts.entries.map Prod.fst →
      ((labels.zipIdx n).foldl (fun fields f =>
        fields.insert (freshLoop (fun l => (fields.find? l).isSome) '_' (fields.entries.length + 1)
          f.1) f.2) fields).entries.map Prod.fst =
      ((labels.map Asked.valueField).foldl RequestFields.addField texts).entries.map Prod.fst := by
    induction labels with
    | nil => exact fun _ _ _ h => h
    | cons label labels ih =>
      intro fields texts n h
      have hlen : fields.entries.length = texts.entries.length := by
        simpa using congrArg List.length h
      have htaken : (fun l => (fields.find? l).isSome) = fun l => (texts.find? l).isSome :=
        funext fun l => isSome_congr h l
      rw [List.zipIdx_cons, List.foldl_cons, List.map_cons, List.foldl_cons]
      refine ih _ _ _ ?_
      rw [htaken, hlen]
      exact insertEntry_keys h
  exact hgen {} {} 0 rfl

theorem accepts_fieldsUnder (labels : List Str) (answer : Str) :
    ((RequestFields.ofList (labels.map Asked.valueField)).find? answer).isSome =
      ((fieldsUnder labels).find? answer).isSome :=
  isSome_congr (fieldsUnder_keys labels).symm answer

end Labels

section Questions

variable {account title primary secondary : Option Str} {f : PurpleField} {q : Question}

theorem isImage_subrequest (h : Asked.subrequest account title primary secondary f = some q) :
    q.isImage = f.isImage := by
  cases f with
  | skipped => cases h
  | string label default_value | integer label default_value | image shown | boolean label
  | choice label labels | list label items =>
    obtain rfl := Option.some.inj h
    rfl

/-- A question takes just the answers that give its field a value. -/
theorem accepts_subrequest (h : Asked.subrequest account title primary secondary f = some q)
    (hf : f.isImage = false) (answer : Str) : q.accepts answer = (f.process answer).isSome := by
  cases f with
  | skipped => cases h
  | image shown => cases hf
  | string label default_value | integer label default_value =>
    obtain rfl := Option.some.inj h
    rfl
  | boolean label =>
    obtain rfl := Option.some.inj h
    rw [PurpleField.process, Option.isSome_map]
    exact accepts_fieldsUnder [str "true", str "false"] answer
  | choice label labels | list label labels =>
    obtain rfl := Option.some.inj h
    rw [PurpleField.process, Option.isSome_map]
    exact accepts_fieldsUnder labels answer

end Questions

end Minbif
