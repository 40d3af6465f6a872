import Minbif.Core.Config

/-! What a configuration file says, whatever the items hold. -/
namespace Minbif
open Function SectionRef

/-- Which sections a file opens, and which values it gives to which items. -/
structure Reading where
  opened : SectionRef → Bool := fun _ => false
  name : SectionRef → Str
  copies : SectionRef → Nat := fun _ => 0
  given : List (SectionRef × Str × Str) := []
  current : SectionRef := []
  error : Bool := false

/-- The item of a section. -/
def itemAt (S : Schema) (p : SectionRef) (label : Str) : Option ConfigItem :=
  (sectionAt S.sections p).bind fun d => d.items.find? (·.label = label)

/-- Whether the item of that label is the name of its section. -/
def isNameAt (S : Schema) (p : SectionRef) (label : Str) : Bool :=
  (sectionAt S.sections p).any fun d => d.nameItem = some label

namespace Reading

def named (S : Schema) (r : Reading) (p : SectionRef) (name : Str) : Bool :=
  (sectionAt S.sections p).any ConfigSection.isMultiple &&
    (r.name (original p) = name ||
      (List.range (r.copies (original p))).any fun k => r.name (copy p k) = name)

/-- No item has the label, or its value is missing, or names a section that exists. -/
def refuses (S : Schema) (r : Reading) (label value : Str) : Bool :=
  (itemAt S r.current label).isNone || value.isEmpty ||
    isNameAt S r.current label && r.named S r.current value

def gives (S : Schema) (r : Reading) (label value : Str) : Reading :=
  if r.refuses S label value then { r with error := true }
  else
    { r with
      name := if isNameAt S r.current label then update r.name r.current value else r.name
      given := r.given ++ [(r.current, label, value)] }

def closes (r : Reading) : Reading :=
  let p := r.current
  { r with
    error := r.error || p.isEmpty || p.isCopy && (r.name p).isEmpty
    current := p.parent }

def addCopy (r : Reading) (t : SectionRef) : Reading :=
  let n := copy t (r.copies (original t))
  { r with
    opened := fun p => if n <+: p then r.opened (t ++ p.drop n.length) else r.opened p
    copies := fun p =>
      if p = original t then r.copies p + 1
      else if n <+: p then r.copies (t ++ p.drop n.length) else r.copies p
    current := n }

def opens (S : Schema) (r : Reading) (label : Str) : Reading :=
  let p := r.current ++ [(label, none)]
  match sectionAt S.sections p with
  | none => { r with error := true, current := [] }
  | some d =>
    let r := { r with opened := update r.opened p true, current := p }
    if d.isMultiple then r.addCopy p else r

def line (S : Schema) (r : Reading) (ligne : Str) : Reading :=
  match ConfigLine.of ligne with
  | .skip => r
  | .item label rest => r.gives S label (rest.dropWhile (str " =\t").contains)
  | .close => r.closes
  | .section tab => r.opens S tab

/-- What the file says to a configuration whose sections have those names. -/
def ofFile (S : Schema) (name : SectionRef → Str) (content : Str) : Reading :=
  (fileLines content).foldl (line S) { name := fun p => if p = original p then name p else [] }

/-- The values given to an item, in order. -/
def texts (r : Reading) (p : SectionRef) (label : Str) : List Str :=
  (r.given.filter fun g => g.1 = p ∧ g.2.1 = label).map fun g => g.2.2

end Reading

namespace ItemType

/-- What an item holds after the values it was given. -/
def holds (t : ItemType) (v : Value) (ss : List Str) : Value :=
  ss.foldl (fun v s => (t.setValue v s).2) v

/-- Each of the values is accepted. -/
def accepts (t : ItemType) (v : Value) : List Str → Bool
  | [] => true
  | s :: ss => (t.setValue v s).1 && t.accepts (t.setValue v s).2 ss

variable {t : ItemType} {v : Value} {s : Str} {ss : List Str}

@[simp] theorem holds_nil : t.holds v [] = v := rfl

@[simp] theorem holds_concat : t.holds v (ss ++ [s]) = (t.setValue (t.holds v ss) s).2 := by
  simp [holds]

@[simp] theorem accepts_concat :
    t.accepts v (ss ++ [s]) = (t.accepts v ss && (t.setValue (t.holds v ss) s).1) := by
  induction ss generalizing v with
  | nil => simp [accepts, holds]
  | cons a ss ih => simp [accepts, ih, holds, Bool.and_assoc]

end ItemType

/-- What the items hold before the file is read: what they held, or what is in new memory. -/
def before (c : MyConfig) (memory : SectionRef → Str → Value) (p : SectionRef) (l : Str) : Value :=
  if p = original p then c.value p l else { memory p l with string := [] }

/-- A configuration into which the lines so far were read. -/
structure Agrees (S : Schema) (base : SectionRef → Str → Value) (r : Reading) (c : MyConfig) :
    Prop where
  schema : c.schema = S
  found : c.found = r.opened
  name : c.name = r.name
  copies : c.copies = r.copies
  current : c.current = r.current
  itemFound : ∀ p l, c.itemFound p l = true ↔ r.texts p l ≠ []
  value : ∀ p l i, itemAt S p l = some i → c.value p l = i.type.holds (base p l) (r.texts p l)
  accepted : ∀ p l i, itemAt S p l = some i → r.texts p l ≠ [] →
    i.type.accepts (base p l) (r.texts p l) = true → c.accepted p l = true
  error : c.error = true ↔ r.error = true ∨
    ∃ p l i, itemAt S p l = some i ∧ i.type.accepts (base p l) (r.texts p l) = false

variable {S : Schema} {base : SectionRef → Str → Value} {r : Reading} {c : MyConfig}
  {p q : SectionRef} {l x : Str} {i : ConfigItem}

theorem itemAt_label (h : itemAt S p l = some i) : i.label = l := by
  obtain ⟨d, -, hfind⟩ := Option.bind_eq_some_iff.mp h
  simpa using List.find?_some hfind

theorem Agrees.getItem (h : Agrees S base r c) : c.getItem p l = itemAt S p l := by
  rw [MyConfig.getItem, h.schema]
  rfl

theorem Agrees.named (h : Agrees S base r c) : c.named p x = r.named S p x := by
  rw [MyConfig.named, h.schema, h.name, h.copies]
  rfl

theorem Agrees.fail (h : Agrees S base r c) : Agrees S base { r with error := true } (c.fail x) :=
  ⟨h.schema, h.found, h.name, h.copies, h.current, h.itemFound, h.value, h.accepted,
    iff_of_true rfl (.inl rfl)⟩

theorem Reading.texts_concat {value : Str} :
    { r with given := r.given ++ [(p, l, value)] : Reading }.texts q x =
      if q = p ∧ x = l then r.texts p l ++ [value] else r.texts q x := by
  by_cases hq : q = p ∧ x = l
  · obtain ⟨rfl, rfl⟩ := hq
    simp [texts]
  · have hne : ¬ (p = q ∧ l = x) := fun h => hq ⟨h.1.symm, h.2.symm⟩
    simp [texts, hq, hne]

theorem update_update {α : Type} (f : SectionRef → Str → α) (a : α) :
    update f p (update (f p) l a) q x = if q = p ∧ x = l then a else f q x := by
  by_cases hq : q = p
  · subst hq
    by_cases hx : x = l
    · simp [hx]
    · simp [hx]
  · simp [hq]

theorem Agrees.setName (h : Agrees S base r c) :
    Agrees S base { r with name := update r.name p x } (c.setName p x) :=
  ⟨h.schema, h.found, by rw [MyConfig.setName, h.name], h.copies, h.current, h.itemFound, h.value,
    h.accepted, h.error⟩

/-- An item is given one more value. -/
theorem Agrees.give (h : Agrees S base r c) (hi : itemAt S p l = some i) {value : Str} :
    let s := (c.setItemFound p l).setValue p i value
    Agrees S base { r with given := r.given ++ [(p, l, value)] }
      (if s.1 then s.2 else s.2.fail x) := by
  obtain rfl := itemAt_label hi
  intro s
  let t := i.type.setValue (c.value p i.label) value
  have hvalue : c.value p i.label = i.type.holds (base p i.label) (r.texts p i.label) :=
    h.value p i.label i hi
  -- all but the flag is the same whether the value is accepted or not
  have hset : ∀ e, (e = true ↔ c.error = true ∨ t.1 = false) → ∀ out,
      Agrees S base { r with given := r.given ++ [(p, i.label, value)] }
        { s.2 with error := e, cerr := out } := by
    intro e he out
    refine ⟨h.schema, h.found, h.name, h.copies, h.current, ?_, ?_, ?_, ?_⟩
    · intro q x
      rw [Reading.texts_concat]
      simp only [s, MyConfig.setValue, MyConfig.setItemFound, update_update]
      split
      · simp
      · exact h.itemFound q x
    · intro q x j hj
      rw [Reading.texts_concat]
      simp only [s, MyConfig.setValue, MyConfig.setItemFound, update_update]
      split
      · next heq =>
        obtain ⟨rfl, rfl⟩ := heq
        obtain rfl := Option.some.inj (hi.symm.trans hj)
        rw [ItemType.holds_concat, ← hvalue]
      · exact h.value q x j hj
    · intro q x j hj
      rw [Reading.texts_concat]
      simp only [s, MyConfig.setValue, MyConfig.setItemFound, update_update]
      split
      · next heq =>
        obtain ⟨rfl, rfl⟩ := heq
        obtain rfl := Option.some.inj (hi.symm.trans hj)
        rw [ItemType.accepts_concat, ← hvalue, Bool.and_eq_true]
        exact fun _ hacc => hacc.2
      · exact h.accepted q x j hj
    · rw [he, h.error]
      constructor
      · rintro ((hr | ⟨q, x, j, hj, hacc⟩) | ht)
        · exact .inl hr
        · refine .inr ⟨q, x, j, hj, ?_⟩
          rw [Reading.texts_concat]
          split
          · next heq =>
            obtain ⟨rfl, rfl⟩ := heq
            rw [ItemType.accepts_concat, hacc, Bool.false_and]
          · exact hacc
        · refine .inr ⟨p, i.label, i, hi, ?_⟩
          rw [Reading.texts_concat, if_pos ⟨rfl, rfl⟩, ItemType.accepts_concat, ← hvalue, ht,
            Bool.and_false]
      · rintro (hr | ⟨q, x, j, hj, hacc⟩)
        · exact .inl (.inl hr)
        · rw [Reading.texts_concat] at hacc
          split at hacc
          · next heq =>
            obtain ⟨rfl, rfl⟩ := heq
            obtain rfl := Option.some.inj (hi.symm.trans hj)
            rw [ItemType.accepts_concat, ← hvalue, Bool.and_eq_false_iff] at hacc
            rcases hacc with hacc | hacc
            · exact .inl (.inr ⟨_, _, _, hi, hacc⟩)
            · exact .inr hacc
          · exact .inl (.inr ⟨q, x, j, hj, hacc⟩)
  split
  · next hs =>
    have ht : t.1 = true := hs
    exact hset c.error (by simp [ht]) c.cerr
  · next hs =>
    have ht : t.1 = false := Bool.not_eq_true _ ▸ hs
    exact hset true (by simp [ht]) _

theorem onItem_fail (h : Agrees S base r c) {rest : Str}
    (hr : r.refuses S l (rest.dropWhile (str " =\t").contains) = true) :
    ∃ x, c.onItem l rest = c.fail x := by
  simp only [MyConfig.onItem, h.current, h.getItem]
  split
  · exact ⟨_, rfl⟩
  split
  · exact ⟨_, rfl⟩
  · next i hi =>
    split
    · exact ⟨_, rfl⟩
    split
    · exact ⟨_, rfl⟩
    · next hvalue hname =>
      rw [h.named, itemAt_label hi] at hname
      have hname' : (isNameAt S r.current l && r.named S r.current
          (rest.dropWhile (str " =\t").contains)) = false := by
        rw [h.schema] at hname
        exact Bool.not_eq_true _ ▸ hname
      rw [Reading.refuses, hi, hname', Option.isNone_some, Bool.false_or, Bool.or_false] at hr
      exact absurd hr hvalue

theorem Agrees.gives (h : Agrees S base r c) (rest : Str) :
    Agrees S base (r.gives S l (rest.dropWhile (str " =\t").contains)) (c.onItem l rest) := by
  cases hr : r.refuses S l (rest.dropWhile (str " =\t").contains) with
  | true =>
    obtain ⟨x, hx⟩ := onItem_fail h hr
    rw [hx, Reading.gives, if_pos hr]
    exact h.fail
  | false =>
    have hok := hr
    simp only [Reading.refuses, Bool.or_eq_false_iff, Option.isNone_eq_false_iff] at hok
    obtain ⟨⟨hi, hvalue⟩, hname⟩ := hok
    obtain ⟨i, hi⟩ := Option.isSome_iff_exists.mp hi
    have hcur : r.current.isEmpty = false := by
      cases hcur : r.current with
      | nil =>
        rw [hcur] at hi
        cases hi
      | cons s q => rfl
    have hlabel := itemAt_label hi
    rw [Reading.gives, if_neg (by simp [hr])]
    simp only [MyConfig.onItem, h.current, hcur, h.getItem, hi, hvalue, h.named, hlabel, h.schema,
      Bool.false_eq_true, if_false]
    have hname' : ((sectionAt S.sections r.current).any fun d => d.nameItem = some l) =
        isNameAt S r.current l := rfl
    have hnot : ¬ (isNameAt S r.current l && r.named S r.current
        (rest.dropWhile (str " =\t").contains)) = true := by
      rw [hname]
      exact nofun
    rw [hname', if_neg hnot]
    cases isNameAt S r.current l with
    | false => exact h.give hi
    | true => exact h.setName.give hi

theorem Agrees.moved (h : Agrees S base r c) :
    Agrees S base { r with current := p } { c with current := p } :=
  ⟨h.schema, h.found, h.name, h.copies, rfl, h.itemFound, h.value, h.accepted, h.error⟩

theorem Agrees.closes (h : Agrees S base r c) : Agrees S base r.closes c.onClose := by
  rw [Reading.closes, MyConfig.onClose, h.current, h.name]
  cases hcur : r.current.isEmpty with
  | true =>
    have hnil : r.current = [] := List.isEmpty_iff.mp hcur
    have hfail := (h.fail (x := str "a '\x7d' out of a section !?")).moved (p := parent r.current)
    have hstay : c.current = parent r.current := by rw [h.current, hnil]; rfl
    simp only [if_true, Bool.or_true, Bool.true_or]
    rw [← hstay] at hfail ⊢
    exact hfail
  | false =>
    cases hname : isCopy r.current && (r.name r.current).isEmpty with
    | true => simpa using h.fail.moved
    | false => simpa using h.moved

theorem Agrees.addCopy (h : Agrees S base r c) : Agrees S base (r.addCopy p) (c.addCopy p) := by
  refine ⟨h.schema, ?_, h.name, ?_, ?_, h.itemFound, h.value, h.accepted, h.error⟩
  · simp only [Reading.addCopy, MyConfig.addCopy, h.found, h.copies]
  · simp only [Reading.addCopy, MyConfig.addCopy, h.copies]
  · simp only [Reading.addCopy, MyConfig.addCopy, h.copies]

theorem Agrees.opens (h : Agrees S base r c) : Agrees S base (r.opens S l) (c.onSection l) := by
  have hS : sectionAt c.schema.sections (r.current ++ [(l, none)]) =
      sectionAt S.sections (r.current ++ [(l, none)]) := by rw [h.schema]
  rw [Reading.opens, MyConfig.onSection, h.current, hS]
  cases hd : sectionAt S.sections (r.current ++ [(l, none)]) with
  | none => exact h.fail.moved
  | some d =>
    have hopen : Agrees S base
        { r with opened := update r.opened (r.current ++ [(l, none)]) true, current := r.current ++ [(l, none)] }
        { c with found := update c.found (r.current ++ [(l, none)]) true, current := r.current ++ [(l, none)] } :=
      ⟨h.schema, by rw [h.found], h.name, h.copies, rfl, h.itemFound, h.value, h.accepted, h.error⟩
    simp only
    split
    · exact hopen.addCopy
    · exact hopen

theorem Agrees.line (h : Agrees S base r c) (ligne : Str) :
    Agrees S base (r.line S ligne) (c.onLine ligne) := by
  have hcount : Agrees S base r { c with lineCount := c.lineCount + 1 } :=
    ⟨h.schema, h.found, h.name, h.copies, h.current, h.itemFound, h.value, h.accepted, h.error⟩
  rw [Reading.line, MyConfig.onLine]
  cases ConfigLine.of ligne with
  | skip => exact hcount
  | item label rest => exact hcount.gives rest
  | close => exact hcount.closes
  | «section» tab => exact hcount.opens

theorem Agrees.lines (h : Agrees S base r c) (lines : List Str) :
    Agrees S base (lines.foldl (Reading.line S) r) (lines.foldl MyConfig.onLine c) := by
  induction lines generalizing r c with
  | nil => exact h
  | cons a lines ih => exact ih (h.line a)

theorem agrees_opening (memory : SectionRef → Str → Value) :
    Agrees c.schema (before c memory) { name := fun p => if p = original p then c.name p else [] }
      (c.opening memory) := by
  refine ⟨rfl, rfl, rfl, rfl, rfl, fun p l => by simp [MyConfig.opening, MyConfig.clean, Reading.texts],
    fun p l i _ => rfl, fun p l i _ hne => by simp [Reading.texts] at hne, ?_⟩
  refine iff_of_false nofun ?_
  rintro (h | ⟨p, l, i, -, h⟩)
  · cases h
  · cases h

end Minbif
