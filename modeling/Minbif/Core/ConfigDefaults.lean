import Mathlib.Data.List.Basic
import Minbif.Core.ConfigReading

/-! Where `FindEmpty` goes, and the defaults it sets there. -/
namespace Minbif
open Function SectionRef

theorem validSections_iff {ds : List ConfigSection} :
    validSections ds = true ↔ (ds.map (·.label)).Nodup ∧ ∀ d ∈ ds, d.valid = true := by
  induction ds with
  | nil => simp [validSections]
  | cons d ds ih =>
    rw [validSections, List.map_cons, List.nodup_cons, List.forall_mem_cons, Bool.and_eq_true,
      Bool.and_eq_true, ih]
    simp only [Bool.not_eq_true', List.contains_eq_mem, decide_eq_false_iff_not]
    constructor
    · rintro ⟨⟨hd, hvalid⟩, hnodup, hrest⟩
      exact ⟨⟨hd, hnodup⟩, hvalid, hrest⟩
    · rintro ⟨⟨hd, hnodup⟩, hvalid, hrest⟩
      exact ⟨⟨hd, hvalid⟩, hnodup, hrest⟩

/-- The sections of a section, or of the whole configuration. -/
def sectionsIn (ds : List ConfigSection) (p : SectionRef) : List ConfigSection :=
  if p.isEmpty then ds else ((sectionAt ds p).map (·.sections)).getD []

theorem sectionAt_concat (ds : List ConfigSection) (p : SectionRef) (s : Str × Option Nat) :
    sectionAt ds (p ++ [s]) = (sectionsIn ds p).find? (·.label = s.1) := by
  induction p generalizing ds with
  | nil => rfl
  | cons a p ih =>
    cases p with
    | nil =>
      rw [List.singleton_append, sectionAt, sectionsIn, if_neg nofun, sectionAt]
      cases ds.find? (·.label = a.1) <;> rfl
    | cons b p =>
      rw [List.cons_append, List.cons_append, sectionAt, sectionsIn, if_neg nofun, sectionAt]
      cases ds.find? (·.label = a.1) with
      | none => rfl
      | some d => exact ih d.sections

theorem valid_sections {d : ConfigSection} (h : d.valid = true) :
    validSections d.sections = true := by
  obtain ⟨_, _, _, items, nameItem, sections⟩ := d
  rw [ConfigSection.valid, Bool.and_eq_true] at h
  exact h.2

theorem valid_items {d : ConfigSection} (h : d.valid = true) : (d.items.map (·.label)).Nodup := by
  obtain ⟨_, _, _, items, nameItem, sections⟩ := d
  rw [ConfigSection.valid, Bool.and_eq_true, Bool.and_eq_true] at h
  simpa using h.1.1

theorem valid_sectionAt {ds : List ConfigSection} {p : SectionRef} {d : ConfigSection}
    (h : validSections ds = true) (hd : sectionAt ds p = some d) : d.valid = true := by
  induction p generalizing ds with
  | nil => cases hd
  | cons a p ih =>
    cases p with
    | nil => exact (validSections_iff.mp h).2 d (List.mem_of_find?_eq_some hd)
    | cons b p =>
      obtain ⟨e, he, hd⟩ := Option.bind_eq_some_iff.mp hd
      exact ih (valid_sections ((validSections_iff.mp h).2 e (List.mem_of_find?_eq_some he))) hd

mutual

/-- `f` holds of the section and of all those in it. -/
def ConfigSection.all (f : ConfigSection → Bool) : ConfigSection → Bool
  | ⟨label, description, type, items, nameItem, sections⟩ =>
    f ⟨label, description, type, items, nameItem, sections⟩ && allSections f sections

def allSections (f : ConfigSection → Bool) : List ConfigSection → Bool
  | [] => true
  | d :: ds => d.all f && allSections f ds

end

theorem allSections_sectionAt {f : ConfigSection → Bool} {ds : List ConfigSection} {p : SectionRef}
    {d : ConfigSection} (h : allSections f ds = true) (hd : sectionAt ds p = some d) : f d = true := by
  have hmem : ∀ {ds : List ConfigSection} {e : ConfigSection}, allSections f ds = true → e ∈ ds →
      f e = true ∧ allSections f e.sections = true := by
    intro ds e h he
    induction ds with
    | nil => cases he
    | cons b ds ih =>
      rw [allSections, Bool.and_eq_true] at h
      rcases List.mem_cons.mp he with rfl | he
      · obtain ⟨_, _, _, _, _, sections⟩ := e
        rw [ConfigSection.all, Bool.and_eq_true] at h
        exact h.1
      · exact ih h.2 he
  induction p generalizing ds with
  | nil => cases hd
  | cons a p ih =>
    cases p with
    | nil => exact (hmem h (List.mem_of_find?_eq_some hd)).1
    | cons b p =>
      obtain ⟨e, he, hd⟩ := Option.bind_eq_some_iff.mp hd
      exact ih (hmem h (List.mem_of_find?_eq_some he)).2 hd

theorem find?_label {α : Type} {f : α → Str} {l : List α} {a : α} (h : (l.map f).Nodup)
    (ha : a ∈ l) : (l.find? fun x => f x = f a) = some a := by
  induction l with
  | nil => cases ha
  | cons b l ih =>
    rw [List.map_cons, List.nodup_cons] at h
    rcases List.mem_cons.mp ha with rfl | ha
    · simp
    · have hne : f b ≠ f a := fun heq => h.1 (heq ▸ List.mem_map_of_mem ha)
      rw [List.find?_cons_of_neg (by simpa using hne)]
      exact ih h.2 ha

variable {S : Schema} {p q : SectionRef} {d e : ConfigSection} {i : ConfigItem} {k : Option Nat}
  {l : Str}

theorem sectionsIn_valid (S : Schema) (p : SectionRef) :
    validSections (sectionsIn S.sections p) = true := by
  unfold sectionsIn
  split
  · exact S.valid
  · cases hd : sectionAt S.sections p with
    | none => rfl
    | some d => exact valid_sections (valid_sectionAt S.valid hd)

/-- A section and its copies have the definition they were built from. -/
theorem sectionAt_sub (hd : d ∈ sectionsIn S.sections p) :
    sectionAt S.sections (p ++ [(d.label, k)]) = some d := by
  rw [sectionAt_concat]
  exact find?_label (validSections_iff.mp (sectionsIn_valid S p)).1 hd

theorem sectionsIn_sub (hd : d ∈ sectionsIn S.sections p) :
    sectionsIn S.sections (p ++ [(d.label, k)]) = d.sections := by
  rw [sectionsIn, if_neg (by simp), sectionAt_sub hd]
  rfl

theorem itemAt_mem (hd : sectionAt S.sections p = some d) (hi : i ∈ d.items) :
    itemAt S p i.label = some i := by
  rw [itemAt, hd]
  exact find?_label (valid_items (valid_sectionAt S.valid hd)) hi

mutual

/-- The items whose defaults `FindEmpty` looks at, in the section `d` at `p` and below. -/
def slots (found : SectionRef → Bool) (copies : SectionRef → Nat) :
    ConfigSection → SectionRef → List (SectionRef × ConfigItem)
  | ⟨_, _, type, items, _, sections⟩, p =>
    if type = .multiple && !p.isCopy then []
    else items.map (fun i => (p, i)) ++ slotsLoop found copies sections p

def slotsLoop (found : SectionRef → Bool) (copies : SectionRef → Nat) :
    List ConfigSection → SectionRef → List (SectionRef × ConfigItem)
  | [], _ => []
  | d :: ds, p =>
    (none :: (List.range (copies (p ++ [(d.label, none)]))).map some).flatMap (fun k =>
      if !found (p ++ [(d.label, k)]) && !d.isOptional then []
      else slots found copies d (p ++ [(d.label, k)])) ++ slotsLoop found copies ds p

end

namespace MyConfig

def tryDefault (c : MyConfig) (x : SectionRef × ConfigItem) : MyConfig :=
  if c.itemFound x.1 x.2.label || x.2.defValue.isEmpty then c
  else (c.setValue x.1 x.2 x.2.defValue).2

variable {c c₁ c₂ : MyConfig} {L M : List (SectionRef × ConfigItem)} {x : SectionRef × ConfigItem}

/-- Up to what was printed, the defaults were tried. -/
def Tries (c : MyConfig) (L : List (SectionRef × ConfigItem)) (c₁ : MyConfig) : Prop :=
  ∃ out, c₁ = { L.foldl tryDefault c with cerr := out }

theorem tryDefault_cerr (out : List Str) :
    tryDefault { c with cerr := out } x = { tryDefault c x with cerr := out } := by
  unfold tryDefault
  split <;> rfl

theorem foldl_tryDefault_cerr (out : List Str) :
    L.foldl tryDefault { c with cerr := out } = { L.foldl tryDefault c with cerr := out } := by
  induction L generalizing c with
  | nil => rfl
  | cons x L ih => rw [List.foldl_cons, List.foldl_cons, tryDefault_cerr, ih]

/-- Only values change. -/
theorem foldl_tryDefault :
    ∃ v a, L.foldl tryDefault c = { c with value := v, accepted := a } := by
  induction L generalizing c with
  | nil => exact ⟨_, _, rfl⟩
  | cons x L ih =>
    obtain ⟨v, a, h⟩ : ∃ v a, tryDefault c x = { c with value := v, accepted := a } := by
      unfold tryDefault
      split
      · exact ⟨_, _, rfl⟩
      · exact ⟨_, _, rfl⟩
    obtain ⟨v', a', h'⟩ := ih (c := tryDefault c x)
    exact ⟨v', a', by rw [List.foldl_cons, h', h]⟩

theorem Tries.refl : Tries c [] c := ⟨c.cerr, rfl⟩

theorem Tries.print (h : Tries c L c₁) (l : Str) : Tries c L (c₁.print l) := by
  obtain ⟨out, rfl⟩ := h
  exact ⟨_, rfl⟩

theorem Tries.trans (h₁ : Tries c L c₁) (h₂ : Tries c₁ M c₂) : Tries c (L ++ M) c₂ := by
  obtain ⟨out, rfl⟩ := h₁
  obtain ⟨out', rfl⟩ := h₂
  exact ⟨out', by rw [foldl_tryDefault_cerr, List.foldl_append]⟩

theorem Tries.found (h : Tries c L c₁) : c₁.found = c.found ∧ c₁.copies = c.copies := by
  obtain ⟨out, rfl⟩ := h
  obtain ⟨v, a, h⟩ := foldl_tryDefault (c := c) (L := L)
  rw [h]
  exact ⟨rfl, rfl⟩

theorem checkItem_tries (start : Str) (r : Bool × MyConfig) (i : ConfigItem) :
    Tries r.2 [(p, i)] (checkItem p start r i).2 := by
  have htry : Tries r.2 [(p, i)] (tryDefault r.2 (p, i)) := ⟨_, rfl⟩
  cases h : r.2.itemFound p i.label with
  | true =>
    rw [tryDefault, if_pos (by simp [h])] at htry
    rw [checkItem, if_pos h]
    exact htry
  | false =>
    obtain ⟨s, hs⟩ : ∃ s, s = if i.defValue.isEmpty then (false, r.2)
      else r.2.setValue p i i.defValue := ⟨_, rfl⟩
    have hset : s.2 = tryDefault r.2 (p, i) := by
      rw [hs, tryDefault]
      cases i.defValue.isEmpty <;> simp [h]
    rw [← hset] at htry
    rw [checkItem, if_neg (by simp [h])]
    simp only [← hs]
    split
    · exact htry.print _
    · exact htry

theorem checkItems_tries (p : SectionRef) (start : Str) (r : Bool × MyConfig) (items : List ConfigItem) :
    Tries r.2 (items.map (fun i => (p, i))) (items.foldl (checkItem p start) r).2 := by
  induction items generalizing r with
  | nil => exact .refl
  | cons i items ih => exact (checkItem_tries start r i).trans (ih _)

/-- A loop each turn of which tries some defaults. -/
theorem foldl_tries {α : Type} {f : Bool × MyConfig → α → Bool × MyConfig}
    {g : α → List (SectionRef × ConfigItem)} {K : List α} (r : Bool × MyConfig)
    (h : ∀ k s, s.2.found = r.2.found → s.2.copies = r.2.copies → Tries s.2 (g k) (f s k).2) :
    Tries r.2 (K.flatMap g) (K.foldl f r).2 := by
  induction K generalizing r with
  | nil => exact .refl
  | cons k K ih =>
    have hone := h k r rfl rfl
    obtain ⟨hf, hc⟩ := hone.found
    exact hone.trans (ih (f r k) fun j s hsf hsc => h j s (hsf.trans hf) (hsc.trans hc))

mutual

theorem findEmpty_tries : ∀ (d : ConfigSection) (p : SectionRef) (c : MyConfig),
    Tries c (slots c.found c.copies d p) (findEmpty d p c).2
  | ⟨_, _, type, items, _, sections⟩, p, c => by
    rw [findEmpty, slots]
    split
    · exact .refl
    · have hitems := checkItems_tries p (c.start p) (false, c) items
      have hloop := findEmptyLoop_tries sections p (c.start p)
        (items.foldl (checkItem p (c.start p)) (false, c))
      obtain ⟨hf, hc⟩ := hitems.found
      rw [hf, hc] at hloop
      exact hitems.trans hloop

theorem findEmptyLoop_tries : ∀ (ds : List ConfigSection) (p : SectionRef) (start : Str)
    (r : Bool × MyConfig),
    Tries r.2 (slotsLoop r.2.found r.2.copies ds p) (findEmptyLoop ds p start r).2
  | [], p, start, r => .refl
  | d :: ds, p, start, r => by
    rw [findEmptyLoop, slotsLoop]
    have hone := foldl_tries (K := none :: (List.range (r.2.copies (p ++ [(d.label, none)]))).map some)
      (g := fun k => if !r.2.found (p ++ [(d.label, k)]) && !d.isOptional then []
        else slots r.2.found r.2.copies d (p ++ [(d.label, k)]))
      (f := fun r k =>
        if !r.2.found (p ++ [(d.label, k)]) && !d.isOptional then
          (true, r.2.print (start ++ str "missing section '" ++ d.label ++ str "' (" ++
            d.description ++ str ")"))
        else (r.1, (findEmpty d (p ++ [(d.label, k)]) r.2).2)) r (fun k s hf hc => by
          have hsub := findEmpty_tries d (p ++ [(d.label, k)]) s.2
          rw [hf, hc] at hsub
          simp only [hf]
          split
          · exact Tries.refl.print _
          · exact hsub)
    obtain ⟨hf, hc⟩ := hone.found
    generalize List.foldl _ r _ = u at hone hf hc ⊢
    have hrest := findEmptyLoop_tries ds p start u
    rw [hf, hc] at hrest
    exact hone.trans hrest

end

end MyConfig

variable {found : SectionRef → Bool} {copies : SectionRef → Nat} {x : SectionRef × ConfigItem}

theorem mem_slots : x ∈ slots found copies d p ↔ (d.isMultiple = true → isCopy p = true) ∧
    ((∃ i ∈ d.items, x = (p, i)) ∨ x ∈ slotsLoop found copies d.sections p) := by
  obtain ⟨_, _, type, items, _, sections⟩ := d
  rw [slots, ConfigSection.isMultiple]
  split
  · next h =>
    simp only [Bool.and_eq_true, Bool.not_eq_true'] at h
    refine iff_of_false nofun fun hx => ?_
    have := hx.1 h.1
    simp [h.2] at this
  · next h =>
    have hcopy : decide (type = .multiple) = true → isCopy p = true := by
      intro hm
      simpa [hm] using h
    rw [List.mem_append, List.mem_map, and_iff_right hcopy]
    simp only [eq_comm]

theorem mem_slotsLoop {ds : List ConfigSection} : x ∈ slotsLoop found copies ds p ↔
    ∃ d ∈ ds, ∃ k, (∀ j ∈ k, j < copies (p ++ [(d.label, none)])) ∧
      (found (p ++ [(d.label, k)]) = true ∨ d.isOptional = true) ∧
        x ∈ slots found copies d (p ++ [(d.label, k)]) := by
  induction ds with
  | nil => simp [slotsLoop]
  | cons d ds ih =>
    rw [slotsLoop, List.mem_append, ih, List.mem_flatMap, List.exists_mem_cons_iff _ d]
    refine or_congr_left (exists_congr fun k => ?_)
    have hk : k ∈ none :: (List.range (copies (p ++ [(d.label, none)]))).map some ↔
        ∀ j ∈ k, j < copies (p ++ [(d.label, none)]) := by
      cases k with
      | none => simp
      | some j => simp
    have hin : (x ∈ if !found (p ++ [(d.label, k)]) && !d.isOptional then []
          else slots found copies d (p ++ [(d.label, k)])) ↔
        (found (p ++ [(d.label, k)]) = true ∨ d.isOptional = true) ∧
          x ∈ slots found copies d (p ++ [(d.label, k)]) := by
      cases found (p ++ [(d.label, k)]) <;> cases d.isOptional <;> simp
    rw [hk, hin]

mutual

theorem slots_item : ∀ (d : ConfigSection) (p : SectionRef), sectionAt S.sections p = some d →
    ∀ x ∈ slots found copies d p, itemAt S x.1 x.2.label = some x.2
  | ⟨a, b, type, items, n, sections⟩, p, hd, x, hx => by
    rcases (mem_slots.mp hx).2 with ⟨i, hi, rfl⟩ | hx
    · exact itemAt_mem hd hi
    · refine slotsLoop_item sections p (fun e he k => sectionAt_sub ?_) x hx
      rw [sectionsIn, hd]
      split
      · next hnil =>
        rw [List.isEmpty_iff.mp hnil] at hd
        cases hd
      · exact he

theorem slotsLoop_item : ∀ (ds : List ConfigSection) (p : SectionRef),
    (∀ d ∈ ds, ∀ k, sectionAt S.sections (p ++ [(d.label, k)]) = some d) →
      ∀ x ∈ slotsLoop found copies ds p, itemAt S x.1 x.2.label = some x.2
  | [], p, h, x, hx => by cases hx
  | d :: ds, p, h, x, hx => by
    rw [slotsLoop] at hx
    rcases List.mem_append.mp hx with hx | hx
    · obtain ⟨k, -, hx⟩ := List.mem_flatMap.mp hx
      split at hx
      · cases hx
      · exact slots_item d _ (h d (by simp) k) x hx
    · exact slotsLoop_item ds p (fun e he => h e (by simp [he])) x hx

end

/-- The sections of the file: those that were found, and the copies; and the whole of it. -/
inductive Present (S : Schema) (found : SectionRef → Bool) (copies : SectionRef → Nat) :
    SectionRef → Prop
  | root : Present S found copies []
  | found {p : SectionRef} {d : ConfigSection} (hp : Present S found copies p)
      (hd : d ∈ sectionsIn S.sections p) (hone : d.isMultiple = false)
      (hfound : found (p ++ [(d.label, none)]) = true) : Present S found copies (p ++ [(d.label, none)])
  | copy {p : SectionRef} {d : ConfigSection} {k : Nat} (hp : Present S found copies p)
      (hd : d ∈ sectionsIn S.sections p) (hmany : d.isMultiple = true)
      (hk : k < copies (p ++ [(d.label, none)])) : Present S found copies (p ++ [(d.label, some k)])

/-- The sections in which `FindEmpty` sets the defaults: also those the file may do without. -/
inductive Visited (S : Schema) (found : SectionRef → Bool) (copies : SectionRef → Nat) :
    SectionRef → Prop
  | root : Visited S found copies []
  | original {p : SectionRef} {d : ConfigSection} (hp : Visited S found copies p)
      (hd : d ∈ sectionsIn S.sections p) (hone : d.isMultiple = false)
      (hfound : found (p ++ [(d.label, none)]) = true ∨ d.isOptional = true) :
      Visited S found copies (p ++ [(d.label, none)])
  | copy {p : SectionRef} {d : ConfigSection} {k : Nat} (hp : Visited S found copies p)
      (hd : d ∈ sectionsIn S.sections p) (hmany : d.isMultiple = true)
      (hk : k < copies (p ++ [(d.label, none)])) : Visited S found copies (p ++ [(d.label, some k)])

theorem Present.visited (h : Present S found copies p) : Visited S found copies p := by
  induction h with
  | root => exact .root
  | found _ hd hone hfound ih => exact ih.original hd hone (.inl hfound)
  | copy _ hd hmany hk ih => exact ih.copy hd hmany hk

theorem Visited.reached (h : Visited S found copies p) :
    (∀ x ∈ slotsLoop found copies (sectionsIn S.sections p) p, x ∈ slotsLoop found copies S.sections []) ∧
      ∀ d, sectionAt S.sections p = some d → ∀ i ∈ d.items, (p, i) ∈ slotsLoop found copies S.sections [] := by
  have hsub : ∀ {p : SectionRef} {d : ConfigSection} {k : Option Nat},
      d ∈ sectionsIn S.sections p → (∀ j ∈ k, j < copies (p ++ [(d.label, none)])) →
      (found (p ++ [(d.label, k)]) = true ∨ d.isOptional = true) →
      (d.isMultiple = true → isCopy (p ++ [(d.label, k)]) = true) →
      (∀ x ∈ slotsLoop found copies (sectionsIn S.sections p) p, x ∈ slotsLoop found copies S.sections []) →
      (∀ x ∈ slotsLoop found copies (sectionsIn S.sections (p ++ [(d.label, k)])) (p ++ [(d.label, k)]),
        x ∈ slotsLoop found copies S.sections []) ∧
      ∀ e, sectionAt S.sections (p ++ [(d.label, k)]) = some e → ∀ i ∈ e.items,
        (p ++ [(d.label, k)], i) ∈ slotsLoop found copies S.sections [] := by
    intro p d k hd hk hfound hcopy hup
    have hin : ∀ x ∈ slots found copies d (p ++ [(d.label, k)]), x ∈ slotsLoop found copies S.sections [] :=
      fun x hx => hup x (mem_slotsLoop.mpr ⟨d, hd, k, hk, hfound, hx⟩)
    constructor
    · intro x hx
      rw [sectionsIn_sub hd] at hx
      exact hin x (mem_slots.mpr ⟨hcopy, .inr hx⟩)
    · intro e he i hi
      obtain rfl := Option.some.inj ((sectionAt_sub hd).symm.trans he)
      exact hin _ (mem_slots.mpr ⟨hcopy, .inl ⟨i, hi, rfl⟩⟩)
  induction h with
  | root => exact ⟨fun x hx => hx, nofun⟩
  | original hp hd hone hfound ih =>
    exact hsub hd nofun hfound (fun hm => by rw [hone] at hm; cases hm) ih.1
  | copy hp hd hmany hk ih =>
    refine hsub hd (fun j hj => ?_) (.inr ?_) (fun _ => by simp [isCopy]) ih.1
    · obtain rfl := Option.some.inj hj
      exact hk
    · simpa [ConfigSection.isOptional, ConfigSection.isMultiple] using Or.inr hmany

theorem readInt_again (n : Int) (s : Str) : readInt (readInt n s) s = readInt n s := by
  unfold readInt
  split <;> rfl

/-- To set a value twice is to set it once. -/
theorem ItemType.setValue_again (t : ItemType) (v : Value) (s : Str) :
    t.setValue (t.setValue v s).2 s = t.setValue v s := by
  cases t with
  | string => rfl
  | int min max =>
    by_cases hs : s.all Char.isDigit = true
    · simp only [setValue, hs, if_true, readInt_again]
    · simp only [setValue, hs, if_false, Bool.false_eq_true]
  | intrange min max =>
    cases hs : rangeLoop true [] [] s with
    | none => simp only [setValue, hs]
    | some r => simp only [setValue, hs, readInt_again]
  | bool =>
    simp only [setValue]
    split
    · rfl
    split
    · rfl
    · rfl

namespace MyConfig

variable {c : MyConfig} {L : List (SectionRef × ConfigItem)}

/-- What a slot holds, and whether it was accepted. -/
def slot (c : MyConfig) (p : SectionRef) (l : Str) : Bool × Value := (c.accepted p l, c.value p l)

theorem tryDefault_slot {x : SectionRef × ConfigItem} (q : SectionRef) (l : Str) :
    (tryDefault c x).slot q l =
      if q = x.1 ∧ l = x.2.label ∧ c.itemFound q l = false ∧ x.2.defValue ≠ [] then
        x.2.type.setValue (c.value q l) x.2.defValue
      else c.slot q l := by
  unfold tryDefault
  by_cases hx : q = x.1 ∧ l = x.2.label
  · obtain ⟨rfl, rfl⟩ := hx
    cases c.itemFound x.1 x.2.label with
    | true => simp
    | false =>
      cases x.2.defValue with
      | nil => simp
      | cons a s => simp [slot, setValue]
  · have hno : ¬ (q = x.1 ∧ l = x.2.label ∧ c.itemFound q l = false ∧ x.2.defValue ≠ []) :=
      fun h => hx ⟨h.1, h.2.1⟩
    rw [if_neg hno]
    split
    · rfl
    · simp only [slot, setValue, update_update, if_neg hx]

/-- Each default that is tried is set, once and for all. -/
theorem foldl_slot (hxs : ∀ x ∈ L, itemAt S x.1 x.2.label = some x.2) (hi : itemAt S q l = some i) :
    (L.foldl tryDefault c).slot q l =
      if (q, i) ∈ L ∧ c.itemFound q l = false ∧ i.defValue ≠ [] then
        i.type.setValue (c.value q l) i.defValue
      else c.slot q l := by
  induction L generalizing c with
  | nil => simp
  | cons x L ih =>
    obtain ⟨v, a, hkeep⟩ : ∃ v a, tryDefault c x = { c with value := v, accepted := a } :=
      foldl_tryDefault (L := [x])
    have hfound : (tryDefault c x).itemFound = c.itemFound := by rw [hkeep]
    have hone := tryDefault_slot (c := c) (x := x) q l
    rw [List.foldl_cons, ih fun y hy => hxs y (by simp [hy]), hfound]
    have hvalue : (tryDefault c x).value q l = ((tryDefault c x).slot q l).2 := rfl
    rw [hvalue, hone]
    by_cases hx : q = x.1 ∧ l = x.2.label
    · obtain ⟨rfl, rfl⟩ := hx
      obtain rfl := Option.some.inj ((hxs x (by simp)).symm.trans hi)
      by_cases hset : c.itemFound x.1 x.2.label = false ∧ x.2.defValue ≠ []
      · simp only [hset, and_self, and_true, not_false_eq_true, ne_eq, if_true, List.mem_cons,
          true_or]
        split
        · exact ItemType.setValue_again _ _ _
        · rfl
      · simp [hset]
    · have hne : (q, i) ≠ x := by
        rintro rfl
        exact hx ⟨rfl, (itemAt_label hi).symm⟩
      have hno : ¬ (q = x.1 ∧ l = x.2.label ∧ c.itemFound q l = false ∧ x.2.defValue ≠ []) :=
        fun h => hx ⟨h.1, h.2.1⟩
      rw [if_neg hno]
      simp only [List.mem_cons, hne, false_or]
      rfl

end MyConfig
end Minbif
