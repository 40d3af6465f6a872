import Minbif.Core.ConfigDefaults

/-! What `Load` leaves: what the file says, and the defaults where it says nothing. -/
namespace Minbif
open Function SectionRef

variable {S : Schema} {r : Reading} {c : MyConfig} {p q t : SectionRef} {d : ConfigSection}
  {i : ConfigItem} {l : Str} {k : Nat} {memory : SectionRef → Str → Value}

theorem sectionAt_congr {ds : List ConfigSection} (h : p.map Prod.fst = q.map Prod.fst) :
    sectionAt ds p = sectionAt ds q := by
  induction p generalizing q ds with
  | nil =>
    obtain rfl : q = [] := List.map_eq_nil_iff.mp h.symm
    rfl
  | cons a p ih =>
    obtain ⟨b, q, rfl⟩ := List.exists_cons_of_ne_nil (show q ≠ [] by rintro rfl; cases h)
    simp only [List.map_cons, List.cons.injEq] at h
    obtain ⟨hab, hpq⟩ := h
    cases p with
    | nil =>
      obtain rfl : q = [] := List.map_eq_nil_iff.mp hpq.symm
      rw [sectionAt, sectionAt, hab]
    | cons a' p =>
      obtain ⟨b', q, rfl⟩ := List.exists_cons_of_ne_nil (show q ≠ [] by rintro rfl; cases hpq)
      rw [sectionAt, sectionAt, hab]
      exact congrArg _ (funext fun e => ih hpq)

theorem sectionAt_original {ds : List ConfigSection} : sectionAt ds (original p) = sectionAt ds p :=
  sectionAt_congr (by simp [original, Function.comp_def])

theorem labels_copy (h : t ≠ []) : (copy t k).map Prod.fst = t.map Prod.fst := by
  rcases List.eq_nil_or_concat t with rfl | ⟨u, s, rfl⟩
  · exact absurd rfl h
  · simp [copy, parent, original, label, Function.comp_def]

/-- Only the sections that are MULTIPLE are copied. -/
def Reading.Tidy (S : Schema) (r : Reading) : Prop :=
  ∀ p d, sectionAt S.sections p = some d → 0 < r.copies p → d.isMultiple = true

theorem Reading.Tidy.addCopy (h : r.Tidy S) (hd : sectionAt S.sections t = some d)
    (hmany : d.isMultiple = true) : (r.addCopy t).Tidy S := by
  intro p e he hpos
  have hne : t ≠ [] := by
    rintro rfl
    cases hd
  simp only [Reading.addCopy] at hpos
  split at hpos
  · next hp =>
    rw [hp, sectionAt_original, hd] at he
    exact Option.some.inj he ▸ hmany
  split at hpos
  · next hn =>
    obtain ⟨q, rfl⟩ := hn
    rw [List.drop_left] at hpos
    refine h (t ++ q) e ?_ hpos
    rw [← he]
    exact sectionAt_congr (by rw [List.map_append, List.map_append, labels_copy hne])
  · exact h p e he hpos

theorem Reading.Tidy.line (h : r.Tidy S) (ligne : Str) : (r.line S ligne).Tidy S := by
  rw [Reading.line]
  cases ConfigLine.of ligne with
  | skip => exact h
  | item label rest =>
    simp only [Reading.gives]
    split <;> exact h
  | close => exact h
  | «section» tab =>
    simp only [Reading.opens]
    split
    · exact h
    · next d hd =>
      split
      · next hmany => exact Reading.Tidy.addCopy (r := { r with opened := _, current := _ }) h hd hmany
      · exact h

theorem tidy_ofFile (S : Schema) (name : SectionRef → Str) (content : Str) :
    (Reading.ofFile S name content).Tidy S := by
  have hgen : ∀ (lines : List Str) (r : Reading), r.Tidy S → (lines.foldl (Reading.line S) r).Tidy S := by
    intro lines
    induction lines with
    | nil => exact fun r h => h
    | cons a lines ih => exact fun r h => ih _ (h.line a)
  exact hgen _ _ fun p d _ hpos => absurd hpos (Nat.lt_irrefl 0)

namespace MyConfig

theorem foldl_error {α : Type} {f : Bool × MyConfig → α → Bool × MyConfig}
    {b : α → (SectionRef → Bool) → Bool} {K : List α} (r : Bool × MyConfig)
    (hone : ∀ k s, (f s k).1 = (s.1 || b k s.2.found))
    (hsame : ∀ k s, (f s k).2.found = s.2.found) :
    (K.foldl f r).1 = true ↔ r.1 = true ∨ ∃ k ∈ K, b k r.2.found = true := by
  induction K generalizing r with
  | nil => simp
  | cons k K ih =>
    rw [List.foldl_cons, ih, hone, hsame, Bool.or_eq_true, or_assoc]
    simp

theorem findEmptyLoop_error {ds : List ConfigSection} {start : Str} {r : Bool × MyConfig} :
    (findEmptyLoop ds p start r).1 = true ↔ r.1 = true ∨ ∃ d ∈ ds, d.isOptional = false ∧
      ∃ k, (∀ j ∈ k, j < r.2.copies (p ++ [(d.label, none)])) ∧
        r.2.found (p ++ [(d.label, k)]) = false := by
  induction ds generalizing r with
  | nil => simp [findEmptyLoop]
  | cons d ds ih =>
    let f := fun (r : Bool × MyConfig) (k : Option Nat) =>
      if !r.2.found (p ++ [(d.label, k)]) && !d.isOptional then
        (true, r.2.print (start ++ str "missing section '" ++ d.label ++ str "' (" ++
          d.description ++ str ")"))
      else (r.1, (findEmpty d (p ++ [(d.label, k)]) r.2).2)
    have hkeep : ∀ k s, (f s k).2.found = s.2.found ∧ (f s k).2.copies = s.2.copies := by
      intro k s
      simp only [f]
      split
      · exact ⟨rfl, rfl⟩
      · exact (findEmpty_tries d (p ++ [(d.label, k)]) s.2).found
    have hfold : ∀ (K : List (Option Nat)) s, (K.foldl f s).2.found = s.2.found ∧
        (K.foldl f s).2.copies = s.2.copies := by
      intro K
      induction K with
      | nil => exact fun s => ⟨rfl, rfl⟩
      | cons k K ihK =>
        intro s
        obtain ⟨hf, hc⟩ := ihK (f s k)
        exact ⟨hf.trans (hkeep k s).1, hc.trans (hkeep k s).2⟩
    have hone : ∀ k s, (f s k).1 = (s.1 || (!s.2.found (p ++ [(d.label, k)]) && !d.isOptional)) := by
      intro k s
      simp only [f]
      split
      · next h => simp [h]
      · next h => simp [Bool.not_eq_true _ ▸ h]
    have herr := foldl_error (f := f) (K := none :: (List.range (r.2.copies (p ++ [(d.label, none)]))).map some)
      (b := fun k found => !found (p ++ [(d.label, k)]) && !d.isOptional) r hone fun k s => (hkeep k s).1
    rw [findEmptyLoop, ih]
    change ((List.foldl f r _).1 = true ∨ _) ↔ _
    rw [herr, (hfold _ r).1, (hfold _ r).2, or_assoc, List.exists_mem_cons_iff _ d]
    refine or_congr_right (or_congr_left ?_)
    have hk : ∀ k, k ∈ none :: (List.range (r.2.copies (p ++ [(d.label, none)]))).map some ↔
        ∀ j ∈ k, j < r.2.copies (p ++ [(d.label, none)]) := by
      intro k
      cases k with
      | none => simp
      | some j => simp
    simp only [hk, Bool.and_eq_true, Bool.not_eq_true']
    constructor
    · rintro ⟨k, hlt, hfound, hopt⟩
      exact ⟨hopt, k, hlt, hfound⟩
    · rintro ⟨hopt, k, hlt, hfound⟩
      exact ⟨k, hlt, hfound, hopt⟩

end MyConfig

/-- The values an item is set to: those of the file, else its default. -/
def Reading.puts (r : Reading) (p : SectionRef) (i : ConfigItem) : List Str :=
  if r.texts p i.label ≠ [] then r.texts p i.label
  else if i.defValue.isEmpty then [] else [i.defValue]

/-- The file is refused for one of its lines, for the end it lacks or for a missing section. -/
def Reading.Refused (S : Schema) (r : Reading) : Prop :=
  r.error = true ∨ r.current ≠ [] ∨
    ∃ d ∈ S.sections, d.isOptional = false ∧ r.opened [(d.label, none)] = false

/-- What `Load` returns and leaves. -/
structure Loaded (S : Schema) (base : SectionRef → Str → Value) (r : Reading)
    (result : Bool × MyConfig) : Prop where
  ok : result.1 = true ↔ ¬ r.Refused S ∧
    ∀ p l i, itemAt S p l = some i → i.type.accepts (base p l) (r.texts p l) = true
  schema : result.2.schema = S
  found : result.2.found = r.opened
  name : result.2.name = r.name
  copies : result.2.copies = r.copies
  itemFound : ∀ p l, result.2.itemFound p l = true ↔ r.texts p l ≠ []
  value : ∀ p d i, Visited S r.opened r.copies p → sectionAt S.sections p = some d → i ∈ d.items →
    result.2.value p i.label = i.type.holds (base p i.label) (r.puts p i)
  accepted : ∀ p d i, Present S r.opened r.copies p → sectionAt S.sections p = some d → i ∈ d.items →
    r.puts p i ≠ [] → (r.texts p i.label ≠ [] → result.1 = true) →
      (result.2.accepted p i.label = true ↔ i.type.accepts (base p i.label) (r.puts p i) = true)

/-- A section that is missing was not opened at all: its copies are of a section that is optional. -/
theorem Agrees.missing {base : SectionRef → Str → Value} {error : Bool} (start : Str)
    (h : Agrees S base { r with error := error } c) (htidy : r.Tidy S) :
    (MyConfig.findEmptyLoop S.sections [] start (false, c)).1 = true ↔
      ∃ d ∈ S.sections, d.isOptional = false ∧ r.opened [(d.label, none)] = false := by
  rw [MyConfig.findEmptyLoop_error, h.found, h.copies]
  constructor
  · rintro (hno | ⟨d, hd, hopt, k, hk, hfound⟩)
    · cases hno
    · cases k with
      | none => exact ⟨d, hd, hopt, hfound⟩
      | some j =>
        have hat : sectionAt S.sections [(d.label, none)] = some d := sectionAt_sub (p := []) hd
        have hmany := htidy _ d hat (Nat.lt_of_le_of_lt (Nat.zero_le j) (hk j rfl))
        rw [ConfigSection.isMultiple, decide_eq_true_eq] at hmany
        simp [ConfigSection.isOptional, hmany] at hopt
  · rintro ⟨d, hd, hopt, hfound⟩
    exact .inr ⟨d, hd, hopt, none, by simp, hfound⟩

/-- The items that the file says nothing of are given their defaults, and nothing else changes. -/
theorem Agrees.defaults {base : SectionRef → Str → Value} {error : Bool} (start : Str)
    (h : Agrees S base { r with error := error } c) : ∃ v a out,
    (MyConfig.findEmptyLoop S.sections [] start (false, c)).2 =
        { c with value := v, accepted := a, cerr := out } ∧
      ∀ p d i, Visited S r.opened r.copies p → sectionAt S.sections p = some d → i ∈ d.items →
        (a p i.label, v p i.label) =
          if r.texts p i.label = [] ∧ i.defValue ≠ [] then
            i.type.setValue (c.value p i.label) i.defValue
          else (c.accepted p i.label, c.value p i.label) := by
  obtain ⟨out, hout⟩ := MyConfig.findEmptyLoop_tries S.sections [] start (false, c)
  simp only [h.found, h.copies] at hout
  obtain ⟨v, a, hfold⟩ := MyConfig.foldl_tryDefault (c := c)
    (L := slotsLoop r.opened r.copies S.sections [])
  refine ⟨v, a, out, by rw [hout, hfold], fun p d i hp hd hi => ?_⟩
  have hmem := hp.reached.2 d hd i hi
  have hone := MyConfig.foldl_slot (c := c) (slotsLoop_item S.sections [] fun e he k =>
    sectionAt_sub (p := []) he) (itemAt_mem hd hi) (L := slotsLoop r.opened r.copies S.sections [])
  rw [hfold] at hone
  have hcond : ((p, i) ∈ slotsLoop r.opened r.copies S.sections [] ∧
      c.itemFound p i.label = false ∧ i.defValue ≠ []) ↔ r.texts p i.label = [] ∧ i.defValue ≠ [] := by
    rw [and_iff_right hmem, ← Bool.not_eq_true, h.itemFound, not_not]
    rfl
  simp only [hcond] at hone
  exact hone

/-- `FindEmpty`, after the lines were read and the end was looked at. -/
theorem Agrees.findEmpty {base : SectionRef → Str → Value} (start : Str) {u : Bool × MyConfig}
    (h : Agrees S base { r with error := r.error || !r.current.isEmpty } c) (htidy : r.Tidy S)
    (hu : u = MyConfig.findEmptyLoop S.sections [] start (false, c)) :
    Loaded S base r (!(u.2.error || u.1), { u.2 with error := u.2.error || u.1 }) := by
  have herr := h.missing start htidy
  obtain ⟨v, a, out, hu2, hslot⟩ := h.defaults start
  rw [← hu] at herr hu2
  have hbase : ∀ p d i, sectionAt S.sections p = some d → i ∈ d.items →
      c.value p i.label = i.type.holds (base p i.label) (r.texts p i.label) :=
    fun p d i hd hi => h.value p i.label i (itemAt_mem hd hi)
  have hok : (!(u.2.error || u.1)) = true ↔ ¬ r.Refused S ∧
      ∀ p l i, itemAt S p l = some i → i.type.accepts (base p l) (r.texts p l) = true := by
    rw [Bool.not_eq_true', Bool.or_eq_false_iff, ← Bool.not_eq_true, ← Bool.not_eq_true, hu2, herr,
      h.error]
    have hrefused : r.Refused S ↔ (r.error || !r.current.isEmpty) = true ∨
        ∃ d ∈ S.sections, d.isOptional = false ∧ r.opened [(d.label, none)] = false := by
      simp [Reading.Refused, or_assoc]
    rw [hrefused, not_or, not_or, and_right_comm]
    refine and_congr_right fun _ => ?_
    simp only [not_exists, not_and, Bool.not_eq_false]
    exact Iff.rfl
  refine ⟨hok, ?_, ?_, ?_, ?_, ?_, ?_, ?_⟩
  · rw [hu2]
    exact h.schema
  · rw [hu2]
    exact h.found
  · rw [hu2]
    exact h.name
  · rw [hu2]
    exact h.copies
  · rw [hu2]
    exact h.itemFound
  · intro p d i hp hd hi
    have hv := congrArg Prod.snd (hslot p d i hp hd hi)
    have hval := hbase p d i hd hi
    rw [hu2]
    simp only at hv ⊢
    rw [hv, Reading.puts]
    by_cases htext : r.texts p i.label = []
    · rw [htext] at hval ⊢
      cases hdef : i.defValue with
      | nil => simpa using hval
      | cons x s =>
        simp only [ne_eq, not_true_eq_false, reduceCtorEq, not_false_eq_true, and_self, if_true, if_false]
        rw [hval]
        rfl
    · rw [if_neg fun hc => htext hc.1, if_pos htext]
      exact hval
  · intro p d i hp hd hi hputs htrue
    have ha := congrArg Prod.fst (hslot p d i hp.visited hd hi)
    have hval := hbase p d i hd hi
    rw [hu2]
    simp only at ha ⊢
    rw [ha]
    by_cases htext : r.texts p i.label = []
    · have hdef : i.defValue ≠ [] := by
        intro hdef
        simp [Reading.puts, htext, hdef] at hputs
      rw [if_pos ⟨htext, hdef⟩, Reading.puts, if_neg (not_not.mpr htext), hval, htext]
      cases hd : i.defValue with
      | nil => exact absurd hd hdef
      | cons x s => simp [ItemType.accepts]
    · rw [if_neg fun hc => htext hc.1]
      rw [Reading.puts, if_pos htext]
      -- the file was not refused, so none of its values was
      have hacc := (hok.mp (htrue htext)).2 p i.label i (itemAt_mem hd hi)
      exact iff_of_true (h.accepted p i.label i (itemAt_mem hd hi) htext hacc) hacc

/-- The end of the file, in the middle of a section or not. -/
theorem Agrees.ending {base : SectionRef → Str → Value} (h : Agrees S base r c) :
    Agrees S base { r with error := r.error || !r.current.isEmpty } c.ending := by
  rw [MyConfig.ending, h.current]
  cases r.current.isEmpty with
  | true => simpa using h
  | false => simpa using h.fail

theorem loaded (c : MyConfig) (memory : SectionRef → Str → Value) (content : Str) :
    Loaded c.schema (before c memory) (Reading.ofFile c.schema c.name content)
      (c.load memory (some content)) := by
  have hread := ((agrees_opening (c := c) memory).lines (fileLines content)).ending
  refine hread.findEmpty (str "in global porty: ") (tidy_ofFile c.schema c.name content) ?_
  rw [hread.schema]

end Minbif
