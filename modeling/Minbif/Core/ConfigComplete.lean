import Minbif.Core.ConfigLoaded
import Minbif.Core.MinbifConfig

/-! Whether a configuration that loads is complete. -/
namespace Minbif
open SectionRef

/-- No section of the file lacks a section or an item. -/
structure Complete (c : MyConfig) : Prop where
  sections : ∀ p, Present c.schema c.found c.copies p → ∀ d ∈ sectionsIn c.schema.sections p,
    d.isOptional = false → c.found (p ++ [(d.label, none)]) = true
  items : ∀ p d i, Present c.schema c.found c.copies p → sectionAt c.schema.sections p = some d →
    i ∈ d.items → (c.itemFound p i.label = true ∧ c.accepted p i.label = true) ∨
      (c.itemFound p i.label = false ∧ i.defValue ≠ [] ∧ c.accepted p i.label = true)

/-- Each section that the file opens is given the sections it must have, and a value for every item
without a good default. -/
structure Supplied (S : Schema) (base : SectionRef → Str → Value) (r : Reading) : Prop where
  sections : ∀ p, Present S r.opened r.copies p → ∀ d ∈ sectionsIn S.sections p,
    d.isOptional = false → r.opened (p ++ [(d.label, none)]) = true
  items : ∀ p d i, Present S r.opened r.copies p → sectionAt S.sections p = some d → i ∈ d.items →
    r.texts p i.label ≠ [] ∨
      (i.defValue ≠ [] ∧ (i.type.setValue (base p i.label) i.defValue).1 = true)

variable {S : Schema} {base : SectionRef → Str → Value} {r : Reading} {result : Bool × MyConfig}
  {c : MyConfig} {memory : SectionRef → Str → Value} {content : Str}

theorem Loaded.complete_iff (h : Loaded S base r result) (hok : result.1 = true) :
    Complete result.2 ↔ Supplied S base r := by
  have hacc := (h.ok.mp hok).2
  have hgiven : ∀ {p : SectionRef} {d : ConfigSection} {i : ConfigItem},
      Present S r.opened r.copies p → sectionAt S.sections p = some d → i ∈ d.items →
      r.texts p i.label ≠ [] → result.2.accepted p i.label = true := by
    intro p d i hp hd hi ht
    have hputs : r.puts p i = r.texts p i.label := if_pos ht
    refine (h.accepted p d i hp hd hi (by rwa [hputs]) fun _ => hok).mpr ?_
    rw [hputs]
    exact hacc p i.label i (itemAt_mem hd hi)
  have hdefault : ∀ {p : SectionRef} {d : ConfigSection} {i : ConfigItem},
      Present S r.opened r.copies p → sectionAt S.sections p = some d → i ∈ d.items →
      r.texts p i.label = [] → i.defValue ≠ [] → (result.2.accepted p i.label = true ↔
        (i.type.setValue (base p i.label) i.defValue).1 = true) := by
    intro p d i hp hd hi ht hdef
    have hputs : r.puts p i = [i.defValue] := by
      rw [Reading.puts, if_neg (not_not.mpr ht), if_neg (by simpa using hdef)]
    rw [h.accepted p d i hp hd hi (by simp [hputs]) fun hne => absurd ht hne, hputs]
    simp [ItemType.accepts]
  constructor
  · rintro ⟨hsections, hitems⟩
    rw [h.schema, h.found, h.copies] at hsections hitems
    refine ⟨hsections, fun p d i hp hd hi => ?_⟩
    rcases hitems p d i hp hd hi with ⟨hfound, -⟩ | ⟨hfound, hdef, haccepted⟩
    · exact .inl ((h.itemFound p i.label).mp hfound)
    · by_cases ht : r.texts p i.label = []
      · exact .inr ⟨hdef, (hdefault hp hd hi ht hdef).mp haccepted⟩
      · exact .inl ht
  · rintro ⟨hsections, hitems⟩
    refine ⟨by rwa [h.schema, h.found, h.copies], ?_⟩
    rw [h.schema, h.found, h.copies]
    intro p d i hp hd hi
    by_cases ht : r.texts p i.label = []
    · obtain ⟨hdef, hset⟩ := (hitems p d i hp hd hi).resolve_left (not_not.mpr ht)
      have hfound : result.2.itemFound p i.label = false := by
        rw [← Bool.not_eq_true, h.itemFound]
        exact not_not.mpr ht
      exact .inr ⟨hfound, hdef, (hdefault hp hd hi ht hdef).mpr hset⟩
    · exact .inl ⟨(h.itemFound p i.label).mpr ht, hgiven hp hd hi ht⟩

/-- What loads is complete exactly if the file is refused for its lines, its values or a missing
head section, or supplies all that its sections need. -/
theorem load_complete_iff (c : MyConfig) (memory : SectionRef → Str → Value) (content : Str) :
    let r := Reading.ofFile c.schema c.name content
    ((c.load memory (some content)).1 = true → Complete (c.load memory (some content)).2) ↔
      r.Refused c.schema ∨ (∃ p l i, itemAt c.schema p l = some i ∧
          i.type.accepts (before c memory p l) (r.texts p l) = false) ∨
        Supplied c.schema (before c memory) r := by
  intro r
  have h := loaded c memory content
  by_cases hok : (c.load memory (some content)).1 = true
  · obtain ⟨hrefused, hacc⟩ := h.ok.mp hok
    have hno : ¬ ∃ p l i, itemAt c.schema p l = some i ∧
        i.type.accepts (before c memory p l) (r.texts p l) = false := by
      rintro ⟨p, l, i, hi, hfalse⟩
      rw [hacc p l i hi] at hfalse
      cases hfalse
    rw [h.complete_iff hok]
    simp [hok, hno, r, hrefused]
  · refine iff_of_true (fun h => absurd h hok) ?_
    rw [h.ok, not_and_or, not_not] at hok
    rcases hok with hok | hok
    · exact .inl hok
    · simp only [not_forall, Bool.not_eq_true] at hok
      obtain ⟨p, l, i, hi, hfalse⟩ := hok
      exact .inr (.inl ⟨p, l, i, hi, hfalse⟩)

/-- `Load` returns true although neither the users directory nor the logging level is there. -/
theorem load_incomplete :
    ¬ ((MyConfig.load (minbifConfig true true) (fun _ _ => {})
        (some (str "path \x7b\n\x7d\nirc \x7b\n\x7d\nlogging \x7b\n\x7d\n"))).1 = true →
      Complete (MyConfig.load (minbifConfig true true) (fun _ _ => {})
        (some (str "path \x7b\n\x7d\nirc \x7b\n\x7d\nlogging \x7b\n\x7d\n"))).2) := by
  intro h
  have hcomplete := h (by decide +kernel)
  have hschema := (loaded (minbifConfig true true) (fun _ _ => {})
    (str "path \x7b\n\x7d\nirc \x7b\n\x7d\nlogging \x7b\n\x7d\n")).schema
  have hpath : pathSection ∈ sectionsIn (minbifSchema true true).sections [] := by
    simp [sectionsIn, minbifSchema]
  have hitems := hcomplete.items [(str "path", none)] pathSection
    ⟨str "users", str "Users directory", .string, []⟩
  rw [hschema] at hitems
  rcases hitems (.found .root hpath rfl (by decide +kernel)) (sectionAt_sub hpath) (by simp [pathSection])
    with ⟨hfound, -⟩ | ⟨-, hdef, -⟩
  · revert hfound
    decide +kernel
  · exact hdef rfl

end Minbif
