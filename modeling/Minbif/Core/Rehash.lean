import Minbif.Core.ConfigLoaded
import Minbif.Core.MinbifConfig

/-! A file loaded after another, and the same file loaded by a new process. -/
namespace Minbif
open Function SectionRef

/-- A configuration that was just built: strings are empty, what the other items hold is what was in
memory. -/
def MyConfig.built (S : Schema) (memory : SectionRef → Str → Value) : MyConfig where
  schema := S
  value := fun p l => { memory p l with string := [] }

/-- No section that can be copied has sections of its own. -/
def Flat (S : Schema) : Prop :=
  ∀ p d, sectionAt S.sections p = some d → d.isMultiple = true → d.sections = []

theorem flat_of_allSections {S : Schema}
    (h : allSections (fun d => !d.isMultiple || d.sections.isEmpty) S.sections = true) : Flat S := by
  intro p d hd hmany
  simpa [hmany] using allSections_sectionAt h hd

theorem flat_minbif (tls pam : Bool) : Flat (minbifSchema tls pam) :=
  flat_of_allSections (by cases tls <;> cases pam <;> decide +kernel)

variable {S : Schema} {r u : Reading} {p q : SectionRef} {d : ConfigSection} {i : ConfigItem}
  {l value : Str} {k : Nat}

/-- The section that is read is a copy exactly if it can be. -/
def Reading.Placed (S : Schema) (r : Reading) : Prop :=
  r.current = [] ∨ ∃ d, sectionAt S.sections r.current = some d ∧ isCopy r.current = d.isMultiple

theorem isCopy_original (p : SectionRef) : isCopy (original p) = false := by
  rcases List.eq_nil_or_concat p with rfl | ⟨q, s, rfl⟩
  · rfl
  · simp [isCopy, original]

theorem isCopy_copy (p : SectionRef) (k : Nat) : isCopy (copy p k) = true := by
  simp [isCopy, copy]

theorem sectionAt_copy {ds : List ConfigSection} (h : p ≠ []) :
    sectionAt ds (copy p k) = sectionAt ds p :=
  sectionAt_congr (labels_copy h)

/-- A section in another has a parent, which cannot be copied. -/
theorem Flat.parent (hflat : Flat S) {s : Str × Option Nat} (hd : sectionAt S.sections (q ++ [s]) = some d)
    (hq : q ≠ []) : ∃ e, sectionAt S.sections q = some e ∧ e.isMultiple = false := by
  rw [sectionAt_concat] at hd
  have hmem := List.mem_of_find?_eq_some hd
  rw [sectionsIn, if_neg (by simpa using hq)] at hmem
  cases he : sectionAt S.sections q with
  | none => simp [he] at hmem
  | some e =>
    refine ⟨e, rfl, ?_⟩
    cases hmany : e.isMultiple with
    | false => rfl
    | true => simp [he, hflat q e he hmany] at hmem

theorem Reading.Placed.line (hflat : Flat S) (h : r.Placed S) (ligne : Str) :
    (r.line S ligne).Placed S := by
  rw [Reading.line]
  cases ConfigLine.of ligne with
  | skip => exact h
  | item label rest =>
    simp only [Reading.gives]
    split <;> exact h
  | close =>
    show parent r.current = [] ∨ ∃ e, sectionAt S.sections (parent r.current) = some e ∧
      isCopy (parent r.current) = e.isMultiple
    rcases h with hnil | ⟨d, hd, -⟩
    · exact .inl (by rw [hnil]; rfl)
    · rcases List.eq_nil_or_concat r.current with hnil | ⟨q, s, hq⟩
      · exact .inl (by rw [hnil]; rfl)
      · rw [hq, List.concat_eq_append] at hd ⊢
        have hparent : parent (q ++ [s]) = original q := by simp [parent, original]
        rw [hparent]
        by_cases hne : q = []
        · exact .inl (by rw [hne]; rfl)
        · obtain ⟨e, he, hone⟩ := hflat.parent hd hne
          exact .inr ⟨e, sectionAt_original.trans he, by rw [isCopy_original, hone]⟩
  | «section» tab =>
    simp only [Reading.opens]
    split
    · exact .inl rfl
    · next d hd =>
      split
      · next hmany =>
        exact .inr ⟨d, (sectionAt_copy (by simp)).trans hd, (isCopy_copy _ _).trans hmany.symm⟩
      · next hone => exact .inr ⟨d, hd, by simpa [isCopy] using hone⟩

/-- The sections that can be copied. -/
def ManyAt (S : Schema) (p : SectionRef) : Prop :=
  (sectionAt S.sections p).any ConfigSection.isMultiple = true

/-- The names of two readings agree where they are looked up. -/
structure Alike (S : Schema) (r u : Reading) : Prop where
  opened : u.opened = r.opened
  copies : u.copies = r.copies
  given : u.given = r.given
  current : u.current = r.current
  error : u.error = r.error
  name : ∀ p, ManyAt S p → u.name p = r.name p

theorem Alike.named (h : Alike S r u) (hp : p ≠ []) : u.named S p value = r.named S p value := by
  rw [Reading.named, Reading.named]
  cases hmany : (sectionAt S.sections p).any ConfigSection.isMultiple with
  | false => rfl
  | true =>
    have horig : ManyAt S (original p) := by rwa [ManyAt, sectionAt_original]
    have hcopy : ∀ k, ManyAt S (copy p k) := fun k => by rwa [ManyAt, sectionAt_copy hp]
    simp only [h.copies, h.name _ horig, h.name _ (hcopy _)]

theorem Alike.line (h : Alike S r u) (hplaced : r.Placed S) (ligne : Str) :
    Alike S (r.line S ligne) (u.line S ligne) := by
  rw [Reading.line, Reading.line]
  cases ConfigLine.of ligne with
  | skip => exact h
  | item label rest =>
    have hrefuses : ∀ value, u.refuses S label value = r.refuses S label value := by
      intro value
      rw [Reading.refuses, Reading.refuses, h.current]
      by_cases hne : r.current = []
      · rw [hne]
        rfl
      · rw [h.named hne]
    simp only [Reading.gives, hrefuses]
    split
    · exact ⟨h.opened, h.copies, h.given, h.current, rfl, h.name⟩
    · refine ⟨h.opened, h.copies, by rw [h.given, h.current], h.current, h.error, fun p hp => ?_⟩
      rw [h.current]
      split
      · by_cases hpc : p = r.current
        · simp only [hpc, update_self]
        · simpa only [update_of_ne hpc] using h.name p hp
      · exact h.name p hp
  | close =>
    refine ⟨h.opened, h.copies, h.given, by rw [Reading.closes, Reading.closes, h.current], ?_, h.name⟩
    simp only [Reading.closes, h.current, h.error]
    rcases hplaced with hnil | ⟨d, hd, hcopy⟩
    · rw [hnil]
      rfl
    · cases hmany : d.isMultiple with
      | false => rw [hcopy, hmany, Bool.false_and, Bool.false_and]
      | true =>
        have hat : ManyAt S r.current := by rw [ManyAt, hd]; exact hmany
        rw [h.name _ hat]
  | «section» tab =>
    simp only [Reading.opens, h.current]
    split
    · exact ⟨h.opened, h.copies, h.given, rfl, rfl, h.name⟩
    · split
      · simp only [Reading.addCopy, h.opened, h.copies]
        exact ⟨rfl, rfl, h.given, rfl, h.error, h.name⟩
      · exact ⟨by rw [h.opened], h.copies, h.given, rfl, h.error, h.name⟩

theorem alike_ofFile (hflat : Flat S) {name name' : SectionRef → Str}
    (hname : ∀ p, p = original p → ManyAt S p → name' p = name p) (content : Str) :
    Alike S (Reading.ofFile S name content) (Reading.ofFile S name' content) := by
  have hgen : ∀ (lines : List Str) (r u : Reading), Alike S r u → r.Placed S →
      Alike S (lines.foldl (Reading.line S) r) (lines.foldl (Reading.line S) u) := by
    intro lines
    induction lines with
    | nil => exact fun r u h _ => h
    | cons a lines ih => exact fun r u h hp => ih _ _ (h.line hp a) (hp.line hflat a)
  refine hgen _ _ _ ⟨rfl, rfl, rfl, rfl, rfl, fun p hp => ?_⟩ (.inl rfl)
  by_cases horig : p = original p
  · simp only [if_pos horig]
    exact hname p horig hp
  · simp only [if_neg horig]

/-- A file names copies, and sections that cannot be copied. -/
theorem name_ofFile (hflat : Flat S) {name : SectionRef → Str} (content : Str)
    (hp : p = original p) (hmany : ManyAt S p) :
    (Reading.ofFile S name content).name p = name p := by
  have hgen : ∀ (lines : List Str) (r : Reading), r.Placed S →
      (lines.foldl (Reading.line S) r).name p = r.name p := by
    intro lines
    induction lines with
    | nil => exact fun r _ => rfl
    | cons a lines ih =>
      intro r hr
      rw [List.foldl_cons, ih _ (hr.line hflat a), Reading.line]
      cases ConfigLine.of a with
      | skip => rfl
      | item label rest =>
        simp only [Reading.gives]
        split
        · rfl
        · simp only
          split
          · next hname =>
            have hne : p ≠ r.current := by
              rintro rfl
              rcases hr with hnil | ⟨d, hd, hcopy⟩
              · rw [hnil] at hmany
                cases hmany
              · rw [ManyAt, hd, Option.any_some] at hmany
                rw [hmany, hp, isCopy_original] at hcopy
                cases hcopy
            rw [update_of_ne hne]
          · rfl
      | close => rfl
      | «section» tab =>
        simp only [Reading.opens]
        split
        · rfl
        · split <;> rfl
  have hstart := hgen (fileLines content) { name := fun q => if q = original q then name q else [] } (.inl rfl)
  rw [Reading.ofFile, hstart]
  exact if_pos hp

namespace ItemType

variable {t : ItemType} {v : Value} {s x : Str} {ss : List Str}

theorem setValue_string (h : t ≠ .string) :
    t.setValue { v with string := x } s = ((t.setValue v s).1, { (t.setValue v s).2 with string := x }) := by
  cases t with
  | string => exact absurd rfl h
  | int min max =>
    simp only [setValue]
    split <;> rfl
  | intrange min max =>
    simp only [setValue]
    split <;> rfl
  | bool =>
    simp only [setValue]
    split
    · rfl
    split <;> rfl

theorem accepts_string : t.accepts { v with string := x } ss = t.accepts v ss := by
  by_cases h : t = .string
  · subst h
    have hall : ∀ v, ItemType.string.accepts v ss = true := by
      induction ss with
      | nil => exact fun v => rfl
      | cons s ss ih => exact fun v => by rw [accepts, ih]; rfl
    rw [hall, hall]
  · induction ss generalizing v with
    | nil => rfl
    | cons s ss ih => rw [accepts, accepts, setValue_string h, ih]

/-- What a string was before does not matter once it is set, nor to an item of another class. -/
theorem content_holds_string (h : t = .string → ss ≠ []) :
    t.content (t.holds { v with string := x } ss) = t.content (t.holds v ss) := by
  by_cases ht : t = .string
  · subst ht
    rcases List.eq_nil_or_concat ss with hnil | ⟨ss, s, rfl⟩
    · exact absurd hnil (h rfl)
    · rw [List.concat_eq_append, holds_concat, holds_concat]
      rfl
  · have hall : ∀ v, t.holds { v with string := x } ss = { t.holds v ss with string := x } := by
      clear h
      induction ss with
      | nil => exact fun v => rfl
      | cons s ss ih =>
        intro v
        show t.holds (t.setValue _ s).2 ss = _
        rw [setValue_string ht]
        exact ih (t.setValue v s).2
    rw [hall]
    cases t with
    | string => exact absurd rfl ht
    | int min max => rfl
    | intrange min max => rfl
    | bool => rfl

end ItemType

/-- The same result, the same sections and copies with the same names, and the same values. -/
structure Same (S : Schema) (x y : Bool × MyConfig) : Prop where
  ok : x.1 = y.1
  found : x.2.found = y.2.found
  itemFound : x.2.itemFound = y.2.itemFound
  copies : x.2.copies = y.2.copies
  name : ∀ p, isCopy p = true → Present S y.2.found y.2.copies p → x.2.name p = y.2.name p
  value : ∀ p d i, Present S y.2.found y.2.copies p → sectionAt S.sections p = some d → i ∈ d.items →
    i.type.content (x.2.value p i.label) = i.type.content (y.2.value p i.label)

/-- A file gives a value to each item without default in each section it opens. -/
def SetsAll (S : Schema) (content : Str) : Prop :=
  let r := Reading.ofFile S (fun _ => []) content
  ∀ p d i, Present S r.opened r.copies p → sectionAt S.sections p = some d → i ∈ d.items →
    i.defValue = [] → r.texts p i.label ≠ []

/-- `FindEmpty` goes through all the items there are. -/
theorem setsAll_of_slots {content : Str} (h : let r := Reading.ofFile S (fun _ => []) content
    ∀ x ∈ slotsLoop r.opened r.copies S.sections [], (isCopy x.1 || r.opened x.1) = true →
      x.2.defValue = [] → r.texts x.1 x.2.label ≠ []) : SetsAll S content := by
  intro p d i hp hd hi hdef
  refine h (p, i) (hp.visited.reached.2 d hd i hi) ?_ hdef
  cases hp with
  | root => cases hd
  | found _ _ _ hfound => rw [Bool.or_eq_true]; exact .inr hfound
  | copy _ _ _ _ => simp [isCopy]

/-- Whatever is in memory, to load one file after the other is to load the second with a new
process. -/
def RehashIsRestart (S : Schema) (f₁ : Option Str) (f₂ : Str) : Prop :=
  ∀ m m₁ m₂ m' m₂' : SectionRef → Str → Value,
    Same S ((((MyConfig.built S m).load m₁ f₁).2).load m₂ (some f₂))
      ((MyConfig.built S m').load m₂' (some f₂))

/-- What the file says leaves the same values, and is accepted or not, whatever the items held. -/
structure Settles (S : Schema) (r : Reading) : Prop where
  values : ∀ p d i, Present S r.opened r.copies p → sectionAt S.sections p = some d → i ∈ d.items →
    ∀ v w, i.type.content (i.type.holds v (r.puts p i)) = i.type.content (i.type.holds w (r.puts p i))
  verdict : r.Refused S ∨
    (∃ p l i, itemAt S p l = some i ∧ ∀ v, i.type.accepts v (r.texts p l) = false) ∨
    ∀ p l i, itemAt S p l = some i →
      ∀ v w, i.type.accepts v (r.texts p l) = i.type.accepts w (r.texts p l)

theorem Alike.texts (h : Alike S r u) : u.texts p l = r.texts p l := by
  rw [Reading.texts, Reading.texts, h.given]

theorem Alike.puts (h : Alike S r u) : u.puts p i = r.puts p i := by
  rw [Reading.puts, Reading.puts, h.texts]

theorem Alike.refused (h : Alike S r u) : u.Refused S ↔ r.Refused S := by
  rw [Reading.Refused, Reading.Refused, h.error, h.current, h.opened]

variable {base base' : SectionRef → Str → Value} {x y : Bool × MyConfig}

theorem Present.manyAt {found : SectionRef → Bool} {copies : SectionRef → Nat}
    (h : Present S found copies p) (hcopy : isCopy p = true) : ManyAt S p := by
  cases h with
  | root => cases hcopy
  | found hp hd hone hfound => simp [isCopy] at hcopy
  | copy hp hd hmany hk =>
    rw [ManyAt, sectionAt_sub hd]
    exact hmany

theorem Loaded.same (hx : Loaded S base u x) (hy : Loaded S base' r y) (h : Alike S r u)
    (hs : Settles S r) : Same S x y := by
  refine ⟨?_, ?_, ?_, ?_, ?_, ?_⟩
  · rw [Bool.eq_iff_iff, hx.ok, hy.ok, h.refused]
    refine and_congr_right fun hrefused => ?_
    simp only [h.texts]
    rcases hs.verdict with hr | ⟨p, l, i, hi, hfalse⟩ | hall
    · exact absurd hr hrefused
    · refine iff_of_false (fun hacc => ?_) fun hacc => ?_
      · have := hacc p l i hi
        rw [hfalse] at this
        cases this
      · have := hacc p l i hi
        rw [hfalse] at this
        cases this
    · exact forall_congr' fun p => forall_congr' fun l => forall_congr' fun i =>
        forall_congr' fun hi => by rw [hall p l i hi]
  · rw [hx.found, hy.found, h.opened]
  · funext p l
    rw [Bool.eq_iff_iff, hx.itemFound, hy.itemFound, h.texts]
  · rw [hx.copies, hy.copies, h.copies]
  · intro p hcopy hp
    rw [hx.name, hy.name, h.name p (hp.manyAt hcopy)]
  · intro p d i hp hd hi
    rw [hy.found, hy.copies] at hp
    have hp' : Present S u.opened u.copies p := by rwa [h.opened, h.copies]
    rw [hy.value p d i hp.visited hd hi, hx.value p d i hp'.visited hd hi, h.puts]
    exact hs.values p d i hp hd hi _ _

/-- After any file, the sections that can be copied have no name of their own. -/
theorem built_load (hflat : Flat S) (m m₁ : SectionRef → Str → Value) (f₁ : Option Str) :
    (((MyConfig.built S m).load m₁ f₁).2).schema = S ∧
      ∀ p, p = original p → ManyAt S p → (((MyConfig.built S m).load m₁ f₁).2).name p = [] := by
  cases f₁ with
  | none => exact ⟨rfl, fun _ _ _ => rfl⟩
  | some content =>
    have h := loaded (MyConfig.built S m) m₁ content
    refine ⟨h.schema, fun p hp hmany => ?_⟩
    rw [h.name]
    exact name_ofFile hflat content hp hmany

/-- The second file is read as a new process reads it. -/
theorem loaded_again (hflat : Flat S) (m m₁ m₂ : SectionRef → Str → Value) (f₁ : Option Str) (f₂ : Str) :
    ∃ base u, Alike S (Reading.ofFile S (fun _ => []) f₂) u ∧
      Loaded S base u ((((MyConfig.built S m).load m₁ f₁).2).load m₂ (some f₂)) := by
  obtain ⟨hschema, hname⟩ := built_load hflat m m₁ f₁
  have h := loaded (((MyConfig.built S m).load m₁ f₁).2) m₂ f₂
  rw [hschema] at h
  exact ⟨_, _, alike_ofFile hflat hname f₂, h⟩

/-- With a new process, an item can hold anything but a string. -/
theorem before_built (v : SectionRef → Str → Value) (p : SectionRef) (l : Str) :
    before (MyConfig.built S v) v p l = { v p l with string := [] } := by
  unfold before
  split <;> rfl

theorem loaded_built (v : SectionRef → Str → Value) (f₂ : Str) :
    Loaded S (fun p l => { v p l with string := [] }) (Reading.ofFile S (fun _ => []) f₂)
      ((MyConfig.built S v).load v (some f₂)) := by
  have h := loaded (MyConfig.built S v) v f₂
  rwa [funext₂ (before_built v)] at h

/-- What settles for a new process, whatever is in its memory, settles. -/
theorem settles_of_same {f₂ : Str} (hset : SetsAll S f₂)
    (h : ∀ v, Same S x ((MyConfig.built S v).load v (some f₂))) :
    Settles S (Reading.ofFile S (fun _ => []) f₂) := by
  have hputs : ∀ {p : SectionRef} {d : ConfigSection} {i : ConfigItem},
      Present S (Reading.ofFile S (fun _ => []) f₂).opened (Reading.ofFile S (fun _ => []) f₂).copies p →
      sectionAt S.sections p = some d → i ∈ d.items →
      (Reading.ofFile S (fun _ => []) f₂).puts p i ≠ [] := by
    intro p d i hp hd hi
    unfold Reading.puts
    split
    · assumption
    · next ht =>
      split
      · next hdef => exact absurd (hset p d i hp hd hi (List.isEmpty_iff.mp hdef)) ht
      · exact List.cons_ne_nil _ _
  refine ⟨fun p d i hp hd hi => ?_, ?_⟩
  · have hone : ∀ v, i.type.content (i.type.holds v ((Reading.ofFile S (fun _ => []) f₂).puts p i)) =
        i.type.content (x.2.value p i.label) := by
      intro v
      have hv := loaded_built (S := S) (fun _ _ => v) f₂
      have hsame := (h fun _ _ => v).value p d i (by rwa [hv.found, hv.copies]) hd hi
      rw [hv.value p d i hp.visited hd hi] at hsame
      rw [hsame]
      exact (ItemType.content_holds_string fun _ => hputs hp hd hi).symm
    exact fun v w => (hone v).trans (hone w).symm
  · by_cases hrefused : (Reading.ofFile S (fun _ => []) f₂).Refused S
    · exact .inl hrefused
    right
    by_cases hbad : ∃ p l i, itemAt S p l = some i ∧
        ∀ v, i.type.accepts v ((Reading.ofFile S (fun _ => []) f₂).texts p l) = false
    · exact .inl hbad
    right
    simp only [not_exists, not_and, not_forall, Bool.not_eq_false] at hbad
    -- a memory in which every value is accepted
    have hgood : ∀ p l, ∃ v, ∀ i, itemAt S p l = some i →
        i.type.accepts v ((Reading.ofFile S (fun _ => []) f₂).texts p l) = true := by
      intro p l
      cases hi : itemAt S p l with
      | none => exact ⟨{}, nofun⟩
      | some i =>
        obtain ⟨v, hv⟩ := hbad p l i hi
        exact ⟨v, fun j hj => Option.some.inj hj ▸ hv⟩
    choose v hv using hgood
    have hok : x.1 = true := by
      rw [(h v).ok, (loaded_built v f₂).ok]
      refine ⟨hrefused, fun p l i hi => ?_⟩
      rw [ItemType.accepts_string]
      exact hv p l i hi
    have hall : ∀ p l i, itemAt S p l = some i → ∀ w,
        i.type.accepts w ((Reading.ofFile S (fun _ => []) f₂).texts p l) = true := by
      intro p l i hi w
      have hw := (loaded_built (S := S) (fun _ _ => w) f₂).ok.mp ((h fun _ _ => w).ok ▸ hok)
      rw [← ItemType.accepts_string (x := [])]
      exact hw.2 p l i hi
    exact fun p l i hi v w => (hall p l i hi v).trans (hall p l i hi w).symm

/-- To rehash is to restart exactly if what the second file says settles every value. -/
theorem rehash_iff (hflat : Flat S) (f₁ : Option Str) (f₂ : Str) (hset : SetsAll S f₂) :
    RehashIsRestart S f₁ f₂ ↔ Settles S (Reading.ofFile S (fun _ => []) f₂) := by
  constructor
  · intro h
    exact settles_of_same hset fun v => h (fun _ _ => {}) (fun _ _ => {}) (fun _ _ => {}) v v
  · intro hs m m₁ m₂ m' m₂'
    obtain ⟨base, u, halike, hload⟩ := loaded_again hflat m m₁ m₂ f₁ f₂
    exact hload.same (loaded (MyConfig.built S m') m₂' f₂) halike hs

/-- A file of which only the range of ports is given. -/
def withPorts (range : String) : Str :=
  str "path \x7b\n users = /var/lib/minbif\n\x7d\nirc \x7b\n\x7d\n" ++
    str "logging \x7b\n level = 0\n to_syslog = false\n\x7d\n" ++
    str "file_transfers \x7b\n port_range = " ++ str range ++ str "\n\x7d\n"

theorem setsAll_withPorts : SetsAll (minbifSchema true true) (withPorts "-5000") :=
  setsAll_of_slots (by decide +kernel)

theorem rehash_iff_ports :
    RehashIsRestart (minbifSchema true true) (some (withPorts "2000-3000")) (withPorts "-5000") ↔
      Settles (minbifSchema true true)
        (Reading.ofFile (minbifSchema true true) (fun _ => []) (withPorts "-5000")) :=
  rehash_iff (flat_minbif true true) _ _ setsAll_withPorts

/-- The range keeps the bound it had, where a new process refuses it. -/
theorem rehash_keeps_port :
    ¬ (Flat (minbifSchema true true) → SetsAll (minbifSchema true true) (withPorts "-5000") →
      RehashIsRestart (minbifSchema true true) (some (withPorts "2000-3000")) (withPorts "-5000")) := by
  intro h
  have hsame := (h (flat_minbif true true) setsAll_withPorts (fun _ _ => {}) (fun _ _ => {}) (fun _ _ => {})
    (fun _ _ => {}) (fun _ _ => {})).ok
  revert hsame
  decide +kernel

end Minbif
