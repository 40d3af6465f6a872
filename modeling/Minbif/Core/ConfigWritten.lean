import Minbif.Core.ConfigLoaded
import Minbif.Core.MinbifConfig

/-! A configuration written in nested form, and its lines. -/
namespace Minbif
open SectionRef

/-- An item on its line, or a section between two lines, each after some indentation. -/
inductive Entry
  | item (indent label text : Str)
  | block (indent label : Str) (entries : List Entry) (close : Str)

mutual

def Entry.lines : Entry → List Str
  | .item indent label text => [indent ++ (label ++ str " = " ++ text)]
  | .block indent label entries close =>
    (indent ++ (label ++ str " \x7b")) :: (linesOf entries ++ [close ++ str "\x7d"])

def linesOf : List Entry → List Str
  | [] => []
  | e :: es => e.lines ++ linesOf es

end

/-- The file. -/
def render (entries : List Entry) : Str := (linesOf entries).flatMap (· ++ ['\n'])

def Blank (indent : Str) : Prop := ∀ c ∈ indent, (str " \t").contains c = true

instance (indent : Str) : Decidable (Blank indent) :=
  List.decidableBAll (fun c => (str " \t").contains c = true) indent

/-- A value the item takes whatever it held, and that a line can carry. -/
structure Acceptable (t : ItemType) (text : Str) : Prop where
  head : ∀ c ∈ text.head?, (str " =\t").contains c = false
  nonempty : text ≠ []
  newline : '\n' ∉ text
  nul : '\x00' ∉ text
  takes : ∀ v, (t.setValue v text).1 = true

/-- A label that can stand at the beginning of an item's line. -/
def itemWord (label : Str) : Bool :=
  label.head?.any (fun c => !(str "#\r\t").contains c) &&
    label.all fun c => c ≠ ' ' && c ≠ '\n' && c ≠ '\x00'

/-- One that can stand at the beginning of a section's. -/
def sectionWord (label : Str) : Bool :=
  itemWord label && label.head? != some '}' && !label.contains '='

variable {indent label text rest : Str} {c : Char}

theorem mem_itemWord (h : itemWord label = true) (hc : c ∈ label) : c ≠ ' ' ∧ c ≠ '\n' ∧ c ≠ '\x00' := by
  rw [itemWord, Bool.and_eq_true, List.all_eq_true] at h
  have := h.2 c hc
  simpa [and_assoc] using this

theorem head_itemWord (h : itemWord label = true) :
    ∃ c l, label = c :: l ∧ c ≠ '#' ∧ c ≠ '\r' ∧ c ≠ '\n' ∧ (str " \t").contains c = false := by
  cases label with
  | nil => cases h
  | cons c l =>
    obtain ⟨hspace, hnewline, -⟩ := mem_itemWord h (List.mem_cons_self)
    rw [itemWord, Bool.and_eq_true] at h
    have hhead := h.1
    simp only [List.head?_cons, Option.any_some, Bool.not_eq_true', str] at hhead
    refine ⟨c, l, rfl, ?_⟩
    simp_all [str]

theorem dropWhile_prefix {p : Char → Bool} (hin : ∀ c ∈ indent, p c = true)
    (hhead : ∀ c ∈ rest.head?, p c = false) : (indent ++ rest).dropWhile p = rest := by
  rw [List.dropWhile_append_of_pos hin]
  cases rest with
  | nil => rfl
  | cons c l => rw [List.dropWhile_cons_of_neg (by rw [hhead c rfl]; exact nofun)]

/-- The indentation is skipped. -/
theorem of_indent (rest : Str) (hindent : Blank indent) (hnul : '\x00' ∉ rest)
    (hhead : ∀ c ∈ rest.head?, (str " \t").contains c = false) :
    ((indent ++ rest).takeWhile (· ≠ '\x00')).dropWhile (str " \t").contains = rest := by
  have hall : ∀ c ∈ indent ++ rest, decide (c ≠ '\x00') = true := by
    intro c hc
    rw [decide_eq_true_eq]
    rintro rfl
    rcases List.mem_append.mp hc with hc | hc
    · exact absurd (hindent _ hc) (by decide)
    · exact hnul hc
  rw [List.takeWhile_eq_self_iff.mpr hall]
  exact dropWhile_prefix hindent hhead

/-- The first word of a line. -/
theorem stringtok_word (h : itemWord label = true) :
    stringtok (label ++ ' ' :: rest) [' '] = (label, rest) := by
  have hne : ∀ c ∈ label, [' '].contains c = false := by
    intro c hc
    simpa using (mem_itemWord h hc).1
  have hdrop : (label ++ ' ' :: rest).dropWhile [' '].contains = label ++ ' ' :: rest := by
    obtain ⟨c, l, rfl, -⟩ := head_itemWord h
    rw [List.cons_append, List.dropWhile_cons_of_neg (by rw [hne c (by simp)]; exact nofun)]
  rw [stringtok, hdrop]
  have hpos : ∀ c ∈ label, (!([' '] : Str).contains c) = true := fun c hc => by rw [hne c hc]; rfl
  simp only [List.takeWhile_append_of_pos hpos, List.dropWhile_append_of_pos hpos]
  simp

theorem of_item {t : ItemType} (hindent : Blank indent) (hlabel : itemWord label = true)
    (h : Acceptable t text) :
    ConfigLine.of (indent ++ (label ++ str " = " ++ text)) = .item label (str "= " ++ text) := by
  obtain ⟨c, l, hl, hhash, hreturn, hnewline, hblank⟩ := head_itemWord hlabel
  have hnul : '\x00' ∉ label ++ str " = " ++ text := by
    simp only [List.mem_append, not_or]
    exact ⟨⟨fun hc => (mem_itemWord hlabel hc).2.2 rfl, by decide⟩, h.nul⟩
  have hskip := of_indent (label ++ str " = " ++ text) hindent hnul
    (by rw [hl]; rintro _ ⟨⟩; exact hblank)
  have hequal : (label ++ str " = " ++ text).contains '=' = true := by simp [str]
  have htok : stringtok (label ++ str " = " ++ text) [' '] = (label, str "= " ++ text) := by
    rw [List.append_assoc]
    exact stringtok_word hlabel
  rw [ConfigLine.of]
  simp only [hskip, hequal, htok]
  rw [hl]
  simp [hhash, hreturn, hnewline]

theorem of_block (hindent : Blank indent) (hlabel : sectionWord label = true) :
    ConfigLine.of (indent ++ (label ++ str " \x7b")) = .section label := by
  rw [sectionWord, Bool.and_eq_true, Bool.and_eq_true] at hlabel
  obtain ⟨⟨hword, hclose⟩, hno⟩ := hlabel
  obtain ⟨c, l, hl, hhash, hreturn, hnewline, hblank⟩ := head_itemWord hword
  have hnul : '\x00' ∉ label ++ str " \x7b" := by
    simp only [List.mem_append, not_or]
    exact ⟨fun hc => (mem_itemWord hword hc).2.2 rfl, by decide⟩
  have hskip := of_indent (label ++ str " \x7b") hindent hnul
    (by rw [hl]; rintro _ ⟨⟩; exact hblank)
  have hequal : (label ++ str " \x7b").contains '=' = false := by
    simpa [str] using hno
  have htok : stringtok (label ++ str " \x7b") [' '] = (label, ['\x7b']) := stringtok_word hword
  rw [ConfigLine.of]
  simp only [hskip, hequal, htok]
  rw [hl] at hclose ⊢
  have hc : c ≠ '}' := by simpa using hclose
  simp [hhash, hreturn, hnewline, hc]

theorem of_close (hindent : Blank indent) : ConfigLine.of (indent ++ str "\x7d") = .close := by
  have hskip := of_indent (str "\x7d") hindent (by decide) (by rintro _ ⟨⟩; decide)
  rw [ConfigLine.of]
  simp only [hskip]
  decide

/-- The value of an item is all that follows the equals sign. -/
theorem value_rest {t : ItemType} (h : Acceptable t text) :
    (str "= " ++ text).dropWhile (str " =\t").contains = text :=
  dropWhile_prefix (List.all_eq_true.mp rfl) h.head

/-- `std::getline` gives back the lines that were written. -/
theorem fileLines_flatMap {lines : List Str} (h : ∀ l ∈ lines, '\n' ∉ l) :
    fileLines (lines.flatMap (· ++ ['\n'])) = lines := by
  have hsplit : (lines.flatMap (· ++ ['\n'])).splitOnP (· == '\n') = lines ++ [[]] := by
    induction lines with
    | nil => rfl
    | cons l lines ih =>
      rw [List.forall_mem_cons] at h
      have hl : ∀ c ∈ l, (c == '\n') = false := by
        intro c hc
        rw [beq_eq_false_iff_ne]
        rintro rfl
        exact h.1 hc
      rw [List.flatMap_cons, List.append_assoc, List.singleton_append,
        List.splitOnP_append_cons_of_forall_mem hl '\n' rfl, ih h.2, List.cons_append]
  simp [fileLines, hsplit]

/-- The configuration itself, as a section. -/
def Schema.root (S : Schema) : ConfigSection where
  label := []
  type := .normal
  sections := S.sections

mutual

/-- What is written in a section of that kind. -/
def Entry.Fits (d : ConfigSection) : Entry → Prop
  | .item indent label text =>
    Blank indent ∧ ∃ i ∈ d.items, i.label = label ∧ Acceptable i.type text
  | .block indent label entries close =>
    Blank indent ∧ Blank close ∧ ∃ e ∈ d.sections, e.label = label ∧ FitsAll e entries ∧
      (e.isMultiple = true → ∃ indent name text, .item indent name text ∈ entries ∧
        e.nameItem = some name)

def FitsAll (d : ConfigSection) : List Entry → Prop
  | [] => True
  | e :: es => e.Fits d ∧ FitsAll d es

end

/-- The sections and the items that are written, in order. -/
structure Written where
  sections : List SectionRef := []
  items : List (SectionRef × Str × Str) := []

namespace Written

/-- The copies of a section. -/
def clones (w : Written) (t : SectionRef) : List SectionRef :=
  w.sections.filter fun p => p.isCopy && original p = t

/-- Where a section is written: of one that can be copied, each is the next copy. -/
def place (S : Schema) (w : Written) (p : SectionRef) (label : Str) : SectionRef :=
  let t := p ++ [(label, none)]
  if (sectionAt S.sections t).any ConfigSection.isMultiple then p ++ [(label, some (w.clones t).length)]
  else t

/-- The name a section was given last. -/
def name (S : Schema) (w : Written) (p : SectionRef) : Str :=
  ((w.items.filter fun g => g.1 = p && isNameAt S p g.2.1).getLast?.map fun g => g.2.2).getD []

end Written

mutual

def Entry.write (S : Schema) (p : SectionRef) : Entry → Written → Written
  | .item _ label text, w => { w with items := w.items ++ [(p, label, text)] }
  | .block _ label entries _, w =>
    writeAll S (w.place S p label) entries { w with sections := w.sections ++ [w.place S p label] }

def writeAll (S : Schema) (p : SectionRef) : List Entry → Written → Written
  | [], w => w
  | e :: es, w => writeAll S p es (e.write S p w)

end

def written (S : Schema) (entries : List Entry) : Written := writeAll S [] entries {}

/-- Two copies of a section do not get the same name. -/
def Apart (S : Schema) (g g' : SectionRef × Str × Str) : Prop :=
  original g.1 = original g'.1 → isNameAt S g.1 g.2.1 = true → isNameAt S g'.1 g'.2.1 = true →
    g.2.2 ≠ g'.2.2

instance (S : Schema) : DecidableRel (Apart S) := fun g g' =>
  inferInstanceAs (Decidable (original g.1 = original g'.1 → isNameAt S g.1 g.2.1 = true →
    isNameAt S g'.1 g'.2.1 = true → g.2.2 ≠ g'.2.2))

/-- All that is written has a place, once, and no section that must be there lacks. -/
structure Writable (S : Schema) (entries : List Entry) : Prop where
  fits : FitsAll S.root entries
  mandatory : ∀ d ∈ S.sections, d.isOptional = false → [(d.label, none)] ∈ (written S entries).sections
  once : ((written S entries).items.map fun g => (g.1, g.2.1)).Nodup
  names : (written S entries).items.Pairwise (Apart S)

/-- All labels are words. -/
def Schema.words (S : Schema) : Bool :=
  allSections (fun d => sectionWord d.label && d.items.all fun i => itemWord i.label) S.sections

theorem words_minbif (tls pam : Bool) : (minbifSchema tls pam).words = true := by
  cases tls <;> cases pam <;> decide +kernel

variable {S : Schema} {p : SectionRef} {d : ConfigSection} {entries : List Entry} {l : Str}

theorem sectionWord_sectionsIn (hwords : S.words = true) (hd : d ∈ sectionsIn S.sections p) :
    sectionWord d.label = true := by
  have := allSections_sectionAt hwords (sectionAt_sub (k := none) hd)
  rw [Bool.and_eq_true] at this
  exact this.1

theorem itemWord_itemAt {i : ConfigItem} (hwords : S.words = true) (hi : itemAt S p l = some i) :
    itemWord i.label = true := by
  obtain ⟨d, hd, hfind⟩ := Option.bind_eq_some_iff.mp hi
  have := allSections_sectionAt hwords hd
  rw [Bool.and_eq_true, List.all_eq_true] at this
  exact this.2 i (List.mem_of_find?_eq_some hfind)

namespace ItemType

variable {t : ItemType} {s : Str}

/-- What is accepted whatever the item held sets all that it then returns. -/
theorem content_takes (h : ∀ v, (t.setValue v s).1 = true) (v w : Value) :
    t.content (t.setValue v s).2 = t.content (t.setValue w s).2 := by
  cases t with
  | string => rfl
  | int min max =>
    by_cases hs : s = []
    · subst hs
      have hlow : (decide (min ≤ min - 1) && decide (min - 1 ≤ max)) = true := h { int := min - 1 }
      rw [Bool.and_eq_true, decide_eq_true_eq] at hlow
      omega
    · have hread : ∀ n m, readInt n s = readInt m s := by simp [readInt, hs]
      simp only [setValue]
      split
      · rw [content, content, hread v.int w.int]
      · next hdigits =>
        have := h v
        simp [setValue, hdigits] at this
  | intrange min max =>
    cases hloop : rangeLoop true [] [] s with
    | none =>
      have := h v
      simp [setValue, hloop] at this
    | some r =>
      obtain ⟨minS, maxS⟩ := r
      simp only [setValue, hloop, Bool.and_eq_true, decide_eq_true_eq] at h
      have hmin : minS ≠ [] := by
        rintro rfl
        have hlow : min ≤ min - 1 := (h { valueMin := min - 1 }).1.1
        omega
      have hmax : maxS ≠ [] := by
        rintro rfl
        have hhigh : max + 1 ≤ max := (h { valueMax := max + 1 }).2
        omega
      simp [setValue, hloop, content, readInt, hmin, hmax]
  | bool =>
    simp only [setValue]
    split
    · rfl
    split
    · rfl
    · next hon hoff =>
      have := h v
      simp [setValue, hon, hoff] at this

end ItemType
end Minbif
