import Minbif.Core.ConfigWritten
import Minbif.Core.Rehash

/-! A configuration that is written in nested form and loaded. -/
namespace Minbif
open Function SectionRef

variable {S : Schema} {p q t : SectionRef} {d e : ConfigSection} {i : ConfigItem} {l label text : Str}
  {w : Written} {r : Reading} {k : Option Nat}

theorem isCopy_concat {s : Str × Option Nat} : isCopy (q ++ [s]) = s.2.isSome := by simp [isCopy]

theorem parent_concat {s : Str × Option Nat} : parent (q ++ [s]) = original q := by
  simp [parent, original]

theorem original_concat {s : Str × Option Nat} : original (q ++ [s]) = original q ++ [(s.1, none)] := by
  simp [original]

theorem original_original : original (original p) = original p := by
  simp [original, Function.comp_def]

theorem original_copy {n : Nat} (hp : p ≠ []) : original (copy p n) = original p := by
  have h := labels_copy (k := n) hp
  have hmap : ∀ u : SectionRef, original u = (u.map Prod.fst).map fun a => (a, none) := by
    simp [original, Function.comp_def]
  rw [hmap, hmap, h]

/-- The section at `p` is of that kind, and only the last of its reference can be a copy. -/
structure Depicts (S : Schema) (p : SectionRef) (d : ConfigSection) : Prop where
  describes : (p = [] ∧ d = S.root) ∨ sectionAt S.sections p = some d
  parent : original p.dropLast = p.dropLast
  copy : isCopy p = d.isMultiple

theorem depicts_root : Depicts S [] S.root := ⟨.inl ⟨rfl, rfl⟩, rfl, rfl⟩

theorem Depicts.sections (h : Depicts S p d) : sectionsIn S.sections p = d.sections := by
  rcases h.describes with ⟨rfl, rfl⟩ | hd
  · rfl
  · have hne : p.isEmpty = false := by
      cases p with
      | nil => cases hd
      | cons s p => rfl
    simp [sectionsIn, hne, hd]

theorem Depicts.item (h : Depicts S p d) (hi : i ∈ d.items) : itemAt S p i.label = some i := by
  rcases h.describes with ⟨rfl, rfl⟩ | hd
  · cases hi
  · exact itemAt_mem hd hi

theorem Depicts.isName (h : Depicts S p d) : isNameAt S p l = true ↔ d.nameItem = some l := by
  rcases h.describes with ⟨rfl, rfl⟩ | hd
  · exact iff_of_false nofun nofun
  · simp [isNameAt, hd]

theorem original_of_isCopy (hcopy : isCopy p = false) (hparent : original p.dropLast = p.dropLast) :
    original p = p := by
  rcases List.eq_nil_or_concat p with rfl | ⟨q, s, rfl⟩
  · rfl
  · rw [List.concat_eq_append] at *
    obtain ⟨a, k⟩ := s
    rw [List.dropLast_concat] at hparent
    rw [isCopy_concat] at hcopy
    obtain rfl : k = none := by simpa using hcopy
    rw [original_concat, hparent]

/-- A section with others in it is not a copy. -/
theorem Depicts.original (hflat : Flat S) (h : Depicts S p d) (he : e ∈ d.sections) : original p = p := by
  refine original_of_isCopy ?_ h.parent
  rw [h.copy]
  rcases h.describes with ⟨-, rfl⟩ | hd
  · rfl
  · cases hmany : d.isMultiple with
    | false => rfl
    | true =>
      rw [hflat p d hd hmany] at he
      cases he

theorem Depicts.place (hflat : Flat S) (h : Depicts S p d) (he : e ∈ d.sections) (w : Written) :
    Depicts S (w.place S p e.label) e := by
  have he' : e ∈ sectionsIn S.sections p := h.sections ▸ he
  have hat : ∀ k, sectionAt S.sections (p ++ [(e.label, k)]) = some e := fun k => sectionAt_sub he'
  have horig := h.original hflat he
  simp only [Written.place, hat none, Option.any_some]
  cases hmany : e.isMultiple with
  | false =>
    refine ⟨.inr (hat none), ?_, ?_⟩
    · simp [horig]
    · simp [isCopy, hmany]
  | true =>
    refine ⟨.inr (hat _), ?_, ?_⟩
    · simp [horig]
    · simp [isCopy, hmany]

/-- What the lines so far wrote is what was read. -/
structure Reads (S : Schema) (w : Written) (r : Reading) : Prop where
  error : r.error = false
  given : r.given = w.items
  items : ∀ g ∈ w.items, g.1 ∈ w.sections ∧ ∃ i, itemAt S g.1 g.2.1 = some i ∧ Acceptable i.type g.2.2
  opened : ∀ q ∈ w.sections, r.opened q = true
  name : ∀ q, r.name q = w.name S q
  clones : ∀ q l, original q = q → w.clones (q ++ [(l, none)]) =
    (List.range (r.copies (q ++ [(l, none)]))).map fun k => q ++ [(l, some k)]
  placed : ∀ q ∈ w.sections, ∃ p d k, q = p ++ [(d.label, k)] ∧ (p = [] ∨ p ∈ w.sections) ∧
    original p = p ∧ d ∈ sectionsIn S.sections p ∧ k.isSome = d.isMultiple

namespace Written

theorem name_concat : { w with items := w.items ++ [(p, l, text)] : Written }.name S q =
    if q = p ∧ isNameAt S p l = true then text else w.name S q := by
  by_cases h : q = p ∧ isNameAt S p l = true
  · obtain ⟨rfl, hname⟩ := h
    simp [name, hname]
  · have hno : (decide (p = q) && isNameAt S q l) = false := by
      rw [← Bool.not_eq_true, Bool.and_eq_true, decide_eq_true_eq]
      rintro ⟨rfl, hname⟩
      exact h ⟨rfl, hname⟩
    simp [name, if_neg h, hno]

/-- A name is the value of a name item, if there is one. -/
theorem name_mem (h : w.name S q ≠ []) :
    ∃ g ∈ w.items, g.1 = q ∧ isNameAt S q g.2.1 = true ∧ w.name S q = g.2.2 := by
  unfold name at h ⊢
  cases hlast : (w.items.filter fun g => g.1 = q && isNameAt S q g.2.1).getLast? with
  | none => simp [hlast] at h
  | some g =>
    have hg := List.mem_filter.mp (List.mem_of_getLast? hlast)
    rw [Bool.and_eq_true, decide_eq_true_eq] at hg
    exact ⟨g, hg.1, hg.2.1, hg.2.2, rfl⟩

/-- A new name is none of those of the section and its copies. -/
theorem name_ne (hapart : (w.items ++ [(p, l, text)]).Pairwise (Apart S)) (ht : text ≠ [])
    (hname : isNameAt S p l = true) (hq : original q = original p) : w.name S q ≠ text := by
  intro heq
  obtain ⟨g, hg, rfl, hgname, hvalue⟩ := name_mem (heq ▸ ht)
  have := (List.pairwise_append.mp hapart).2.2 g hg (p, l, text) (by simp)
  exact this hq hgname hname (hvalue.symm.trans heq)

theorem clones_concat : { w with sections := w.sections ++ [q] : Written }.clones t =
    w.clones t ++ if isCopy q && original q = t then [q] else [] := by
  simp only [clones, List.filter_append, List.filter_singleton, Bool.cond_eq_ite]

end Written

theorem Reads.item (h : Reads S w r) (hcur : r.current = p) (hin : p = [] ∨ p ∈ w.sections)
    (hi : itemAt S p l = some i) (ht : Acceptable i.type text) (hapart : (w.items ++ [(p, l, text)]).Pairwise (Apart S)) :
    Reads S { w with items := w.items ++ [(p, l, text)] } (r.gives S l text) ∧
      (r.gives S l text).current = p := by
  have hnamed : isNameAt S p l = true → r.named S p text = false := by
    intro hname
    have hne : p ≠ [] := by
      rintro rfl
      cases hi
    have hnot : ∀ q, original q = original p → r.name q ≠ text := fun q hq => by
      rw [h.name]
      exact Written.name_ne hapart ht.nonempty hname hq
    have hcopy : ∀ k, original (copy p k) = original p := fun k => by
      rw [original_copy hne]
    have hcopies : ((List.range (r.copies (original p))).any fun k => r.name (copy p k) = text) = false := by
      simp [hnot _ (hcopy _)]
    rw [Reading.named, hcopies, decide_eq_false (hnot _ original_original), Bool.or_false,
      Bool.and_false]
  have hrefuses : r.refuses S l text = false := by
    rw [Reading.refuses, hcur, hi]
    cases hname : isNameAt S p l with
    | false => simp [ht.nonempty]
    | true => simp [ht.nonempty, hnamed hname]
  subst hcur
  rw [Reading.gives, if_neg (by simp [hrefuses])]
  refine ⟨⟨h.error, by rw [h.given], ?_, h.opened, ?_, h.clones, h.placed⟩, rfl⟩
  · intro g hg
    rcases List.mem_append.mp hg with hg | hg
    · exact h.items g hg
    · obtain rfl := List.mem_singleton.mp hg
      refine ⟨hin.resolve_left fun hnil => ?_, i, hi, ht⟩
      rw [hnil] at hi
      cases hi
  · intro q
    rw [Written.name_concat]
    by_cases hq : q = r.current
    · subst hq
      cases hname : isNameAt S r.current l with
      | false => simpa using h.name r.current
      | true => simp
    · have hno : ¬ (q = r.current ∧ isNameAt S r.current l = true) := fun hc => hq hc.1
      rw [if_neg hno, ← h.name q]
      dsimp only
      split
      · exact update_of_ne hq _ _
      · rfl

theorem Reads.items_mono (h : Reads S w r) {sections : List SectionRef} (hs : w.sections <+: sections) :
    ∀ g ∈ w.items, g.1 ∈ sections ∧ ∃ i, itemAt S g.1 g.2.1 = some i ∧ Acceptable i.type g.2.2 :=
  fun g hg => ⟨hs.subset (h.items g hg).1, (h.items g hg).2⟩

/-- A copy does not begin the reference of an original. -/
theorem not_begins (hp : original p = p) (hq : isCopy q = true) : ¬ q <+: p := by
  rintro ⟨s, hs⟩
  have horig : original q = q := by
    rw [← hs, original, List.map_append] at hp
    exact (List.append_inj hp (by simp)).1
  rw [← horig, isCopy_original] at hq
  cases hq

/-- Of a section that can be copied, the next copy is opened. -/
theorem Reads.addCopy (h : Reads S w r) (hp : original p = p) (he : e ∈ sectionsIn S.sections p)
    (hparent : p = [] ∨ p ∈ w.sections) (hmany : e.isMultiple = true)
    (hopen : r.opened (p ++ [(e.label, none)]) = true) :
    let n := p ++ [(e.label, some (w.clones (p ++ [(e.label, none)])).length)]
    Reads S { w with sections := w.sections ++ [n] } (r.addCopy (p ++ [(e.label, none)])) ∧
      (r.addCopy (p ++ [(e.label, none)])).current = n := by
  intro n
  have ht : original (p ++ [(e.label, none)]) = p ++ [(e.label, none)] := by rw [original_concat, hp]
  have hcount : (w.clones (p ++ [(e.label, none)])).length = r.copies (p ++ [(e.label, none)]) := by
    rw [h.clones p e.label hp]
    simp
  have hn : copy (p ++ [(e.label, none)]) (r.copies (original (p ++ [(e.label, none)]))) = n := by
    rw [ht, ← hcount, copy, parent_concat, hp]
    simp [label, n]
  have hcopy : isCopy n = true := by rw [isCopy_concat]; rfl
  have horig : original n = p ++ [(e.label, none)] := by rw [original_concat, hp]
  rw [Reading.addCopy, hn, ht]
  refine ⟨⟨h.error, h.given, h.items_mono (List.prefix_append _ _), ?_, h.name, ?_, ?_⟩, rfl⟩
  · intro q hq
    have hcase : q = n ∨ ¬ n <+: q ∧ q ∈ w.sections := by
      rcases List.mem_append.mp hq with hq | hq
      · obtain ⟨q', d, k, rfl, -, hq', -, -⟩ := h.placed q hq
        by_cases hstart : n <+: q' ++ [(d.label, k)]
        · rcases List.prefix_concat_iff.mp hstart with heq | hlt
          · exact .inl heq.symm
          · exact absurd hlt (not_begins hq' hcopy)
        · exact .inr ⟨hstart, hq⟩
      · exact .inl (List.mem_singleton.mp hq)
    rcases hcase with rfl | ⟨hno, hq⟩
    · simpa using hopen
    · simpa [hno] using h.opened q hq
  · intro q l hq
    have hno : ¬ n <+: q ++ [(l, none)] := not_begins (by rw [original_concat, hq]) hcopy
    rw [Written.clones_concat, hcopy, horig, h.clones q l hq]
    by_cases heq : p ++ [(e.label, none)] = q ++ [(l, none)]
    · obtain ⟨rfl, hl⟩ := List.append_inj' heq rfl
      obtain rfl : e.label = l := by simpa using hl
      simp [List.range_succ, n, hcount]
    · simp [heq, hno, Ne.symm heq]
  · intro q hq
    rcases List.mem_append.mp hq with hq | hq
    · obtain ⟨q', d, k, hq, hin, hrest⟩ := h.placed q hq
      exact ⟨q', d, k, hq, hin.imp_right fun hin => List.mem_append_left _ hin, hrest⟩
    · obtain rfl := List.mem_singleton.mp hq
      exact ⟨p, e, _, rfl, hparent.imp_right fun hin => List.mem_append_left _ hin, hp, he, hmany.symm⟩

theorem Reads.opens (hflat : Flat S) (h : Reads S w r) (hat : Depicts S r.current d) (he : e ∈ d.sections)
    (hparent : r.current = [] ∨ r.current ∈ w.sections) :
    let n := w.place S r.current e.label
    Reads S { w with sections := w.sections ++ [n] } (r.opens S e.label) ∧
      (r.opens S e.label).current = n := by
  intro n
  have he' : e ∈ sectionsIn S.sections r.current := hat.sections ▸ he
  have hp : original r.current = r.current := hat.original hflat he
  have hsection : sectionAt S.sections (r.current ++ [(e.label, none)]) = some e := sectionAt_sub he'
  have hopened : ∀ q ∈ w.sections, update r.opened (r.current ++ [(e.label, none)]) true q = true := by
    intro q hq
    by_cases hqt : q = r.current ++ [(e.label, none)]
    · rw [hqt, update_self]
    · rw [update_of_ne hqt]
      exact h.opened q hq
  have hread : Reads S w { r with
      opened := update r.opened (r.current ++ [(e.label, none)]) true
      current := r.current ++ [(e.label, none)] } :=
    ⟨h.error, h.given, h.items, hopened, h.name, h.clones, h.placed⟩
  rw [Reading.opens, hsection]
  cases hmany : e.isMultiple with
  | true =>
    have hn : n = r.current ++ [(e.label, some (w.clones (r.current ++ [(e.label, none)])).length)] := by
      simp [n, Written.place, hsection, hmany]
    rw [hn]
    simp only [hmany, if_true]
    exact hread.addCopy hp he' hparent hmany (update_self _ _ _)
  | false =>
    have hn : n = r.current ++ [(e.label, none)] := by simp [n, Written.place, hsection, hmany]
    rw [hn]
    simp only [hmany, Bool.false_eq_true, if_false]
    refine ⟨⟨h.error, h.given, h.items_mono (List.prefix_append _ _), ?_, h.name, ?_, ?_⟩, trivial⟩
    · intro q hq
      rcases List.mem_append.mp hq with hq | hq
      · exact hopened q hq
      · rw [List.mem_singleton.mp hq]
        exact update_self _ _ _
    · intro q l hq
      rw [Written.clones_concat]
      simpa [isCopy_concat] using h.clones q l hq
    · intro q hq
      rcases List.mem_append.mp hq with hq | hq
      · obtain ⟨q', d, k, hq, hin, hrest⟩ := h.placed q hq
        exact ⟨q', d, k, hq, hin.imp_right fun hin => List.mem_append_left _ hin, hrest⟩
      · obtain rfl := List.mem_singleton.mp hq
        exact ⟨r.current, e, none, rfl, hparent.imp_right fun hin => List.mem_append_left _ hin, hp, he',
          hmany.symm⟩

/-- A section that has a name can be closed. -/
theorem Reads.closes (h : Reads S w r) (hne : r.current ≠ [])
    (hname : isCopy r.current = true → w.name S r.current ≠ []) :
    Reads S w r.closes ∧ r.closes.current = parent r.current := by
  have hcond : (r.error || r.current.isEmpty || isCopy r.current && (r.name r.current).isEmpty) = false := by
    cases hcopy : isCopy r.current with
    | false => simp [h.error, hne]
    | true => simp [h.error, hne, h.name, hname hcopy]
  exact ⟨⟨hcond, h.given, h.items, h.opened, h.name, h.clones, h.placed⟩, rfl⟩

mutual

/-- What was written stays. -/
theorem Entry.write_keeps : ∀ (e : Entry) (p : SectionRef) (w : Written),
    w.items <+: (e.write S p w).items ∧ w.sections <+: (e.write S p w).sections
  | .item _ _ _, _, _ => ⟨List.prefix_append _ _, List.prefix_refl _⟩
  | .block _ label entries _, p, w => by
    rw [Entry.write]
    obtain ⟨hitems, hsections⟩ := writeAll_keeps entries (w.place S p label)
      { w with sections := w.sections ++ [w.place S p label] }
    exact ⟨hitems, (List.prefix_append _ _).trans hsections⟩

theorem writeAll_keeps : ∀ (es : List Entry) (p : SectionRef) (w : Written),
    w.items <+: (writeAll S p es w).items ∧ w.sections <+: (writeAll S p es w).sections
  | [], _, _ => ⟨List.prefix_refl _, List.prefix_refl _⟩
  | e :: es, p, w => by
    obtain ⟨hitems, hsections⟩ := Entry.write_keeps e p w
    obtain ⟨hitems', hsections'⟩ := writeAll_keeps es p (e.write S p w)
    exact ⟨hitems.trans hitems', hsections.trans hsections'⟩

end

theorem mem_writeAll {es : List Entry} {indent : Str} (h : .item indent l text ∈ es) :
    (p, l, text) ∈ (writeAll S p es w).items := by
  induction es generalizing w with
  | nil => cases h
  | cons e es ih =>
    rcases List.mem_cons.mp h with rfl | h
    · exact (writeAll_keeps es p _).1.subset (by simp [Entry.write])
    · exact ih h

theorem Reads.name_ne_nil (h : Reads S w r) (hg : (q, l, text) ∈ w.items) (hname : isNameAt S q l = true) :
    w.name S q ≠ [] := by
  unfold Written.name
  cases hlast : (w.items.filter fun g => g.1 = q && isNameAt S q g.2.1).getLast? with
  | none =>
    have hnil := List.getLast?_eq_none_iff.mp hlast
    have hmem : (q, l, text) ∈ w.items.filter fun g => g.1 = q && isNameAt S q g.2.1 := by
      simp [hg, hname]
    rw [hnil] at hmem
    cases hmem
  | some g =>
    obtain ⟨-, i, -, ht⟩ := h.items g (List.mem_filter.mp (List.mem_of_getLast? hlast)).1
    simpa using ht.nonempty

mutual

/-- The lines of an entry, in the section it is written in. -/
theorem Entry.reads (hflat : Flat S) (hwords : S.words = true) : ∀ (e : Entry) {p : SectionRef}
    {d : ConfigSection} {w : Written} {r : Reading}, Depicts S p d → e.Fits d → Reads S w r → r.current = p →
    (p = [] ∨ p ∈ w.sections) → (e.write S p w).items.Pairwise (Apart S) →
    Reads S (e.write S p w) (e.lines.foldl (Reading.line S) r) ∧
      (e.lines.foldl (Reading.line S) r).current = p
  | .item indent label text, _, d, _, r, hat, hfits, h, hcur, hin, hapart => by
    obtain ⟨hindent, i, hi, rfl, ht⟩ := hfits
    have hitem := hat.item hi
    have hline : (Entry.item indent i.label text).lines.foldl (Reading.line S) r =
        r.gives S i.label text := by
      simp only [Entry.lines, List.foldl_cons, List.foldl_nil, Reading.line]
      rw [of_item hindent (itemWord_itemAt hwords hitem) ht]
      simp only [value_rest ht]
    rw [hline, Entry.write]
    exact h.item hcur hin hitem ht hapart
  | .block indent label entries close, p, d, w, r, hat, hfits, h, hcur, hin, hapart => by
    obtain ⟨hindent, hclose, e, he, rfl, hentries, hname⟩ := hfits
    subst hcur
    have he' : e ∈ sectionsIn S.sections r.current := hat.sections ▸ he
    have hword := sectionWord_sectionsIn hwords he'
    have hsub := hat.place hflat he w
    rw [Entry.write] at hapart ⊢
    obtain ⟨hopen, hopenCur⟩ := h.opens hflat hat he hin
    obtain ⟨hall, hallCur⟩ := readsAll hflat hwords entries hsub hentries hopen hopenCur
      (.inr (by simp)) hapart
    have hplace : w.place S r.current e.label ≠ [] := by
      unfold Written.place
      dsimp only
      split
      · simp
      · simp
    have hnamed : isCopy (w.place S r.current e.label) = true →
        (writeAll S (w.place S r.current e.label) entries
          { w with sections := w.sections ++ [w.place S r.current e.label] }).name S
            (w.place S r.current e.label) ≠ [] := by
      intro hcopy
      obtain ⟨_, name, text, hmem, hitem⟩ := hname (hsub.copy ▸ hcopy)
      exact hall.name_ne_nil (mem_writeAll hmem) (hsub.isName.mpr hitem)
    have hline : (Entry.block indent e.label entries close).lines.foldl (Reading.line S) r =
        ((linesOf entries).foldl (Reading.line S) (r.opens S e.label)).closes := by
      have hfirst : r.line S (indent ++ (e.label ++ str " \x7b")) = r.opens S e.label := by
        rw [Reading.line, of_block hindent hword]
      have hlast : ∀ u : Reading, u.line S (close ++ str "\x7d") = u.closes := by
        intro u
        rw [Reading.line, of_close hclose]
      simp only [Entry.lines, List.foldl_cons, List.foldl_append, List.foldl_nil, hfirst, hlast]
    rw [← hallCur] at hplace hnamed
    obtain ⟨hclosed, hclosedCur⟩ := hall.closes hplace (by rw [hallCur] at hnamed ⊢; exact hnamed)
    rw [hline]
    refine ⟨hclosed, hclosedCur.trans ?_⟩
    have horig := hat.original hflat he
    rw [hallCur, Written.place]
    split
    · rw [parent_concat, horig]
    · rw [parent_concat, horig]

theorem readsAll (hflat : Flat S) (hwords : S.words = true) : ∀ (es : List Entry) {p : SectionRef}
    {d : ConfigSection} {w : Written} {r : Reading}, Depicts S p d → FitsAll d es → Reads S w r →
    r.current = p → (p = [] ∨ p ∈ w.sections) → (writeAll S p es w).items.Pairwise (Apart S) →
    Reads S (writeAll S p es w) ((linesOf es).foldl (Reading.line S) r) ∧
      ((linesOf es).foldl (Reading.line S) r).current = p
  | [], _, _, _, _, _, _, h, hcur, _, _ => ⟨h, hcur⟩
  | e :: es, p, d, w, r, hat, hfits, h, hcur, hin, hapart => by
    have hfirst := hapart.sublist (writeAll_keeps es p (e.write S p w)).1.sublist
    obtain ⟨hread, hreadCur⟩ := Entry.reads hflat hwords e hat hfits.1 h hcur hin hfirst
    have hin' : p = [] ∨ p ∈ (e.write S p w).sections :=
      hin.imp_right fun hp => (Entry.write_keeps e p w).2.subset hp
    rw [linesOf, List.foldl_append, writeAll]
    exact readsAll hflat hwords es hat hfits.2 hread hreadCur hin' hapart

end

theorem newline_blank {indent : Str} (h : Blank indent) : '\n' ∉ indent := by
  intro hc
  exact absurd (h _ hc) (by decide)

mutual

/-- No line that is written is broken. -/
theorem Entry.newline (hflat : Flat S) (hwords : S.words = true) : ∀ (e : Entry) {p : SectionRef}
    {d : ConfigSection}, Depicts S p d → e.Fits d → ∀ x ∈ e.lines, '\n' ∉ x
  | .item indent label text, _, d, hat, hfits, x, hx => by
    obtain ⟨hindent, i, hi, rfl, ht⟩ := hfits
    have hword := itemWord_itemAt hwords (hat.item hi)
    rw [Entry.lines, List.mem_singleton] at hx
    subst hx
    simp only [List.mem_append, not_or]
    exact ⟨newline_blank hindent, ⟨fun hc => (mem_itemWord hword hc).2.1 rfl, by decide⟩, ht.newline⟩
  | .block indent label entries close, _, d, hat, hfits, x, hx => by
    obtain ⟨hindent, hclose, e, he, rfl, hentries, -⟩ := hfits
    have hword := sectionWord_sectionsIn hwords (hat.sections ▸ he)
    rw [sectionWord, Bool.and_eq_true, Bool.and_eq_true] at hword
    rw [Entry.lines, List.mem_cons, List.mem_append, List.mem_singleton] at hx
    rcases hx with rfl | hx | rfl
    · simp only [List.mem_append, not_or]
      exact ⟨newline_blank hindent, fun hc => (mem_itemWord hword.1.1 hc).2.1 rfl, by decide⟩
    · exact newline_linesOf hflat hwords entries (hat.place hflat he {}) hentries x hx
    · simp only [List.mem_append, not_or]
      exact ⟨newline_blank hclose, by decide⟩

theorem newline_linesOf (hflat : Flat S) (hwords : S.words = true) : ∀ (es : List Entry) {p : SectionRef}
    {d : ConfigSection}, Depicts S p d → FitsAll d es → ∀ x ∈ linesOf es, '\n' ∉ x
  | [], _, _, _, _, x, hx => by cases hx
  | e :: es, _, _, hat, hfits, x, hx => by
    rw [linesOf, List.mem_append] at hx
    rcases hx with hx | hx
    · exact Entry.newline hflat hwords e hat hfits.1 x hx
    · exact newline_linesOf hflat hwords es hat hfits.2 x hx

end

/-- All that is written is read. -/
theorem reads_render (hflat : Flat S) (hwords : S.words = true) {entries : List Entry}
    (h : Writable S entries) :
    Reads S (written S entries) (Reading.ofFile S (fun _ => []) (render entries)) ∧
      (Reading.ofFile S (fun _ => []) (render entries)).current = [] := by
  have hstart : Reads S {} { name := fun p => if p = original p then [] else [] } :=
    ⟨rfl, rfl, nofun, nofun, fun q => by simp [Written.name], fun q l _ => rfl, nofun⟩
  have hread := readsAll hflat hwords entries depicts_root h.fits hstart rfl (.inl rfl) h.names
  rwa [Reading.ofFile, render, fileLines_flatMap (newline_linesOf hflat hwords entries depicts_root h.fits)]

/-- The sections that are written, and those that may lack. -/
inductive Valued (S : Schema) (w : Written) : SectionRef → Prop
  | root : Valued S w []
  | written {p : SectionRef} (hp : p ∈ w.sections) : Valued S w p
  | absent {p : SectionRef} {d : ConfigSection} (hp : Valued S w p) (hd : d ∈ sectionsIn S.sections p)
      (hopt : d.type = .optional) : Valued S w (p ++ [(d.label, none)])

/-- What was written was loaded. -/
structure LoadsBack (S : Schema) (w : Written) (result : Bool × MyConfig) : Prop where
  ok : result.1 = true
  found : ∀ p ∈ w.sections, result.2.found p = true
  items : ∀ g ∈ w.items, result.2.itemFound g.1 g.2.1 = true ∧ ∃ i, itemAt S g.1 g.2.1 = some i ∧
    i.type.content (result.2.value g.1 g.2.1) = i.type.content (i.type.setValue {} g.2.2).2
  defaults : ∀ p d i, Valued S w p → sectionAt S.sections p = some d → i ∈ d.items →
    (∀ text, (p, i.label, text) ∉ w.items) → i.defValue ≠ [] →
    (∀ v, (i.type.setValue v i.defValue).1 = true) →
      i.type.content (result.2.value p i.label) = i.type.content (i.type.setValue {} i.defValue).2
  clones : ∀ p l, Valued S w p → result.2.getSectionClones p l = w.clones (p ++ [(l, none)])
  names : ∀ p ∈ w.sections, result.2.name p = w.name S p

theorem Reads.clone_many (h : Reads S w r) (hp : original p = p) (hq : q ∈ w.clones (p ++ [(l, none)])) :
    ∃ e ∈ sectionsIn S.sections p, e.label = l ∧ e.isMultiple = true := by
  obtain ⟨hmem, hcopy⟩ := List.mem_filter.mp hq
  rw [Bool.and_eq_true, decide_eq_true_eq] at hcopy
  obtain ⟨q', e, k, rfl, -, hq', he, hk⟩ := h.placed q hmem
  rw [isCopy_concat, original_concat, hq'] at hcopy
  obtain ⟨rfl, hl⟩ := List.append_inj' hcopy.2 rfl
  exact ⟨e, he, by simpa using hl, hk ▸ hcopy.1⟩

theorem Reads.visited (h : Reads S w r) (hq : q = [] ∨ q ∈ w.sections) :
    Visited S r.opened r.copies q := by
  induction hn : q.length generalizing q with
  | zero => exact List.length_eq_zero_iff.mp hn ▸ .root
  | succ n ih =>
    have hq : q ∈ w.sections := hq.resolve_left (by rintro rfl; cases hn)
    have hopened := h.opened q hq
    obtain ⟨p, d, k, rfl, hp, horig, hd, hk⟩ := h.placed q hq
    have hparent := ih hp (by simpa using hn)
    cases k with
    | none => exact hparent.original hd hk.symm (.inl hopened)
    | some j =>
      refine hparent.copy hd hk.symm ?_
      have hclone : p ++ [(d.label, some j)] ∈ w.clones (p ++ [(d.label, none)]) := by
        simp [Written.clones, hq, isCopy_concat, original_concat, horig]
      rw [h.clones p d.label horig] at hclone
      simpa using hclone

theorem Valued.visited (hs : Valued S w q) (h : Reads S w r) : Visited S r.opened r.copies q := by
  induction hs with
  | root => exact .root
  | written hp => exact h.visited (.inr hp)
  | absent _ hd hopt ih =>
    refine ih.original hd ?_ (.inr ?_)
    · simp [ConfigSection.isMultiple, hopt]
    · simp [ConfigSection.isOptional, hopt]

/-- A section with others in it is not a copy. -/
theorem Valued.original (hflat : Flat S) (h : Reads S w r) (hs : Valued S w q)
    (hd : d ∈ sectionsIn S.sections q) : original q = q := by
  have hnot : ∀ {p : SectionRef} {d e : ConfigSection} {k : Option Nat}, e ∈ sectionsIn S.sections p →
      d ∈ sectionsIn S.sections (p ++ [(e.label, k)]) → e.isMultiple = false := by
    intro p d e k he hd
    rw [sectionsIn_sub he] at hd
    cases hmany : e.isMultiple with
    | false => rfl
    | true =>
      rw [hflat _ e (sectionAt_sub (k := k) he) hmany] at hd
      cases hd
  induction hs generalizing d with
  | root => rfl
  | written hp =>
    obtain ⟨p, e, k, rfl, -, horig, he, hk⟩ := h.placed _ hp
    rw [hnot he hd] at hk
    obtain rfl : k = none := by simpa using hk
    rw [original_concat, horig]
  | absent hp he hopt ih => rw [original_concat, ih he]

theorem accepts_all {t : ItemType} {ss : List Str} (h : ∀ s ∈ ss, ∀ v, (t.setValue v s).1 = true)
    (v : Value) : t.accepts v ss = true := by
  induction ss generalizing v with
  | nil => rfl
  | cons s ss ih =>
    rw [List.forall_mem_cons] at h
    rw [ItemType.accepts, h.1 v, ih h.2, Bool.and_true]

theorem filter_place {items : List (SectionRef × Str × Str)} {g : SectionRef × Str × Str}
    (honce : (items.map fun g => (g.1, g.2.1)).Nodup) (hg : g ∈ items) :
    items.filter (fun x => x.1 = g.1 ∧ x.2.1 = g.2.1) = [g] := by
  induction items with
  | nil => cases hg
  | cons a items ih =>
    rw [List.map_cons, List.nodup_cons] at honce
    rcases List.mem_cons.mp hg with rfl | hg
    · have hnone : items.filter (fun x => x.1 = g.1 ∧ x.2.1 = g.2.1) = [] := by
        rw [List.filter_eq_nil_iff]
        intro x hx hxg
        rw [decide_eq_true_eq] at hxg
        exact honce.1 (List.mem_map.mpr ⟨x, hx, Prod.ext hxg.1 hxg.2⟩)
      rw [List.filter_cons_of_pos (by simp), hnone]
    · have hne : ¬ (a.1 = g.1 ∧ a.2.1 = g.2.1) := fun hag =>
        honce.1 (List.mem_map.mpr ⟨g, hg, Prod.ext hag.1.symm hag.2.symm⟩)
      rw [List.filter_cons_of_neg (by simpa using hne), ih honce.2 hg]

theorem Reads.getSectionClones (hflat : Flat S) (h : Reads S w r) (hs : Valued S w q) :
    (if (sectionAt S.sections (q ++ [(l, none)])).any ConfigSection.isMultiple = true then
      (List.range (r.copies (q ++ [(l, none)]))).map fun k => q ++ [(l, some k)]
    else []) = w.clones (q ++ [(l, none)]) := by
  have horig : ∀ p ∈ w.clones (q ++ [(l, none)]), original q = q := by
    intro p hp
    have hcopy := (List.mem_filter.mp hp).2
    rw [Bool.and_eq_true, decide_eq_true_eq] at hcopy
    have htwice := original_original (p := p)
    rw [hcopy.2, original_concat] at htwice
    exact (List.append_inj' htwice rfl).1
  split
  · next hmany =>
    obtain ⟨e, he⟩ := Option.isSome_iff_exists.mp (Option.isSome_of_any hmany)
    rw [sectionAt_concat] at he
    exact (h.clones q l (hs.original hflat h (List.mem_of_find?_eq_some he))).symm
  · next hmany =>
    symm
    rw [List.eq_nil_iff_forall_not_mem]
    intro p hp
    obtain ⟨e, he, rfl, hmultiple⟩ := h.clone_many (horig p hp) hp
    rw [sectionAt_sub he] at hmany
    exact hmany hmultiple

/-- The sections, the items, the copies and the names that are written are loaded, and what is not
written has its default. -/
theorem load_render (hflat : Flat S) (hwords : S.words = true) (m memory : SectionRef → Str → Value)
    {entries : List Entry} (h : Writable S entries) :
    LoadsBack S (written S entries)
      ((MyConfig.built S m).load memory (some (render entries))) := by
  obtain ⟨hread, hcur⟩ := reads_render hflat hwords h
  have hload := loaded (MyConfig.built S m) memory (render entries)
  generalize hr : Reading.ofFile S (fun _ => []) (render entries) = r at hread hcur
  have hload : Loaded S (before (MyConfig.built S m) memory) r _ := hr ▸ hload
  have htexts : ∀ p l, r.texts p l =
      ((written S entries).items.filter fun g => g.1 = p ∧ g.2.1 = l).map fun g => g.2.2 := by
    intro p l
    rw [Reading.texts, hread.given]
  have hone : ∀ g ∈ (written S entries).items, r.texts g.1 g.2.1 = [g.2.2] := by
    intro g hg
    rw [htexts, filter_place h.once hg]
    rfl
  refine ⟨hload.ok.mpr ⟨?_, ?_⟩, ?_, ?_, ?_, ?_, ?_⟩
  · rintro (herror | hopen | ⟨d, hd, hopt, hfound⟩)
    · rw [hread.error] at herror
      cases herror
    · exact hopen hcur
    · rw [hread.opened _ (h.mandatory d hd hopt)] at hfound
      cases hfound
  · intro p l i hi
    refine accepts_all (fun text ht => ?_) _
    rw [htexts, List.mem_map] at ht
    obtain ⟨g, hg, rfl⟩ := ht
    obtain ⟨hg, hplace⟩ := List.mem_filter.mp hg
    obtain ⟨-, j, hj, hacc⟩ := hread.items g hg
    obtain ⟨rfl, rfl⟩ : g.1 = p ∧ g.2.1 = l := by simpa using hplace
    exact Option.some.inj (hi.symm.trans hj) ▸ hacc.takes
  · intro p hp
    rw [hload.found]
    exact hread.opened p hp
  · intro g hg
    obtain ⟨hin, i, hi, hacc⟩ := hread.items g hg
    refine ⟨(hload.itemFound _ _).mpr (by simp [hone g hg]), i, hi, ?_⟩
    obtain ⟨d, hd, hfind⟩ := Option.bind_eq_some_iff.mp hi
    have hputs : r.puts g.1 i = [g.2.2] := by
      rw [Reading.puts, itemAt_label hi, hone g hg, if_pos (by simp)]
    rw [← itemAt_label hi,
      hload.value g.1 d i (hread.visited (.inr hin)) hd (List.mem_of_find?_eq_some hfind), hputs]
    exact ItemType.content_takes hacc.takes _ _
  · intro p d i hp hd hi hno hdef htakes
    have hnone : r.texts p i.label = [] := by
      rw [htexts, List.map_eq_nil_iff, List.filter_eq_nil_iff]
      intro g hg hplace
      obtain ⟨rfl, hl⟩ : g.1 = p ∧ g.2.1 = i.label := by simpa using hplace
      exact hno g.2.2 (hl ▸ hg)
    have hputs : r.puts p i = [i.defValue] := by
      rw [Reading.puts, if_neg (not_not.mpr hnone), if_neg (by simpa using hdef)]
    rw [hload.value p d i (hp.visited hread) hd hi, hputs]
    exact ItemType.content_takes htakes _ _
  · intro p l hp
    rw [MyConfig.getSectionClones, hload.schema, hload.copies]
    exact hread.getSectionClones hflat hp
  · intro p hp
    rw [hload.name]
    exact hread.name p

/-- The sections there must be, and two operators. -/
def operators : List Entry := [
  .block [] (str "path") [.item (str "    ") (str "users") (str "/var/lib/minbif")] [],
  .block [] (str "irc") [
    .block (str "\t") (str "oper") [
      .item (str "\t\t") (str "login") (str "bob"),
      .item (str "\t\t") (str "password") (str "sesame")] (str "\t"),
    .block (str "  ") (str "oper") [
      .item [] (str "password") (str "mellon = friend"),
      .item [] (str "login") (str "alice")] []] [],
  .block [] (str "logging") [] (str " ")]

theorem fits_string {indent description defValue : Str}
    (hi : (⟨l, description, .string, defValue⟩ : ConfigItem) ∈ d.items)
    (h : Blank indent ∧ text.head?.any (str " =\t").contains = false ∧ text ≠ [] ∧
      '\n' ∉ text ∧ '\x00' ∉ text) : (Entry.item indent l text).Fits d := by
  obtain ⟨hindent, hhead, hnonempty, hnewline, hnul⟩ := h
  refine ⟨hindent, _, hi, rfl, fun c hc => ?_, hnonempty, hnewline, hnul, fun _ => rfl⟩
  rw [Option.mem_def] at hc
  rwa [hc, Option.any_some] at hhead

theorem fits_block {indent close : Str} {entries : List Entry} (he : e ∈ d.sections)
    (h : Blank indent ∧ Blank close) (hentries : FitsAll e entries)
    (hname : e.isMultiple = true → ∃ indent name text, .item indent name text ∈ entries ∧
      e.nameItem = some name) : (Entry.block indent e.label entries close).Fits d :=
  ⟨h.1, h.2, e, he, rfl, hentries, hname⟩

theorem fits_operators : FitsAll (minbifSchema true true).root operators := by
  have hpath : pathSection ∈ (minbifSchema true true).root.sections := by
    simp [Schema.root, minbifSchema]
  have hirc : ircSection true ∈ (minbifSchema true true).root.sections := by
    simp [Schema.root, minbifSchema]
  have hlogging : loggingSection ∈ (minbifSchema true true).root.sections := by
    simp [Schema.root, minbifSchema]
  have hoper : operSection ∈ (ircSection true).sections := by simp [ircSection]
  refine ⟨fits_block hpath (by decide +kernel) ⟨?_, trivial⟩ nofun,
    fits_block hirc (by decide +kernel) ⟨?_, ?_, trivial⟩ nofun,
    fits_block hlogging (by decide +kernel) trivial nofun, trivial⟩
  · exact fits_string (.tail _ (.head _)) (by decide +kernel)
  · refine fits_block hoper (by decide +kernel) ⟨?_, ?_, trivial⟩ fun _ => ⟨_, _, _, .head _, rfl⟩
    · exact fits_string (.tail _ (.head _)) (by decide +kernel)
    · exact fits_string (.tail _ (.tail _ (.head _))) (by decide +kernel)
  · refine fits_block hoper (by decide +kernel) ⟨?_, ?_, trivial⟩
      fun _ => ⟨_, _, _, .tail _ (.head _), rfl⟩
    · exact fits_string (.tail _ (.tail _ (.head _))) (by decide +kernel)
    · exact fits_string (.tail _ (.head _)) (by decide +kernel)

theorem writable_operators : Writable (minbifSchema true true) operators :=
  ⟨fits_operators, by decide +kernel, by decide +kernel, by decide +kernel⟩

theorem load_render_operators : LoadsBack (minbifSchema true true) (written (minbifSchema true true) operators)
    ((MyConfig.built (minbifSchema true true) fun _ _ => {}).load (fun _ _ => {}) (some (render operators))) :=
  load_render (flat_minbif true true) (words_minbif true true) _ _ writable_operators

/-- A section whose label has an equals sign cannot be opened. -/
def equalSchema : Schema where
  sections := [{ label := str "a=b", type := .normal }]

def equalEntries : List Entry := [.block [] (str "a=b") [] []]

/-- A value with a NUL. -/
def cutEntries : List Entry := [
  .block [] (str "path") [.item [] (str "users") (str "a\x00b")] [],
  .block [] (str "irc") [] [],
  .block [] (str "logging") [] []]

theorem not_loadsBack :
    ¬ (Flat equalSchema → Writable equalSchema equalEntries → LoadsBack equalSchema (written equalSchema equalEntries)
      ((MyConfig.built equalSchema fun _ _ => {}).load (fun _ _ => {}) (some (render equalEntries)))) ∧
    ¬ LoadsBack (minbifSchema true true) (written (minbifSchema true true) cutEntries)
      ((MyConfig.built (minbifSchema true true) fun _ _ => {}).load (fun _ _ => {}) (some (render cutEntries))) := by
  constructor
  · intro h
    have hflat : Flat equalSchema := flat_of_allSections (by decide +kernel)
    have hfits : FitsAll equalSchema.root equalEntries :=
      ⟨⟨by decide +kernel, by decide +kernel, _, .head _, rfl, trivial, nofun⟩, trivial⟩
    have hok := (h hflat ⟨hfits, by decide +kernel, by decide +kernel, by decide +kernel⟩).ok
    revert hok
    decide +kernel
  · intro h
    obtain ⟨i, hi, hvalue⟩ := (h.items ([(str "path", none)], str "users", str "a\x00b") (by decide +kernel)).2
    obtain rfl : (⟨str "users", str "Users directory", .string, []⟩ : ConfigItem) = i :=
      Option.some.inj ((by decide +kernel : itemAt (minbifSchema true true) [(str "path", none)]
        (str "users") = some _).symm.trans hi)
    revert hvalue
    decide +kernel

end Minbif
