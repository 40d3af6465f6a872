import Minbif.Core.MarkupLooks

/-! Lines that are converted together, and cut apart again. -/
namespace Minbif
namespace Mirc
open Tagged Tokens

/-- What ends a line for `recvMessage`. -/
def lineEnds : Str := ['\n', '\r']

/-- A line that comes through the functions of `H`, and shows something. -/
structure Typed (H : Html) (s : Str) : Prop where
  line : OneLine s
  plain : ∀ c, .text c ∈ pieces s → H.plain c = true
  numbers : ∀ l₁ p l₂, pieces s = l₁ ++ p :: l₂ → p.ends = true → ∀ c ∈ follows l₂,
    c.isDigit = false ∧ c ≠ ','
  visible : shown s ≠ []

/-- Bold and underlined text is off at the end, and at each reset. -/
structure Closes (s : Str) : Prop where
  resets : ∀ l₁ l₂, pieces s = l₁ ++ .reset :: l₂ →
    Kind.bold.on l₁ = false ∧ Kind.underline.on l₁ = false
  last : Kind.bold.on (pieces s) = false ∧ Kind.underline.on (pieces s) = false

/-- From these flags on, what comes back of the line looks like it, and ends with such flags. -/
def Keeps (I : Flags → Prop) (s : Str) : Prop :=
  ∀ f, I f → I (f.after (pieces s)) ∧ ∀ codes : List Piece, (∀ p ∈ codes, p.isText = false) →
    ({} : Look).show (f.recodes (pieces s) ++ codes) = shown s

/-- Neither bold nor underlined. -/
def Flags.Off (f : Flags) : Prop := f.bold = false ∧ f.underline = false

variable {H : Html} {f : Flags} {I : Flags → Prop} {l l' codes tail : List Piece} {p : Piece}
  {s r t : Str} {c : Char} {ls : List Str} {fg : Str} {bg : Option Str}

section Look

theorem keeps_of_noReset (h : .reset ∉ pieces s) : Keeps (fun _ => True) s := by
  intro f _
  exact ⟨trivial, fun codes hcodes => show_recodes_plain h (fun _ => rfl) hcodes⟩

theorem flag_foldl (k : Kind) (f : Flags) (l : List Piece) :
    k.flag (f.after l) = l.foldl k.step (k.flag f) := by
  induction l generalizing f with
  | nil => rfl
  | cons p l ih =>
    have hcons : f.after (p :: l) = (f.next p).after l := rfl
    rw [hcons, ih, flag_next]
    rfl

/-- Flags that are off are as at the start. -/
theorem Flags.Off.after (h : f.Off) (hbold : Kind.bold.on l = false)
    (hline : Kind.underline.on l = false) : (f.after l).Off := by
  rw [← flag_after, flag_foldl] at hbold hline
  have hb := flag_foldl .bold f l
  have hu := flag_foldl .underline f l
  have hf : Kind.bold.flag f = false := h.1
  have hg : Kind.underline.flag f = false := h.2
  rw [hf] at hb
  rw [hg] at hu
  exact ⟨hb.trans hbold, hu.trans hline⟩

theorem Closes.keeps (h : Closes s) : Keeps Flags.Off s := by
  intro f hf
  refine ⟨hf.after h.last.1 h.last.2, fun codes hcodes => ?_⟩
  refine show_recodes (fun _ => rfl) hf.1 hf.2 (fun l₁ l₂ hl hon => ?_) hcodes
  obtain ⟨hbold, hline⟩ := h.resets l₁ l₂ hl
  obtain ⟨hb, hu⟩ := hf.after hbold hline
  rw [hb, hu] at hon
  rcases hon with hon | hon <;> cases hon

end Look

section Newline

theorem digit_newline (s r : Str) :
    digit (s ++ '\n' :: r) = ((digit s).1, (digit s).2 ++ '\n' :: r) := by
  cases s with
  | nil => rfl
  | cons c s =>
    simp only [digit, List.cons_append]
    split <;> rfl

theorem twoDigits_newline (s r : Str) :
    twoDigits (s ++ '\n' :: r) = ((twoDigits s).1, (twoDigits s).2 ++ '\n' :: r) := by
  simp only [twoDigits, digit_newline]

/-- A newline ends the arguments of a code. -/
theorem colourArgs_newline (s r : Str) : colourArgs (s ++ '\n' :: r) =
    ((colourArgs s).1, (colourArgs s).2.1, (colourArgs s).2.2 ++ '\n' :: r) := by
  simp only [colourArgs, twoDigits_newline]
  cases htwo : (twoDigits s).2 with
  | nil => rfl
  | cons d t =>
    by_cases hd : d = ','
    · subst hd
      simp only [List.cons_append, twoDigits_newline]
    · simp only [List.cons_append]
      split
      · next heq => exact (hd (List.cons.inj heq).1).elim
      · split
        · next heq => exact (hd (List.cons.inj heq).1).elim
        · rfl

/-- Only a code for colours looks at what follows it. -/
theorem pieceAt_append (hc : c ≠ '\x03') (s r : Str) :
    pieceAt c (s ++ r) = pieceAt c s ∧ (pieceAt c s).2 = 0 := by
  simp only [pieceAt, hc, if_false, true_and]
  split
  · rfl
  · split
    · rfl
    · split
      · rfl
      · split <;> rfl

/-- No piece extends over the end of a line. -/
theorem pieces_newline (s r : Str) : pieces (s ++ '\n' :: r) = pieces s ++ .text '\n' :: pieces r := by
  induction hn : s.length using Nat.strong_induction_on generalizing s with
  | _ n ih =>
    subst hn
    cases s with
    | nil => rw [List.nil_append, pieces_cons, pieceAt_plain (by decide)]; rfl
    | cons c s =>
      by_cases hc : c = '\x03'
      · subst hc
        have hlen := congrArg List.length (colourArgs_eq s)
        rw [List.length_append] at hlen
        rw [List.cons_append, pieces_colour, pieces_colour, colourArgs_newline,
          ih (colourArgs s).2.2.length (by rw [List.length_cons]; omega) _ rfl]
        rfl
      · obtain ⟨hpiece, hskip⟩ := pieceAt_append hc s ('\n' :: r)
        rw [List.cons_append, pieces_cons, pieces_cons, hpiece, hskip, List.drop_zero, List.drop_zero,
          ih s.length (by rw [List.length_cons]; omega) _ rfl]
        rfl

end Newline

section Legible

theorem legible_newline (hl : Legible l) (hr : Legible l') : Legible (l ++ .text '\n' :: l') := by
  induction l with
  | nil =>
    have hplain : '\n' ∉ formatting := by decide
    exact ⟨hplain, hr⟩
  | cons p l ih =>
    refine ⟨?_, ih hl.2⟩
    cases l with
    | cons q l => cases q <;> exact hl.1
    | nil =>
      have hp := hl.1
      cases p with
      | text c => exact hp
      | bold | underline | reset => trivial
      | dropped => exact hp
      | colour fg bg =>
        cases bg with
        | some bg => exact hp
        | none =>
          have hnext : ∀ c ∈ some '\n', c.isDigit = false ∧ c ≠ ',' := by
            intro c hc
            obtain rfl := Option.some.inj hc
            decide
          exact hp.imp (fun h => ⟨h.1, hnext⟩) fun h => ⟨h.1, fun c hc => (hnext c hc).2⟩

/-- What is written for the codes of a line is no end of a line. -/
theorem spell_line (htext : ∀ c, .text c ∈ l → c ≠ '\n' ∧ c ≠ '\r') (hl : Legible l) :
    OneLine (spell ([·]) l) := by
  induction l with
  | nil => exact .nil
  | cons p l ih =>
    refine OneLine.append (s := p.spell ([·])) ?_
      (ih (fun c hc => htext c (List.mem_cons_of_mem _ hc)) hl.2)
    intro c hc
    cases hp : p.isText with
    | true =>
      cases p with
      | text d =>
        obtain rfl := List.mem_singleton.mp hc
        exact htext c List.mem_cons_self
      | _ => cases hp
    | false =>
      constructor
      · rintro rfl
        exact spell_code_free hp hl.1 (by decide) hc
      · rintro rfl
        exact spell_code_free hp hl.1 (by decide) hc

theorem recodes_append (f : Flags) (l l' : List Piece) :
    f.recodes (l ++ l') = f.recodes l ++ (f.after l).recodes l' := by
  induction l generalizing f with
  | nil => rfl
  | cons p l ih =>
    rw [List.cons_append, Flags.recodes, ih, Flags.recodes, List.append_assoc]
    rfl

end Legible

section Lines

theorem text_mem (h : .text c ∈ pieces s) : c ∈ s := by
  have hfrom : ∀ (s : Str) (skip : Nat), .text c ∈ piecesFrom skip s → c ∈ s := by
    intro s
    induction s with
    | nil =>
      intro skip h
      cases skip <;> cases h
    | cons d s ih =>
      intro skip h
      cases skip with
      | succ skip => exact List.mem_cons_of_mem _ (ih _ h)
      | zero =>
        rcases List.mem_cons.mp h with h | h
        · by_cases hd : d ∈ formatting
          · have hno := pieceAt_isText (s := s) hd
            rw [← h] at hno
            cases hno
          · rw [pieceAt_plain hd, Piece.text.injEq] at h
            exact h ▸ List.mem_cons_self
        · exact List.mem_cons_of_mem _ (ih _ h)
  exact hfrom s 0 h

theorem Typed.ne_nil (h : Typed H s) : s ≠ [] := by
  rintro rfl
  exact h.visible rfl

/-- What a conversion appends after the text. -/
structure Ending (codes : List Piece) : Prop where
  legible : Legible codes
  first : firstText codes = none
  silent : ∀ p ∈ codes, p.isText = false

theorem Ending.nil : Ending [] := ⟨trivial, rfl, fun _ h => nomatch h⟩

theorem ending_closed (f : Flags) : Ending f.closed :=
  ⟨(closed_legible f).1, (closed_legible f).2, closed_isText f⟩

/-- One line, wherever it stands. -/
theorem Typed.back (h : Typed H s) (hk : Keeps I s) (hf : I f) (hcodes : Ending codes) :
    Legible (f.recodes (pieces s) ++ codes) ∧ OneLine (spell ([·]) (f.recodes (pieces s) ++ codes)) ∧
      shown (spell ([·]) (f.recodes (pieces s) ++ codes)) = shown s := by
  have hleg : Legible (f.recodes (pieces s) ++ codes) :=
    legible_recodes hcodes.legible hcodes.first (fun c hc => pieces_text_mem hc) h.numbers
  refine ⟨hleg, spell_line (fun c hc => ?_) hleg, ?_⟩
  · rcases List.mem_append.mp hc with hc | hc
    · exact h.line c (text_mem (text_recodes hc))
    · cases hcodes.silent _ hc
  · rw [shown, pieces_spell hleg, (hk f hf).2 codes hcodes.silent]

theorem OneLine.free (h : OneLine t) : ∀ c ∈ t, lineEnds.contains c = false := by
  intro c hc
  obtain ⟨hn, hr⟩ := h c hc
  simp [lineEnds, hn, hr]

/-- By induction on the lines; the flags are handed from each to the next. -/
theorem lines_back (hls : ∀ s ∈ ls, Typed H s ∧ Keeps I s) (hne : ls ≠ []) (hf : I f)
    (hcodes : Ending codes) :
    Legible (f.recodes (pieces (['\n'].intercalate ls)) ++ codes) ∧
      (tokens lineEnds.contains (spell ([·]) (f.recodes (pieces (['\n'].intercalate ls)) ++ codes))).map
        shown = ls.map shown := by
  induction ls generalizing f with
  | nil => exact (hne rfl).elim
  | cons s ls ih =>
    obtain ⟨hs, hk⟩ := hls s List.mem_cons_self
    cases ls with
    | nil =>
      rw [List.intercalate_singleton]
      obtain ⟨hleg, hline, hshown⟩ := hs.back hk hf hcodes
      have hvisible : spell ([·]) (f.recodes (pieces s) ++ codes) ≠ [] := by
        intro hnil
        rw [hnil] at hshown
        exact hs.visible hshown.symm
      refine ⟨hleg, ?_⟩
      rw [tokens_run hline.free hvisible, List.map_singleton, List.map_singleton, hshown]
    | cons s' ls =>
      have hrest := ih (f := f.after (pieces s)) (fun t ht => hls t (List.mem_cons_of_mem _ ht))
        (List.cons_ne_nil _ _) (hk f hf).1
      have hline := hs.back hk hf .nil
      have hsplit : f.recodes (pieces (['\n'].intercalate (s :: s' :: ls))) ++ codes =
          (f.recodes (pieces s) ++ []) ++ .text '\n' ::
            ((f.after (pieces s)).recodes (pieces (['\n'].intercalate (s' :: ls))) ++ codes) := by
        rw [List.intercalate_cons_cons, List.append_assoc, List.singleton_append, pieces_newline,
          recodes_append, List.append_nil, List.append_assoc]
        rfl
      rw [hsplit]
      refine ⟨legible_newline hline.1 hrest.1, ?_⟩
      have hvisible : spell ([·]) (f.recodes (pieces s) ++ []) ≠ [] := by
        intro hnil
        have hshown := hline.2.2
        rw [hnil] at hshown
        exact hs.visible hshown.symm
      have hspell : ∀ l l' : List Piece, spell ([·]) (l ++ .text '\n' :: l') =
          spell ([·]) l ++ '\n' :: spell ([·]) l' := fun l l' => spell_append _ _ _
      rw [hspell, tokens_run_cons hline.2.1.free hvisible rfl, List.map_cons, List.map_cons, hrest.2,
        hline.2.2]

theorem text_joined (hls : ∀ s ∈ ls, Typed H s) (h : .text c ∈ pieces (['\n'].intercalate ls)) :
    H.plain c = true ∨ c = '\n' := by
  induction ls with
  | nil => cases h
  | cons s ls ih =>
    have hs := hls s List.mem_cons_self
    cases ls with
    | nil =>
      rw [List.intercalate_singleton] at h
      exact .inl (hs.plain c h)
    | cons s' ls =>
      rw [List.intercalate_cons_cons, List.append_assoc, List.singleton_append, pieces_newline,
        List.mem_append, List.mem_cons] at h
      rcases h with h | h | h
      · exact .inl (hs.plain c h)
      · exact .inr (Piece.text.inj h)
      · exact ih (fun t ht => hls t (List.mem_cons_of_mem _ ht)) h

/-- Lines that are joined, converted and converted back are the same lines, and look the same. -/
theorem lines_markup2irc (H : Html) (hls : ∀ s ∈ ls, Typed H s ∧ Keeps I s) (hne : ls ≠ [])
    (hI : I {}) : (tokens lineEnds.contains (markup2irc H.withHtml H.stripHtml (asString
      (({} : Flags).chunks H.escape (pieces (['\n'].intercalate ls)))))).map shown = ls.map shown := by
  have hending : Ending (if endsInText (pieces (['\n'].intercalate ls)) then
      (({} : Flags).after (pieces (['\n'].intercalate ls))).closed else []) := by
    split
    · exact ending_closed _
    · exact .nil
  obtain ⟨hleg, hshown⟩ := lines_back hls hne hI hending
  rw [markup2irc_returned H (fun c hc => text_joined (fun s hs => (hls s hs).1) hc) hleg]
  exact hshown

end Lines

end Mirc
end Minbif
