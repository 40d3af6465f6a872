import Minbif.Core.MarkupText
import Minbif.Core.Unmarkup

/-! What `markup2irc` makes of the markup that `irc2markup` has written. -/
namespace Minbif
namespace Mirc
open Tagged

/-- The number of the background, when it is that of a colour. -/
def backOf (bg : Option Str) : Option Nat :=
  if !(bg.getD []).isEmpty && decimal (bg.getD []) < 16 then some (decimal (bg.getD [])) else none

/-- How a piece is written. -/
def Piece.spell (escape : Char → Str) : Piece → Str
  | .text c => escape c
  | .bold => ['\x02']
  | .underline => ['\x1f']
  | .dropped => []
  | .reset => ['\x0f']
  | .colour fg bg => '\x03' :: argText fg bg

def spell (escape : Char → Str) (l : List Piece) : Str := l.flatMap (Piece.spell escape)

/-- The codes for the tags that are closed at once. -/
def Flags.closed (f : Flags) : List Piece :=
  (if f.bold then [.bold] else []) ++ (if f.underline then [.underline] else []) ++
    if f.font then [.colour [] none] else []

/-- The codes that come back for those of a piece. -/
def Flags.recode (f : Flags) : Piece → List Piece
  | .text c => [.text c]
  | .bold => [.bold]
  | .underline => [.underline]
  | .dropped => []
  | .reset => f.closed
  | .colour fg bg => (if f.font then [.colour [] none] else []) ++
      if Piece.opens (.colour fg bg) then
        [.colour (colourNum (decimal fg)) ((backOf bg).map colourNum)]
      else []

def Flags.recodes (f : Flags) : List Piece → List Piece
  | [] => []
  | p :: l => f.recode p ++ (f.next p).recodes l

/-- Neither the end of a line nor the start of an entity. -/
def Bare (s : Str) : Prop := ∀ c ∈ s, c ≠ '\n' ∧ c ≠ '\r' ∧ c ≠ '&'

/-- The loop leaves what is written for a character as it is. -/
def Kept (escape : Char → Str) : Prop := ∀ c r, coded (escape c ++ r) = escape c ++ coded r

/-- All that comes back. -/
def returned (l : List Piece) : List Piece :=
  ({} : Flags).recodes l ++ if endsInText l then (({} : Flags).after l).closed else []

/-- The character that comes next, when no code for bold or underlined text stands before it. -/
def follows : List Piece → Option Char
  | .text c :: _ => some c
  | .bold :: _ | .underline :: _ | [] => none
  | _ :: l => follows l

/-- A code that may end the colours. -/
def Piece.ends : Piece → Bool
  | .reset | .colour _ _ => true
  | _ => false

/-- No text could be read as the numbers of a code before it, and a reset that finds bold or underlined
text is the last one. -/
structure Separate (l : List Piece) : Prop where
  numbers : ∀ l₁ p l₂, l = l₁ ++ p :: l₂ → p.ends = true → ∀ c ∈ follows l₂,
    c.isDigit = false ∧ c ≠ ','
  resets : ∀ l₁ l₂, l = l₁ ++ .reset :: l₂ →
    Kind.bold.on l₁ = true ∨ Kind.underline.on l₁ = true → .reset ∉ l₂

variable {escape : Char → Str} {f : Flags} {p : Piece} {l l₁ l₂ : List Piece} {s r : Str}
  {c : Char} {fg : Str} {bg : Option Str}

section Coded

theorem coded_bold (r : Str) : coded (asString [.tag ['B']] ++ r) = '\x02' :: coded r :=
  coded_open (t := ['B']) (by decide) (by decide) r

theorem coded_boldEnd (r : Str) : coded (asString [.tag ['/', 'B']] ++ r) = '\x02' :: coded r :=
  coded_close (t := ['B']) (by decide) r

theorem coded_underline (r : Str) : coded (asString [.tag ['U']] ++ r) = '\x1f' :: coded r :=
  coded_open (t := ['U']) (by decide) (by decide) r

theorem coded_underlineEnd (r : Str) :
    coded (asString [.tag ['/', 'U']] ++ r) = '\x1f' :: coded r :=
  coded_close (t := ['U']) (by decide) r

theorem coded_fontEnd (r : Str) :
    coded (asString [.tag ('/' :: str "FONT")] ++ r) = '\x03' :: coded r :=
  coded_close (t := str "FONT") (by decide) r

/-- What the loop over the attributes finds in a tag of `irc2markup`. -/
theorem fontAttrs_fontTag (hopens : Piece.opens (.colour fg bg) = true) (r : Str) (fuel : Nat) :
    fontAttrs (fuel + 3) ((fontTag fg bg ++ '>' :: r).drop 5) none none =
      (some (decimal fg), backOf bg) := by
  have hfg : decimal fg ≤ 15 := by
    simp only [Piece.opens, Bool.and_eq_true, decide_eq_true_eq] at hopens
    exact hopens.2
  unfold fontTag backOf
  dsimp only
  split
  · next hback =>
    simp only [Bool.and_eq_true, decide_eq_true_eq] at hback
    have hbg : decimal (bg.getD []) ≤ 15 := by omega
    have hsplit : (str "FONT COLOR=\"" ++ ircColors.getD (decimal fg) [] ++ str "\"" ++
        (str " BACK=\"" ++ ircColors.getD (decimal (bg.getD [])) [] ++ str "\"") ++ '>' :: r).drop 5 =
        str "COLOR=\"" ++ ircColors.getD (decimal fg) [] ++ '"' :: (' ' :: (str "BACK=\"" ++
          ircColors.getD (decimal (bg.getD [])) [] ++ '"' :: ('>' :: r))) := by
      simp [str]
    rw [hsplit, fontAttrs_color hfg, List.dropWhile_cons_of_pos (by simp)]
    have hblank : (str "BACK=\"" ++ ircColors.getD (decimal (bg.getD [])) [] ++ '"' :: ('>' :: r)).dropWhile
        (· = ' ') = str "BACK=\"" ++ ircColors.getD (decimal (bg.getD [])) [] ++ '"' :: ('>' :: r) := rfl
    rw [hblank, fontAttrs_back hbg]
    rfl
  · have hsplit : (str "FONT COLOR=\"" ++ ircColors.getD (decimal fg) [] ++ str "\"" ++ [] ++
        '>' :: r).drop 5 = str "COLOR=\"" ++ ircColors.getD (decimal fg) [] ++ '"' :: ('>' :: r) := by
      simp [str]
    rw [hsplit, fontAttrs_color hfg]
    rfl

theorem fontTag_bare (hopens : Piece.opens (.colour fg bg) = true) : Bare (fontTag fg bg) := by
  have hname : ∀ i < 16, Bare (ircColors.getD i []) := by
    have hall : ∀ i < 16, ((ircColors.getD i []).all
        fun c => decide (c ≠ '\n' ∧ c ≠ '\r' ∧ c ≠ '&')) = true := by
      decide +kernel
    exact fun i hi => forall_of_all (hall i hi)
  have hword : ∀ t ∈ [str "FONT COLOR=\"", str " BACK=\"", str "\""], Bare t := by
    have hall : ∀ t ∈ [str "FONT COLOR=\"", str " BACK=\"", str "\""],
        (t.all fun c => decide (c ≠ '\n' ∧ c ≠ '\r' ∧ c ≠ '&')) = true := by
      decide +kernel
    exact fun t ht => forall_of_all (hall t ht)
  have hfg : decimal fg < 16 := by
    simp only [Piece.opens, Bool.and_eq_true, decide_eq_true_eq] at hopens
    omega
  intro c hc
  unfold fontTag at hc
  simp only [List.mem_append] at hc
  rcases hc with ((hc | hc) | hc) | hc
  · exact hword (str "FONT COLOR=\"") (by simp) c hc
  · exact hname _ hfg c hc
  · exact hword (str "\"") (by simp) c hc
  · split at hc
    · next hback =>
      simp only [Bool.and_eq_true, decide_eq_true_eq] at hback
      simp only [List.mem_append] at hc
      rcases hc with (hc | hc) | hc
      · exact hword (str " BACK=\"") (by simp) c hc
      · exact hname _ hback.2 c hc
      · exact hword (str "\"") (by simp) c hc
    · cases hc

theorem coded_font (hopens : Piece.opens (.colour fg bg) = true) (r : Str) :
    coded (asString [.tag (fontTag fg bg)] ++ r) =
      '\x03' :: argText (colourNum (decimal fg)) ((backOf bg).map colourNum) ++ coded r := by
  have hsplit : asString [.tag (fontTag fg bg)] ++ r = '<' :: fontTag fg bg ++ '>' :: r := by
    rw [asString_tag]
    simp
  obtain ⟨t, ht⟩ : ∃ t, fontTag fg bg = str "FONT COLOR=\"" ++ t := by
    unfold fontTag
    exact ⟨_, by simp only [List.append_assoc]; rfl⟩
  have hopen := coded_open (fontTag_clean fg bg) (by rw [ht]; nofun) r
  rw [hsplit, hopen]
  congr 1
  obtain ⟨fuel, hfuel⟩ : ∃ fuel, (fontTag fg bg ++ '>' :: r).length + 1 = fuel + 3 := by
    have hlen : (str "FONT COLOR=\"").length = 12 := rfl
    refine ⟨(fontTag fg bg ++ '>' :: r).length - 2, ?_⟩
    rw [ht, List.length_append, List.length_append, hlen]
    omega
  have hattrs := fontAttrs_fontTag hopens r fuel
  rw [← hfuel] at hattrs
  have htag : tagCode false (fontTag fg bg ++ '>' :: r) (fontTag fg bg ++ ['>']) = colourCode
      (fontAttrs ((fontTag fg bg ++ '>' :: r).length + 1) ((fontTag fg bg ++ '>' :: r).drop 5)
        none none) := by
    rw [ht]
    rfl
  rw [htag, hattrs]
  cases backOf bg with
  | none => simp [colourCode, argText]
  | some i => simp [colourCode, argText]

theorem spell_append (escape : Char → Str) (l l' : List Piece) :
    spell escape (l ++ l') = spell escape l ++ spell escape l' := List.flatMap_append

theorem coded_closing (escape : Char → Str) (f : Flags) (hf : f.italic = false) (r : Str) :
    coded (asString (closingChunks f) ++ r) = spell escape f.closed ++ coded r := by
  have hfont : ∀ r, coded (asString (closeTag f.font (str "FONT")) ++ r) =
      spell escape (if f.font then [.colour [] none] else []) ++ coded r := by
    intro r
    cases f.font with
    | true => exact coded_fontEnd r
    | false => rfl
  have hline : ∀ r, coded (asString (closeTag f.underline ['U']) ++ r) =
      spell escape (if f.underline then [.underline] else []) ++ coded r := by
    intro r
    cases f.underline with
    | true => exact coded_underlineEnd r
    | false => rfl
  have hbold : ∀ r, coded (asString (closeTag f.bold ['B']) ++ r) =
      spell escape (if f.bold then [.bold] else []) ++ coded r := by
    intro r
    cases f.bold with
    | true => exact coded_boldEnd r
    | false => rfl
  have hitalic : closeTag f.italic ['I'] = [] := by rw [hf]; rfl
  rw [closingChunks, hitalic, List.append_nil, asString_append, asString_append, List.append_assoc,
    List.append_assoc, hbold, hline, hfont, Flags.closed, spell_append, spell_append,
    List.append_assoc, List.append_assoc]

theorem coded_emit (hescape : Kept escape) (hf : f.italic = false) (p : Piece) (r : Str) :
    coded (asString (f.emit escape p) ++ r) = spell escape (f.recode p) ++ coded r := by
  cases p with
  | text c =>
    have htext : asString (f.emit escape (.text c)) = escape c := List.append_nil _
    rw [htext, hescape]
    simp [spell, Flags.recode, Piece.spell]
  | bold =>
    rw [Flags.emit]
    cases f.bold with
    | true => exact coded_boldEnd r
    | false => exact coded_bold r
  | underline =>
    rw [Flags.emit]
    cases f.underline with
    | true => exact coded_underlineEnd r
    | false => exact coded_underline r
  | dropped => rfl
  | reset => exact coded_closing escape f hf r
  | colour fg bg =>
    have hopen : ∀ r, coded (asString (if Piece.opens (.colour fg bg) then [.tag (fontTag fg bg)] else []) ++
        r) = spell escape (if Piece.opens (.colour fg bg) then
          [.colour (colourNum (decimal fg)) ((backOf bg).map colourNum)] else []) ++ coded r := by
      intro r
      split
      · next hopens =>
        rw [coded_font hopens]
        simp [spell, Piece.spell]
      · rfl
    rw [Flags.emit, Flags.recode, asString_append, spell_append, List.append_assoc, List.append_assoc]
    cases f.font with
    | true =>
      refine (coded_fontEnd _).trans ?_
      rw [hopen]
      rfl
    | false => exact hopen r

theorem next_italic (hf : f.italic = false) (p : Piece) : (f.next p).italic = false := by
  cases p <;> exact hf

theorem coded_write (hescape : Kept escape) (hf : f.italic = false) (l : List Piece) (r : Str) :
    coded (asString (f.write escape l) ++ r) = spell escape (f.recodes l) ++ coded r := by
  induction l generalizing f with
  | nil => rfl
  | cons p l ih =>
    rw [Flags.write, asString_append, List.append_assoc, coded_emit hescape hf,
      ih (next_italic hf p), Flags.recodes, spell_append, List.append_assoc]

theorem after_italic (hf : f.italic = false) (l : List Piece) : (f.after l).italic = false := by
  induction l generalizing f with
  | nil => exact hf
  | cons p l ih => exact ih (next_italic hf p)

/-- The loop gives back the codes. -/
theorem coded_chunks (hescape : Kept escape) (l : List Piece) :
    coded (asString (({} : Flags).chunks escape l)) = spell escape (returned l) := by
  rw [Flags.chunks, asString_append, coded_write hescape rfl, returned, spell_append]
  congr 1
  split
  · have h := coded_closing escape (({} : Flags).after l) (after_italic rfl l) []
    simpa [coded, markup2ircLoop] using h
  · rfl

end Coded

section Read

/-- Two digits, as the codes of `markup2irc` have them. -/
def TwoDigits (t : Str) : Prop := t.length = 2 ∧ ∀ c ∈ t, c.isDigit = true

/-- The piece can be read before a text that starts with such a character. -/
def Piece.Legible (next : Option Char) : Piece → Prop
  | .text c => c ∉ formatting
  | .bold | .underline | .reset => True
  | .dropped => False
  | .colour fg none =>
    fg = [] ∧ (∀ c ∈ next, c.isDigit = false ∧ c ≠ ',') ∨ TwoDigits fg ∧ ∀ c ∈ next, c ≠ ','
  | .colour fg (some bg) => TwoDigits fg ∧ TwoDigits bg

def firstText : List Piece → Option Char
  | .text c :: _ => some c
  | _ => none

/-- No piece runs into the next. -/
def Legible : List Piece → Prop
  | [] => True
  | p :: l => p.Legible (firstText l) ∧ Legible l

/-- A written code starts with neither a digit nor a comma. -/
theorem spell_head (h : Legible l) : ∀ c ∈ (spell ([·]) l).head?,
    firstText l = some c ∨ c.isDigit = false ∧ c ≠ ',' := by
  cases l with
  | nil => nofun
  | cons p l =>
    cases p with
    | text c => exact fun d hd => .inl hd
    | dropped => exact h.1.elim
    | bold | underline | reset | colour _ _ =>
      intro c hc
      obtain rfl := Option.some.inj hc
      exact .inr (by decide)

theorem digits_none {s : Str} (h : ∀ c ∈ s.head?, c.isDigit = false) : digits s = [] := by
  cases s with
  | nil => rfl
  | cons c s =>
    have hc := h c rfl
    simp [digits, hc]

theorem digits_two {t : Str} (ht : TwoDigits t) (s : Str) : digits (t ++ s) = t := by
  unfold digits
  rw [← ht.1, List.take_left, List.takeWhile_eq_self_iff.mpr ht.2]

theorem colourArgs_spelt {s : Str}
    (hs : ∀ c ∈ s.head?, firstText l = some c ∨ c.isDigit = false ∧ c ≠ ',')
    (h : Piece.Legible (firstText l) (.colour fg bg)) :
    colourArgs (argText fg bg ++ s) = (fg, bg, s) := by
  have hplain : digits (fg ++ s) = fg → (∀ c ∈ s.head?, c ≠ ',') →
      colourArgs (fg ++ s) = (fg, none, s) := by
    intro hfg hcomma
    have hdrop : (fg ++ s).drop (digits (fg ++ s)).length = s := by rw [hfg, List.drop_left]
    rw [colourArgs_plain, hfg, List.drop_left]
    intro t ht
    rw [hdrop] at ht
    exact hcomma ',' (by rw [ht]; rfl) rfl
  cases bg with
  | none =>
    rw [argText, Option.elim_none, List.append_nil]
    rcases h with ⟨rfl, hnext⟩ | ⟨htwo, hnext⟩
    · have hhead : ∀ c ∈ s.head?, c.isDigit = false ∧ c ≠ ',' := fun c hc =>
        (hs c hc).elim (hnext c) id
      exact hplain (digits_none fun c hc => (hhead c hc).1) fun c hc => (hhead c hc).2
    · exact hplain (digits_two htwo s) fun c hc => (hs c hc).elim (hnext c) And.right
  | some bg =>
    have hfg : digits (argText fg (some bg) ++ s) = fg := by
      rw [argText, List.append_assoc, digits_two h.1]
    have hdrop : (argText fg (some bg) ++ s).drop (digits (argText fg (some bg) ++ s)).length =
        ',' :: (bg ++ s) := by
      rw [hfg, argText, List.append_assoc, List.drop_left]
      rfl
    rw [colourArgs_comma hdrop, hfg, digits_two h.2, List.drop_left]

/-- What is legible is read back. -/
theorem pieces_spell (h : Legible l) : pieces (spell ([·]) l) = l := by
  induction l with
  | nil => rfl
  | cons p l ih =>
    obtain ⟨hp, hl⟩ := h
    have hcons : spell ([·]) (p :: l) = p.spell ([·]) ++ spell ([·]) l := rfl
    rw [hcons]
    cases p with
    | text c =>
      rw [Piece.spell, List.singleton_append, pieces_cons, pieceAt_plain hp, List.drop_zero, ih hl]
    | bold | underline | reset =>
      rw [Piece.spell, List.singleton_append, pieces_cons]
      exact congrArg _ (ih hl)
    | dropped => exact hp.elim
    | colour fg bg =>
      rw [Piece.spell, List.cons_append, pieces_colour, colourArgs_spelt (spell_head hl) hp, ih hl]

end Read

section Returned

/-- The number of a colour is written with two digits, and read back. -/
theorem colourNum_spec {i : Nat} (hi : i ≤ 15) : TwoDigits (colourNum i) ∧
    decimal (colourNum i) = i := by
  have h : ∀ i < 16, ((colourNum i).length = 2 ∧ (colourNum i).all Char.isDigit = true) ∧
      decimal (colourNum i) = i := by
    decide +kernel
  obtain ⟨⟨hlen, hall⟩, hdec⟩ := h i (by omega)
  exact ⟨⟨hlen, List.all_eq_true.mp hall⟩, hdec⟩

theorem backOf_le {i : Nat} (h : backOf bg = some i) : i ≤ 15 := by
  unfold backOf at h
  split at h
  · next hback =>
    simp only [Bool.and_eq_true, decide_eq_true_eq] at hback
    obtain rfl := Option.some.inj h
    omega
  · cases h

theorem TwoDigits.ne_nil {t : Str} (h : TwoDigits t) : t.isEmpty = false := by
  obtain ⟨hlen, -⟩ := h
  cases t with
  | nil => cases hlen
  | cons => rfl

theorem opens_le (h : Piece.opens (.colour fg bg) = true) : decimal fg ≤ 15 := by
  simp only [Piece.opens, Bool.and_eq_true, decide_eq_true_eq] at h
  exact h.2

theorem opens_colourNum {i : Nat} (hi : i ≤ 15) (bg : Option Str) :
    Piece.opens (.colour (colourNum i) bg) = true := by
  obtain ⟨htwo, hdec⟩ := colourNum_spec hi
  simp [Piece.opens, htwo.ne_nil, hdec, hi]

theorem backOf_colourNum (bg : Option Str) : backOf ((backOf bg).map colourNum) = backOf bg := by
  cases hb : backOf bg with
  | none => rfl
  | some i =>
    obtain ⟨htwo, hdec⟩ := colourNum_spec (backOf_le hb)
    have := backOf_le hb
    simp [backOf, htwo.ne_nil, hdec]
    omega

theorem firstText_recodes {tail : List Piece} (htail : firstText tail = none) :
    ∀ c ∈ firstText (f.recodes l ++ tail), c ∈ follows l := by
  induction l generalizing f with
  | nil => simp [Flags.recodes, htail]
  | cons p l ih =>
    rw [Flags.recodes, List.append_assoc]
    cases p with
    | text c => exact fun d hd => hd
    | bold | underline => nofun
    | dropped => exact ih
    | reset =>
      simp only [Flags.recode, Flags.closed]
      cases f.bold with
      | true => nofun
      | false =>
        cases f.underline with
        | true => nofun
        | false =>
          cases f.font with
          | true => nofun
          | false => exact ih
    | colour fg bg =>
      simp only [Flags.recode]
      cases f.font with
      | true => nofun
      | false =>
        by_cases hopens : Piece.opens (.colour fg bg) = true
        · rw [if_pos hopens]
          nofun
        · rw [if_neg hopens]
          exact ih

theorem legible_closed (f : Flags) {r : List Piece}
    (hnext : ∀ c ∈ firstText r, c.isDigit = false ∧ c ≠ ',') (hr : Legible r) :
    Legible (f.closed ++ r) := by
  unfold Flags.closed
  cases f.bold <;> cases f.underline <;> cases f.font <;>
    simp [Legible, Piece.Legible, hr] <;> exact .inl hnext

theorem legible_recodes {tail : List Piece} (htail : Legible tail) (hfirst : firstText tail = none)
    (htext : ∀ c, .text c ∈ l → c ∉ formatting)
    (hnumbers : ∀ l₁ p l₂, l = l₁ ++ p :: l₂ → p.ends = true → ∀ c ∈ follows l₂,
      c.isDigit = false ∧ c ≠ ',') : Legible (f.recodes l ++ tail) := by
  induction l generalizing f with
  | nil => exact htail
  | cons p l ih =>
    have hrest := ih (f := f.next p) (fun c hc => htext c (List.mem_cons_of_mem _ hc))
      fun l₁ q l₂ hl => hnumbers (p :: l₁) q l₂ (by rw [hl]; rfl)
    have hnext : p.ends = true → ∀ c ∈ firstText ((f.next p).recodes l ++ tail),
        c.isDigit = false ∧ c ≠ ',' := fun hp c hc =>
      hnumbers [] p l rfl hp c (firstText_recodes hfirst c hc)
    rw [Flags.recodes, List.append_assoc]
    cases p with
    | text c => exact ⟨htext c List.mem_cons_self, hrest⟩
    | bold | underline => exact ⟨trivial, hrest⟩
    | dropped => exact hrest
    | reset => exact legible_closed f (hnext rfl) hrest
    | colour fg bg =>
      have hopen : Legible ((if Piece.opens (.colour fg bg) then
          [Piece.colour (colourNum (decimal fg)) ((backOf bg).map colourNum)] else []) ++
          ((f.next (.colour fg bg)).recodes l ++ tail)) := by
        split
        · next hopens =>
          have hfg := (colourNum_spec (opens_le hopens)).1
          refine ⟨?_, hrest⟩
          cases hb : backOf bg with
          | none => exact .inr ⟨hfg, fun c hc => (hnext rfl c hc).2⟩
          | some i => exact ⟨hfg, (colourNum_spec (backOf_le hb)).1⟩
        · exact hrest
      rw [Flags.recode, List.append_assoc]
      cases f.font with
      | false => exact hopen
      | true =>
        refine ⟨.inl ⟨rfl, ?_⟩, hopen⟩
        by_cases hopens : Piece.opens (.colour fg bg) = true
        · rw [if_pos hopens]
          nofun
        · rw [if_neg hopens]
          exact hnext rfl

theorem closed_legible (f : Flags) : Legible f.closed ∧ firstText f.closed = none := by
  constructor
  · simpa using legible_closed f (r := []) nofun trivial
  · unfold Flags.closed
    cases f.bold <;> cases f.underline <;> cases f.font <;> rfl

theorem legible_returned (htext : ∀ c, .text c ∈ l → c ∉ formatting) (hl : Separate l) :
    Legible (returned l) := by
  unfold returned
  split
  · exact legible_recodes (closed_legible _).1 (closed_legible _).2 htext hl.numbers
  · exact legible_recodes trivial rfl htext hl.numbers

end Returned

end Mirc
end Minbif
