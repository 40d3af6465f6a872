import Minbif.Core.MarkupReturn

/-! Text that goes through `irc2markup` and `markup2irc` looks the same. -/
namespace Minbif
namespace Mirc
open Tagged

/-- What `purple_strdup_withhtml` puts in the place of a newline. -/
def breaks (c : Char) : Str := if c = '\n' then str "<BR>" else [c]

/-- What is written for a character, once its newlines are replaced. -/
def broken (escape : Char → Str) (c : Char) : Str := (escape c).flatMap breaks

/-- The functions of glib and libpurple on either side, and what they leave as it is. -/
structure Html where
  escape : Char → Str
  withHtml : Str → Str
  stripHtml : Str → Str
  /-- The characters that come through all three. -/
  plain : Char → Bool
  untagged : ∀ c, '<' ∉ escape c
  newline : escape '\n' = ['\n']
  oneLine : ∀ c, plain c = true → '\n' ∉ escape c ∧ '\r' ∉ escape c
  withHtml_breaks : ∀ s, '\r' ∉ s → withHtml s = s.flatMap breaks
  stripHtml_codes : ∀ l, Legible l → (∀ c, .text c ∈ l → plain c = true ∨ c = '\n') →
    stripHtml (spell (broken escape) l) = spell ([·]) l

/-- How a client shows a character. -/
structure Look where
  bold : Bool := false
  underline : Bool := false
  colour : Option (Nat × Option Nat) := none
deriving DecidableEq

def Look.next (k : Look) : Piece → Look
  | .bold => { k with bold := !k.bold }
  | .underline => { k with underline := !k.underline }
  | .reset => {}
  | .colour fg bg =>
    { k with colour := if Piece.opens (.colour fg bg) then some (decimal fg, backOf bg) else none }
  | _ => k

def Look.show (k : Look) : List Piece → List (Char × Look)
  | [] => []
  | .text c :: l => (c, k) :: k.show l
  | p :: l => (k.next p).show l

/-- The characters of a string, each as it is shown. -/
def shown (s : Str) : List (Char × Look) := ({} : Look).show (pieces s)

variable {f : Flags} {k : Look} {p : Piece} {l codes r : List Piece} {s : Str} {c : Char}
  {escape : Char → Str}

section Looks

theorem show_text_append (k : Look) (c : Char) (l : List Piece) :
    k.show (.text c :: l) = (c, k) :: k.show l := rfl

theorem show_codes (h : ∀ p ∈ codes, p.isText = false) :
    k.show (codes ++ r) = (codes.foldl Look.next k).show r := by
  induction codes generalizing k with
  | nil => rfl
  | cons p codes ih =>
    have hrest := ih (k := k.next p) fun q hq => h q (List.mem_cons_of_mem _ hq)
    cases p with
    | text c => cases h (.text c) List.mem_cons_self
    | _ => exact hrest

theorem closed_isText (f : Flags) : ∀ p ∈ f.closed, p.isText = false := by
  unfold Flags.closed
  cases f.bold <;> cases f.underline <;> cases f.font <;> simp [Piece.isText]

theorem recode_isText (hp : p.isText = false) : ∀ q ∈ f.recode p, q.isText = false := by
  cases p with
  | text c => cases hp
  | bold | underline | dropped => simp [Flags.recode, Piece.isText]
  | reset => exact closed_isText f
  | colour fg bg =>
    intro q hq
    rw [Flags.recode, List.mem_append] at hq
    rcases hq with hq | hq <;> split at hq <;> simp_all [Piece.isText]

/-- Without the flag there is no colour. -/
def Faded (f : Flags) (k : Look) : Prop := f.font = false → k.colour = none

theorem Faded.next (h : Faded f k) (p : Piece) : Faded (f.next p) (k.next p) := by
  cases p with
  | reset => exact fun _ => rfl
  | colour fg bg =>
    intro hf
    simp only [Flags.next] at hf
    simp [Look.next, hf]
  | _ => exact h

/-- The codes that come back change the look as the piece does. -/
theorem recode_look (h : Faded f k) (hp : p ≠ .reset) (ht : p.isText = false) :
    (f.recode p).foldl Look.next k = k.next p := by
  cases p with
  | text c => cases ht
  | reset => exact (hp rfl).elim
  | bold | underline | dropped => rfl
  | colour fg bg =>
    have hoff : (if f.font then [Piece.colour [] none] else []).foldl Look.next k =
        { k with colour := none } := by
      cases hf : f.font with
      | true => rfl
      | false =>
        have hk := h hf
        rw [if_neg Bool.false_ne_true, List.foldl_nil, ← hk]
    rw [Flags.recode, List.foldl_append, hoff]
    by_cases hopens : Piece.opens (.colour fg bg) = true
    · have hnum := colourNum_spec (opens_le hopens)
      rw [if_pos hopens]
      simp [Look.next, hopens, opens_colourNum (opens_le hopens), hnum.2, backOf_colourNum]
    · rw [if_neg hopens]
      simp [Look.next, hopens]

/-- A reset switches off what the flags say is on. -/
theorem closed_look (h : Faded f k) (hbold : f.bold = k.bold) (hline : f.underline = k.underline) :
    f.closed.foldl Look.next k = {} := by
  obtain ⟨bold, underline, colour⟩ := k
  obtain ⟨font, fbold, funderline, italic⟩ := f
  obtain rfl : fbold = bold := hbold
  obtain rfl : funderline = underline := hline
  cases font with
  | true => cases fbold <;> cases funderline <;> rfl
  | false =>
    obtain rfl : colour = none := h rfl
    cases fbold <;> cases funderline <;> rfl

theorem show_recode (hp : p ≠ .reset) (h : Faded f k) :
    k.show (f.recode p ++ r) = k.show [p] ++ (k.next p).show r := by
  cases ht : p.isText with
  | true =>
    cases p with
    | text c => rfl
    | _ => cases ht
  | false =>
    rw [show_codes (recode_isText ht), recode_look h hp ht]
    cases p with
    | text c => cases ht
    | _ => rfl

theorem show_cons (k : Look) (p : Piece) (l : List Piece) :
    k.show (p :: l) = k.show [p] ++ (k.next p).show l := by
  cases p <;> rfl

theorem show_end (h : ∀ p ∈ codes, p.isText = false) : k.show codes = [] := by
  have hshow := show_codes (k := k) (r := []) h
  rwa [List.append_nil] at hshow

/-- Without a reset only the colours have to agree with the flags. -/
theorem show_recodes_plain (hreset : .reset ∉ l) (h : Faded f k)
    (hcodes : ∀ p ∈ codes, p.isText = false) : k.show (f.recodes l ++ codes) = k.show l := by
  induction l generalizing f k with
  | nil => exact show_end hcodes
  | cons p l ih =>
    rw [List.mem_cons, not_or] at hreset
    rw [Flags.recodes, List.append_assoc, show_recode (Ne.symm hreset.1) h, ih hreset.2 (h.next p),
      ← show_cons]

/-- By induction on the pieces: up to the first reset that finds bold or underlined text, these agree
with their flags as well. -/
theorem show_recodes (h : Faded f k) (hbold : f.bold = k.bold) (hline : f.underline = k.underline)
    (hresets : ∀ l₁ l₂, l = l₁ ++ .reset :: l₂ →
      (f.after l₁).bold = true ∨ (f.after l₁).underline = true → .reset ∉ l₂)
    (hcodes : ∀ p ∈ codes, p.isText = false) : k.show (f.recodes l ++ codes) = k.show l := by
  induction l generalizing f k with
  | nil => exact show_end hcodes
  | cons p l ih =>
    have hrest : ∀ l₁ l₂, l = l₁ ++ .reset :: l₂ →
        ((f.next p).after l₁).bold = true ∨ ((f.next p).after l₁).underline = true →
        .reset ∉ l₂ := fun l₁ l₂ hl => hresets (p :: l₁) l₂ (by rw [hl]; rfl)
    rw [Flags.recodes, List.append_assoc]
    by_cases hp : p = .reset
    · subst hp
      have hclosed : k.show (f.closed ++ (f.recodes l ++ codes)) =
          ({} : Look).show (f.recodes l ++ codes) := by
        rw [show_codes (closed_isText f), closed_look h hbold hline]
      refine hclosed.trans ?_
      by_cases hon : f.bold = true ∨ f.underline = true
      · exact show_recodes_plain (hresets [] l rfl hon) (h.next .reset) hcodes
      · rw [not_or, Bool.not_eq_true, Bool.not_eq_true] at hon
        exact ih (f := f) (k := {}) (fun _ => rfl) hon.1 hon.2 hrest
    · rw [show_recode hp h, show_cons k p l]
      congr 1
      refine ih (h.next p) ?_ ?_ hrest
      · cases p <;> simp_all [Flags.next, Look.next]
      · cases p <;> simp_all [Flags.next, Look.next]

theorem show_returned (hl : Separate l) : ({} : Look).show (returned l) = ({} : Look).show l := by
  refine show_recodes (fun _ => rfl) rfl rfl (fun l₁ l₂ h hon => hl.resets l₁ l₂ h ?_) ?_
  · rw [← flag_after, ← flag_after]
    exact hon
  · split
    · exact closed_isText _
    · nofun

end Looks

section Through

/-- A text piece is a character that is no code. -/
theorem pieces_text_mem (h : .text c ∈ pieces s) : c ∉ formatting := by
  induction hn : s.length using Nat.strong_induction_on generalizing s with
  | _ n ih =>
    subst hn
    cases s with
    | nil => cases h
    | cons d s =>
      rw [pieces_cons, List.mem_cons] at h
      rcases h with h | h
      · by_contra hc
        have hd : d ∈ formatting := by
          by_contra hd
          rw [pieceAt_plain hd, Piece.text.injEq] at h
          exact hd (h ▸ hc)
        have hno := pieceAt_isText (s := s) hd
        rw [← h] at hno
        cases hno
      · refine ih (s.drop (pieceAt d s).2).length ?_ h rfl
        rw [List.length_drop, List.length_cons]
        omega

theorem text_recode (h : .text c ∈ f.recode p) : p = .text c := by
  cases ht : p.isText with
  | true =>
    cases p with
    | text d =>
      rw [Flags.recode, List.mem_singleton, Piece.text.injEq] at h
      rw [h]
    | _ => cases ht
  | false => cases recode_isText ht _ h

theorem text_recodes (h : .text c ∈ f.recodes l) : .text c ∈ l := by
  induction l generalizing f with
  | nil => cases h
  | cons p l ih =>
    rw [Flags.recodes, List.mem_append] at h
    rcases h with h | h
    · rw [text_recode h]
      exact List.mem_cons_self
    · exact List.mem_cons_of_mem _ (ih h)

theorem text_returned (h : .text c ∈ returned l) : .text c ∈ l := by
  rw [returned, List.mem_append] at h
  rcases h with h | h
  · exact text_recodes h
  · split at h
    · cases closed_isText _ _ h
    · cases h

/-- Neither a newline nor a carriage return. -/
def OneLine (s : Str) : Prop := ∀ c ∈ s, c ≠ '\n' ∧ c ≠ '\r'

theorem OneLine.nil : OneLine [] := by
  intro c hc
  cases hc

theorem OneLine.append {s t : Str} (hs : OneLine s) (ht : OneLine t) : OneLine (s ++ t) := by
  intro c hc
  rcases List.mem_append.mp hc with hc | hc
  · exact hs c hc
  · exact ht c hc

theorem Bare.nil : Bare [] := by
  intro c hc
  cases hc

theorem Bare.append {s t : Str} (hs : Bare s) (ht : Bare t) : Bare (s ++ t) := by
  intro c hc
  rcases List.mem_append.mp hc with hc | hc
  · exact hs c hc
  · exact ht c hc

theorem Bare.tag {t : Str} (ht : Bare t) : Bare (asString [.tag t]) := by
  rw [asString_tag]
  have hopen : Bare ['<'] := forall_of_all (by decide)
  have hclose : Bare ['>'] := forall_of_all (by decide)
  exact (hopen.append ht).append hclose

theorem Bare.closeTag {t : Str} (ht : Bare t) (on : Bool) : Bare (asString (closeTag on t)) := by
  cases on with
  | false => exact .nil
  | true =>
    have hslash : Bare ['/'] := forall_of_all (by decide)
    exact Bare.tag (hslash.append ht)

theorem closing_bare (f : Flags) : Bare (asString (closingChunks f)) := by
  unfold closingChunks
  simp only [asString_append]
  exact (((Bare.closeTag (t := ['B']) (forall_of_all (by decide)) _).append
    (Bare.closeTag (t := ['I']) (forall_of_all (by decide)) _)).append
    (Bare.closeTag (t := ['U']) (forall_of_all (by decide)) _)).append
    (Bare.closeTag (t := str "FONT") (forall_of_all (by decide)) _)

/-- A code writes tags alone, which have nothing of the text. -/
theorem emit_code (hp : p.isText = false) (escape escape' : Char → Str) (f : Flags) :
    f.emit escape p = f.emit escape' p ∧ Bare (asString (f.emit escape p)) := by
  cases p with
  | text c => cases hp
  | bold =>
    refine ⟨rfl, ?_⟩
    rw [Flags.emit]
    cases f.bold with
    | true => exact Bare.tag (t := ['/', 'B']) (forall_of_all (by decide))
    | false => exact Bare.tag (t := ['B']) (forall_of_all (by decide))
  | underline =>
    refine ⟨rfl, ?_⟩
    rw [Flags.emit]
    cases f.underline with
    | true => exact Bare.tag (t := ['/', 'U']) (forall_of_all (by decide))
    | false => exact Bare.tag (t := ['U']) (forall_of_all (by decide))
  | dropped => exact ⟨rfl, .nil⟩
  | reset => exact ⟨rfl, closing_bare f⟩
  | colour fg bg =>
    refine ⟨rfl, ?_⟩
    rw [Flags.emit, asString_append]
    refine (Bare.closeTag (t := str "FONT") (forall_of_all (by decide)) _).append ?_
    split
    · next hopens => exact Bare.tag (fontTag_bare hopens)
    · exact .nil

theorem emit_text (escape : Char → Str) (f : Flags) (c : Char) :
    asString (f.emit escape (.text c)) = escape c := List.append_nil _

theorem flatMap_breaks {s : Str} (h : '\n' ∉ s) : s.flatMap breaks = s := by
  induction s with
  | nil => rfl
  | cons c s ih =>
    rw [List.mem_cons, not_or] at h
    rw [List.flatMap_cons, breaks, if_neg (Ne.symm h.1), ih h.2]
    rfl

theorem Bare.breaks {s : Str} (h : Bare s) : s.flatMap breaks = s :=
  flatMap_breaks fun hn => (h _ hn).1 rfl

theorem Bare.noReturn {s : Str} (h : Bare s) : '\r' ∉ s := fun hr => (h _ hr).2.1 rfl

/-- Newlines are replaced in the text alone. -/
theorem write_breaks (escape : Char → Str) (f : Flags) (l : List Piece) :
    (asString (f.write escape l)).flatMap breaks = asString (f.write (broken escape) l) := by
  induction l generalizing f with
  | nil => rfl
  | cons p l ih =>
    rw [Flags.write, Flags.write, asString_append, asString_append, List.flatMap_append, ih]
    congr 1
    cases hp : p.isText with
    | true =>
      cases p with
      | text c => rw [emit_text, emit_text, broken]
      | _ => cases hp
    | false =>
      obtain ⟨heq, hbare⟩ := emit_code hp escape (broken escape) f
      rw [hbare.breaks, heq]

theorem chunks_breaks (escape : Char → Str) (f : Flags) (l : List Piece) :
    (asString (f.chunks escape l)).flatMap breaks = asString (f.chunks (broken escape) l) := by
  rw [Flags.chunks, Flags.chunks, asString_append, asString_append, List.flatMap_append,
    write_breaks]
  congr 1
  split
  · exact (closing_bare _).breaks
  · rfl

theorem write_noReturn (f : Flags) (h : ∀ c, .text c ∈ l → '\r' ∉ escape c) :
    '\r' ∉ asString (f.write escape l) := by
  induction l generalizing f with
  | nil => exact List.not_mem_nil
  | cons p l ih =>
    rw [Flags.write, asString_append, List.mem_append, not_or]
    refine ⟨?_, ih _ fun c hc => h c (List.mem_cons_of_mem _ hc)⟩
    cases hp : p.isText with
    | true =>
      cases p with
      | text c =>
        rw [emit_text]
        exact h c List.mem_cons_self
      | _ => cases hp
    | false => exact (emit_code hp escape escape f).2.noReturn

theorem chunks_noReturn (f : Flags) (h : ∀ c, .text c ∈ l → '\r' ∉ escape c) :
    '\r' ∉ asString (f.chunks escape l) := by
  rw [Flags.chunks, asString_append, List.mem_append, not_or]
  refine ⟨write_noReturn f h, ?_⟩
  split
  · exact (closing_bare _).noReturn
  · exact List.not_mem_nil

theorem Html.noReturn (H : Html) (h : H.plain c = true ∨ c = '\n') : '\r' ∉ H.escape c := by
  rcases h with h | rfl
  · exact (H.oneLine c h).2
  · rw [H.newline]
    decide

theorem coded_break (r : Str) : coded (str "<BR>" ++ r) = str "<BR>" ++ coded r :=
  coded_open (t := ['B', 'R']) (by decide) (by decide) r

theorem Html.kept (H : Html) : Kept (broken H.escape) := by
  intro c r
  have htext : ∀ t : Str, '<' ∉ t → coded (t.flatMap breaks ++ r) = t.flatMap breaks ++ coded r := by
    intro t ht
    induction t with
    | nil => rfl
    | cons d t ih =>
      rw [List.mem_cons, not_or] at ht
      rw [List.flatMap_cons, List.append_assoc, List.append_assoc, ← ih ht.2, breaks]
      split
      · exact coded_break _
      · exact coded_cons (Ne.symm ht.1) _
  exact htext _ (H.untagged c)

/-- What a text, of one line or of several, is after `irc2markup` and `markup2irc`. -/
theorem markup2irc_returned (H : Html) (hplain : ∀ c, .text c ∈ l → H.plain c = true ∨ c = '\n')
    (hl : Legible (returned l)) :
    markup2irc H.withHtml H.stripHtml (asString (({} : Flags).chunks H.escape l)) =
      spell ([·]) (returned l) := by
  have hr : '\r' ∉ asString (({} : Flags).chunks H.escape l) :=
    chunks_noReturn _ fun c hc => H.noReturn (hplain c hc)
  rw [markup2irc, H.withHtml_breaks _ hr, chunks_breaks, coded_chunks H.kept,
    H.stripHtml_codes _ hl fun c hc => hplain c (text_returned hc)]

end Through

section Entities

theorem unescape_plain (h : '&' ∉ s) (r : Str) : unescapeFrom 0 (s ++ r) = s ++ unescapeFrom 0 r := by
  induction s with
  | nil => rfl
  | cons c s ih =>
    rw [List.mem_cons, not_or] at h
    rw [List.cons_append, unescapeFrom, if_neg (Ne.symm h.1), ih h.2]
    rfl

theorem argText_chars {next : Option Char} {fg : Str} {bg : Option Str}
    (h : Piece.Legible next (.colour fg bg)) : ∀ c ∈ argText fg bg, c.isDigit = true ∨ c = ',' := by
  intro c hc
  rw [argText, List.mem_append] at hc
  cases bg with
  | none =>
    rcases hc with hc | hc
    · rcases h with ⟨rfl, -⟩ | ⟨htwo, -⟩
      · cases hc
      · exact .inl (htwo.2 c hc)
    · cases hc
  | some bg =>
    rcases hc with hc | hc
    · exact .inl (h.1.2 c hc)
    · rw [Option.elim_some, List.mem_cons] at hc
      exact hc.elim .inr fun hc => .inl (h.2.2 c hc)

/-- What is written for a code. -/
theorem spell_code {next : Option Char} (hp : p.isText = false) (h : p.Legible next) :
    ∀ c ∈ p.spell escape, c ∈ formatting ∨ c.isDigit = true ∨ c = ',' := by
  intro c hc
  cases p with
  | text c => cases hp
  | dropped => cases hc
  | bold | underline | reset =>
    obtain rfl := List.mem_singleton.mp hc
    exact .inl (by decide)
  | colour fg bg =>
    rcases List.mem_cons.mp hc with rfl | hc
    · exact .inl (by decide)
    · exact .inr (argText_chars h c hc)

theorem spell_code_free {next : Option Char} (hp : p.isText = false) (h : p.Legible next) {d : Char}
    (hd : ¬ (d ∈ formatting ∨ d.isDigit = true ∨ d = ',')) : d ∉ p.spell escape :=
  fun hmem => hd (spell_code hp h d hmem)

/-- Characters written so that they are read as entities are, and newlines as they are. -/
structure Entities (escape : Char → Str) : Prop where
  untagged : ∀ c, '<' ∉ escape c
  undone : ∀ c s, unescapeFrom 0 (escape c ++ s) = c :: unescapeFrom 0 s
  newline : escape '\n' = ['\n']
  oneLine : ∀ c, c ≠ '\n' → '\n' ∉ escape c
  noReturn : ∀ c, c ≠ '\r' → '\r' ∉ escape c

/-- No code has a character that means something in the markup. -/
theorem spell_unescaped (he : Entities escape) {next : Option Char} (h : p.Legible next) (r : Str) :
    '<' ∉ p.spell escape ∧
      unescapeFrom 0 (p.spell escape ++ r) = p.spell ([·]) ++ unescapeFrom 0 r := by
  cases hp : p.isText with
  | true =>
    cases p with
    | text c => exact ⟨he.untagged c, he.undone c r⟩
    | _ => cases hp
  | false =>
    have hsame : p.spell escape = p.spell ([·]) := by
      cases p with
      | text c => cases hp
      | _ => rfl
    rw [hsame]
    exact ⟨spell_code_free hp h (by decide), unescape_plain (spell_code_free hp h (by decide)) r⟩

theorem unescape_spell (he : Entities escape) (h : Legible l) :
    unescapeFrom 0 (spell escape l) = spell ([·]) l := by
  induction l with
  | nil => rfl
  | cons p l ih =>
    have hcons : ∀ e, spell e (p :: l) = p.spell e ++ spell e l := fun _ => rfl
    rw [hcons, hcons, (spell_unescaped he h.1 _).2, ih h.2]

/-- A reader that drops the tags, `<BR>` apart. -/
def readTags : Option Str → Str → Str
  | _, [] => []
  | none, c :: s => if c = '<' then readTags (some []) s else c :: readTags none s
  | some t, c :: s =>
    if c = '>' then (if t = str "BR" then ['\n'] else []) ++ readTags none s
    else readTags (some (t ++ [c])) s

theorem readTags_text (h : '<' ∉ s) (r : Str) : readTags none (s ++ r) = s ++ readTags none r := by
  induction s with
  | nil => rfl
  | cons c s ih =>
    rw [List.mem_cons, not_or] at h
    rw [List.cons_append, readTags, if_neg (Ne.symm h.1), ih h.2]
    rfl

theorem readTags_escaped (he : Entities escape) (c : Char) (r : Str) :
    readTags none (broken escape c ++ r) = escape c ++ readTags none r := by
  by_cases hc : c = '\n'
  · subst hc
    rw [broken, he.newline]
    rfl
  · rw [broken, flatMap_breaks (he.oneLine c hc), readTags_text (he.untagged c)]

theorem readTags_spell (he : Entities escape) (h : Legible l) :
    readTags none (spell (broken escape) l) = spell escape l := by
  induction l with
  | nil => rfl
  | cons p l ih =>
    have hcons : ∀ e, spell e (p :: l) = p.spell e ++ spell e l := fun _ => rfl
    rw [hcons, hcons, ← ih h.2]
    cases p with
    | text c => exact readTags_escaped he c _
    | _ => exact readTags_text (spell_code_free rfl h.1 (by decide)) _

/-- Entities, and a reader that knows them and the tags. -/
def Entities.html (he : Entities escape) : Html where
  escape := escape
  withHtml s := s.flatMap fun c => if c = '\r' then [] else breaks c
  stripHtml s := unescapeFrom 0 (readTags none s)
  plain c := decide (' ' ≤ c)
  untagged := he.untagged
  newline := he.newline
  oneLine c hc := by
    have hle : ' ' ≤ c := of_decide_eq_true hc
    constructor
    · apply he.oneLine
      rintro rfl
      revert hle
      decide
    · apply he.noReturn
      rintro rfl
      revert hle
      decide
  withHtml_breaks s hr := by
    induction s with
    | nil => rfl
    | cons c s ih =>
      rw [List.mem_cons, not_or] at hr
      rw [List.flatMap_cons, List.flatMap_cons, if_neg (Ne.symm hr.1), ih hr.2]
  stripHtml_codes l hl _ := by
    rw [readTags_spell he hl]
    exact unescape_spell he hl

theorem entities_escape : Entities escapeEntities := by
  have hentity : ∀ (d : Char), d ≠ '&' → (∀ c ∈ marked, d ∉ entity c) → ∀ c, c ≠ d →
      d ∉ escapeEntities c := by
    intro d hd hall c hc
    unfold escapeEntities
    split
    · next hmarked =>
      rw [List.mem_cons, not_or]
      exact ⟨hd, hall c hmarked⟩
    · rw [List.mem_singleton]
      exact Ne.symm hc
  exact {
    untagged := entities.untagged
    undone := unescape_cons
    newline := rfl
    oneLine := hentity '\n' (by decide) (forall_of_all (by decide))
    noReturn := hentity '\r' (by decide) (forall_of_all (by decide)) }

/-- Each place of the list can be looked at by itself. -/
theorem separate_iff : Separate l ↔ ∀ i < l.length,
    ((l.getD i .dropped).ends = true →
      ((follows (l.drop (i + 1))).all fun c => !c.isDigit && decide (c ≠ ',')) = true) ∧
    (l.getD i .dropped = .reset →
      Kind.bold.on (l.take i) = true ∨ Kind.underline.on (l.take i) = true →
        .reset ∉ l.drop (i + 1)) := by
  have hsplit : ∀ i, i < l.length → l = l.take i ++ l.getD i .dropped :: l.drop (i + 1) := by
    intro i hi
    have hget : l.getD i .dropped = l[i] := by simp [List.getD, hi]
    rw [hget, List.getElem_cons_drop, List.take_append_drop]
  have hplace : ∀ l₁ p l₂, l = l₁ ++ p :: l₂ → l₁.length < l.length ∧
      l.getD l₁.length .dropped = p ∧ l.take l₁.length = l₁ ∧ l.drop (l₁.length + 1) = l₂ := by
    rintro l₁ p l₂ rfl
    simp
  have hall : ∀ o : Option Char, (o.all fun c => !c.isDigit && decide (c ≠ ',')) = true ↔
      ∀ c ∈ o, c.isDigit = false ∧ c ≠ ',' := by
    rintro (_ | c) <;> simp
  constructor
  · intro h i hi
    exact ⟨fun hends => (hall _).mpr (h.numbers _ _ _ (hsplit i hi) hends),
      fun hp => h.resets _ _ (hp ▸ hsplit i hi)⟩
  · intro h
    constructor
    · intro l₁ p l₂ hl hends
      obtain ⟨hlt, rfl, -, rfl⟩ := hplace l₁ p l₂ hl
      exact (hall _).mp ((h _ hlt).1 hends)
    · intro l₁ l₂ hl
      obtain ⟨hlt, hp, htake, rfl⟩ := hplace l₁ .reset l₂ hl
      have hlast := (h _ hlt).2 hp
      rwa [htake] at hlast

instance (l : List Piece) : Decidable (Separate l) := decidable_of_iff _ separate_iff.symm

/-- Bold and coloured text on one line, and underlined text on the next. -/
def twoLines : Str := str "\x02a<b\x02 \x034,1c\x03 , d\n\x1fe"

end Entities

end Mirc
end Minbif
