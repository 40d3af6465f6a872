import Mathlib.Algebra.Order.BigOperators.Group.List
import Mathlib.Algebra.GroupWithZero.Nat
import Mathlib.Algebra.Order.Group.Nat
import Minbif.Core.MarkupBalance

/-! Which texts `irc2markup` keeps. -/
namespace Minbif
namespace Mirc
open Tagged

/-- What counts as a control code beside those that `irc2markup` looks for. -/
structure Dialect where
  /-- Characters that are codes by themselves. -/
  others : Char → Bool
  /-- Whether a colour code may have a background alone. -/
  bare : Bool
  apart : ∀ c, others c = true → c ∉ formatting ∧ c ≠ ',' ∧ c.isDigit = false

/-- At most two digits. -/
def digits (s : Str) : Str := (s.take 2).takeWhile Char.isDigit

namespace Dialect

/-- How long the code is that a string starts with; a comma belongs to it only with a digit behind,
and with a colour before. -/
def codeLength (d : Dialect) (c : Char) (s : Str) : Nat :=
  if c = '\x03' then
    let fg := digits s
    match s.drop fg.length with
    | ',' :: s' =>
      let bg := digits s'
      if bg.isEmpty || (fg.isEmpty && !d.bare) then 1 + fg.length
      else 1 + (fg.length + 1 + bg.length)
    | _ => 1 + fg.length
  else if formatting.contains c || d.others c then 1
  else 0

def visibleFrom (d : Dialect) : Nat → Str → Str
  | _, [] => []
  | 0, c :: s =>
    match d.codeLength c s with
    | 0 => c :: d.visibleFrom 0 s
    | n + 1 => d.visibleFrom n s
  | skip + 1, _ :: s => d.visibleFrom skip s

/-- A string without its control codes. -/
def visible (d : Dialect) (s : Str) : Str := d.visibleFrom 0 s

end Dialect

/-- No code takes more than is its own, and none is left. -/
structure Readable (d : Dialect) (l : List Piece) : Prop where
  comma : ∀ fg bg, .colour fg (some bg) ∈ l → bg ≠ [] ∧ (fg ≠ [] ∨ d.bare = true)
  known : ∀ c, .text c ∈ l → d.others c = false

section Visible

variable {d : Dialect} {c : Char} {s t r : Str} {p : Piece} {l : List Piece}

/-- What a piece is in the text. -/
def Piece.plain : Piece → Str
  | .text c => [c]
  | _ => []

/-- What of a piece is no control code. -/
def Dialect.shown (d : Dialect) : Piece → Str
  | .text c => if d.others c then [] else [c]
  | .colour fg (some bg) => if bg.isEmpty || (fg.isEmpty && !d.bare) then ',' :: bg else []
  | _ => []

theorem twoDigits_digits (s : Str) : twoDigits s = (digits s, s.drop (digits s).length) := by
  unfold twoDigits digits
  cases s with
  | nil => rfl
  | cons a s =>
    cases ha : a.isDigit with
    | false => simp [digit, ha]
    | true =>
      cases s with
      | nil => simp [digit, ha]
      | cons b s => cases hb : b.isDigit <;> simp [digit, ha, hb]

theorem visibleFrom_drop (d : Dialect) (skip : Nat) (s : Str) :
    d.visibleFrom skip s = d.visible (s.drop skip) := by
  induction skip generalizing s with
  | zero => rfl
  | succ skip ih =>
    cases s with
    | nil => rfl
    | cons c s => exact ih s

theorem visible_code {n : Nat} (h : d.codeLength c s = n + 1) :
    d.visible (c :: s) = d.visible (s.drop n) := by
  rw [← visibleFrom_drop, Dialect.visible, Dialect.visibleFrom, h]

theorem visible_text (ht : ∀ c ∈ t, c ∉ formatting ∧ d.others c = false) :
    d.visible (t ++ r) = t ++ d.visible r := by
  induction t with
  | nil => rfl
  | cons c t ih =>
    obtain ⟨hc, ho⟩ := ht c (by simp)
    have hcol : c ≠ '\x03' := fun he => hc (he ▸ by decide)
    have hlen : d.codeLength c (t ++ r) = 0 := by simp [Dialect.codeLength, hcol, hc, ho]
    have ih := ih fun e he => ht e (by simp [he])
    rw [List.cons_append, Dialect.visible, Dialect.visibleFrom, hlen]
    exact congrArg (c :: ·) ih

theorem colourArgs_comma (h : s.drop (digits s).length = ',' :: t) :
    colourArgs s = (digits s, some (digits t), t.drop (digits t).length) := by
  unfold colourArgs
  rw [twoDigits_digits]
  dsimp only
  rw [h]
  exact congrArg (fun bg : Str × Str => (digits s, some bg.1, bg.2)) (twoDigits_digits t)

theorem colourArgs_plain (h : ∀ t, s.drop (digits s).length ≠ ',' :: t) :
    colourArgs s = (digits s, none, s.drop (digits s).length) := by
  unfold colourArgs
  rw [twoDigits_digits]
  dsimp only
  split
  · next t ht => exact (h t ht).elim
  · rfl

theorem digits_isDigit (hc : c ∈ digits s) : c.isDigit = true := List.mem_takeWhile_imp hc

theorem digits_append (s : Str) : digits s ++ s.drop (digits s).length = s := by
  have h := twoDigits_eq s
  rwa [twoDigits_digits] at h

/-- A digit or a comma is text to both. -/
theorem argument_visible (hc : c.isDigit = true ∨ c = ',') :
    c ∉ formatting ∧ d.others c = false := by
  constructor
  · intro hmem
    have hall : ∀ c ∈ formatting, ¬ (c.isDigit = true ∨ c = ',') :=
      forall_of_all (by decide)
    exact hall c hmem hc
  · by_contra ho
    obtain ⟨-, hcomma, hdigit⟩ := d.apart c (by simpa using ho)
    rcases hc with hc | hc
    · rw [hc] at hdigit
      cases hdigit
    · exact hcomma hc

/-- Where the comma is no part of the code, it and what follows it are text. -/
theorem visible_colour (d : Dialect) (s : Str) : d.visible ('\x03' :: s) =
    d.shown (.colour (colourArgs s).1 (colourArgs s).2.1) ++ d.visible (colourArgs s).2.2 := by
  by_cases h : ∃ t, s.drop (digits s).length = ',' :: t
  · obtain ⟨t, ht⟩ := h
    rw [colourArgs_comma ht]
    dsimp only [Dialect.shown]
    split
    · next hbad =>
      have hlen : d.codeLength '\x03' s = (digits s).length + 1 := by
        simp only [Dialect.codeLength, if_pos, ht, hbad, Nat.add_comm]
      rw [visible_code hlen, ht]
      have htext : ∀ c ∈ ',' :: digits t, c ∉ formatting ∧ d.others c = false := by
        intro c hc
        rcases List.mem_cons.mp hc with rfl | hc
        · exact argument_visible (.inr rfl)
        · exact argument_visible (.inl (digits_isDigit hc))
      rw [← visible_text htext, List.cons_append, digits_append]
    · next hgood =>
      have hlen : d.codeLength '\x03' s = (digits s).length + 1 + (digits t).length + 1 := by
        simp only [Dialect.codeLength, if_pos, ht, if_neg hgood, Nat.add_comm]
      rw [visible_code hlen, List.nil_append, Nat.add_assoc, ← List.drop_drop, ht, Nat.add_comm,
        List.drop_succ_cons]
  · have hnone : ∀ t, s.drop (digits s).length ≠ ',' :: t := fun t ht => h ⟨t, ht⟩
    rw [colourArgs_plain hnone]
    have hlen : d.codeLength '\x03' s = (digits s).length + 1 := by
      unfold Dialect.codeLength
      rw [if_pos rfl]
      dsimp only
      split
      · next t ht => exact (hnone t ht).elim
      · exact Nat.add_comm _ _
    rw [visible_code hlen]
    rfl

/-- By strong induction on the length, as a colour code takes its arguments with it. -/
theorem visible_eq (d : Dialect) (s : Str) : d.visible s = (pieces s).flatMap d.shown := by
  induction hn : s.length using Nat.strong_induction_on generalizing s with
  | _ n ih =>
    subst hn
    cases s with
    | nil => rfl
    | cons c s =>
      have hnext : d.visible s = (pieces s).flatMap d.shown := ih _ (Nat.lt_succ_self _) s rfl
      by_cases hc : c ∈ formatting
      · by_cases hcol : c = '\x03'
        · subst hcol
          have hlen : (colourArgs s).2.2.length < ('\x03' :: s).length := by
            rw [← colour_rest, List.length_drop, List.length_cons]
            omega
          rw [visible_colour, pieces_colour, List.flatMap_cons, ih _ hlen _ rfl]
        · have hlen : d.codeLength c s = 0 + 1 := by simp [Dialect.codeLength, hcol, hc]
          rw [visible_code hlen, List.drop_zero, hnext]
          simp only [formatting, List.mem_cons, List.not_mem_nil, or_false] at hc
          rcases hc with rfl | rfl | rfl | rfl | rfl | rfl
          all_goals first | rfl | exact (hcol rfl).elim
      · rw [pieces_cons, pieceAt_plain hc, List.drop_zero, List.flatMap_cons, ← hnext]
        cases ho : d.others c with
        | false =>
          have h := @visible_text d [c] s (by simpa using ⟨hc, ho⟩)
          rw [← List.singleton_append, h, Dialect.shown, ho]
          rfl
        | true =>
          have hcol : c ≠ '\x03' := fun he => hc (he ▸ by decide)
          have hlen : d.codeLength c s = 0 + 1 := by simp [Dialect.codeLength, hcol, ho]
          rw [visible_code hlen, List.drop_zero, Dialect.shown, ho]
          rfl

theorem text_chunks (escape : Char → Str) (f : Flags) (l : List Piece) :
    (f.chunks escape l).flatMap Chunk.text? = (l.flatMap Piece.plain).flatMap escape := by
  have hclose : ∀ (on : Bool) (name : Str), (closeTag on name).flatMap Chunk.text? = [] := by
    intro on name
    cases on <;> rfl
  have hclosing : ∀ f, (closingChunks f).flatMap Chunk.text? = [] := by
    intro f
    simp only [closingChunks, List.flatMap_append, hclose, List.append_nil]
  have hemit : ∀ (f : Flags) (p : Piece),
      (f.emit escape p).flatMap Chunk.text? = p.plain.flatMap escape := by
    intro f p
    cases p with
    | reset => exact hclosing f
    | colour fg bg =>
      rw [Flags.emit, List.flatMap_append, hclose]
      split <;> rfl
    | _ => rfl
  have hwrite : ∀ f : Flags, (f.write escape l).flatMap Chunk.text? =
      (l.flatMap Piece.plain).flatMap escape := by
    induction l with
    | nil => exact fun _ => rfl
    | cons p l ih =>
      intro f
      rw [Flags.write, List.flatMap_append, hemit, ih, List.flatMap_cons, List.flatMap_append]
  rw [Flags.chunks, List.flatMap_append, hwrite]
  split
  · rw [hclosing, List.append_nil]
  · exact List.append_nil _

/-- Sums that agree, of terms that are no smaller, have the same terms. -/
theorem terms_eq {f g : Piece → Nat} (hle : ∀ p ∈ l, f p ≤ g p)
    (h : (l.map f).sum = (l.map g).sum) (hp : p ∈ l) : f p = g p := by
  by_contra hne
  have hlt := List.sum_lt_sum f g hle ⟨p, hp, lt_of_le_of_ne (hle p hp) hne⟩
  omega

theorem shown_comma (d : Dialect) (p : Piece) : p.plain.count ',' ≤ (d.shown p).count ',' := by
  cases p with
  | text c =>
    cases ho : d.others c with
    | false => simp [Piece.plain, Dialect.shown, ho]
    | true =>
      have hne : c ≠ ',' := (d.apart c ho).2.1
      simp [Piece.plain, hne]
  | _ => exact Nat.zero_le _

theorem shown_colour (d : Dialect) (fg bg : Str) : d.shown (.colour fg (some bg)) =
    if bg ≠ [] ∧ (fg ≠ [] ∨ d.bare = true) then [] else ',' :: bg := by
  cases fg <;> cases bg <;> cases hb : d.bare <;> simp [Dialect.shown, hb]

/-- A code that takes too much loses a comma, and then a code that is left is one character more. -/
theorem plain_eq_shown_iff : l.flatMap Piece.plain = l.flatMap d.shown ↔ Readable d l := by
  constructor
  · intro h
    have hcomma : ∀ fg bg, .colour fg (some bg) ∈ l → bg ≠ [] ∧ (fg ≠ [] ∨ d.bare = true) := by
      intro fg bg hp
      have hcount := congrArg (List.count ',') h
      rw [List.count_flatMap, List.count_flatMap] at hcount
      have heq := terms_eq (fun p _ => shown_comma d p) hcount hp
      by_contra hbad
      rw [shown_colour, if_neg hbad, List.count_cons_self] at heq
      cases heq
    refine ⟨hcomma, fun c hp => ?_⟩
    have hle : ∀ p ∈ l, (d.shown p).length ≤ p.plain.length := by
      intro p hp
      cases p with
      | text c =>
        rw [Dialect.shown]
        split <;> simp [Piece.plain]
      | colour fg bg =>
        cases bg with
        | none => exact Nat.le_refl _
        | some bg =>
          rw [shown_colour, if_pos (hcomma fg bg hp)]
          exact Nat.zero_le _
      | _ => exact Nat.le_refl _
    have hlength := congrArg List.length h
    rw [List.length_flatMap, List.length_flatMap] at hlength
    have heq := terms_eq hle hlength.symm hp
    cases ho : d.others c with
    | false => rfl
    | true => simp [Piece.plain, Dialect.shown, ho] at heq
  · intro h
    refine List.flatMap_congr fun p hp => ?_
    cases p with
    | text c =>
      rw [Dialect.shown, h.known c hp]
      rfl
    | colour fg bg =>
      cases bg with
      | none => rfl
      | some bg =>
        rw [shown_colour, if_pos (h.comma fg bg hp)]
        rfl
    | _ => rfl

end Visible

/-- What one expects of `irc2markup`: it ends, the tags are balanced, and the text is there. -/
def Converts (E : Escaping) (d : Dialect) (s : Str) : Prop :=
  ∃ out, irc2markup E.escape s = some out ∧ (∀ k : Kind, BalancedIn out k.name) ∧
    E.unescape (strip '<' '>' false out) = d.visible s

/-- It does what one expects exactly when each kind is tidy and no colour code has a comma that is
not its own. -/
theorem converts_iff (E : Escaping) (d : Dialect) (s : Str) :
    Converts E d s ↔ (∀ k, Tidy k (pieces s)) ∧ Readable d (pieces s) := by
  have htext : E.unescape (strip '<' '>' false
      (asString (({} : Flags).chunks E.escape (pieces s)))) = (pieces s).flatMap Piece.plain := by
    rw [asString, strip_write (chunks_clean E {} (pieces s)), text_chunks, E.undone]
  have hbalanced := fun k => balancedIn_iff E k (pieces s)
  rw [← plain_eq_shown_iff, ← visible_eq, ← htext]
  constructor
  · rintro ⟨out, hout, hkinds, hplain⟩
    obtain rfl := Option.some.inj ((irc2markup_eq E.escape s).symm.trans hout)
    exact ⟨fun k => (hbalanced k).mp (hkinds k), hplain⟩
  · rintro ⟨htidy, hplain⟩
    exact ⟨_, irc2markup_eq E.escape s, fun k => (hbalanced k).mpr (htidy k), hplain⟩

section Runs

/-- The characters that have an entity. -/
def marked : Str := ['&', '<', '>', '"', '\'']

def entity (c : Char) : Str :=
  if c = '&' then str "amp;"
  else if c = '<' then str "lt;"
  else if c = '>' then str "gt;"
  else if c = '"' then str "quot;"
  else str "apos;"

def escapeEntities (c : Char) : Str := if c ∈ marked then '&' :: entity c else [c]

def unescapeFrom : Nat → Str → Str
  | _, [] => []
  | 0, c :: s =>
    match if c = '&' then marked.find? fun e => (entity e).isPrefixOf s else none with
    | some e => e :: unescapeFrom (entity e).length s
    | none => c :: unescapeFrom 0 s
  | skip + 1, _ :: s => unescapeFrom skip s

theorem unescape_cons (c : Char) (s : Str) :
    unescapeFrom 0 (escapeEntities c ++ s) = c :: unescapeFrom 0 s := by
  by_cases hc : c ∈ marked
  · simp only [marked, List.mem_cons, List.not_mem_nil, or_false] at hc
    rcases hc with rfl | rfl | rfl | rfl | rfl <;> rfl
  · have hamp : c ≠ '&' := fun h => hc (h ▸ by decide)
    rw [escapeEntities, if_neg hc, List.singleton_append, unescapeFrom, if_neg hamp]

/-- The five entities; no other character is escaped. -/
def entities : Escaping where
  escape := escapeEntities
  unescape := unescapeFrom 0
  untagged := by
    intro c
    unfold escapeEntities
    split
    · next hc =>
      have hall : ∀ c ∈ marked, '<' ∉ '&' :: entity c :=
        forall_of_all (by decide)
      exact hall c hc
    · next hc =>
      rw [List.mem_singleton]
      rintro rfl
      exact hc (by decide)
  undone := by
    intro s
    induction s with
    | nil => rfl
    | cons c s ih => rw [List.flatMap_cons, unescape_cons, ih]

/-- The codes of `irc2markup`, and no others. -/
def usual : Dialect where
  others _ := false
  bare := false
  apart := nofun

/-- Bold text, a colour on another, and a comma of the text. -/
theorem converts_bold :
    let s := str "\x02a<b\x02 \x034,1c\x03 , d"
    (∀ k, Tidy k (pieces s)) ∧ Readable usual (pieces s) := by
  refine (converts_iff entities usual _).mp
    ⟨str "<B>a&lt;b</B> <FONT COLOR=\"red\" BACK=\"black\">c</FONT> , d", ?_, ?_, ?_⟩
  · decide +kernel
  · intro k
    cases k <;> decide +kernel
  · decide +kernel

/-- A reset closes the tag, and the end of the string closes it once more. -/
theorem reset_closed_twice : ¬ ∀ (E : Escaping) (d : Dialect) (s : Str), '\x00' ∉ s → Converts E d s := by
  intro h
  obtain ⟨out, hout, hbalanced, -⟩ := h entities usual (str "\x02bold\x0f plain") (by decide)
  obtain rfl : out = str "<B>bold</B> plain</B>" := by
    have hrun : irc2markup entities.escape (str "\x02bold\x0f plain") =
        some (str "<B>bold</B> plain</B>") := by decide +kernel
    exact Option.some.inj (hout.symm.trans hrun)
  have hb := hbalanced .bold
  revert hb
  decide

end Runs

end Mirc
end Minbif
