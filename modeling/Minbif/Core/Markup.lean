import Minbif.Core.Util
import Minbif.Lib.Tagged

/-! `irc2markup`. A string is here the characters of valid UTF-8, and not its bytes. -/
namespace Minbif

/-- `g_markup_escape_text`, and what undoes it. -/
structure Escaping where
  escape : Char → Str
  unescape : Str → Str
  untagged : ∀ c, '<' ∉ escape c
  undone : ∀ s : Str, unescape (s.flatMap escape) = s

namespace Mirc
open Tagged

/-- The names in `irc_colors`. -/
def ircColors : List Str :=
  [str "white", str "black", str "blue", str "dark green", str "red", str "brown", str "purple",
    str "orange", str "yellow", str "green", str "teal", str "cyan", str "light blue", str "pink",
    str "grey", str "light grey"]

/-- What `strpbrk` looks for. -/
def formatting : Str := ['\x02', '\x03', '\x07', '\x0f', '\x16', '\x1f']

structure Flags where
  font : Bool := false
  bold : Bool := false
  underline : Bool := false
  italic : Bool := false

/-- `if (isdigit(*cur))`: the digit, if there is one, and what follows. -/
def digit (cur : Str) : Str × Str :=
  match cur with
  | c :: cur' => if c.isDigit then ([c], cur') else ([], cur)
  | [] => ([], [])

def twoDigits (cur : Str) : Str × Str :=
  let first := digit cur
  let second := digit first.2
  (first.1 ++ second.1, second.2)

/-- `fg`, `bg` when there is a comma, and what follows the code. -/
def colourArgs (cur : Str) : Str × Option Str × Str :=
  let fg := twoDigits cur
  match fg.2 with
  | ',' :: cur =>
    let bg := twoDigits cur
    (fg.1, some bg.1, bg.2)
  | cur => (fg.1, none, cur)

/-- The tags of `case '\003'`, and `font`. -/
def colourTags (font : Bool) (fg bg : Str) : Str × Bool :=
  let closed := if font then str "</FONT>" else []
  if fg.isEmpty then (closed, false)
  -- `continue`, which goes to the test at the end of the loop
  else if 15 < decimal fg then (closed, false)
  else
    let back := if !bg.isEmpty && decimal bg < 16 then
        str " BACK=\"" ++ ircColors.getD (decimal bg) [] ++ str "\""
      else []
    (closed ++ str "<FONT COLOR=\"" ++ ircColors.getD (decimal fg) [] ++ str "\"" ++ back ++ str ">",
      true)

/-- `case '\000'`, into which `case '\017'` falls; the flags stay. -/
def closing (f : Flags) : Str :=
  (if f.bold then str "</B>" else []) ++ (if f.italic then str "</I>" else []) ++
    (if f.underline then str "</U>" else []) ++ if f.font then str "</FONT>" else []

/-- The `switch`: what is appended, the flags, and `cur`. -/
def switch (f : Flags) : Str → Str × Flags × Str
  | [] => (closing f, f, [])
  | c :: cur =>
    if c = '\x02' then
      (if !f.bold then str "<B>" else str "</B>", { f with bold := !f.bold }, cur)
    else if c = '\x03' then
      let args := colourArgs cur
      let tags := colourTags f.font args.1 (args.2.1.getD [])
      (tags.1, { f with font := tags.2 }, args.2.2)
    else if c = '\x09' then
      (if !f.italic then str "<I>" else str "</I>", { f with italic := !f.italic }, cur)
    else if c = '\x1f' then
      (if !f.underline then str "<U>" else str "</U>", { f with underline := !f.underline }, cur)
    else if c = '\x07' ∨ c = '\x16' then ([], f, cur)
    else if c = '\x0f' then (closing f, f, cur)
    else ([], f, c :: cur)

/-- The loop, which ends when `*cur` is NUL; nothing when the turns do not suffice. -/
def irc2markupLoop (escape : Char → Str) : Nat → Flags → Str → Str → Option Str
  | 0, _, _, _ => none
  | fuel + 1, f, decoded, cur =>
    let text := cur.takeWhile fun c => !formatting.contains c
    let out := switch f (cur.dropWhile fun c => !formatting.contains c)
    let decoded := decoded ++ text.flatMap escape ++ out.1
    if out.2.2.isEmpty then some decoded
    else irc2markupLoop escape fuel out.2.1 decoded out.2.2

/-- `irc2markup` of a string that is not `NULL`. -/
def irc2markup (escape : Char → Str) (string : Str) : Option Str :=
  irc2markupLoop escape (string.length + 1) {} [] string

/-- What a string is made of, one character or one code at a time. -/
inductive Piece
  | text (c : Char)
  | bold
  | underline
  /-- A beep or a reverse, which leaves no trace. -/
  | dropped
  | reset
  | colour (fg : Str) (bg : Option Str)
deriving DecidableEq

/-- The first piece, and how many characters it takes besides `c`. -/
def pieceAt (c : Char) (s : Str) : Piece × Nat :=
  if c = '\x02' then (.bold, 0)
  else if c = '\x03' then
    let args := colourArgs s
    (.colour args.1 args.2.1, s.length - args.2.2.length)
  else if c = '\x1f' then (.underline, 0)
  else if c = '\x07' ∨ c = '\x16' then (.dropped, 0)
  else if c = '\x0f' then (.reset, 0)
  else (.text c, 0)

/-- The pieces of a string without its first characters. -/
def piecesFrom : Nat → Str → List Piece
  | _, [] => []
  | 0, c :: s => (pieceAt c s).1 :: piecesFrom (pieceAt c s).2 s
  | skip + 1, _ :: s => piecesFrom skip s

def pieces (s : Str) : List Piece := piecesFrom 0 s

/-- `</B>` where there is something to close. -/
def closeTag (on : Bool) (name : Str) : List (Chunk Char) := if on then [.tag ('/' :: name)] else []

def closingChunks (f : Flags) : List (Chunk Char) :=
  closeTag f.bold ['B'] ++ closeTag f.italic ['I'] ++ closeTag f.underline ['U'] ++
    closeTag f.font (str "FONT")

/-- The number of a colour code that opens a tag. -/
def Piece.opens : Piece → Bool
  | .colour fg _ => !fg.isEmpty && decimal fg ≤ 15
  | _ => false

def fontTag (fg : Str) (bg : Option Str) : Str :=
  let bg := bg.getD []
  str "FONT COLOR=\"" ++ ircColors.getD (decimal fg) [] ++ str "\"" ++
    if !bg.isEmpty && decimal bg < 16 then
      str " BACK=\"" ++ ircColors.getD (decimal bg) [] ++ str "\""
    else []

/-- What a piece writes. -/
def Flags.emit (escape : Char → Str) (f : Flags) : Piece → List (Chunk Char)
  | .text c => [.text (escape c)]
  | .bold => [.tag (if !f.bold then ['B'] else ['/', 'B'])]
  | .underline => [.tag (if !f.underline then ['U'] else ['/', 'U'])]
  | .dropped => []
  | .reset => closingChunks f
  | .colour fg bg => closeTag f.font (str "FONT") ++
      if Piece.opens (.colour fg bg) then [.tag (fontTag fg bg)] else []

def Flags.next (f : Flags) : Piece → Flags
  | .bold => { f with bold := !f.bold }
  | .underline => { f with underline := !f.underline }
  | .colour fg bg => { f with font := Piece.opens (.colour fg bg) }
  | _ => f

/-- What the pieces write one after the other. -/
def Flags.write (escape : Char → Str) (f : Flags) : List Piece → List (Chunk Char)
  | [] => []
  | p :: l => f.emit escape p ++ (f.next p).write escape l

def Flags.after (f : Flags) (l : List Piece) : Flags := l.foldl Flags.next f

def Piece.isText : Piece → Bool
  | .text _ => true
  | _ => false

/-- Only then the loop comes to `case '\000'`. -/
def endsInText (l : List Piece) : Bool := l.getLast?.any Piece.isText

/-- All that a string writes. -/
def Flags.chunks (escape : Char → Str) (f : Flags) (l : List Piece) : List (Chunk Char) :=
  f.write escape l ++ if endsInText l then closingChunks (f.after l) else []

section Loop

variable {c : Char} {s r : Str} {f : Flags} {escape : Char → Str} {p : Piece} {l l' : List Piece}

def asString (l : List (Chunk Char)) : Str := l.flatMap (Chunk.write '<' '>')

theorem asString_append (m m' : List (Chunk Char)) :
    asString (m ++ m') = asString m ++ asString m' := List.flatMap_append

theorem asString_tag (t : Str) : asString [.tag t] = '<' :: t ++ ['>'] :=
  List.append_nil _

theorem digit_eq (cur : Str) : (digit cur).1 ++ (digit cur).2 = cur := by
  unfold digit
  split
  · split <;> rfl
  · rfl

theorem twoDigits_eq (cur : Str) : (twoDigits cur).1 ++ (twoDigits cur).2 = cur := by
  unfold twoDigits
  rw [List.append_assoc, digit_eq, digit_eq]

/-- The characters of the arguments of a colour code. -/
def argText (fg : Str) (bg : Option Str) : Str := fg ++ bg.elim [] (',' :: ·)

theorem colourArgs_eq (cur : Str) :
    argText (colourArgs cur).1 (colourArgs cur).2.1 ++ (colourArgs cur).2.2 = cur := by
  have hfg := twoDigits_eq cur
  unfold colourArgs argText
  dsimp only
  split
  · next rest hrest =>
    rw [hrest] at hfg
    simp only [Option.elim_some, List.append_assoc, List.cons_append, twoDigits_eq, hfg]
  · simpa using hfg

theorem piecesFrom_drop (skip : Nat) (s : Str) : piecesFrom skip s = pieces (s.drop skip) := by
  induction skip generalizing s with
  | zero => rfl
  | succ skip ih =>
    cases s with
    | nil => rfl
    | cons c s => exact ih s

theorem pieces_cons (c : Char) (s : Str) :
    pieces (c :: s) = (pieceAt c s).1 :: pieces (s.drop (pieceAt c s).2) := by
  rw [← piecesFrom_drop]
  rfl

theorem colour_rest (s : Str) :
    s.drop (s.length - (colourArgs s).2.2.length) = (colourArgs s).2.2 := by
  generalize hr : (colourArgs s).2.2 = rest
  have h := colourArgs_eq s
  rw [hr] at h
  rw [← h, List.length_append, Nat.add_sub_cancel, List.drop_left]

theorem pieces_colour (s : Str) : pieces ('\x03' :: s) =
    .colour (colourArgs s).1 (colourArgs s).2.1 :: pieces (colourArgs s).2.2 := by
  rw [pieces_cons]
  simp only [pieceAt, Char.reduceEq, if_false, if_true, colour_rest]

theorem pieceAt_plain (hc : c ∉ formatting) (s : Str) : pieceAt c s = (.text c, 0) := by
  simp only [formatting, List.mem_cons, List.not_mem_nil, or_false, not_or] at hc
  simp [pieceAt, hc]

theorem pieces_text (ht : ∀ c ∈ s, c ∉ formatting) :
    pieces (s ++ r) = s.map .text ++ pieces r := by
  induction s with
  | nil => rfl
  | cons c s ih =>
    rw [List.cons_append, pieces_cons, pieceAt_plain (ht c (by simp)), List.drop_zero,
      ih fun d hd => ht d (by simp [hd])]
    rfl

theorem pieces_ne_nil (h : s ≠ []) : pieces s ≠ [] := by
  obtain ⟨c, s, rfl⟩ := List.exists_cons_of_ne_nil h
  rw [pieces_cons]
  exact List.cons_ne_nil _ _

theorem write_append (f : Flags) (l l' : List Piece) :
    f.write escape (l ++ l') = f.write escape l ++ (f.after l).write escape l' := by
  induction l generalizing f with
  | nil => rfl
  | cons p l ih =>
    rw [List.cons_append, Flags.write, ih, Flags.write, List.append_assoc]
    rfl

theorem endsInText_append (h : l' ≠ []) : endsInText (l ++ l') = endsInText l' := by
  unfold endsInText
  rw [List.getLast?_append_of_ne_nil _ h]

theorem chunks_append (f : Flags) (h : l' ≠ []) :
    f.chunks escape (l ++ l') = f.write escape l ++ (f.after l).chunks escape l' := by
  unfold Flags.chunks
  rw [write_append, endsInText_append h, List.append_assoc, Flags.after, Flags.after, Flags.after,
    List.foldl_append]

theorem after_text (f : Flags) (s : Str) : f.after (s.map .text) = f := by
  induction s with
  | nil => rfl
  | cons c s ih => exact ih

theorem asString_text (f : Flags) (s : Str) :
    asString (f.write escape (s.map .text)) = s.flatMap escape := by
  induction s with
  | nil => rfl
  | cons c s ih =>
    rw [List.map_cons, Flags.write, asString_append, List.flatMap_cons]
    exact congrArg₂ (· ++ ·) (List.append_nil (escape c)) ih

theorem closing_eq (f : Flags) : asString (closingChunks f) = closing f := by
  obtain ⟨font, bold, underline, italic⟩ := f
  cases font <;> cases bold <;> cases underline <;> cases italic <;> rfl

theorem colourTags_eq (font : Bool) (fg : Str) (bg : Option Str) :
    colourTags font fg (bg.getD []) = (asString (closeTag font (str "FONT") ++
      if Piece.opens (.colour fg bg) then [.tag (fontTag fg bg)] else []),
        Piece.opens (.colour fg bg)) := by
  have hclosed : (if font then str "</FONT>" else []) = asString (closeTag font (str "FONT")) := by
    cases font <;> rfl
  unfold colourTags
  dsimp only
  rw [hclosed]
  rcases Bool.eq_false_or_eq_true fg.isEmpty with hempty | hempty
  · simp [Piece.opens, hempty]
  · by_cases hlow : 15 < decimal fg
    · simp [Piece.opens, hempty, hlow, Nat.not_le.mpr hlow]
    · simp [Piece.opens, hempty, hlow, Nat.not_lt.mp hlow, fontTag, asString_append, asString_tag, str]

theorem switch_eq (f : Flags) (hc : c ∈ formatting) : switch f (c :: s) =
    (asString (f.emit escape (pieceAt c s).1), f.next (pieceAt c s).1, s.drop (pieceAt c s).2) := by
  simp only [formatting, List.mem_cons, List.not_mem_nil, or_false] at hc
  rcases hc with rfl | rfl | rfl | rfl | rfl | rfl
  · cases hbold : f.bold <;> simp [switch, pieceAt, Flags.emit, Flags.next, hbold, asString_tag, str]
  · simp only [switch, pieceAt, Char.reduceEq, if_false, if_true, colour_rest]
    rw [colourTags_eq]
    rfl
  · rfl
  · simp only [switch, pieceAt, Char.reduceEq, if_false, if_true, or_self, Flags.emit, closing_eq]
    rfl
  · rfl
  · cases hline : f.underline <;>
      simp [switch, pieceAt, Flags.emit, Flags.next, hline, asString_tag, str]

theorem pieceAt_isText (hc : c ∈ formatting) : (pieceAt c s).1.isText = false := by
  simp only [formatting, List.mem_cons, List.not_mem_nil, or_false] at hc
  rcases hc with rfl | rfl | rfl | rfl | rfl | rfl <;> rfl

/-- Each turn takes the text up to the next code, and the code. -/
theorem irc2markupLoop_eq {fuel : Nat} (hfuel : s.length < fuel) (hne : s ≠ []) (f : Flags)
    (decoded : Str) : irc2markupLoop escape fuel f decoded s =
      some (decoded ++ asString (f.chunks escape (pieces s))) := by
  induction fuel generalizing f decoded s with
  | zero => omega
  | succ fuel ih =>
    obtain ⟨t, r, rfl, ht, hr, htext, hrest⟩ : ∃ t r, s = t ++ r ∧ (∀ c ∈ t, c ∉ formatting) ∧
        (∀ c ∈ r.head?, c ∈ formatting) ∧ (s.takeWhile fun c => !formatting.contains c) = t ∧
        (s.dropWhile fun c => !formatting.contains c) = r := by
      refine ⟨_, _, List.takeWhile_append_dropWhile.symm, ?_, ?_, rfl, rfl⟩
      · intro c hc
        simpa using List.mem_takeWhile_imp hc
      · intro c hc
        have h := List.head?_dropWhile_not (fun c => !formatting.contains c) s
        rw [Option.mem_def.mp hc] at h
        simpa using h
    rw [irc2markupLoop, htext, hrest, pieces_text ht]
    cases r with
    | nil =>
      -- the end of the string, and `case '\000'`
      have htne : t ≠ [] := by simpa using hne
      have hends : endsInText (t.map Piece.text) = true := by
        rw [endsInText, List.getLast?_map, List.getLast?_eq_some_getLast htne]
        rfl
      rw [pieces, piecesFrom, List.append_nil, Flags.chunks, hends, if_pos rfl, after_text,
        asString_append, asString_text, closing_eq, ← List.append_assoc]
      rfl
    | cons c r =>
      have hc : c ∈ formatting := hr c rfl
      rw [@switch_eq _ _ escape f hc, chunks_append f (pieces_ne_nil (List.cons_ne_nil c r)),
        asString_append, asString_text, after_text, pieces_cons]
      dsimp only
      have hp := @pieceAt_isText c r hc
      generalize (pieceAt c r).1 = p at hp ⊢
      have hlen : (r.drop (pieceAt c r).2).length < fuel := by
        rw [List.length_append, List.length_cons] at hfuel
        rw [List.length_drop]
        omega
      generalize r.drop (pieceAt c r).2 = rest at hlen ⊢
      rw [← List.append_assoc]
      cases rest with
      | nil =>
        have hends : endsInText [p] = false := hp
        rw [pieces, piecesFrom, Flags.chunks, hends, if_neg Bool.false_ne_true, List.append_nil]
        simp [Flags.write]
      | cons d rest =>
        have hne' := List.cons_ne_nil d rest
        have hsplit : p :: pieces (d :: rest) = [p] ++ pieces (d :: rest) := rfl
        rw [if_neg nofun, ih hlen hne', hsplit, chunks_append f (pieces_ne_nil hne'), asString_append]
        simp [Flags.write, Flags.after]

theorem irc2markup_eq (escape : Char → Str) (s : Str) : irc2markup escape s =
    some (asString (({} : Flags).chunks escape (pieces s))) := by
  rcases eq_or_ne s [] with rfl | hne
  · rfl
  · exact irc2markupLoop_eq (Nat.lt_succ_self _) hne {} []

end Loop

end Mirc
end Minbif
