import Minbif.Core.Markup

/-! `markup2irc`, on the characters of valid UTF-8. -/
namespace Minbif
namespace Mirc
open Tagged

/-- `!strncasecmp(s, t, n)`. -/
def sameStart (s t : Str) (n : Nat) : Bool := strlower (s.take n) == strlower (t.take n)

/-- The name in `irc_colors` that starts with a value; the first of them, if there are several. -/
def colourOf (value : Str) : Option Nat :=
  ircColors.findIdx? fun name => sameStart value name value.length

/-- `irc_colors[i].num`. -/
def colourNum (i : Nat) : Str := if i < 10 then '0' :: t2s i else t2s i

/-- A quoted value: its text, and what stands behind it and the blanks that follow. -/
def attrValue (ptr : Str) : Str × Str :=
  let ptr := if ptr.head? = some '"' then ptr.tail else ptr
  let space := ptr.dropWhile (· ≠ '"')
  let behind := if space.head? = some '"' then space.tail else space
  (ptr.takeWhile (· ≠ '"'), behind.dropWhile (· = ' '))

/-- The loop over the attributes of a FONT tag: `foreground` and `background`. -/
def fontAttrs : Nat → Str → Option Nat → Option Nat → Option Nat × Option Nat
  | 0, _, fg, bg => (fg, bg)
  | fuel + 1, ptr, fg, bg =>
    if ptr = [] ∨ ptr.head? = some '>' then (fg, bg)
    else if sameStart ptr (str "color=") 6 then
      let value := attrValue (ptr.drop 6)
      fontAttrs fuel value.2 ((colourOf value.1).or fg) bg
    else if sameStart ptr (str "back=") 5 then
      let value := attrValue (ptr.drop 5)
      fontAttrs fuel value.2 fg ((colourOf value.1).or bg)
    else (fg, bg)

/-- The colour code of a FONT tag. -/
def colourCode : Option Nat × Option Nat → Str
  | (none, _) => []
  | (some fg, none) => '\x03' :: colourNum fg
  | (some fg, some bg) => '\x03' :: colourNum fg ++ ',' :: colourNum bg

/-- How a tag is kept that is none of those: `tag` is the text from `ptr` to `next`. -/
def keptTag (closed : Bool) (tag : Str) : Str :=
  '<' :: (if closed then ['/'] else []) ++ tag

/-- `ptr + 2 == next`. -/
def twoBytes (tag : Str) : Bool := tag.foldl (fun n c => n + c.utf8Size) 0 == 2

/-- The `switch` on the first character of a tag. -/
def tagCode (closed : Bool) (ptr tag : Str) : Str :=
  match ptr.head? with
  | some 'i' | some 'I' => if twoBytes tag then ['\x1f', '\x02'] else []
  | some 'u' | some 'U' => if twoBytes tag then ['\x1f'] else []
  | some 'b' | some 'B' => if twoBytes tag then ['\x02'] else keptTag closed tag
  | some 'f' | some 'F' =>
    if closed && sameStart ptr (str "FONT") 4 then ['\x03']
    else if !closed && sameStart ptr (str "FONT ") 5 then
      colourCode (fontAttrs (ptr.length + 1) (ptr.drop 5) none none)
    else keptTag closed tag
  | _ => keptTag closed tag

/-- What follows the next `>`. -/
def afterTag (s : Str) : Str := (s.dropWhile (· ≠ '>')).tail

/-- The loop: what is appended from here on. -/
def markup2ircLoop : Nat → Str → Str
  | 0, _ => []
  | _ + 1, [] => []
  | fuel + 1, c :: rest =>
    if c ≠ '<' then c :: markup2ircLoop fuel rest
    else
      let next := afterTag rest
      let closed := rest.head? == some '/'
      let ptr := if closed then rest.tail else rest
      tagCode closed ptr (ptr.take (ptr.length - next.length)) ++ markup2ircLoop fuel next

/-- What the loop makes of a text. -/
def coded (s : Str) : Str := markup2ircLoop s.length s

/-- `markup2irc`, between the two functions of libpurple that it calls. -/
def markup2irc (withHtml stripHtml : Str → Str) (markup : Str) : Str :=
  stripHtml (coded (withHtml markup))

section Loop

variable {c : Char} {s t r : Str} {fuel : Nat}

theorem afterTag_length (s : Str) : (afterTag s).length ≤ s.length := by
  unfold afterTag
  rw [List.length_tail]
  exact Nat.le_trans (Nat.sub_le _ _) (List.dropWhile_suffix _).length_le

/-- More turns than characters change nothing. -/
theorem markup2ircLoop_eq (h : s.length ≤ fuel) : markup2ircLoop fuel s = coded s := by
  induction hn : s.length using Nat.strong_induction_on generalizing s fuel with
  | _ n ih =>
    subst hn
    cases s with
    | nil => cases fuel <;> rfl
    | cons c rest =>
      obtain ⟨fuel, rfl⟩ := Nat.exists_eq_add_of_lt (Nat.lt_of_lt_of_le (Nat.succ_pos _) h)
      rw [Nat.zero_add] at h ⊢
      rw [List.length_cons] at h ih
      rw [coded, List.length_cons, markup2ircLoop, markup2ircLoop]
      have hnext := afterTag_length rest
      dsimp only
      rw [ih rest.length (by omega) (by omega) rfl, ih rest.length (by omega) (Nat.le_refl _) rfl,
        ih (afterTag rest).length (by omega) (by omega) rfl,
        ih (afterTag rest).length (by omega) hnext rfl]

theorem coded_cons (hc : c ≠ '<') (s : Str) : coded (c :: s) = c :: coded s := by
  rw [coded, List.length_cons, markup2ircLoop, if_pos hc]
  rfl

theorem coded_text (ht : '<' ∉ t) (s : Str) : coded (t ++ s) = t ++ coded s := by
  induction t with
  | nil => rfl
  | cons c t ih =>
    rw [List.mem_cons, not_or] at ht
    rw [List.cons_append, coded_cons (Ne.symm ht.1), ih ht.2]
    rfl

theorem afterTag_tag (ht : '>' ∉ t) (s : Str) : afterTag (t ++ '>' :: s) = s := by
  unfold afterTag
  rw [List.dropWhile_append_of_pos]
  · simp
  · intro c hc
    simpa using fun h : c = '>' => ht (h ▸ hc)

/-- The tag, up to what follows it. -/
theorem take_tag (t s : Str) :
    (t ++ '>' :: s).take ((t ++ '>' :: s).length - s.length) = t ++ ['>'] := by
  rw [List.append_cons, List.length_append, Nat.add_sub_cancel, List.take_left]

theorem coded_open (ht : '>' ∉ t) (hslash : t.head? ≠ some '/') (s : Str) :
    coded ('<' :: t ++ '>' :: s) = tagCode false (t ++ '>' :: s) (t ++ ['>']) ++ coded s := by
  have hhead : ((t ++ '>' :: s).head? == some '/') = false := by
    cases t with
    | nil => rfl
    | cons c t => simpa using hslash
  rw [List.cons_append, coded, List.length_cons, markup2ircLoop, if_neg (by simp)]
  simp only [hhead, Bool.false_eq_true, if_false, afterTag_tag ht, take_tag]
  rw [markup2ircLoop_eq (by simp only [List.length_append, List.length_cons]; omega)]

theorem coded_close (ht : '>' ∉ t) (s : Str) : coded ('<' :: '/' :: t ++ '>' :: s) =
    tagCode true (t ++ '>' :: s) (t ++ ['>']) ++ coded s := by
  have ht' : '>' ∉ '/' :: t := by simpa using ht
  have hnext : afterTag ('/' :: (t ++ '>' :: s)) = s := afterTag_tag ht' s
  rw [List.cons_append, List.cons_append, coded, List.length_cons, markup2ircLoop, if_neg (by simp)]
  simp only [List.head?_cons, beq_self_eq_true, if_true, List.tail_cons, hnext, take_tag]
  rw [markup2ircLoop_eq (by simp only [List.length_append, List.length_cons]; omega)]

end Loop

section Tags

variable {i j : Nat} {r : Str}

/-- A value in quotes, with one blank behind it or none. -/
theorem attrValue_quoted {value : Str} (hv : '"' ∉ value) (s : Str) :
    attrValue ('"' :: value ++ '"' :: s) = (value, s.dropWhile (· = ' ')) := by
  have hpos : ∀ c ∈ value, decide (c ≠ '"') = true := by
    intro c hc
    simpa using fun h : c = '"' => hv (h ▸ hc)
  unfold attrValue
  simp only [List.cons_append, List.head?_cons, if_true, List.tail_cons,
    List.takeWhile_append_of_pos hpos, List.dropWhile_append_of_pos hpos]
  simp

/-- Every name is found under its own number, and has no quotation mark. -/
theorem colourOf_name (hi : i ≤ 15) :
    colourOf (ircColors.getD i []) = some i ∧ '"' ∉ ircColors.getD i [] := by
  have h : ∀ i < 16, colourOf (ircColors.getD i []) = some i ∧ '"' ∉ ircColors.getD i [] := by
    decide +kernel
  exact h i (by omega)

theorem fontAttrs_color (hi : i ≤ 15) {fuel : Nat} {fg bg : Option Nat} (s : Str) :
    fontAttrs (fuel + 1) (str "COLOR=\"" ++ ircColors.getD i [] ++ '"' :: s) fg bg =
      fontAttrs fuel (s.dropWhile (· = ' ')) (some i) bg := by
  obtain ⟨hname, hquote⟩ := colourOf_name hi
  have hsplit : str "COLOR=\"" ++ ircColors.getD i [] ++ '"' :: s =
      str "COLOR=" ++ ('"' :: ircColors.getD i [] ++ '"' :: s) := rfl
  have hdrop : (str "COLOR=" ++ ('"' :: ircColors.getD i [] ++ '"' :: s)).drop 6 =
      '"' :: ircColors.getD i [] ++ '"' :: s := rfl
  have hsame : sameStart (str "COLOR=" ++ ('"' :: ircColors.getD i [] ++ '"' :: s))
      (str "color=") 6 = true := rfl
  have hhead : ¬ ((str "COLOR=" ++ ('"' :: ircColors.getD i [] ++ '"' :: s)) = [] ∨
      (str "COLOR=" ++ ('"' :: ircColors.getD i [] ++ '"' :: s)).head? = some '>') := by
    rintro (h | h)
    · cases h
    · simp [str] at h
  rw [hsplit, fontAttrs, if_neg hhead, if_pos hsame, hdrop, attrValue_quoted hquote]
  dsimp only
  rw [hname]
  rfl

theorem fontAttrs_back (hi : i ≤ 15) {fuel : Nat} {fg bg : Option Nat} (s : Str) :
    fontAttrs (fuel + 1) (str "BACK=\"" ++ ircColors.getD i [] ++ '"' :: s) fg bg =
      fontAttrs fuel (s.dropWhile (· = ' ')) fg (some i) := by
  obtain ⟨hname, hquote⟩ := colourOf_name hi
  have hsplit : str "BACK=\"" ++ ircColors.getD i [] ++ '"' :: s =
      str "BACK=" ++ ('"' :: ircColors.getD i [] ++ '"' :: s) := rfl
  have hdrop : (str "BACK=" ++ ('"' :: ircColors.getD i [] ++ '"' :: s)).drop 5 =
      '"' :: ircColors.getD i [] ++ '"' :: s := rfl
  have hcolor : sameStart (str "BACK=" ++ ('"' :: ircColors.getD i [] ++ '"' :: s))
      (str "color=") 6 = false := rfl
  have hsame : sameStart (str "BACK=" ++ ('"' :: ircColors.getD i [] ++ '"' :: s))
      (str "back=") 5 = true := rfl
  have hhead : ¬ ((str "BACK=" ++ ('"' :: ircColors.getD i [] ++ '"' :: s)) = [] ∨
      (str "BACK=" ++ ('"' :: ircColors.getD i [] ++ '"' :: s)).head? = some '>') := by
    rintro (h | h)
    · cases h
    · simp [str] at h
  rw [hsplit, fontAttrs, if_neg hhead, hcolor, if_neg Bool.false_ne_true, if_pos hsame, hdrop,
    attrValue_quoted hquote]
  dsimp only
  rw [hname]
  rfl

end Tags

end Mirc
end Minbif
