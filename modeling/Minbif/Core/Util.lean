import Mathlib.Data.Char
import Minbif.Lib.Tokens

/-! Strings and the tokeniser every line, list and queue goes through. -/
namespace Minbif
open Tokens

/-- A `string` of the source, one character for each byte. -/
abbrev Str := List Char

/-- The characters of a literal. -/
def str (s : String) : Str := s.toList

def t2s (n : Int) : Str := (toString n).toList

/-- The number that digits write. -/
def decimal (s : Str) : Nat := s.foldl (fun n c => 10 * n + (c.toNat - '0'.toNat)) 0

/-- A property of the characters of a string, by a run over the string. -/
theorem forall_of_all {s : Str} {p : Char → Prop} [DecidablePred p]
    (h : (s.all fun c => decide (p c)) = true) : ∀ c ∈ s, p c := fun c hc =>
  of_decide_eq_true (List.all_eq_true.mp h c hc)

/-- A `const char*` as a string. -/
def p2s (s : Option Str) : Str := s.getD []

def strupper (s : Str) : Str := s.map Char.toUpper

def strlower (s : Str) : Str := s.map Char.toLower

/-- The token returned, and what is left in the input string. -/
def stringtok (s delimiters : Str) : Str × Str :=
  let i := s.dropWhile delimiters.contains
  -- `in.substr(j+1)`: the delimiter that ends the token goes with it
  (i.takeWhile fun c => !delimiters.contains c, (i.dropWhile fun c => !delimiters.contains c).tail)

/-- `while((t = stringtok(s, d)).empty() == false)`, as the list of its tokens. -/
def stringtokLoop (delimiters : Str) : Nat → Str → List Str
  | 0, _ => []
  | fuel + 1, s =>
    if (stringtok s delimiters).1.isEmpty then []
    else (stringtok s delimiters).1 :: stringtokLoop delimiters fuel (stringtok s delimiters).2

variable {s d t : Str}

theorem stringtok_length (h : (stringtok s d).1 ≠ []) :
    (stringtok s d).2.length < s.length := by
  have hi := (List.dropWhile_suffix (l := s) d.contains).length_le
  have hlen := congrArg List.length
    (List.takeWhile_append_dropWhile (p := fun c => !d.contains c) (l := s.dropWhile d.contains))
  have ht := List.length_pos_iff.mpr h
  simp only [stringtok, List.length_append, List.length_tail] at *
  omega

/-- A first word and the delimiter that ends it. -/
theorem stringtok_cut {a : Char} (ht : t ≠ []) (hfree : ∀ c ∈ t, d.contains c = false)
    (ha : d.contains a = true) : stringtok (t ++ a :: s) d = (t, s) := by
  have hrun : ∀ c ∈ t, (!d.contains c) = true := fun c hc => by rw [hfree c hc]; rfl
  have hstart : (t ++ a :: s).dropWhile d.contains = t ++ a :: s := by
    obtain ⟨c, t, rfl⟩ := List.exists_cons_of_ne_nil ht
    rw [List.cons_append, List.dropWhile_cons_of_neg (by simpa using hfree c (by simp))]
  have hstop : (!d.contains a) = false := by rw [ha]; rfl
  simp only [stringtok, hstart]
  rw [List.takeWhile_append_of_pos hrun, List.dropWhile_append_of_pos hrun, List.takeWhile_cons,
    List.dropWhile_cons, hstop]
  simp

/-- An empty token means that only delimiters were left. -/
theorem stringtok_nil (h : (stringtok s d).1 = []) : ∀ c ∈ s, d.contains c = true := by
  have hi : s.dropWhile d.contains = [] := by
    by_contra hne
    have hhead := List.head_dropWhile_not d.contains hne
    obtain ⟨a, i, hi⟩ := List.exists_cons_of_ne_nil hne
    simp only [hi, List.head_cons] at hhead
    simp only [stringtok, hi, List.takeWhile_cons, hhead, Bool.not_false, if_true] at h
    cases h
  exact List.dropWhile_eq_nil_iff.mp hi

/-- The token is the first run of the string, and the rest holds the others. -/
theorem tokens_stringtok (h : (stringtok s d).1 ≠ []) :
    tokens d.contains s = (stringtok s d).1 :: tokens d.contains (stringtok s d).2 := by
  rw [← tokens_dropWhile]
  simp only [stringtok] at *
  generalize s.dropWhile d.contains = i at *
  have hrun : ∀ x ∈ i.takeWhile (fun c => !d.contains c), d.contains x = false := by
    intro x hx
    simpa using List.mem_takeWhile_imp hx
  have hsplit := List.takeWhile_append_dropWhile (p := fun c => !d.contains c) (l := i)
  cases hrest : i.dropWhile (fun c => !d.contains c) with
  | nil =>
    rw [hrest, List.append_nil] at hsplit
    rw [hsplit] at hrun h ⊢
    rw [tokens_run hrun h, List.tail_nil, tokens_nil]
  | cons a r =>
    have ha : d.contains a = true := by
      have := List.head?_dropWhile_not (fun c => !d.contains c) i
      simpa only [hrest, List.head?_cons, Bool.not_eq_false'] using this
    rw [hrest] at hsplit
    calc tokens d.contains i
        = tokens d.contains (i.takeWhile (fun c => !d.contains c) ++ a :: r) := by rw [hsplit]
      _ = i.takeWhile (fun c => !d.contains c) :: tokens d.contains r :=
          tokens_run_cons hrun h ha

theorem stringtokLoop_eq {fuel : Nat} (h : s.length < fuel) :
    stringtokLoop d fuel s = tokens d.contains s := by
  induction fuel generalizing s with
  | zero => omega
  | succ fuel ih =>
    rw [stringtokLoop]
    split
    · next hnil => rw [tokens_delims (stringtok_nil (List.isEmpty_iff.mp hnil))]
    · next hne =>
      have hne : (stringtok s d).1 ≠ [] := by simpa using hne
      rw [tokens_stringtok hne, ih (by have := stringtok_length hne; omega)]

end Minbif
