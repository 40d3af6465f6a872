import Minbif.Irc.FileNames
import Minbif.Irc.NickTable

/-! What `nickize` makes is a nickname, and a nickname is the name of a file. -/
namespace Minbif

namespace CString

/-- Whether `strchr(s, c)` finds anything; it finds the terminator too. -/
def strchr (s : Str) (c : Char) : Bool := s.contains c || c == '\x00'

/-- `Nick::isValidNickname`, of any string. -/
def isValidNickname (nick : Str) : Bool :=
  if nick.isEmpty || nick.head?.any Char.isDigit || nickMaxLength < nick.length then false
  else nick.all fun c => !(!strchr nickLcChars c && !strchr nickUcChars c)

end CString

variable {nick name dir : Str} {translit : Option Str} {n : Str} {c : Char}

/-- Not empty, not too long, and no number first. -/
structure Fitting (nick : Str) : Prop where
  ne_nil : nick ≠ []
  head : nick.head?.any Char.isDigit = false
  length : nick.length ≤ nickMaxLength

theorem isValidNickname_iff : isValidNickname nick = true ↔
    Fitting nick ∧ ∀ c ∈ nick, isNickChar c = true := by
  simp only [isValidNickname, Bool.and_eq_true, Bool.not_eq_true', Bool.or_eq_false_iff,
    List.isEmpty_eq_false_iff, decide_eq_false_iff_not, Nat.not_lt, List.all_eq_true]
  constructor
  · rintro ⟨⟨⟨hne, hhead⟩, hlen⟩, hall⟩
    exact ⟨⟨hne, hhead, hlen⟩, hall⟩
  · rintro ⟨⟨hne, hhead, hlen⟩, hall⟩
    exact ⟨⟨⟨hne, hhead⟩, hlen⟩, hall⟩

theorem CString.strchr_nick : (!(!strchr nickLcChars c && !strchr nickUcChars c)) = true ↔
    isNickChar c = true ∨ c = '\x00' := by
  unfold strchr isNickChar
  generalize nickLcChars.contains c = lc
  generalize nickUcChars.contains c = uc
  cases lc <;> cases uc <;> simp

theorem CString.isValidNickname_iff : CString.isValidNickname nick = true ↔
    Fitting nick ∧ ∀ c ∈ nick, isNickChar c = true ∨ c = '\x00' := by
  unfold CString.isValidNickname
  have hfit : (nick.isEmpty || nick.head?.any Char.isDigit || nickMaxLength < nick.length) = false ↔
      Fitting nick := by
    simp only [Bool.or_eq_false_iff, List.isEmpty_eq_false_iff, decide_eq_false_iff_not, Nat.not_lt]
    exact ⟨fun h => ⟨h.1.1, h.1.2, h.2⟩, fun h => ⟨⟨h.ne_nil, h.head⟩, h.length⟩⟩
  split
  · next hbad =>
    rw [← Bool.not_eq_false, hfit] at hbad
    exact iff_of_false nofun fun h => hbad h.1
  · next hgood =>
    rw [Bool.not_eq_true, hfit] at hgood
    simp only [List.all_eq_true, CString.strchr_nick]
    exact (and_iff_right hgood).symm

/-- Where there is no NUL it makes no difference. -/
theorem CString.isValidNickname_eq (h : '\x00' ∉ nick) :
    CString.isValidNickname nick = Minbif.isValidNickname nick := by
  rw [Bool.eq_iff_iff, CString.isValidNickname_iff, Minbif.isValidNickname_iff]
  refine and_congr_right fun _ => forall₂_congr fun c hc => or_iff_left ?_
  rintro rfl
  exact h hc

/-- A number that comes first is put behind a `_`. -/
theorem head_marked (m : Str) :
    (if m.head?.any Char.isDigit then '_' :: m else m).head?.any Char.isDigit = false := by
  split
  · rfl
  · next h => simpa using h

theorem fitting_cut {m : Str} (hhead : m.head?.any Char.isDigit = false)
    (hne : m.take nickMaxLength ≠ []) : Fitting (m.take nickMaxLength) := by
  refine ⟨hne, ?_, List.length_take_le _ _⟩
  rwa [List.head?_take, if_neg (by decide)]

theorem nickize_fitting (translit : Option Str) (n : Str) : Fitting (nickize translit n) := by
  unfold nickize
  dsimp only
  generalize (((translit.getD n).takeWhile (· ≠ '\x00')).map
    fun c => if c = ' ' then '_' else c).filter isNickChar = m
  have hhead := head_marked m
  generalize (if m.head?.any Char.isDigit then '_' :: m else m) = m at hhead
  split
  · exact ⟨by decide, by decide, by decide⟩
  · next hne => exact fitting_cut hhead (by simpa using hne)

theorem nickize_valid (translit : Option Str) (n : Str) :
    isValidNickname (nickize translit n) = true :=
  isValidNickname_iff.mpr ⟨nickize_fitting translit n, (nickize_proper translit n).chars⟩

/-- A valid name has none of the characters that paths are made with. -/
theorem CString.not_mem_valid (h : CString.isValidNickname nick = true) (hc : isNickChar c = false)
    (hnul : c ≠ '\x00') : c ∉ nick := by
  intro hmem
  rcases (CString.isValidNickname_iff.mp h).2 c hmem with hnick | rfl
  · rw [hc] at hnick
    cases hnick
  · exact hnul rfl

theorem steps_single (hne : name ≠ []) (hslash : '/' ∉ name) (hdot : '.' ∉ name) :
    steps name = [name] := by
  have hfree : ∀ c ∈ name, (c == '/') = false := by
    intro c hc
    rw [beq_eq_false_iff_ne]
    exact fun h => hslash (h ▸ hc)
  rw [steps, Tokens.tokens_run hfree hne, List.filter_cons_of_pos]
  · rfl
  · rw [decide_eq_true_eq]
    rintro rfl
    exact hdot (by simp)

/-- A name without `/` and without `.` is one step down. -/
theorem directChild_name (hne : name ≠ []) (hslash : '/' ∉ name) (hdot : '.' ∉ name) :
    DirectChild dir (dir ++ '/' :: name) := by
  refine ⟨name, fun h => hdot (h ▸ by decide), ?_⟩
  rw [steps, Tokens.tokens_append_cons rfl, List.filter_append]
  have hname := steps_single hne hslash hdot
  rw [steps] at hname
  rw [hname, steps]

end Minbif
