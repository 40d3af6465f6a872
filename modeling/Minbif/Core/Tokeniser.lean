import Minbif.Core.Util

/-! `stringtok` as it walks the string by positions. -/
namespace Minbif
namespace Positions
open Tokens

/-- The first position from `pos` on that holds such a character; nothing for `npos`. -/
def findFrom (p : Char → Bool) (s : Str) (pos : Nat) : Option Nat :=
  ((s.drop pos).findIdx? p).map (pos + ·)

def findFirstNotOf (s delimiters : Str) (pos : Nat) : Option Nat :=
  findFrom (fun c => !delimiters.contains c) s pos

def findFirstOf (s delimiters : Str) : Option Nat → Option Nat
  | none => none
  | some pos => findFrom delimiters.contains s pos

/-- `s.substr(pos, len)`; nothing where it throws `out_of_range`. -/
def substr (s : Str) (pos len : Nat) : Option Str :=
  if pos ≤ s.length then some ((s.drop pos).take len) else none

/-- The token returned, and what the input string has become. -/
def stringtok (s delimiters : Str) : Option (Str × Str) :=
  match findFirstNotOf s delimiters 0 with
  -- a search from `npos` on finds nothing either
  | none => some ([], [])
  | some i =>
    match findFirstOf s delimiters (some i) with
    | none => (substr s i s.length).map fun t => (t, [])
    | some j =>
      (substr s i (j - i)).bind fun t => (substr s (j + 1) s.length).map fun rest => (t, rest)

/-- `while((t = stringtok(s, d)).empty() == false)`; nothing when the turns do not suffice. -/
def stringtokLoop (delimiters : Str) : Nat → Str → Option (List Str)
  | 0, _ => none
  | fuel + 1, s =>
    match stringtok s delimiters with
    | none => none
    | some (t, rest) =>
      if t.isEmpty then some [] else (stringtokLoop delimiters fuel rest).map (t :: ·)

variable {s d t r : Str} {p : Char → Bool} {i j : Nat}

theorem findFrom_none (h : findFrom p s i = none) : ∀ c ∈ s.drop i, p c = false := by
  simpa [findFrom] using h

/-- What is found, and what was passed over. -/
theorem findFrom_some (h : findFrom p s i = some j) :
    ∃ t a r, s.drop i = t ++ a :: r ∧ j = i + t.length ∧ (∀ c ∈ t, p c = false) ∧ p a = true := by
  simp only [findFrom, Option.map_eq_some_iff] at h
  obtain ⟨k, hk, rfl⟩ := h
  obtain ⟨hlt, ha, hbefore⟩ := List.findIdx?_eq_some_iff_getElem.mp hk
  refine ⟨(s.drop i).take k, (s.drop i)[k], (s.drop i).drop (k + 1), ?_, ?_, ?_, ha⟩
  · rw [← List.drop_eq_getElem_cons hlt, List.take_append_drop]
  · rw [List.length_take, Nat.min_eq_left (by omega)]
  · intro c hc
    obtain ⟨m, hm, rfl⟩ := List.mem_take_iff_getElem.mp hc
    simpa using hbefore m (by omega)

/-- The walk by positions takes the word that the walk by characters takes, and throws nowhere. -/
theorem stringtok_eq (s d : Str) : stringtok s d = some (Minbif.stringtok s d) := by
  cases hi : findFirstNotOf s d 0 with
  | none =>
    have hall : ∀ c ∈ s, d.contains c = true := by simpa using findFrom_none hi
    simp [stringtok, hi, Minbif.stringtok, List.dropWhile_eq_nil_iff.mpr hall]
  | some i =>
    obtain ⟨lead, a, r, hs, rfl, hlead, ha⟩ := findFrom_some hi
    simp only [List.drop_zero, Nat.zero_add, Bool.not_eq_false', Bool.not_eq_true'] at hs hlead ha hi
    have hrun : s.dropWhile d.contains = a :: r := by
      rw [hs, List.dropWhile_append_of_pos hlead, List.dropWhile_cons_of_neg (ne_true_of_eq_false ha)]
    have hdrop : s.drop lead.length = a :: r := by rw [hs, List.drop_left]
    have hlen : lead.length ≤ s.length := by simp [hs]
    cases hj : findFirstOf s d (some lead.length) with
    | none =>
      have hfree := findFrom_none hj
      rw [hdrop] at hfree
      have hrest : ∀ c ∈ a :: r, (!d.contains c) = true := fun c hc => by rw [hfree c hc]; rfl
      have htake : (a :: r).take s.length = a :: r := List.take_of_length_le (by simp [hs])
      simp only [stringtok, hi, hj, substr, if_pos hlen, hdrop, htake, Minbif.stringtok, hrun,
        List.takeWhile_eq_self_iff.mpr hrest, List.dropWhile_eq_nil_iff.mpr hrest]
      rfl
    | some j =>
      obtain ⟨t, b, rest, hcut, rfl, ht, hb⟩ := findFrom_some hj
      rw [hdrop] at hcut
      have hfree : ∀ c ∈ t, (!d.contains c) = true := fun c hc => by rw [ht c hc]; rfl
      have hstop : ¬ (!d.contains b) = true := by rw [hb]; exact Bool.false_ne_true
      have hall : s = (lead ++ t ++ [b]) ++ rest := by simp [hs, hcut]
      have hlen' : lead.length + t.length + 1 ≤ s.length := by
        rw [hall, List.length_append, List.length_append, List.length_append]
        exact Nat.le_add_right ..
      have hafter : s.drop (lead.length + t.length + 1) = rest := by
        rw [hall]
        exact List.drop_left' (by rw [List.length_append, List.length_append, List.length_singleton])
      have hshort : rest.length ≤ s.length := by
        rw [hall, List.length_append]
        exact Nat.le_add_left ..
      simp only [stringtok, hi, hj, substr, if_pos hlen, if_pos hlen', hdrop, hafter,
        Minbif.stringtok, hrun, hcut]
      rw [List.takeWhile_append_of_pos hfree, List.dropWhile_append_of_pos hfree,
        List.takeWhile_cons_of_neg (p := fun c => !d.contains c) hstop,
        List.dropWhile_cons_of_neg (p := fun c => !d.contains c) hstop,
        Nat.add_sub_cancel_left]
      simp only [Option.map_some, Option.bind_some, List.take_left, List.append_nil, List.tail_cons]
      rw [List.take_of_length_le hshort]

/-- A word taken off stands after delimiters, and only the delimiter that ends it goes with it. -/
theorem stringtok_takes (h : stringtok s d = some (t, r)) :
    ∃ lead, (∀ c ∈ lead, c ∈ d) ∧ (∀ c ∈ t, c ∉ d) ∧
      ((r = [] ∧ s = lead ++ t) ∨ ∃ a ∈ d, s = lead ++ t ++ a :: r) := by
  rw [stringtok_eq] at h
  have hcut := List.takeWhile_append_dropWhile (p := d.contains) (l := s)
  have htok := List.takeWhile_append_dropWhile (p := fun c => !d.contains c)
    (l := s.dropWhile d.contains)
  simp only [Minbif.stringtok, Option.some.injEq, Prod.mk.injEq] at h
  rw [h.1] at htok
  refine ⟨s.takeWhile d.contains, ?_, ?_, ?_⟩
  · intro c hc
    simpa using List.mem_takeWhile_imp hc
  · intro c hc
    rw [← h.1] at hc
    simpa using List.mem_takeWhile_imp hc
  · cases hrest : (s.dropWhile d.contains).dropWhile fun c => !d.contains c with
    | nil =>
      rw [hrest] at h htok
      refine .inl ⟨h.2.symm, ?_⟩
      rw [← List.append_nil t, htok, hcut]
    | cons a rest =>
      rw [hrest] at h htok
      have ha := List.head?_dropWhile_not (fun c => !d.contains c) (s.dropWhile d.contains)
      simp only [hrest, List.head?_cons, Bool.not_eq_false', List.contains_iff_mem] at ha
      refine .inr ⟨a, ha, ?_⟩
      rw [← h.2, List.tail_cons, List.append_assoc, htok, hcut]

theorem stringtokLoop_tokens {fuel : Nat} (h : s.length < fuel) :
    stringtokLoop d fuel s = some (tokens d.contains s) := by
  rw [← Minbif.stringtokLoop_eq h]
  induction fuel generalizing s with
  | zero => omega
  | succ fuel ih =>
    rw [stringtokLoop, stringtok_eq, Minbif.stringtokLoop]
    dsimp only
    split
    · rfl
    · next hne =>
      have hne : (Minbif.stringtok s d).1 ≠ [] := by simpa using hne
      have hshort := stringtok_length hne
      rw [ih (by omega), Option.map_some]

/-- The loop ends, takes the words of the string one by one in order and loses nothing else. -/
theorem stringtok_splits (s d : Str) :
    (∀ fuel, s.length < fuel → ∀ ts,
      stringtokLoop d fuel s = some ts ↔ MaximalRuns d.contains s ts) ∧
    ∀ t r, stringtok s d = some (t, r) →
      ∃ lead, (∀ c ∈ lead, c ∈ d) ∧ (∀ c ∈ t, c ∉ d) ∧
        ((r = [] ∧ s = lead ++ t) ∨ ∃ a ∈ d, s = lead ++ t ++ a :: r) := by
  refine ⟨fun fuel h ts => ?_, fun t r h => stringtok_takes h⟩
  rw [stringtokLoop_tokens h, Option.some_inj]
  constructor
  · rintro rfl
    exact maximalRuns_tokens s
  · exact MaximalRuns.eq

/-- A string that starts and ends in delimiters, and has two of them in a row. -/
theorem stringtok_splits_list :
    stringtokLoop (str ",;") 9 (str ";;a,;bc,") = some [str "a", str "bc"] ∧
    ∃ lead, (∀ c ∈ lead, c ∈ str ",;") ∧ (∀ c ∈ str "a", c ∉ str ",;") ∧
      ((str ";bc," = [] ∧ str ";;a,;bc," = lead ++ str "a") ∨
        ∃ a ∈ str ",;", str ";;a,;bc," = lead ++ str "a" ++ a :: str ";bc,") := by
  obtain ⟨hloop, hcut⟩ := stringtok_splits (str ";;a,;bc,") (str ",;")
  refine ⟨(hloop 9 (by decide) _).mpr ?_, hcut _ _ (by decide)⟩
  have hlast : MaximalRuns (str ",;").contains (str ",;" ++ str "bc" ++ str ",") [str "bc"] :=
    .run (forall_of_all (by decide)) (by decide) (forall_of_all (by decide))
      (fun a (ha : some ',' = some a) => Option.some.inj ha ▸ rfl) (.done (forall_of_all (by decide)))
  have hall : MaximalRuns (str ",;").contains (str ";;" ++ str "a" ++ str ",;bc,")
      [str "a", str "bc"] :=
    .run (forall_of_all (by decide)) (by decide) (forall_of_all (by decide))
      (fun a (ha : some ',' = some a) => Option.some.inj ha ▸ rfl) hlast
  exact hall

end Positions
end Minbif
