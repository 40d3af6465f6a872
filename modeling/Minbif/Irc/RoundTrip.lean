import Minbif.Irc.Message

/-! Which messages survive the wire: `parse` after `format`. -/
namespace Minbif
namespace Message

/-- What a last argument is read back as: a space that ends its only word goes with the token. -/
def lastBack (a : Str) : Str :=
  if a.getLast? = some ' ' && !hasSpace a.dropLast then a.dropLast else a

/-- The arguments `parse` finds in a line that `format` wrote. -/
def readBack : List Str → List Str
  | [] => []
  | [a] => if a.isEmpty then [] else [lastBack a]
  | a :: b :: l =>
    -- an empty argument leaves two spaces, which `stringtok` takes for one
    if a.isEmpty then readBack (b :: l)
    -- the colon that protects a leading colon makes the rest of the line the last argument
    else if a.head? = some ':' then
      [a ++ if ((b :: l).flatMap formatArg).tail.isEmpty then [] else (b :: l).flatMap formatArg]
    else a :: readBack (b :: l)

variable {m m' : Message} {a b s c : Str} {l : List Str} {fuel : Nat}

theorem hasSpace_false : hasSpace a = false ↔ ' ' ∉ a := by
  simp [hasSpace]

theorem stringtok_space : stringtok (' ' :: s) [' '] = stringtok s [' '] := by
  simp [stringtok]

theorem parseLoop_space : parseLoop fuel (' ' :: s) m = parseLoop fuel s m := by
  cases fuel with
  | zero => rfl
  | succ fuel => simp only [parseLoop, stringtok_space]

/-- A word without space is one token, and the space after it goes with it. -/
theorem stringtok_word (ha : a ≠ []) (hsp : ' ' ∉ a) (hs : ∀ x ∈ s.head?, x = ' ') :
    stringtok (a ++ s) [' '] = (a, s.tail) := by
  have hword : ∀ y ∈ a, (!([' '] : Str).contains y) = true := by
    intro y hy
    have hne : y ≠ ' ' := fun h => hsp (h ▸ hy)
    simpa using hne
  have hfirst : (a ++ s).dropWhile ([' '] : Str).contains = a ++ s := by
    cases a with
    | nil => exact (ha rfl).elim
    | cons x a =>
      have hx := hword x (by simp)
      rw [List.cons_append, List.dropWhile_cons_of_neg (by simpa using hx)]
  have hstop : s.takeWhile (fun c => !([' '] : Str).contains c) = [] ∧
      s.dropWhile (fun c => !([' '] : Str).contains c) = s := by
    cases s with
    | nil => exact ⟨rfl, rfl⟩
    | cons y s =>
      have hy : y = ' ' := hs y rfl
      subst hy
      exact ⟨by simp, by simp⟩
  simp only [stringtok, hfirst]
  rw [List.takeWhile_append_of_pos hword, List.dropWhile_append_of_pos hword, hstop.1, hstop.2,
    List.append_nil]

theorem formatArg_head (l : List Str) : ∀ x ∈ (l.flatMap formatArg).head?, x = ' ' := by
  intro x hx
  cases l with
  | nil => cases hx
  | cons a l => exact (Option.some.inj hx).symm

theorem formatArg_nil : formatArg [] = [' '] := rfl

theorem formatArg_word (hsp : ' ' ∉ a) (hc : a.head? ≠ some ':') : formatArg a = ' ' :: a := by
  simp [formatArg, hasSpace_false.mpr hsp, hc]

theorem formatArg_colon (h : hasSpace a = true ∨ a.head? = some ':') :
    formatArg a = ' ' :: ':' :: a := by
  rcases h with h | h <;> simp [formatArg, h]

theorem parseLoop_nil (fuel : Nat) : parseLoop fuel [] m = .ok m := by
  cases fuel with
  | zero => rfl
  | succ fuel => simp [parseLoop, stringtok]

/-- A word that the parser takes for one more argument. -/
theorem parseLoop_word (hm : m.cmd ≠ []) (ha : a ≠ []) (hsp : ' ' ∉ a)
    (hc : a.head? ≠ some ':') (hs : ∀ x ∈ s.head?, x = ' ') :
    parseLoop (fuel + 1) (a ++ s) m = (do parseLoop fuel s.tail (← m.addArg a)) := by
  simp [parseLoop, stringtok_word ha hsp hs, ha, hm, hc]

/-- A token that starts with a colon takes the rest of the line with it. -/
theorem parseLoop_colon (hm : m.cmd ≠ []) (hsp : ' ' ∉ a) (hs : ∀ x ∈ s.head?, x = ' ') :
    parseLoop (fuel + 1) (':' :: (a ++ s)) m =
      m.addArg (a ++ if s.tail.isEmpty then [] else ' ' :: s.tail) := by
  have hword : ' ' ∉ ':' :: a := by simpa using hsp
  have htok : stringtok (':' :: (a ++ s)) [' '] = (':' :: a, s.tail) :=
    stringtok_word (List.cons_ne_nil _ _) hword hs
  simp [parseLoop, htok, hm]

/-- The first word of a text, and what follows it from the first space on. -/
theorem word_rest (a : Str) : ∃ w s, a = w ++ s ∧ ' ' ∉ w ∧ ∀ x ∈ s.head?, x = ' ' := by
  refine ⟨a.takeWhile (· != ' '), a.dropWhile (· != ' '), by simp, fun h => ?_, fun x hx => ?_⟩
  · simpa using List.mem_takeWhile_imp h
  · have := List.head?_dropWhile_not (· != ' ') a
    simpa [Option.mem_def.mp hx] using this

theorem lastBack_word (h : ' ' ∉ a) : lastBack a = a := by
  have : a.getLast? ≠ some ' ' := fun hl => h (List.mem_of_getLast? hl)
  simp [lastBack, this]

theorem lastBack_space (h : ' ' ∉ a) : lastBack (a ++ [' ']) = a := by
  simp [lastBack, hasSpace, h]

theorem lastBack_spaced (h : s ≠ []) : lastBack (a ++ ' ' :: s) = a ++ ' ' :: s := by
  have hdrop : hasSpace (a ++ ' ' :: s).dropLast = true := by
    obtain ⟨i, x, rfl⟩ := (List.eq_nil_or_concat s).resolve_left h
    have : a ++ ' ' :: i.concat x = (a ++ ' ' :: i) ++ [x] := by simp
    rw [this, List.dropLast_concat]
    simp [hasSpace]
  rw [lastBack, hdrop, Bool.not_true, Bool.and_false]
  rfl

theorem lastBack_eq_iff : lastBack a = a ↔ ¬ ∃ w, ' ' ∉ w ∧ a = w ++ [' '] := by
  constructor
  · rintro h ⟨w, hw, rfl⟩
    rw [lastBack_space hw] at h
    simpa using congrArg List.length h
  · intro h
    obtain ⟨w, s, rfl, hw, hs⟩ := word_rest a
    cases s with
    | nil => exact lastBack_word (by simpa using hw)
    | cons x s =>
      have hx : x = ' ' := hs x rfl
      subst hx
      cases s with
      | nil => exact (h ⟨w, hw, rfl⟩).elim
      | cons y s => exact lastBack_spaced (List.cons_ne_nil y s)

theorem addArg_ok (h : ∀ x ∈ m.args, hasSpace x = false) :
    m.addArg s = .ok { m with args := m.args ++ [s] } := by
  have hm : Middle m.args := fun a ha => h a (List.dropLast_subset _ ha)
  rw [addArg_eq hm, if_pos (middle_append_singleton.mpr h)]

/-- What the parser makes of a last argument. -/
theorem parseLoop_last (hm : m.cmd ≠ []) (ha : a ≠ []) (hf : 0 < fuel)
    (hargs : ∀ x ∈ m.args, hasSpace x = false) :
    parseLoop fuel (formatArg a) m = .ok { m with args := m.args ++ [lastBack a] } := by
  obtain ⟨fuel, rfl⟩ : ∃ f, fuel = f + 1 := ⟨fuel - 1, by omega⟩
  by_cases hc : hasSpace a = true ∨ a.head? = some ':'
  · rw [formatArg_colon hc, parseLoop_space]
    obtain ⟨w, s, rfl, hw, hs⟩ := word_rest a
    rw [parseLoop_colon hm hw hs, addArg_ok hargs]
    cases s with
    | nil => simp [lastBack_word hw]
    | cons x s =>
      have hx : x = ' ' := hs x rfl
      subst hx
      cases s with
      | nil => simp [lastBack_space hw]
      | cons y s => simp [lastBack_spaced]
  · have hsp : ' ' ∉ a := hasSpace_false.mp (by simpa using fun h => hc (.inl h))
    have hcol : a.head? ≠ some ':' := fun h => hc (.inr h)
    have hword := @parseLoop_word m a [] fuel hm ha hsp hcol (by simp)
    rw [List.append_nil] at hword
    rw [formatArg_word hsp hcol, parseLoop_space, hword, addArg_ok hargs, lastBack_word hsp]
    exact parseLoop_nil fuel

/-- The arguments of a formatted line, read back after those already parsed. -/
theorem parseLoop_args (hm : m.cmd ≠ []) (hl : Middle l)
    (hargs : ∀ x ∈ m.args, hasSpace x = false) (hf : (l.flatMap formatArg).length < fuel) :
    parseLoop fuel (l.flatMap formatArg) m = .ok { m with args := m.args ++ readBack l } := by
  induction l generalizing m fuel with
  | nil => simpa [readBack] using parseLoop_nil fuel
  | cons a l ih =>
    rw [List.flatMap_cons, List.length_append] at hf
    cases l with
    | nil =>
      by_cases ha : a = []
      · subst ha
        simpa [readBack, formatArg_nil, parseLoop_space] using parseLoop_nil fuel
      · have hlast := parseLoop_last hm ha (Nat.zero_lt_of_lt hf) hargs
        simpa [readBack, ha] using hlast
    | cons b l =>
      obtain ⟨ha, hmid⟩ := middle_cons_cons.mp hl
      have hsp : ' ' ∉ a := hasSpace_false.mp ha
      have hrest := formatArg_head (b :: l)
      have hlen : 1 ≤ ((b :: l).flatMap formatArg).length := by simp [formatArg]
      have htail : ' ' :: ((b :: l).flatMap formatArg).tail = (b :: l).flatMap formatArg := rfl
      obtain ⟨fuel, rfl⟩ : ∃ f, fuel = f + 1 := ⟨fuel - 1, by omega⟩
      rw [List.flatMap_cons, readBack]
      generalize (b :: l).flatMap formatArg = rest at *
      by_cases hnil : a = []
      · subst hnil
        rw [formatArg_nil, List.singleton_append, parseLoop_space]
        exact ih hm hmid hargs (by omega)
      by_cases hcol : a.head? = some ':'
      · have hform := formatArg_colon (.inr hcol)
        rw [hform, List.cons_append, List.cons_append, parseLoop_space,
          parseLoop_colon hm hsp hrest, addArg_ok hargs]
        simp [hnil, hcol, htail]
      · have hform := formatArg_word hsp hcol
        rw [hform, List.length_cons] at hf
        rw [hform, List.cons_append, parseLoop_space, parseLoop_word hm hnil hsp hcol hrest,
          addArg_ok hargs]
        have hall : ∀ x ∈ m.args ++ [a], hasSpace x = false := by
          intro x hx
          rcases List.mem_append.mp hx with hx | hx
          · exact hargs x hx
          · exact List.mem_singleton.mp hx ▸ ha
        have hnext := @ih { m with args := m.args ++ [a] } fuel hm hmid hall (by omega)
        rw [← htail, parseLoop_space] at hnext
        simpa [hnil, hcol, bind, Except.bind] using hnext

/-- Every argument but the last is a word that does not start with a colon, and the last one is
no word followed by a single space. -/
def Survives (l : List Str) : Prop :=
  (∀ a ∈ l.dropLast, a ≠ [] ∧ a.head? ≠ some ':') ∧
    ∀ a ∈ l.getLast?, a ≠ [] ∧ ¬ ∃ w, ' ' ∉ w ∧ a = w ++ [' ']

theorem readBack_length (l : List Str) : (readBack l).length ≤ l.length := by
  induction l with
  | nil => simp [readBack]
  | cons a l ih =>
    cases l with
    | nil => by_cases ha : a.isEmpty <;> simp [readBack, ha]
    | cons b l =>
      rw [readBack]
      split
      · simp only [List.length_cons] at ih ⊢
        omega
      split
      · simp
      · simpa using ih

theorem survives_singleton : Survives [a] ↔ a ≠ [] ∧ ¬ ∃ w, ' ' ∉ w ∧ a = w ++ [' '] := by
  simp [Survives]

theorem survives_cons_cons :
    Survives (a :: b :: l) ↔ (a ≠ [] ∧ a.head? ≠ some ':') ∧ Survives (b :: l) := by
  simp [Survives, and_assoc]

theorem readBack_eq_iff : readBack l = l ↔ Survives l := by
  induction l with
  | nil => simp [readBack, Survives]
  | cons a l ih =>
    cases l with
    | nil =>
      rw [survives_singleton, readBack, ← lastBack_eq_iff]
      cases a <;> simp
    | cons b l =>
      rw [survives_cons_cons, readBack, ← ih]
      have hlen := readBack_length (b :: l)
      split
      · next ha =>
        have ha : a = [] := by simpa using ha
        refine ⟨fun h => ?_, fun h => (h.1.1 ha).elim⟩
        have := congrArg List.length h
        simp only [List.length_cons] at this hlen
        omega
      split
      · next ha => simp [ha]
      · next hne hc =>
        have hne : a ≠ [] := by simpa using hne
        simp [hne, hc]

/-- The line of a command and its arguments, parsed. -/
theorem parse_line (hc : c ≠ []) (hsp : ' ' ∉ c) (hup : strupper c = c) (hl : Middle l) :
    parse (c ++ l.flatMap formatArg) = .ok { cmd := c, args := readBack l } := by
  have hlen := List.length_pos_iff.mpr hc
  have htok := stringtok_word hc hsp (formatArg_head l)
  have hargs := @parseLoop_args { cmd := c } l (c ++ l.flatMap formatArg).length hc hl (by simp)
    (by simpa using hlen)
  have htail : parseLoop (c ++ l.flatMap formatArg).length (l.flatMap formatArg).tail { cmd := c } =
      parseLoop (c ++ l.flatMap formatArg).length (l.flatMap formatArg) { cmd := c } := by
    cases l with
    | nil => rfl
    | cons a l => exact parseLoop_space.symm
  simp only [parse, parseLoop, htok, hup, List.isEmpty_nil, if_true]
  rw [if_neg (by simpa using hc), htail, hargs, List.nil_append]

/-- A message without sender and receiver comes back from its line exactly when its arguments
survive. -/
theorem parse_format_iff (hc : c ≠ []) (hsp : ' ' ∉ c) (hup : strupper c = c)
    (hm : addArgs { cmd := c } l = .ok m) :
    parse m.format.dropLast.dropLast = .ok { cmd := c, args := l } ↔ Survives l := by
  have hargs := addArgs_eq (m := { cmd := c }) (l := l) middle_nil
  rw [hm] at hargs
  split at hargs
  case isFalse => cases hargs
  case isTrue hl =>
    rw [List.nil_append] at hl
    obtain rfl := Except.ok.inj hargs
    have hline : (format { cmd := c, args := [] ++ l }).dropLast.dropLast =
        c ++ l.flatMap formatArg := by
      simp [format, StoredEntity.isSet]
    rw [hline, parse_line hc hsp hup hl, ← readBack_eq_iff]
    simp

theorem parse_format_words :
    parse (format { cmd := ['M'], args := [['a'], ['b', ' ', 'c']] }).dropLast.dropLast =
      .ok { cmd := ['M'], args := [['a'], ['b', ' ', 'c']] } :=
  (parse_format_iff (by decide) (by decide) (by decide) rfl).mpr (readBack_eq_iff.mp (by decide))

end Message
end Minbif
