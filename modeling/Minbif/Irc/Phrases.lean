import Minbif.Irc.Quotes

/-! Phrases that are written with quotation marks, split at spaces and put together again. -/
namespace Minbif
open Message Tokens

/-- Words put together with one space between two of them. -/
def unwords (ws : List Str) : Str := [' '].intercalate ws

/-- Words that are written plain, if there is only one, or between quotation marks. -/
structure Phrase where
  words : List Str
  marked : Bool
  nonempty : words ≠ []
  plain_word : marked = false → words.length = 1
  word : ∀ w ∈ words, w ≠ [] ∧ ' ' ∉ w ∧ '"' ∉ w

namespace Phrase

def written (p : Phrase) : Str :=
  if p.marked then '"' :: unwords p.words ++ ['"'] else unwords p.words

/-- The line that the phrases are typed as. -/
def text (ps : List Phrase) : Str := unwords (ps.map written)

/-- What splitting at spaces makes of the words before a closing mark. -/
def closing : List Str → List Str
  | [] => []
  | [w] => [w ++ ['"']]
  | w :: ws => w :: closing ws

/-- What splitting at spaces makes of a phrase. -/
def args (p : Phrase) : List Str :=
  if p.marked then (closing p.words).modifyHead ('"' :: ·) else p.words

variable {w : Str} {ws l : List Str} {p : Phrase} {q : Str} {rest : List Str} {t : Bool}

@[simp] theorem unwords_singleton : unwords [w] = w := List.intercalate_singleton

theorem unwords_cons (h : ws ≠ []) : unwords (w :: ws) = w ++ ' ' :: unwords ws := by
  obtain ⟨v, ws, rfl⟩ := List.exists_cons_of_ne_nil h
  rw [unwords, List.intercalate_cons_cons]
  simp [unwords]

theorem tokens_unwords (ws : List Str) :
    tokens [' '].contains (unwords ws) = ws.flatMap (tokens [' '].contains) := by
  induction ws with
  | nil => rfl
  | cons w ws ih =>
    by_cases hws : ws = []
    · simp [hws]
    · rw [unwords_cons hws, tokens_append_cons rfl, ih, List.flatMap_cons]

/-- Words without spaces are split again where they were put together. -/
theorem tokens_unwords_words (h : ∀ w ∈ ws, w ≠ [] ∧ ' ' ∉ w) :
    tokens [' '].contains (unwords ws) = ws := by
  rw [tokens_unwords, flatMap_tokens_eq fun w hw => (h w hw).1]
  intro w hw c hc
  rw [contains_space, beq_eq_false_iff_ne]
  exact fun hspace => (h w hw).2 (hspace ▸ hc)

theorem closing_cons (h : ws ≠ []) : closing (w :: ws) = w :: closing ws := by
  obtain ⟨v, ws, rfl⟩ := List.exists_cons_of_ne_nil h
  rfl

theorem closing_ne_nil (h : ws ≠ []) : closing ws ≠ [] := by
  obtain ⟨w, ws, rfl⟩ := List.exists_cons_of_ne_nil h
  cases ws <;> simp [closing]

theorem unwords_closing (h : ws ≠ []) : unwords (closing ws) = unwords ws ++ ['"'] := by
  induction ws with
  | nil => exact absurd rfl h
  | cons w ws ih =>
    by_cases hws : ws = []
    · simp [hws, closing]
    · rw [closing_cons hws, unwords_cons (closing_ne_nil hws), unwords_cons hws, ih hws]
      simp

theorem unwords_modifyHead (h : ws ≠ []) (c : Char) :
    unwords (ws.modifyHead (c :: ·)) = c :: unwords ws := by
  obtain ⟨w, ws, rfl⟩ := List.exists_cons_of_ne_nil h
  by_cases hws : ws = []
  · simp [hws]
  · rw [List.modifyHead_cons, unwords_cons hws, unwords_cons hws, List.cons_append]

theorem unwords_args (p : Phrase) : unwords p.args = p.written := by
  rw [args, written]
  split
  · rw [unwords_modifyHead (closing_ne_nil p.nonempty), unwords_closing p.nonempty,
      List.cons_append]
  · rfl

theorem closing_words (h : ∀ w ∈ ws, w ≠ [] ∧ ' ' ∉ w) : ∀ w ∈ closing ws, w ≠ [] ∧ ' ' ∉ w := by
  induction ws with
  | nil => simp [closing]
  | cons v ws ih =>
    rw [List.forall_mem_cons] at h
    by_cases hws : ws = []
    · subst hws
      simpa [closing] using h.1.2
    · rw [closing_cons hws, List.forall_mem_cons]
      exact ⟨h.1, ih h.2⟩

theorem args_words (p : Phrase) : ∀ w ∈ p.args, w ≠ [] ∧ ' ' ∉ w := by
  have hwords : ∀ w ∈ p.words, w ≠ [] ∧ ' ' ∉ w := fun w hw => ⟨(p.word w hw).1, (p.word w hw).2.1⟩
  rw [args]
  split
  · have hclosing := closing_words hwords
    cases hc : closing p.words with
    | nil => exact absurd hc (closing_ne_nil p.nonempty)
    | cons v vs =>
      rw [hc, List.forall_mem_cons] at hclosing
      rw [List.modifyHead_cons, List.forall_mem_cons]
      exact ⟨⟨by simp, by simpa using hclosing.1.2⟩, hclosing.2⟩
  · exact hwords

/-- The arguments of the line are those of its phrases. -/
theorem tokens_text (ps : List Phrase) : tokens [' '].contains (text ps) = ps.flatMap args := by
  rw [text, tokens_unwords, List.flatMap_map]
  refine congrArg List.flatten (List.map_congr_left fun p _ => ?_)
  rw [← unwords_args, tokens_unwords_words p.args_words]

theorem rebuildLoop_words (h : ∀ w ∈ ws, w ≠ [] ∧ ' ' ∉ w ∧ '"' ∉ w) (hne : ws ≠ []) :
    rebuildLoop (some q) (closing ws ++ rest) = (q ++ ' ' :: unwords ws) :: rebuildLoop none rest := by
  induction ws generalizing q with
  | nil => exact absurd rfl hne
  | cons w ws ih =>
    rw [List.forall_mem_cons] at h
    by_cases hws : ws = []
    · subst hws
      rw [closing, unwords_singleton]
      exact rebuildLoop_closing
    · rw [closing_cons hws, List.cons_append, rebuildLoop, not_closes h.1.2.2, unwords_cons hws]
      rw [if_neg Bool.false_ne_true, ih h.2 hws]
      simp

theorem inBounds_words (h : ∀ w ∈ ws, w ≠ [] ∧ ' ' ∉ w ∧ '"' ∉ w) (hne : ws ≠ []) :
    Quotes.InBounds t true (closing ws ++ rest) ↔ Quotes.InBounds t false rest := by
  induction ws with
  | nil => exact absurd rfl hne
  | cons w ws ih =>
    rw [List.forall_mem_cons] at h
    by_cases hws : ws = []
    · subst hws
      rw [closing, List.singleton_append, Quotes.InBounds, closes_quote]
      exact and_iff_right (by simp)
    · rw [closing_cons hws, List.cons_append, Quotes.InBounds, not_closes h.1.2.2]
      exact (and_iff_right h.1.1).trans (ih h.2 hws)

/-- The marked word that a phrase begins with. -/
theorem hasSpace_marked (h : ' ' ∉ w) : hasSpace ('"' :: w) = false := by
  simpa [hasSpace] using h

theorem rebuildLoop_args (p : Phrase) (rest : List Str) :
    rebuildLoop none (p.args ++ rest) = unwords p.words :: rebuildLoop none rest := by
  have hword := p.word
  have hne := p.nonempty
  rw [args]
  split
  · obtain ⟨w, ws, hwords⟩ := List.exists_cons_of_ne_nil hne
    rw [hwords, List.forall_mem_cons] at hword
    rw [hwords]
    by_cases hws : ws = []
    · subst hws
      rw [closing, List.modifyHead_cons, List.singleton_append,
        rebuildLoop_opening (by simpa using hword.1.2.1), if_pos (closes_quote w), unquote_quote]
      simp
    · rw [closing_cons hws, List.modifyHead_cons, List.cons_append,
        rebuildLoop_opening hword.1.2.1, not_closes hword.1.2.2, if_neg Bool.false_ne_true,
        rebuildLoop_words hword.2 hws, unwords_cons hws]
  · next hmarked =>
    obtain ⟨w, hw⟩ := List.length_eq_one_iff.mp (p.plain_word (by simpa using hmarked))
    rw [hw, List.forall_mem_cons] at hword
    rw [hw, rebuildLoop_plain, List.singleton_append, unwords_singleton]
    intro a ha hhead
    rw [List.mem_singleton.mp ha] at hhead
    exact hword.1.2.2 (List.mem_of_head? hhead)

theorem inBounds_args (p : Phrase) (rest : List Str) :
    Quotes.InBounds t false (p.args ++ rest) ↔ Quotes.InBounds t false rest := by
  have hword := p.word
  have hne := p.nonempty
  rw [args]
  split
  · obtain ⟨w, ws, hwords⟩ := List.exists_cons_of_ne_nil hne
    rw [hwords, List.forall_mem_cons] at hword
    rw [hwords]
    by_cases hws : ws = []
    · subst hws
      rw [closing, List.modifyHead_cons, List.singleton_append,
        Quotes.inBounds_opening (hasSpace_marked (by simpa using hword.1.2.1)), closes_quote]
      exact and_iff_right (by simp)
    · rw [closing_cons hws, List.modifyHead_cons, List.cons_append,
        Quotes.inBounds_opening (hasSpace_marked hword.1.2.1), not_closes hword.1.2.2]
      exact (and_iff_right hword.1.1).trans (inBounds_words hword.2 hws)
  · next hmarked =>
    obtain ⟨w, hw⟩ := List.length_eq_one_iff.mp (p.plain_word (by simpa using hmarked))
    rw [hw, List.forall_mem_cons] at hword
    have hplain : ¬ (w.head? = some '"' ∧ hasSpace w = false) := fun hopen =>
      hword.1.2.2 (List.mem_of_head? hopen.1)
    rw [hw, List.singleton_append, Quotes.inBounds_plain hplain]
    exact and_iff_right (.inr hword.1.1)

theorem rebuildLoop_text (ps : List Phrase) :
    rebuildLoop none (ps.flatMap args) = ps.map fun p => unwords p.words := by
  induction ps with
  | nil => rfl
  | cons p ps ih => rw [List.flatMap_cons, rebuildLoop_args, ih, List.map_cons]

theorem inBounds_text (ps : List Phrase) : Quotes.InBounds t false (ps.flatMap args) := by
  induction ps with
  | nil => trivial
  | cons p ps ih => exact (inBounds_args p _).mpr ih

/-- Whatever phrases follow one another, the words of each come back as one argument. -/
theorem phrases_rebuilt (t : Bool) (ps : List Phrase) (fuel turns : Nat)
    (hfuel : (text ps).length < fuel)
    (hturns : (stringtokLoop [' '] fuel (text ps)).length < turns) :
    Quotes.rebuild t turns (stringtokLoop [' '] fuel (text ps)) 0 =
      .ok (ps.map fun p => unwords p.words) := by
  rw [stringtokLoop_eq hfuel, tokens_text] at hturns ⊢
  rw [Quotes.rebuild_whole hturns, if_pos (inBounds_text ps), rebuildWithQuotes, rebuildLoop_text]

/-- A plain word and two groups next to each other, one of a single word. -/
theorem phrases_rebuilt_add : ∃ p q r : Phrase,
    text [p, q, r] = str "add \"my own name\" \"x\"" ∧
      ∀ t, Quotes.rebuild t 6 (stringtokLoop [' '] 30 (text [p, q, r])) 0 =
        .ok [str "add", str "my own name", str "x"] := by
  let p : Phrase := ⟨[str "add"], false, by decide, by decide, by decide⟩
  let q : Phrase := ⟨[str "my", str "own", str "name"], true, by decide, by decide, by decide⟩
  let r : Phrase := ⟨[str "x"], true, by decide, by decide, by decide⟩
  have htext : text [p, q, r] = str "add \"my own name\" \"x\"" := by decide
  refine ⟨p, q, r, htext, fun t => ?_⟩
  have hgo := phrases_rebuilt t [p, q, r] 30 6 (by rw [htext]; decide) (by rw [htext]; decide)
  rw [hgo]
  decide

end Phrase
end Minbif
