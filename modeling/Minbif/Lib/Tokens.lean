import Mathlib.Data.List.TakeWhile

/-! Maximal runs of a list between delimiters. -/
namespace Tokens

variable {α : Type*} {p : α → Bool} {l r : List α} {a : α}

/-- The maximal non-empty runs without delimiters, in order. -/
def tokens (p : α → Bool) (l : List α) : List (List α) :=
  (l.splitOnP p).filter fun t => !t.isEmpty

@[simp] theorem tokens_nil : tokens p ([] : List α) = [] := rfl

theorem tokens_cons_delim (h : p a = true) : tokens p (a :: l) = tokens p l := by
  simp [tokens, List.splitOnP_cons_eq_if_modifyHead, h]

/-- A delimiter cuts: no run extends over it. -/
theorem tokens_append_cons (h : p a = true) :
    tokens p (l ++ a :: r) = tokens p l ++ tokens p r := by
  simp [tokens, List.splitOnP_append_cons, h]

theorem tokens_run (h : ∀ x ∈ l, p x = false) (hl : l ≠ []) : tokens p l = [l] := by
  simp [tokens, List.splitOnP_eq_singleton h, hl]

theorem tokens_delims (h : ∀ x ∈ l, p x = true) : tokens p l = [] := by
  induction l with
  | nil => rfl
  | cons a l ih =>
    rw [tokens_cons_delim (h a (by simp))]
    exact ih fun x hx => h x (by simp [hx])

/-- Leading delimiters do not matter. -/
theorem tokens_dropWhile (l : List α) : tokens p (l.dropWhile p) = tokens p l := by
  induction l with
  | nil => rfl
  | cons a l ih =>
    cases ha : p a with
    | true => rw [List.dropWhile_cons_of_pos ha, ih, tokens_cons_delim ha]
    | false => rw [List.dropWhile_cons_of_neg (by simp [ha])]

/-- A first run, its delimiter, and the runs of what follows. -/
theorem tokens_run_cons (h : ∀ x ∈ l, p x = false) (hl : l ≠ []) (ha : p a = true) :
    tokens p (l ++ a :: r) = l :: tokens p r := by
  rw [tokens_append_cons ha, tokens_run h hl, List.singleton_append]

/-- A list that ends in a delimiter, or is empty, is read apart from what follows. -/
theorem tokens_append (h : ∀ a ∈ l.getLast?, p a = true) :
    tokens p (l ++ r) = tokens p l ++ tokens p r := by
  rcases List.eq_nil_or_concat l with rfl | ⟨i, a, rfl⟩
  · rfl
  · have ha : p a = true := h a (by simp)
    rw [List.concat_eq_append, List.append_assoc, List.singleton_append,
      tokens_append_cons ha, tokens_append_cons ha, tokens_nil, List.append_nil]

/-- What was put together with delimiters comes apart at them. -/
theorem tokens_intercalate {ts : List (List α)} (ha : p a = true)
    (h : ∀ t ∈ ts, t ≠ [] ∧ ∀ x ∈ t, p x = false) : tokens p ([a].intercalate ts) = ts := by
  induction ts with
  | nil => rfl
  | cons t ts ih =>
    obtain ⟨⟨hne, hfree⟩, hrest⟩ := List.forall_mem_cons.mp h
    cases ts with
    | nil => rw [List.intercalate_singleton, tokens_run hfree hne]
    | cons u ts =>
      rw [List.intercalate_cons_cons, List.append_assoc, List.singleton_append,
        tokens_run_cons hfree hne ha, ih hrest]

theorem tokens_eq_nil_iff : tokens p l = [] ↔ ∀ x ∈ l, p x = true := by
  refine ⟨fun h => ?_, tokens_delims⟩
  induction l with
  | nil => simp
  | cons a l ih =>
    cases ha : p a with
    | true =>
      rw [tokens_cons_delim ha] at h
      simpa [ha] using ih h
    | false =>
      simp [tokens, List.splitOnP_cons_eq_if_modifyHead, ha, List.filter_eq_nil_iff] at h
      cases hs : l.splitOnP p with
      | nil => exact (List.splitOnP_ne_nil p l hs).elim
      | cons t ts => simp [hs] at h

theorem splitOnP_chars {t : List α} (h : t ∈ l.splitOnP p) : ∀ x ∈ t, x ∈ l ∧ p x = false := by
  induction l generalizing t with
  | nil => simp_all
  | cons a l ih =>
    rw [List.splitOnP_cons_eq_if_modifyHead] at h
    intro x hx
    cases ha : p a with
    | true =>
      simp only [ha, if_true, List.mem_cons] at h
      rcases h with rfl | h
      · simp at hx
      · exact (ih h x hx).imp_left (List.mem_cons_of_mem a)
    | false =>
      simp only [ha, Bool.false_eq_true, if_false] at h
      cases hs : l.splitOnP p with
      | nil => exact (List.splitOnP_ne_nil p l hs).elim
      | cons u us =>
        simp only [hs, List.modifyHead_cons, List.mem_cons] at h
        rcases h with rfl | h
        · rcases List.mem_cons.mp hx with rfl | hx
          · exact ⟨by simp, ha⟩
          · exact (ih (t := u) (by simp [hs]) x hx).imp_left (List.mem_cons_of_mem a)
        · exact (ih (by simp [hs, h]) x hx).imp_left (List.mem_cons_of_mem a)

/-- A run is made of the list, without its delimiters. -/
theorem tokens_chars {t : List α} (h : t ∈ tokens p l) : ∀ x ∈ t, x ∈ l ∧ p x = false :=
  splitOnP_chars (List.mem_filter.mp h).1

/-- The runs hold all that is no delimiter. -/
theorem flatten_tokens (l : List α) : (tokens p l).flatten = l.filter fun x => !p x := by
  rw [tokens, List.flatten_filter_not_isEmpty]
  induction l with
  | nil => rfl
  | cons a l ih =>
    rw [List.splitOnP_cons_eq_if_modifyHead, List.filter_cons, ← ih]
    cases ha : p a with
    | true => rfl
    | false =>
      cases hs : l.splitOnP p with
      | nil => exact (List.splitOnP_ne_nil p l hs).elim
      | cons t ts => rfl

/-- Lists without delimiters are runs of their own, and only they are read back one by one. -/
theorem flatMap_tokens_eq {ts : List (List α)} (h : ∀ t ∈ ts, t ≠ []) :
    ts.flatMap (tokens p) = ts ↔ ∀ t ∈ ts, ∀ x ∈ t, p x = false := by
  constructor
  · intro heq t ht
    rw [← heq] at ht
    obtain ⟨s, -, hs⟩ := List.mem_flatMap.mp ht
    exact fun x hx => (tokens_chars hs x hx).2
  · intro hfree
    induction ts with
    | nil => rfl
    | cons t ts ih =>
      rw [List.forall_mem_cons] at h hfree
      rw [List.flatMap_cons, tokens_run hfree.1 h.1, ih h.2 hfree.2, List.singleton_append]

/-- The runs of a list cut at every delimiter, and nowhere else. -/
inductive MaximalRuns (p : α → Bool) : List α → List (List α) → Prop
  | done {l : List α} (hl : ∀ x ∈ l, p x = true) : MaximalRuns p l []
  | run {lead t rest : List α} {ts : List (List α)} (hlead : ∀ x ∈ lead, p x = true)
      (ht : t ≠ []) (hfree : ∀ x ∈ t, p x = false) (hend : ∀ a ∈ rest.head?, p a = true)
      (htail : MaximalRuns p rest ts) : MaximalRuns p (lead ++ t ++ rest) (t :: ts)

theorem tokens_lead (h : ∀ x ∈ l, p x = true) : tokens p (l ++ r) = tokens p r := by
  induction l with
  | nil => rfl
  | cons a l ih =>
    rw [List.cons_append, tokens_cons_delim (h a (by simp))]
    exact ih fun x hx => h x (by simp [hx])

theorem MaximalRuns.eq {ts : List (List α)} (h : MaximalRuns p l ts) : tokens p l = ts := by
  induction h with
  | done hl => exact tokens_delims hl
  | @run lead t rest ts hlead ht hfree hend htail ih =>
    rw [List.append_assoc, tokens_lead hlead, ← ih]
    cases rest with
    | nil => rw [List.append_nil, tokens_run hfree ht, tokens_nil]
    | cons a rest =>
      have ha : p a = true := hend a rfl
      rw [tokens_run_cons hfree ht ha, tokens_cons_delim ha]

theorem maximalRuns_tokens (l : List α) : MaximalRuns p l (tokens p l) := by
  induction hn : l.length using Nat.strong_induction_on generalizing l with
  | _ n ih =>
    subst hn
    have hsplit := List.takeWhile_append_dropWhile (p := p) (l := l)
    have hlead : ∀ x ∈ l.takeWhile p, p x = true := fun x hx => List.mem_takeWhile_imp hx
    cases hi : l.dropWhile p with
    | nil =>
      have hall := List.dropWhile_eq_nil_iff.mp hi
      rw [tokens_delims hall]
      exact .done hall
    | cons b i =>
      rw [hi] at hsplit
      have hb : p b = false := by
        have := List.head?_dropWhile_not p l
        simpa only [hi, List.head?_cons, Bool.not_eq_true'] using this
      have hcut := List.takeWhile_append_dropWhile (p := fun x => !p x) (l := b :: i)
      have hfree : ∀ x ∈ (b :: i).takeWhile (fun x => !p x), p x = false := by
        intro x hx
        simpa using List.mem_takeWhile_imp hx
      have hne : (b :: i).takeWhile (fun x => !p x) ≠ [] := by simp [hb]
      have hend : ∀ a ∈ ((b :: i).dropWhile fun x => !p x).head?, p a = true := by
        intro a ha
        have := List.head?_dropWhile_not (fun x => !p x) (b :: i)
        simpa only [Option.mem_def.mp ha, Bool.not_eq_false'] using this
      have hshort : ((b :: i).dropWhile fun x => !p x).length < l.length := by
        have h1 := congrArg List.length hcut
        have h2 := congrArg List.length hsplit
        have h3 := List.length_pos_iff.mpr hne
        simp only [List.length_append] at h1 h2
        omega
      have hrun := MaximalRuns.run hlead hne hfree hend (ih _ hshort _ rfl)
      rw [List.append_assoc, hcut, hsplit] at hrun
      rw [hrun.eq]
      exact hrun

end Tokens
