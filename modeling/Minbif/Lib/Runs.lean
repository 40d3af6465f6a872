import Mathlib.Data.Option.Basic

/-! Runs of a machine over a list of events, and what its steps make hold along them. -/
namespace Runs

variable {σ ε : Type*} {step : σ → ε → Option σ} {s t u : σ} {e : ε} {es fs : List ε}

/-- The state after the events, when each of them could happen. -/
def run (step : σ → ε → Option σ) : σ → List ε → Option σ
  | s, [] => some s
  | s, e :: es => (step s e).bind fun t => run step t es

@[simp] theorem run_nil : run step s [] = some s := rfl

theorem run_cons : run step s (e :: es) = some u ↔ ∃ t, step s e = some t ∧ run step t es = some u := by
  simp [run, Option.bind_eq_some_iff]

theorem run_append :
    run step s (es ++ fs) = some u ↔ ∃ t, run step s es = some t ∧ run step t fs = some u := by
  induction es generalizing s with
  | nil => simp
  | cons e es ih =>
    rw [List.cons_append, run_cons]
    simp only [ih, run_cons]
    constructor
    · rintro ⟨a, ha, b, hb, hf⟩
      exact ⟨b, ⟨a, ha, hb⟩, hf⟩
    · rintro ⟨b, ⟨a, ha, hb⟩, hf⟩
      exact ⟨a, ha, b, hb, hf⟩

/-- Every step of the run meets the condition in the state it starts from. -/
def Along (step : σ → ε → Option σ) (Q : σ → ε → Prop) : σ → List ε → Prop
  | _, [] => True
  | s, e :: es => Q s e ∧ ∀ t ∈ step s e, Along step Q t es

instance (Q : σ → ε → Prop) [∀ s e, Decidable (Q s e)] :
    ∀ (s : σ) (es : List ε), Decidable (Along step Q s es)
  | _, [] => inferInstanceAs (Decidable True)
  | s, e :: es =>
    have : DecidablePred fun t => Along step Q t es := fun t => instDecidableAlong Q t es
    inferInstanceAs (Decidable (Q s e ∧ ∀ t ∈ step s e, Along step Q t es))

theorem along_true (es : List ε) : Along step (fun _ _ => True) s es := by
  induction es generalizing s with
  | nil => trivial
  | cons e es ih => exact ⟨trivial, fun _ _ => ih⟩

/-- What each step keeps, together with the events so far, holds at the end of the run. -/
theorem run_keeps {I : List ε → σ → Prop} {Q : σ → ε → Prop}
    (hstep : ∀ past s e t, I past s → Q s e → step s e = some t → I (past ++ [e]) t)
    (hI : I [] s) (hq : Along step Q s es) (hrun : run step s es = some t) : I es t := by
  have hgen : ∀ past s, I past s → Along step Q s es → run step s es = some t →
      I (past ++ es) t := by
    clear hI hq hrun
    induction es with
    | nil =>
      intro past s hI _ hrun
      obtain rfl := Option.some.inj hrun
      simpa using hI
    | cons e es ih =>
      intro past s hI hq hrun
      obtain ⟨u, hu, hrun⟩ := run_cons.mp hrun
      simpa using ih (past ++ [e]) u (hstep past s e u hI hq.1 hu) (hq.2 u hu) hrun
  exact hgen [] s hI hq hrun

/-- An invariant of the steps, whatever came before. -/
theorem run_invariant {I : List ε → σ → Prop}
    (hstep : ∀ past s e t, I past s → step s e = some t → I (past ++ [e]) t)
    (hI : I [] s) (hrun : run step s es = some t) : I es t :=
  run_keeps (Q := fun _ _ => True) (fun past s e t h _ => hstep past s e t h) hI (along_true es) hrun

/-- The property holds in every state of the run. -/
def Throughout (step : σ → ε → Option σ) (P : σ → Prop) : σ → List ε → Prop
  | s, [] => P s
  | s, e :: es => P s ∧ ∀ t ∈ step s e, Throughout step P t es

theorem Throughout.head {P : σ → Prop} (h : Throughout step P s es) : P s := by
  cases es with
  | nil => exact h
  | cons e es => exact h.1

theorem Throughout.last {P : σ → Prop} (h : Throughout step P s es) (hrun : run step s es = some t) :
    P t := by
  induction es generalizing s with
  | nil =>
    obtain rfl := Option.some.inj hrun
    exact h
  | cons e es ih =>
    obtain ⟨u, hu, hrun⟩ := run_cons.mp hrun
    exact ih (h.2 u hu) hrun

/-- Where the steps keep an invariant that gives the property, a run of steps that meet the condition
has the property. -/
theorem throughout_of_along {I P : σ → Prop} {Q : σ → ε → Prop} (hI : ∀ s, I s → P s)
    (hstep : ∀ s, ∀ e ∈ es, ∀ t, I s → Q s e → step s e = some t → I t) (hs : I s)
    (hq : Along step Q s es) : Throughout step P s es := by
  induction es generalizing s with
  | nil => exact hI s hs
  | cons e es ih =>
    refine ⟨hI s hs, fun t ht => ih (fun s e he => ?_) ?_ (hq.2 t ht)⟩
    · exact hstep s e (List.mem_cons_of_mem _ he)
    · exact hstep s e List.mem_cons_self t hs hq.1 ht

/-- Where the condition is what a step needs to keep the property, a run keeps it exactly if every
step meets the condition; the steps may need an invariant that they keep together with it. -/
theorem throughout_iff_inv {I P : σ → Prop} {Q : σ → ε → Prop}
    (hstep : ∀ s e t, I s → P s → step s e = some t → (P t → I t) ∧ (P t ↔ Q s e)) (hI : I s) (hs : P s)
    (hrun : run step s es = some u) : Throughout step P s es ↔ Along step Q s es := by
  induction es generalizing s with
  | nil => exact iff_of_true hs trivial
  | cons e es ih =>
    obtain ⟨t, ht, hrun⟩ := run_cons.mp hrun
    obtain ⟨hkeep, hiff⟩ := hstep s e t hI hs ht
    have hone : ∀ v ∈ step s e, v = t := fun v hv => Option.some.inj (hv.symm.trans ht)
    constructor
    · rintro ⟨-, h⟩
      have hrest := h t ht
      refine ⟨hiff.mp hrest.head, fun v hv => ?_⟩
      rw [hone v hv]
      exact (ih (hkeep hrest.head) hrest.head hrun).mp hrest
    · rintro ⟨hq, h⟩
      refine ⟨hs, fun v hv => ?_⟩
      rw [hone v hv]
      exact (ih (hkeep (hiff.mpr hq)) (hiff.mpr hq) hrun).mpr (h t ht)

theorem throughout_iff {P : σ → Prop} {Q : σ → ε → Prop}
    (hstep : ∀ s e t, P s → step s e = some t → (P t ↔ Q s e)) (hs : P s)
    (hrun : run step s es = some u) : Throughout step P s es ↔ Along step Q s es :=
  throughout_iff_inv (I := fun _ => True) (fun s e t _ hP ht => ⟨fun _ => trivial, hstep s e t hP ht⟩) trivial
    hs
    hrun

/-- As `throughout_iff_inv`, of a run that may stop where no step is left to take. -/
theorem throughout_iff_stops {I P : σ → Prop} {Q : σ → ε → Prop}
    (hstep : ∀ s e t, I s → P s → step s e = some t → (P t → I t) ∧ (P t ↔ Q s e))
    (hstop : ∀ s e, step s e = none → Q s e) (hI : I s) (hs : P s) :
    Throughout step P s es ↔ Along step Q s es := by
  induction es generalizing s with
  | nil => exact iff_of_true hs trivial
  | cons e es ih =>
    cases ht : step s e with
    | none => simp [Throughout, Along, ht, hs, hstop s e ht]
    | some t =>
      obtain ⟨hkeep, hiff⟩ := hstep s e t hI hs ht
      simp only [Throughout, Along, ht, Option.mem_some_iff, forall_eq', hs, true_and]
      constructor
      · intro h
        exact ⟨hiff.mp h.head, (ih (hkeep h.head) h.head).mp h⟩
      · rintro ⟨hq, h⟩
        exact (ih (hkeep (hiff.mpr hq)) (hiff.mpr hq)).mpr h

section Maps

variable {τ : Type*} {step' : τ → ε → Option τ} {f : σ → τ}

/-- A machine that goes through the images of the states has the property of the images. -/
theorem throughout_map {P : τ → Prop} (hstep : ∀ s e, step' (f s) e = (step s e).map f) :
    Throughout step' P (f s) es ↔ Throughout step (fun s => P (f s)) s es := by
  induction es generalizing s with
  | nil => exact Iff.rfl
  | cons e es ih =>
    cases ht : step s e with
    | none => simp [Throughout, hstep, ht]
    | some t => simp [Throughout, hstep, ht, ih]

theorem along_map {Q : σ → ε → Prop} {Q' : τ → ε → Prop}
    (hstep : ∀ s e, step' (f s) e = (step s e).map f) (hQ : ∀ s e, Q' (f s) e ↔ Q s e) :
    Along step' Q' (f s) es ↔ Along step Q s es := by
  induction es generalizing s with
  | nil => exact Iff.rfl
  | cons e es ih =>
    cases ht : step s e with
    | none => simp [Along, hstep, ht, hQ]
    | some t => simp [Along, hstep, ht, hQ, ih]

end Maps

theorem throughout_forall {ι : Type*} {P : ι → σ → Prop} :
    Throughout step (fun s => ∀ i, P i s) s es ↔ ∀ i, Throughout step (P i) s es := by
  induction es generalizing s with
  | nil => exact Iff.rfl
  | cons e es ih =>
    simp only [Throughout, ih]
    constructor
    · rintro ⟨hs, h⟩ i
      exact ⟨hs i, fun t ht => h t ht i⟩
    · intro h
      exact ⟨fun i => (h i).1, fun t ht i => (h i).2 t ht⟩

/-- Every step of the run has the property. -/
def Stepwise (step : σ → ε → Option σ) (R : σ → ε → σ → Prop) : σ → List ε → Prop :=
  Along step fun s e => ∀ t ∈ step s e, R s e t

/-- Where the condition is what a step needs to have the property, every step of a run has it exactly
if every step meets the condition; the run may stop where no step is left to take. -/
theorem stepwise_iff_stops {I : σ → Prop} {R : σ → ε → σ → Prop} {Q : σ → ε → Prop}
    (hstep : ∀ s e t, I s → step s e = some t → (R s e t ↔ Q s e) ∧ (R s e t → I t))
    (hstop : ∀ s e, I s → step s e = none → Q s e) (hs : I s) :
    Stepwise step R s es ↔ Along step Q s es := by
  induction es generalizing s with
  | nil => exact Iff.rfl
  | cons e es ih =>
    cases ht : step s e with
    | none => simp [Stepwise, Along, ht, hstop s e hs ht]
    | some t =>
      obtain ⟨hiff, hkeep⟩ := hstep s e t hs ht
      simp only [Stepwise, Along, ht, Option.mem_some_iff, forall_eq'] at ih ⊢
      constructor
      · rintro ⟨hr, h⟩
        exact ⟨hiff.mp hr, (ih (hkeep hr)).mp h⟩
      · rintro ⟨hq, h⟩
        exact ⟨hiff.mpr hq, (ih (hkeep (hiff.mpr hq))).mpr h⟩

theorem stepwise_iff {I : σ → Prop} {R : σ → ε → σ → Prop} {Q : σ → ε → Prop}
    (hstep : ∀ s e, I s → ∃ t, step s e = some t ∧ (R s e t ↔ Q s e) ∧ (R s e t → I t))
    (hs : I s) : Stepwise step R s es ↔ Along step Q s es := by
  refine stepwise_iff_stops (fun s e t hs ht => ?_) (fun s e hs hnone => ?_) hs
  · obtain ⟨u, hu, hiff, hkeep⟩ := hstep s e hs
    obtain rfl := Option.some.inj (ht.symm.trans hu)
    exact ⟨hiff, hkeep⟩
  · obtain ⟨u, hu, -, -⟩ := hstep s e hs
    rw [hnone] at hu
    cases hu

/-- As `stepwise_iff`, where the invariant and the condition look back on the events. -/
theorem stepwise_iff_past {I : List ε → σ → Prop} {R : σ → ε → σ → Prop} {B : List ε → Prop}
    (hstep : ∀ past s e t, I past s → B past → step s e = some t →
      (R s e t ↔ B (past ++ [e])) ∧ I (past ++ [e]) t)
    (hI : I [] s) (hB : B []) (hrun : run step s es = some u) :
    Stepwise step R s es ↔ ∀ past, past <+: es → B past := by
  have hgen : ∀ past s, I past s → B past → run step s es = some u →
      (Stepwise step R s es ↔ ∀ p, p <+: es → B (past ++ p)) := by
    clear hI hB hrun
    induction es with
    | nil =>
      intro past s _ hB _
      refine iff_of_true trivial fun p hp => ?_
      rw [List.prefix_nil.mp hp, List.append_nil]
      exact hB
    | cons e es ih =>
      intro past s hI hB hrun
      obtain ⟨t, ht, hrun⟩ := run_cons.mp hrun
      obtain ⟨hiff, hI'⟩ := hstep past s e t hI hB ht
      have hone : ∀ v ∈ step s e, v = t := fun v hv => Option.some.inj (hv.symm.trans ht)
      constructor
      · rintro ⟨hr, h⟩ p hp
        have hB' := hiff.mp (hr t ht)
        rcases List.prefix_cons_iff.mp hp with rfl | ⟨q, rfl, hq⟩
        · rw [List.append_nil]
          exact hB
        · have hrest := (ih (past ++ [e]) t hI' hB' hrun).mp (h t ht) q hq
          rwa [List.append_assoc] at hrest
      · intro h
        have hB' := h [e] ⟨es, rfl⟩
        refine ⟨fun v hv => hone v hv ▸ hiff.mpr hB', fun v hv => ?_⟩
        rw [hone v hv]
        refine (ih (past ++ [e]) t hI' hB' hrun).mpr fun p hp => ?_
        rw [List.append_assoc]
        exact h (e :: p) (List.prefix_cons_iff.mpr (.inr ⟨p, rfl, hp⟩))
  exact hgen [] s hI hB hrun

/-- A machine that can always take a step goes through every list of events. -/
theorem run_total {I : σ → Prop} (hstep : ∀ s e, I s → ∃ t, step s e = some t ∧ I t) (hs : I s) :
    ∃ t, run step s es = some t ∧ I t := by
  induction es generalizing s with
  | nil => exact ⟨s, rfl, hs⟩
  | cons e es ih =>
    obtain ⟨u, hu, hI⟩ := hstep s e hs
    obtain ⟨t, ht, hI⟩ := ih hI
    exact ⟨t, run_cons.mpr ⟨u, hu, ht⟩, hI⟩

section Collecting

variable {β : Type*} {f : σ → ε → List β}

/-- What the steps of the run put out. -/
def collect (step : σ → ε → Option σ) (f : σ → ε → List β) : σ → List ε → List β
  | _, [] => []
  | s, e :: es =>
    match step s e with
    | none => []
    | some t => f s e ++ collect step f t es

theorem collect_cons (ht : step s e = some t) :
    collect step f s (e :: es) = f s e ++ collect step f t es := by
  rw [collect, ht]

end Collecting

section Folds

variable {α : Type*} {f : σ → α → Option σ} {l : List α} {a : α}

theorem foldlM_some (hf : ∀ s a, ∃ t, f s a = some t) (s : σ) (l : List α) :
    ∃ t, l.foldlM f s = some t := by
  induction l generalizing s with
  | nil => exact ⟨s, rfl⟩
  | cons a l ih =>
    obtain ⟨t, ht⟩ := hf s a
    rw [List.foldlM_cons, ht]
    exact ih t

/-- Elements that do nothing in the states of the loop. -/
theorem foldlM_idle {J : σ → Prop} (hidle : ∀ s, J s → ∀ b ∈ l, f s b = some s) (hs : J s) :
    l.foldlM f s = some s := by
  induction l with
  | nil => rfl
  | cons b l ih =>
    rw [List.foldlM_cons, hidle s hs b (by simp)]
    exact ih fun s hs b hb => hidle s hs b (by simp [hb])

/-- The one element that does something does it once. -/
theorem foldlM_only {J : σ → Prop} (hnodup : l.Nodup) (ha : a ∈ l)
    (hidle : ∀ s, J s → ∀ b ∈ l, b ≠ a → f s b = some s) (hs : J s) (hstep : f s a = some t)
    (ht : J t) : l.foldlM f s = some t := by
  obtain ⟨l₁, l₂, rfl⟩ := List.append_of_mem ha
  rw [List.nodup_append] at hnodup
  obtain ⟨-, hnodup₂, hdisj⟩ := hnodup
  have h₁ : l₁.foldlM f s = some s := by
    refine foldlM_idle (J := J) (fun s hs b hb => hidle s hs b (by simp [hb]) ?_) hs
    exact hdisj b hb a (by simp)
  have h₂ : l₂.foldlM f t = some t := by
    refine foldlM_idle (J := J) (fun s hs b hb => hidle s hs b (by simp [hb]) ?_) ht
    rintro rfl
    exact (List.nodup_cons.mp hnodup₂).1 hb
  rw [List.foldlM_append, h₁]
  change (a :: l₂).foldlM f s = some t
  rw [List.foldlM_cons, hstep]
  exact h₂

end Folds

end Runs
