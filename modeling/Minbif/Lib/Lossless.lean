import Minbif.Lib.Runs

/-! A stage that hands on what it is given, until a call disables it. -/
namespace Lossless
open Runs

variable {σ ε α : Type*} {step : σ → ε → Option σ} {usable : σ → Prop} {fine : ε → Prop}
  {deliver : σ → ε → σ} {out : σ → List α} {sent want : ε → List α} {s t : σ} {e : ε} {es : List ε}

/-- Every call that leaves a usable stage found one, was fine, and delivered. -/
def Delivers (step : σ → ε → Option σ) (usable : σ → Prop) (fine : ε → Prop)
    (deliver : σ → ε → σ) : Prop :=
  ∀ s e t, (step s e = some t ∧ usable t) ↔ usable s ∧ fine e ∧ deliver s e = t

theorem Delivers.intro
    (hfine : ∀ s e, usable s → fine e → step s e = some (deliver s e) ∧ usable (deliver s e))
    (helse : ∀ s e t, step s e = some t → usable t → usable s ∧ fine e) :
    Delivers step usable fine deliver := by
  intro s e t
  constructor
  · rintro ⟨hstep, ht⟩
    obtain ⟨hs, he⟩ := helse s e t hstep ht
    rw [(hfine s e hs he).1] at hstep
    exact ⟨hs, he, Option.some.inj hstep⟩
  · rintro ⟨hs, he, rfl⟩
    exact hfine s e hs he

/-- A stage is usable at the end of the run exactly if every call was fine. -/
theorem run_usable (h : Delivers step usable fine deliver) :
    (run step s es = some t ∧ usable t) ↔
      usable s ∧ (∀ e ∈ es, fine e) ∧ es.foldl deliver s = t := by
  induction es generalizing s with
  | nil =>
    constructor
    · rintro ⟨hr, ht⟩
      obtain rfl := Option.some.inj hr
      exact ⟨ht, nofun, rfl⟩
    · rintro ⟨hs, -, rfl⟩
      exact ⟨rfl, hs⟩
  | cons e es ih =>
    constructor
    · rintro ⟨hr, ht⟩
      obtain ⟨u, hu, hr⟩ := run_cons.mp hr
      obtain ⟨hus, hfine, hfold⟩ := ih.mp ⟨hr, ht⟩
      obtain ⟨hs, hf, rfl⟩ := (h s e u).mp ⟨hu, hus⟩
      exact ⟨hs, by simpa using ⟨hf, hfine⟩, hfold⟩
    · rintro ⟨hs, hfine, hfold⟩
      obtain ⟨hf, hfine⟩ := List.forall_mem_cons.mp hfine
      obtain ⟨hu, hus⟩ := (h s e _).mpr ⟨hs, hf, rfl⟩
      obtain ⟨hr, ht⟩ := ih.mpr ⟨hus, hfine, hfold⟩
      exact ⟨run_cons.mpr ⟨_, hu, hr⟩, ht⟩

theorem foldl_out (h : ∀ s e, out (deliver s e) = out s ++ sent e) :
    out (es.foldl deliver s) = out s ++ es.flatMap sent := by
  induction es generalizing s with
  | nil => simp
  | cons e es ih => simp [ih, h]

theorem length_flatMap_le (h : ∀ e, (sent e).length ≤ (want e).length) :
    (es.flatMap sent).length ≤ (es.flatMap want).length := by
  induction es with
  | nil => exact Nat.le_refl _
  | cons e es ih =>
    have hhead := h e
    simp only [List.flatMap_cons, List.length_append]
    omega

/-- Nothing is made up: the whole is there only if every part is. -/
theorem flatMap_eq_iff (h : ∀ e, (sent e).length ≤ (want e).length) :
    es.flatMap sent = es.flatMap want ↔ ∀ e ∈ es, sent e = want e := by
  induction es with
  | nil => simp
  | cons e es ih =>
    rw [List.flatMap_cons, List.flatMap_cons, List.forall_mem_cons]
    constructor
    · intro heq
      have hlen := congrArg List.length heq
      have hhead := h e
      have hrest : (es.flatMap sent).length ≤ (es.flatMap want).length := length_flatMap_le h
      simp only [List.length_append] at hlen
      obtain ⟨hsent, htail⟩ := List.append_inj heq (by omega)
      exact ⟨hsent, ih.mp htail⟩
    · rintro ⟨hhead, hrest⟩
      rw [hhead, ih.mpr hrest]

/-- Two outputs are complete at the end of a run exactly if every call was fine and handed on all it
was given, on either side. -/
theorem run_complete_iff {β : Type*} {back : σ → List β} {gave kept : ε → List β}
    (h : Delivers step usable fine deliver) (hs : usable s)
    (hout : ∀ s e, out (deliver s e) = out s ++ sent e) (hnone : out s = [])
    (hback : ∀ s e, back (deliver s e) = back s ++ gave e) (hnone' : back s = [])
    (hsent : ∀ e, (sent e).length ≤ (want e).length)
    (hgave : ∀ e, (gave e).length ≤ (kept e).length) :
    (∃ t, run step s es = some t ∧ usable t ∧ out t = es.flatMap want ∧
      back t = es.flatMap kept) ↔ ∀ e ∈ es, fine e ∧ sent e = want e ∧ gave e = kept e := by
  have hsplit : (∀ e ∈ es, fine e ∧ sent e = want e ∧ gave e = kept e) ↔
      (∀ e ∈ es, fine e) ∧ es.flatMap sent = es.flatMap want ∧
        es.flatMap gave = es.flatMap kept := by
    rw [flatMap_eq_iff hsent, flatMap_eq_iff hgave]
    simp only [forall_and]
  rw [hsplit]
  constructor
  · rintro ⟨t, hr, ht, hw, hk⟩
    obtain ⟨-, hfine, rfl⟩ := (run_usable h).mp ⟨hr, ht⟩
    rw [foldl_out hout, hnone] at hw
    rw [foldl_out hback, hnone'] at hk
    exact ⟨hfine, hw, hk⟩
  · rintro ⟨hfine, hw, hk⟩
    obtain ⟨hr, ht⟩ := (run_usable h).mpr ⟨hs, hfine, rfl⟩
    refine ⟨_, hr, ht, ?_, ?_⟩
    · rw [foldl_out hout, hnone]
      exact hw
    · rw [foldl_out hback, hnone']
      exact hk

end Lossless
