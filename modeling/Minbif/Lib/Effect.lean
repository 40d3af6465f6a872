import Mathlib.Order.Defs.Unbundled

/-! What a stateful computation can do to its state, thrown exceptions included. -/
namespace Effect

variable {ε σ α β : Type} {R : σ → σ → Prop} {x : EStateM ε σ α}

/-- The state a computation leaves, whether it returns or throws. -/
def final : EStateM.Result ε σ α → σ
  | .ok _ s => s
  | .error _ s => s

@[simp] theorem final_ok (a : α) (s : σ) : final (.ok a s : EStateM.Result ε σ α) = s := rfl

@[simp] theorem final_error (e : ε) (s : σ) :
    final (.error e s : EStateM.Result ε σ α) = s := rfl

def isOk : EStateM.Result ε σ α → Bool
  | .ok _ _ => true
  | .error _ _ => false

theorem eq_ok_final {r : EStateM.Result ε σ PUnit} (h : isOk r = true) : r = .ok () (final r) := by
  cases r with
  | ok a s => rfl
  | error e s => cases h

/-- Every outcome is related to the state the computation started from. -/
def Keeps (R : σ → σ → Prop) (x : EStateM ε σ α) : Prop := ∀ s, R s (final (x.run s))

@[simp] theorem run_throw (e : ε) (s : σ) :
    (throw e : EStateM ε σ α).run s = .error e s := rfl

theorem run_tryCatch (x : EStateM ε σ α) (h : ε → EStateM ε σ α) (s : σ) :
    (tryCatch x h).run s = match x.run s with
      | .ok a s => .ok a s
      | .error e s => (h e).run s := by
  change EStateM.tryCatch x h s = match x s with | .ok a s => .ok a s | .error e s => h e s
  unfold EStateM.tryCatch
  cases x s <;> rfl

/-- The relation of an invariant: it is not lost. -/
def Preserves (P : σ → Prop) (s t : σ) : Prop := P s → P t

instance (P : σ → Prop) : Std.Refl (Preserves P) := ⟨fun _ => id⟩

instance (P : σ → Prop) : IsTrans σ (Preserves P) := ⟨fun _ _ _ h₁ h₂ h => h₂ (h₁ h)⟩

theorem keeps_pure [Std.Refl R] (a : α) : Keeps R (pure a : EStateM ε σ α) :=
  fun s => Std.Refl.refl s

theorem keeps_get [Std.Refl R] : Keeps R (get : EStateM ε σ σ) := fun s => Std.Refl.refl s

theorem keeps_throw [Std.Refl R] (e : ε) : Keeps R (throw e : EStateM ε σ α) :=
  fun s => Std.Refl.refl s

theorem keeps_modify {f : σ → σ} (h : ∀ s, R s (f s)) : Keeps R (modify f : EStateM ε σ PUnit) := h

theorem keeps_bind [IsTrans σ R] {f : α → EStateM ε σ β} (hx : Keeps R x)
    (hf : ∀ a, Keeps R (f a)) : Keeps R (x >>= f) := by
  intro s
  have hs := hx s
  rw [EStateM.run_bind]
  cases hr : x.run s with
  | ok a t =>
    rw [hr] at hs
    exact IsTrans.trans _ _ _ hs (hf a t)
  | error e t => simpa [hr] using hs

theorem keeps_tryCatch [IsTrans σ R] {h : ε → EStateM ε σ α} (hx : Keeps R x)
    (hh : ∀ e, Keeps R (h e)) : Keeps R (tryCatch x h) := by
  intro s
  have hs := hx s
  rw [run_tryCatch]
  cases hr : x.run s with
  | ok a t => simpa [hr] using hs
  | error e t =>
    rw [hr] at hs
    exact IsTrans.trans _ _ _ hs (hh e t)

theorem keeps_ite {c : Prop} [Decidable c] {y : EStateM ε σ α} (hx : Keeps R x)
    (hy : Keeps R y) : Keeps R (if c then x else y) := by
  split
  · exact hx
  · exact hy

theorem keeps_forM [Std.Refl R] [IsTrans σ R] {f : β → EStateM ε σ PUnit} (l : List β)
    (h : ∀ b ∈ l, Keeps R (f b)) : Keeps R (forM l f) := by
  induction l with
  | nil => exact keeps_pure _
  | cons b l ih =>
    rw [List.forM_cons]
    exact keeps_bind (h b (by simp)) fun _ => ih fun c hc => h c (by simp [hc])

section Triples

variable {p p' : σ → Prop} {q q' : α → σ → Prop} {r : β → σ → Prop} {e e' : ε → σ → Prop}

/-- From a state with `p`, a return has `q` and an exception has `e`. -/
def Triple (p : σ → Prop) (x : EStateM ε σ α) (q : α → σ → Prop)
    (e : ε → σ → Prop) : Prop :=
  ∀ s, p s → match x.run s with
    | .ok a t => q a t
    | .error err t => e err t

/-- Whatever the outcome, it has `q`. -/
abbrev Ends (p : σ → Prop) (x : EStateM ε σ α) (q : σ → Prop) : Prop :=
  Triple p x (fun _ => q) fun _ => q

/-- The computation keeps the invariant. -/
abbrev Holds (I : σ → Prop) (x : EStateM ε σ α) : Prop := Ends I x I

theorem Triple.returns {s t : σ} {a : α} (h : Triple p x q e) (hs : p s)
    (hr : x.run s = .ok a t) : q a t := by
  have ht := h s hs
  rwa [hr] at ht

theorem Triple.conseq (h : Triple p' x q' e') (hp : ∀ s, p s → p' s)
    (hq : ∀ a s, q' a s → q a s) (he : ∀ err s, e' err s → e err s) : Triple p x q e := by
  intro s hs
  have ht := h s (hp s hs)
  cases hr : x.run s with
  | ok a t => exact hq a t (by simpa only [hr] using ht)
  | error err t => exact he err t (by simpa only [hr] using ht)

theorem Triple.pre (h : Triple p' x q e) (hp : ∀ s, p s → p' s) : Triple p x q e :=
  fun s hs => h s (hp s hs)

theorem Ends.weaken {p p' q q' : σ → Prop} (h : Ends p x q) (hp : ∀ s, p' s → p s)
    (hq : ∀ s, q s → q' s) : Ends p' x q' := h.conseq hp (fun _ => hq) fun _ => hq

theorem triple_pure {a : α} (h : ∀ s, p s → q a s) :
    Triple p (pure a : EStateM ε σ α) q e := h

theorem triple_throw {err : ε} (h : ∀ s, p s → e err s) :
    Triple p (throw err : EStateM ε σ α) q e := h

theorem triple_modify {f : σ → σ} {q : PUnit → σ → Prop} (h : ∀ s, p s → q ⟨⟩ (f s)) :
    Triple p (modify f : EStateM ε σ PUnit) q e := h

theorem triple_bind {f : α → EStateM ε σ β} (hx : Triple p x q e)
    (hf : ∀ a, Triple (q a) (f a) r e) : Triple p (x >>= f) r e := by
  intro s hs
  have ht := hx s hs
  rw [EStateM.run_bind]
  cases hr : x.run s with
  | ok a t => exact hf a t (by simpa only [hr] using ht)
  | error _ t => simpa only [hr] using ht

/-- The state that `get` returns is the present one. -/
theorem triple_get {f : σ → EStateM ε σ β}
    (h : ∀ s, p s → Triple (fun t => t = s ∧ p t) (f s) r e) : Triple p (get >>= f) r e :=
  fun s hs => h s hs s ⟨rfl, hs⟩

theorem triple_ite {c : Prop} [Decidable c] {y : EStateM ε σ α}
    (hx : c → Triple p x q e) (hy : ¬ c → Triple p y q e) :
    Triple p (if c then x else y) q e := by
  split
  · next hc => exact hx hc
  · next hc => exact hy hc

theorem triple_tryCatch {h : ε → EStateM ε σ α} (hx : Triple p x q e')
    (hh : ∀ err, Triple (e' err) (h err) q e) : Triple p (tryCatch x h) q e := by
  intro s hs
  have ht := hx s hs
  rw [run_tryCatch]
  cases hr : x.run s with
  | ok a t => simpa only [hr] using ht
  | error err t => exact hh err t (by simpa only [hr] using ht)

theorem triple_true : Triple p x (fun _ _ => True) fun _ _ => True := by
  intro s _
  cases x.run s <;> trivial

theorem triple_exists {ι : Sort*} {p : ι → σ → Prop} (h : ∀ i, Triple (p i) x q e) :
    Triple (fun s => ∃ i, p i s) x q e := fun s ⟨i, hs⟩ => h i s hs

theorem triple_forM {I : σ → Prop} {f : β → EStateM ε σ PUnit} (l : List β)
    (h : ∀ b ∈ l, Holds I (f b)) : Holds I (forM l f) := by
  induction l with
  | nil => exact triple_pure fun _ => id
  | cons b l ih =>
    rw [List.forM_cons]
    exact triple_bind (h b (by simp)) fun _ => ih fun c hc => h c (by simp [hc])

end Triples

end Effect
