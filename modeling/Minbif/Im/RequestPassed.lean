import Minbif.Im.RequestQueue

/-! What happens to a request while the others are dealt with. -/
namespace Minbif
open Runs

namespace Requests

instance (command : Str) (toThis : Bool) (answer : Str) : Decidable (Taken command toThis answer) :=
  inferInstanceAs (Decidable (_ ∧ _ ∧ _))

/-- The answer that the event gives to the form, while the form is at the head. -/
def answer (r : RequestRef) (s : Requests) : Event → List Str
  | .sent command toThis answer _ =>
    if Taken command toThis answer ∧ s.requests.head?.map (·.id) = some r then [answer] else []
  | .libpurple _ => []

/-- libpurple closes the request. -/
def Event.Closes (r : RequestRef) : Event → Prop
  | .sent _ _ _ acts => .closed r ∈ acts
  | .libpurple a => a = .closed r

variable {s t u : Requests} {x y : Request} {rest : List Request} {r : RequestRef} {a : Act}
  {acts : List Act} {e : Event}

/-- What a step does to a request that it is not about: it may be deleted, and once it is at the head
all of it is shown. -/
structure Passes (r : RequestRef) (s t : Requests) : Prop where
  deleted : s.deleted <+: t.deleted
  next : s.next ≤ t.next
  said : s.said <+: t.said
  head : ∀ y ∈ s.requests.head?, y.id = r → r ∈ t.deleted ∨ t.requests.head? = some y
  tail : ∀ y ∈ s.requests.tail, y.id = r → r ∈ t.deleted ∨ y ∈ t.requests.tail ∨
    (t.requests.head? = some y.settled ∧ ∃ l l', t.said = s.said ++ l ++ y.shows ++ l')

theorem Passes.trans (h : Passes r s t) (h' : Passes r t u) : Passes r s u where
  deleted := h.deleted.trans h'.deleted
  next := h.next.trans h'.next
  said := h.said.trans h'.said
  head y hy hid := by
    rcases h.head y hy hid with hdel | hhead
    · exact .inl (h'.deleted.subset hdel)
    · exact h'.head y hhead hid
  tail y hy hid := by
    obtain ⟨l₁, hl₁⟩ := h.said
    obtain ⟨l₂, hl₂⟩ := h'.said
    rcases h.tail y hy hid with hdel | htail | ⟨hhead, l, l', hsaid⟩
    · exact .inl (h'.deleted.subset hdel)
    · refine (h'.tail y htail hid).imp_right (Or.imp_right ?_)
      rintro ⟨hhead, l, l', hsaid⟩
      exact ⟨hhead, l₁ ++ l, l', by rw [hsaid, ← hl₁]; simp⟩
    · refine (h'.head y.settled hhead hid).imp_right fun hhead' => .inr ⟨hhead', l, l' ++ l₂, ?_⟩
      rw [← hl₂, hsaid]
      simp

theorem passes_say (s : Requests) (l : List Str) : Passes r s (s.say l) :=
  ⟨List.prefix_refl _, le_rfl, ⟨l, rfl⟩, fun _ hy _ => .inr hy, fun _ hy _ => .inr (.inl hy)⟩

theorem passes_addRequest (q : Asked) (ht : s.addRequest q = some t) : Passes r s t := by
  cases hs : s.requests with
  | nil =>
    rw [addRequest_nil hs] at ht
    obtain rfl := Option.some.inj ht
    refine ⟨List.prefix_refl _, Nat.le_succ _, ⟨_, rfl⟩, fun y hy => ?_, fun y hy => ?_⟩
    · rw [hs] at hy
      cases hy
    · rw [hs] at hy
      cases hy
  | cons x rest =>
    have hne : s.requests ≠ [] := by simp [hs]
    obtain ⟨l, heq⟩ := addRequest_cons hne q
    obtain rfl := Option.some.inj (heq.symm.trans ht)
    refine ⟨List.prefix_refl _, Nat.le_succ _, ⟨l, rfl⟩, fun y hy _ => .inr ?_,
      fun y hy _ => .inr (.inl ?_)⟩
    · rw [hs] at hy
      simpa [pushed, say, hs] using hy
    · rw [hs] at hy
      simp only [say, pushed, hs, List.cons_append, List.tail_cons] at hy ⊢
      exact List.mem_append_left _ hy

/-- The question that is shown is closed, and the next one is shown. -/
theorem passes_closed_first (h : Sound s) {k : RequestRef} {x : Request} {rest : List Request}
    (hs : s.requests = x :: rest) (hx : x.id = k) : Passes r s (s.closed k) := by
  obtain ⟨-, -, hdel, hnext⟩ := closed_same (s := s) (r := k)
  have hdeleted : s.deleted <+: (s.closed k).deleted := ⟨[k], hdel.symm⟩
  have hother := h.rest_ne hs
  have hrest : (s.dropped k).requests = rest := by
    rw [dropped]
    dsimp only
    rw [hs, List.filter_cons_of_neg (by simp [hx]), List.filter_eq_self]
    intro y hy
    simpa [hx] using hother y hy
  have hfirst : s.requests.head?.map (·.id) = some k := by simp [hs, hx]
  have hhead : ∀ y ∈ s.requests.head?, y.id = r → r ∈ (s.closed k).deleted := by
    intro y hy hid
    rw [hs] at hy
    obtain rfl := Option.some.inj hy
    rw [hdel, ← hid, hx]
    exact List.mem_append_right _ (List.mem_singleton.mpr rfl)
  cases rest with
  | nil =>
    have hclosed : s.closed k = (s.dropped k).say [str "Request closed."] := by
      rw [closed, if_pos hfirst, hrest]
    refine ⟨hdeleted, hnext.ge, ?_, fun y hy hid => .inl (hhead y hy hid), fun y hy => ?_⟩
    · rw [hclosed]
      exact ⟨_, rfl⟩
    · rw [hs] at hy
      cases hy
  | cons z rest =>
    have hclosed : s.closed k = ((s.dropped k).say [str "Request closed."]).showing z rest := by
      rw [closed, if_pos hfirst, hrest]
    refine ⟨hdeleted, hnext.ge, ?_, fun y hy hid => .inl (hhead y hy hid), fun y hy _ => ?_⟩
    · rw [hclosed]
      exact ⟨[str "Request closed."] ++ z.shows, by simp [showing, say, dropped]⟩
    · rw [hs] at hy
      rcases List.mem_cons.mp hy with rfl | hy
      · refine .inr (.inr ?_)
        rw [hclosed]
        exact ⟨rfl, [str "Request closed."], [], by simp [showing, say, dropped]⟩
      · refine .inr (.inl ?_)
        rw [hclosed]
        exact hy

/-- A question that waits is closed without a word. -/
theorem passes_closed_waiting {k : RequestRef} {x : Request} {rest : List Request}
    (hs : s.requests = x :: rest) (hx : x.id ≠ k) : Passes r s (s.closed k) := by
  obtain ⟨-, -, hdel, hnext⟩ := closed_same (s := s) (r := k)
  have hdeleted : s.deleted <+: (s.closed k).deleted := ⟨[k], hdel.symm⟩
  have hclosed : s.closed k = s.dropped k := by
    rw [closed, if_neg]
    simpa [hs] using hx
  have hrest : (s.dropped k).requests = x :: rest.filter (·.id ≠ k) := by
    rw [dropped]
    dsimp only
    rw [hs, List.filter_cons_of_pos (by simpa using hx)]
  refine ⟨hdeleted, hnext.ge, ?_, fun y hy _ => .inr ?_, fun y hy hid => ?_⟩
  · rw [hclosed]
    exact List.prefix_refl _
  · rw [hs] at hy
    rw [hclosed, hrest]
    exact hy
  · rw [hs] at hy
    by_cases hk : y.id = k
    · left
      rw [hdel, ← hid, hk]
      exact List.mem_append_right _ (List.mem_singleton.mpr rfl)
    · refine .inr (.inl ?_)
      rw [hclosed, hrest]
      exact List.mem_filter.mpr ⟨hy, by simpa using hk⟩

theorem passes_closed (h : Sound s) {k : RequestRef} (hk : k ∈ s.handles) :
    Passes r s (s.closed k) := by
  cases hs : s.requests with
  | nil => simp [h.handles, hs] at hk
  | cons x rest =>
    by_cases hx : x.id = k
    · exact passes_closed_first h hs hx
    · exact passes_closed_waiting hs hx

theorem Passes.refl (r : RequestRef) (s : Requests) : Passes r s s :=
  ⟨List.prefix_refl _, le_rfl, List.prefix_refl _, fun _ hy _ => .inr hy,
    fun _ hy _ => .inr (.inl hy)⟩

theorem passes_act (h : Sound s) (ht : s.act a = some t) : Passes r s t := by
  cases a with
  | added q => exact passes_addRequest q ht
  | closed k =>
    by_cases hk : k ∈ s.handles
    · have heq := purpleRequestClose_eq (n := s.depth) h.toQueue hk fun x hx =>
        Nat.le_of_succ_le (depth_le hx)
      obtain rfl := Option.some.inj (heq.symm.trans ht)
      exact passes_closed h hk
    · have hdepth : s.depth = (s.depth - 1) + 1 := by
        unfold depth
        omega
      rw [act, hdepth, purpleRequestClose, if_neg hk] at ht
      obtain rfl := Option.some.inj ht
      exact Passes.refl r s

theorem passes_callback (h : Sound s) (ht : callback s acts = some t) : Passes r s t := by
  induction acts generalizing s with
  | nil =>
    obtain rfl := Option.some.inj ht
    exact Passes.refl r s
  | cons a acts ih =>
    obtain ⟨u, hu, ht⟩ := Option.bind_eq_some_iff.mp ht
    obtain ⟨v, hv, hsound, -⟩ := act_spec h a
    obtain rfl := Option.some.inj (hu.symm.trans hv)
    exact (passes_act h hu).trans (ih hsound ht)

/-- What is processed for another request. -/
theorem passes_processed (p : List (RequestRef × Str)) :
    Passes r s { s with processed := p } :=
  ⟨List.prefix_refl _, le_rfl, List.prefix_refl _, fun _ hy _ => .inr hy,
    fun _ hy _ => .inr (.inl hy)⟩

/-- A step that gives no answer to the request. -/
theorem passes_step (h : Sound s) (hother : s.answer r e = []) (ht : step s e = some t) :
    Passes r s t := by
  cases e with
  | libpurple a => exact passes_act h ht
  | sent command toThis text acts =>
    by_cases htaken : Taken command toThis text
    · cases hs : s.requests with
      | nil =>
        obtain ⟨hcommand, hthis, hctcp⟩ := id htaken
        have hidle : s.send command toThis text acts = some (s.say [str "No active question"]) := by
          rw [send, if_neg (by simp [hcommand, hthis]), if_neg hctcp, hs]
          rfl
        obtain rfl := Option.some.inj (hidle.symm.trans ht)
        exact passes_say s _
      | cons x rest =>
        have hne : x.id ≠ r := by
          intro hid
          simp [answer, htaken, hs, hid] at hother
        cases hx : x.accepts text with
        | false =>
          obtain rfl := Option.some.inj ((send_rejected_eq h htaken hs hx).symm.trans ht)
          exact passes_say s _
        | true =>
          by_cases hsub : x.subrequests = []
          · obtain ⟨u, hu, hsound, hsend⟩ : ∃ u, callback _ acts = some u ∧ Sound u ∧ _ :=
              send_last_eq h htaken hs hx hsub
            have hbefore : Passes r s u :=
              (passes_processed _).trans (passes_callback (h.processed _) hu)
            rcases hsend with ⟨-, -, hsend⟩ | ⟨-, hhead, hsend⟩
            · obtain rfl := Option.some.inj (hsend.symm.trans ht)
              exact hbefore.trans ⟨List.prefix_refl _, le_rfl, List.prefix_refl _,
                fun _ hy _ => .inr hy, fun _ hy _ => .inr (.inl hy)⟩
            · obtain ⟨rest', hs'⟩ := List.head?_eq_some_iff.mp hhead
              have hmem : x.id ∈ u.handles := by simp [hsound.handles, hs']
              obtain rfl := Option.some.inj (hsend.symm.trans ht)
              exact hbefore.trans (passes_closed hsound hmem)
          · obtain rfl := Option.some.inj ((send_next_eq h htaken hs hx hsub).symm.trans ht)
            refine ⟨List.prefix_refl _, le_rfl, ⟨_, rfl⟩, fun y hy hid => ?_, fun y hy _ => ?_⟩
            · rw [hs] at hy
              obtain rfl := Option.some.inj hy
              exact absurd hid hne
            · rw [hs] at hy
              exact .inr (.inl hy)
    · obtain rfl := Option.some.inj ((send_untaken htaken).symm.trans ht)
      exact Passes.refl r s

theorem answer_cases (hanswer : s.answer r e ≠ []) : ∃ command toThis text acts x rest,
    e = .sent command toThis text acts ∧ Taken command toThis text ∧ s.requests = x :: rest ∧
      x.id = r ∧ s.answer r e = [text] := by
  cases e with
  | libpurple a => exact absurd rfl hanswer
  | sent command toThis text acts =>
    rw [answer] at hanswer
    split at hanswer
    · next hcond =>
      obtain ⟨htaken, hhead⟩ := hcond
      cases hs : s.requests with
      | nil => simp [hs] at hhead
      | cons x rest =>
        have hid : x.id = r := by simpa [hs] using hhead
        exact ⟨command, toThis, text, acts, x, rest, rfl, htaken, rfl, hid, by
          rw [answer, if_pos ⟨htaken, hs ▸ hhead⟩]⟩
    · exact absurd rfl hanswer

theorem deleted_act (h : Sound s) (ht : s.act a = some t) (hr : r ∈ t.deleted) :
    r ∈ s.deleted ∨ a = .closed r := by
  cases a with
  | added q =>
    left
    cases hs : s.requests with
    | nil =>
      rw [act, addRequest_nil hs] at ht
      obtain rfl := Option.some.inj ht
      exact hr
    | cons x rest =>
      have hne : s.requests ≠ [] := by simp [hs]
      obtain ⟨l, heq⟩ := addRequest_cons hne q
      obtain rfl := Option.some.inj (heq.symm.trans ht)
      exact hr
  | closed k =>
    by_cases hk : k ∈ s.handles
    · have heq := purpleRequestClose_eq (n := s.depth) h.toQueue hk fun x hx =>
        Nat.le_of_succ_le (depth_le hx)
      obtain rfl := Option.some.inj (heq.symm.trans ht)
      obtain ⟨-, -, hdel, -⟩ := closed_same (s := s) (r := k)
      rw [hdel] at hr
      rcases List.mem_append.mp hr with hr | hr
      · exact .inl hr
      · obtain rfl := List.mem_singleton.mp hr
        exact .inr rfl
    · have hdepth : s.depth = (s.depth - 1) + 1 := by
        unfold depth
        omega
      rw [act, hdepth, purpleRequestClose, if_neg hk] at ht
      obtain rfl := Option.some.inj ht
      exact .inl hr

theorem deleted_callback (h : Sound s) (ht : callback s acts = some t) (hr : r ∈ t.deleted) :
    r ∈ s.deleted ∨ .closed r ∈ acts := by
  induction acts generalizing s with
  | nil =>
    obtain rfl := Option.some.inj ht
    exact .inl hr
  | cons a acts ih =>
    obtain ⟨u, hu, ht⟩ := Option.bind_eq_some_iff.mp ht
    obtain ⟨v, hv, hsound, -⟩ := act_spec h a
    obtain rfl := Option.some.inj (hu.symm.trans hv)
    rcases ih hsound ht with hr | hr
    · rcases deleted_act h hu hr with hr | rfl
      · exact .inl hr
      · exact .inr List.mem_cons_self
    · exact .inr (List.mem_cons_of_mem _ hr)

/-- The request that the last answer is given to is gone, and no other one that is not closed. -/
theorem deleted_last (h : Sound s) {command text : Str} {toThis : Bool}
    (htaken : Taken command toThis text) (hs : s.requests = x :: rest)
    (hx : x.accepts text = true) (hsub : x.subrequests = [])
    (ht : s.send command toThis text acts = some t) :
    x.id ∈ t.deleted ∧ ∀ r ∈ t.deleted, r = x.id ∨ r ∈ s.deleted ∨ .closed r ∈ acts := by
  obtain ⟨u, hu, hsound, hsend⟩ : ∃ u, callback _ acts = some u ∧ Sound u ∧ _ :=
    send_last_eq h htaken hs hx hsub
  have hbefore : ∀ r ∈ u.deleted, r ∈ s.deleted ∨ .closed r ∈ acts := by
    intro r hr
    have hcases := deleted_callback (h.processed (s.processed ++ [(x.id, text)])) hu hr
    exact hcases
  rcases hsend with ⟨-, hdel, hsend⟩ | ⟨-, -, hsend⟩
  · obtain rfl := Option.some.inj (hsend.symm.trans ht)
    exact ⟨hdel, fun r hr => .inr (hbefore r hr)⟩
  · obtain rfl := Option.some.inj (hsend.symm.trans ht)
    obtain ⟨-, -, hdel, -⟩ := closed_same (s := u) (r := x.id)
    rw [hdel]
    refine ⟨by simp, fun r hr => ?_⟩
    rcases List.mem_append.mp hr with hr | hr
    · exact .inr (hbefore r hr)
    · exact .inl (List.mem_singleton.mp hr)

theorem sound_run {before : List Event} (hrun : run step {} before = some s) : Sound s :=
  run_invariant (I := fun _ => Sound) (fun _ s e t h ht => by
    obtain ⟨v, hv, hout⟩ := step_spec h e
    obtain rfl := Option.some.inj (ht.symm.trans hv)
    exact hout.sound) sound_init hrun

end Requests
end Minbif
