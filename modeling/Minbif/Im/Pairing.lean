import Minbif.Im.Conversation

/-! An IM conversation and its nick point at each other. -/
namespace Minbif
open Function
namespace Convs

variable {V : Convs} {n m : NickRef} {u v : ConvRef} {kind : NickKind}

/-- `ui_data` and `getConversation` agree, and only live IM conversations are paired. -/
structure Paired (V : Convs) : Prop where
  pair : ∀ v n, V.uiNick v = some n ↔ V.conversation n = some v
  im : ∀ n v, V.conversation n = some v → V.isIm v

/-- Only the ends of the pairing differ. -/
def SameIm (V V' : Convs) : Prop :=
  V' = { V with uiNick := V'.uiNick, conversation := V'.conversation, queue := V'.queue }

theorem SameIm.trans {V' V'' : Convs} (h : SameIm V V') (h' : SameIm V' V'') : SameIm V V'' := by
  unfold SameIm at *
  rw [h', h]

theorem SameIm.logs {V' : Convs} (h : SameIm V V') :
    V'.shown = V.shown ∧ V'.replies = V.replies := by
  rw [h]
  exact ⟨rfl, rfl⟩

theorem sameIm_unpair (V : Convs) (n : NickRef) : SameIm V (V.unpair n) := by
  unfold unpair SameIm
  repeat' split
  all_goals rfl

theorem sameIm_setConversation (V : Convs) (kind : NickKind) (n : NickRef) (v : Option ConvRef) :
    SameIm V (V.setConversation kind n v) := by
  unfold setConversation
  split
  · exact (sameIm_unpair V n).trans rfl
  · exact rfl

theorem sameIm_forget (V : Convs) (n : NickRef) : SameIm V (V.forget n) := by
  have h := sameIm_unpair V n
  unfold SameIm at h
  unfold forget SameIm
  rw [h]
  rfl

theorem unpair_conversation (h : m ≠ n) : (V.unpair n).conversation m = V.conversation m := by
  unfold unpair
  repeat' split
  all_goals simp [putConversation, setUiNick, h]

theorem setConversation_conversation {x : Option ConvRef} :
    (V.setConversation kind n x).conversation m = if m = n then x else V.conversation m := by
  rcases eq_or_ne m n with rfl | h
  · unfold setConversation
    split <;> simp [putConversation]
  · unfold setConversation
    split <;> simp [putConversation, h, unpair_conversation]

theorem forget_conversation :
    (V.forget n).conversation m = if m = n then none else V.conversation m := by
  rcases eq_or_ne m n with rfl | h
  · simp [forget, putConversation]
  · simp [forget, putConversation, h, unpair_conversation]

/-- Where the conversation of the nick names it back, both ends are cleared. -/
theorem unpair_uiNick (V : Convs) (n : NickRef) (v : ConvRef) : (V.unpair n).uiNick v =
    if V.conversation n = some v ∧ V.uiNick v = some n then none else V.uiNick v := by
  unfold unpair
  cases hc : V.conversation n with
  | none => simp
  | some u =>
    by_cases hu : V.uiNick u = some n
    · rcases eq_or_ne v u with rfl | hne
      · simp [hu, putConversation, setUiNick]
      · simp [hu, putConversation, setUiNick, hne, hne.symm]
    · have : ¬ (u = v ∧ V.uiNick v = some n) := by
        rintro ⟨rfl, h⟩
        exact hu h
      simp [hu, this]

theorem Paired.unpair_uiNick (h : V.Paired) (n : NickRef) (v : ConvRef) :
    (V.unpair n).uiNick v = if V.uiNick v = some n then none else V.uiNick v := by
  rw [Convs.unpair_uiNick]
  have := h.pair v n
  by_cases hu : V.uiNick v = some n <;> simp [hu, this.mp]

theorem Paired.forget (h : V.Paired) (n : NickRef) : (V.forget n).Paired := by
  refine ⟨fun v m => ?_, fun m v hm => ?_⟩
  · have hui : (V.forget n).uiNick v = if V.uiNick v = some n then none else V.uiNick v :=
      h.unpair_uiNick n v
    have hvm := h.pair v m
    have hvn := h.pair v n
    rw [hui, forget_conversation]
    by_cases hu : V.uiNick v = some n
    · rcases eq_or_ne m n with rfl | hm
      · simp [hu]
      · have : V.conversation m ≠ some v := by
          intro hc
          rw [hvm.mpr hc, Option.some.injEq] at hu
          exact hm hu
        simp [hu, hm, this]
    · rcases eq_or_ne m n with rfl | hm
      · simp [hu]
      · simp [hu, hm, hvm]
  · rw [forget_conversation] at hm
    rw [isIm, sameIm_forget V n]
    split at hm
    · cases hm
    · exact h.im m v hm

/-- `conv.setNick(NULL)` on the other side: the nick that a conversation had lets go of it. -/
def release (V : Convs) (v : ConvRef) : Convs :=
  match V.uiNick v with
  | some l => V.putConversation l none
  | none => V

theorem release_conversation : (V.release v).conversation m =
    if V.uiNick v = some m then none else V.conversation m := by
  unfold release
  cases hu : V.uiNick v with
  | none => simp
  | some l =>
    rcases eq_or_ne m l with rfl | hne
    · simp [putConversation]
    · simp [putConversation, hne, hne.symm]

theorem sameIm_release (V : Convs) (v : ConvRef) : SameIm V (V.release v) := by
  unfold release SameIm
  split <;> rfl

theorem release_uiNick : (V.release v).uiNick = V.uiNick := by
  unfold release
  split <;> rfl

/-- Both ends of a conversation that has no nick any more. -/
def unlink (V : Convs) (v : ConvRef) : Convs := (V.release v).setUiNick v none

theorem unlink_conversation : (V.unlink v).conversation m =
    if V.uiNick v = some m then none else V.conversation m := release_conversation

theorem sameIm_unlink (V : Convs) (v : ConvRef) : SameIm V (V.unlink v) :=
  (sameIm_release V v).trans rfl

theorem Paired.unlink (h : V.Paired) (v : ConvRef) : (V.unlink v).Paired := by
  refine ⟨fun u m => ?_, fun m u hm => ?_⟩
  · rw [unlink_conversation]
    have hum := h.pair u m
    have hvm := h.pair v m
    rcases eq_or_ne u v with rfl | hne
    · have : V.conversation m = some u → V.uiNick u = some m := hum.mpr
      by_cases hu : V.uiNick u = some m
      · simp [Convs.unlink, setUiNick, hu]
      · simp [Convs.unlink, setUiNick, hu, ← hum]
    · simp only [Convs.unlink, setUiNick, release_uiNick]
      rw [update_of_ne hne, hum]
      by_cases hu : V.uiNick v = some m
      · have : V.conversation m ≠ some u := by
          rw [hvm.mp hu]
          exact fun he => hne (Option.some.inj he).symm
        simp [hu, this]
      · simp [hu]
  · rw [unlink_conversation] at hm
    rw [isIm, sameIm_unlink V v]
    split at hm
    · cases hm
    · exact h.im m u hm

/-- Both ends once a conversation got the nick, whatever either had before. -/
def link (V : Convs) (kind : NickKind) (n : NickRef) (v : ConvRef) : Convs :=
  ((V.release v).setUiNick v (some n)).setConversation kind n (some v)

theorem sameIm_link (V : Convs) (kind : NickKind) (n : NickRef) (v : ConvRef) :
    SameIm V (V.link kind n v) :=
  have h : SameIm V ((V.release v).setUiNick v (some n)) := (sameIm_release V v).trans rfl
  h.trans (sameIm_setConversation _ _ _ _)

theorem link_conversation : (V.link kind n v).conversation m =
    if m = n then some v else if V.uiNick v = some m then none else V.conversation m := by
  unfold link
  rw [setConversation_conversation]
  simp only [setUiNick, release_conversation]

/-- Of the nicks only a `Buddy` may come with another conversation, which it leaves. -/
theorem Paired.link_uiNick (h : V.Paired) (hn : V.conversation n ≠ some v)
    (hk : kind = .buddy ∨ V.conversation n = none) (u : ConvRef) : (V.link kind n v).uiNick u =
      if u = v then some n else if V.uiNick u = some n then none else V.uiNick u := by
  have hnv : ¬ V.uiNick v = some n := fun hu => hn ((h.pair v n).mp hu)
  have hun := h.pair u n
  by_cases hb : kind = .buddy
  · have hdef : (V.link kind n v).uiNick u =
        (((V.release v).setUiNick v (some n)).unpair n).uiNick u := by
      simp [link, Convs.setConversation, hb, putConversation]
    rw [hdef, Convs.unpair_uiNick]
    simp only [setUiNick, release_conversation, release_uiNick, hnv, if_false]
    rcases eq_or_ne u v with rfl | hne
    · simp [hn]
    · rw [update_of_ne hne]
      by_cases hu : V.uiNick u = some n
      · simp [hne, hu, hun.mp hu]
      · simp [hne, hu]
  · have hnone := hk.resolve_left hb
    have hdef : (V.link kind n v).uiNick u = ((V.release v).setUiNick v (some n)).uiNick u := by
      simp [link, Convs.setConversation, hb, putConversation]
    have hu : V.uiNick u ≠ some n := by
      intro hu
      rw [hun.mp hu] at hnone
      cases hnone
    rw [hdef]
    simp only [setUiNick, release_uiNick]
    rcases eq_or_ne u v with rfl | hne
    · simp
    · simp [hne, hu]

theorem Paired.link (h : V.Paired) (hv : V.isIm v) (hn : V.conversation n ≠ some v)
    (hk : kind = .buddy ∨ V.conversation n = none) : (V.link kind n v).Paired := by
  refine ⟨fun u m => ?_, fun m u hm => ?_⟩
  · rw [h.link_uiNick hn hk, link_conversation]
    have hum := h.pair u m
    have hvm := h.pair v m
    have hun := h.pair u n
    rcases eq_or_ne u v with rfl | hu <;> rcases eq_or_ne m n with rfl | hm
    · simp
    · by_cases hc : V.uiNick u = some m
      · simp [hm, hm.symm, hc]
      · simp [hm, hm.symm, hc, ← hum]
    · by_cases hc : V.uiNick u = some m
      · simp [hu, hu.symm, hc]
      · simp [hu, hu.symm, hc]
    · by_cases hc : V.uiNick u = some n
      · have : V.conversation m ≠ some u := by
          intro h'
          rw [hum.mpr h', Option.some.injEq] at hc
          exact hm hc
        simp [hu, hm, hc, this]
      · by_cases hd : V.uiNick v = some m
        · have : V.uiNick u ≠ some m := by
            intro h'
            have he := (hum.mp h').symm.trans (hvm.mp hd)
            exact hu (Option.some.inj he)
          simp [hu, hm, hc, hd, this]
        · simp [hu, hm, hc, hd, hum]
  · rw [isIm, sameIm_link V kind n v]
    rw [link_conversation] at hm
    split at hm
    · exact Option.some.inj hm ▸ hv
    · split at hm
      · cases hm
      · exact h.im m u hm

theorem Paired.newConv (h : V.Paired) (hb : ∀ v, V.alive v = true → v < V.next) (chat : Bool)
    (a : AccountRef) (name : Str) : (V.newConv chat a name).Paired := by
  have hne : ∀ n v, V.conversation n = some v → v ≠ V.next := fun n v hc =>
    Nat.ne_of_lt (hb v (h.im n v hc).1)
  refine ⟨fun v n => ?_, fun n v hc => ?_⟩
  · rcases eq_or_ne v V.next with rfl | hv
    · simp only [Convs.newConv, update_self]
      exact ⟨nofun, fun hc => (hne n _ hc rfl).elim⟩
    · simp only [Convs.newConv, update_of_ne hv]
      exact h.pair v n
  · simp only [isIm, Convs.newConv, update_of_ne (hne n v hc)]
    exact h.im n v hc

/-- A conversation goes away when no nick has it any more. -/
theorem Paired.ended (h : V.Paired) (hv : V.uiNick v = none) :
    ({ V with alive := update V.alive v false }).Paired := by
  refine ⟨fun u n => h.pair u n, fun n u hc => ?_⟩
  have hne : u ≠ v := by
    rintro rfl
    rw [(h.pair u n).mpr hc] at hv
    cases hv
  simp only [isIm, update_of_ne hne]
  exact h.im n u hc

theorem Paired.logged (h : V.Paired) {l r : List (NickRef × ConvRef)} {q : NickRef → List Str} :
    ({ V with shown := l, replies := r, queue := q }).Paired := ⟨h.pair, h.im⟩

end Convs
end Minbif
