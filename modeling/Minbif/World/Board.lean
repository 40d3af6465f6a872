import Minbif.Irc.Membership
import Minbif.World.Step

/-! The status channels, and the accounts that are on them. -/
namespace Minbif
open Function

namespace Chans

/-- The same channels, under the same names and with the same accounts. -/
structure SameBoard (C C' : Chans) : Prop where
  next : C'.next = C.next
  name : C'.name = C.name
  conv : C'.conv = C.conv
  accounts : C'.accounts = C.accounts
  table : C'.table = C.table

variable {N : Nicks} {C C' C'' : Chans} {n : NickRef} {c : ChanRef} {m : Option Message}

theorem SameBoard.refl (C : Chans) : SameBoard C C := ⟨rfl, rfl, rfl, rfl, rfl⟩

theorem SameBoard.trans (h : SameBoard C C') (h' : SameBoard C' C'') : SameBoard C C'' :=
  ⟨h'.next.trans h.next, h'.name.trans h.name, h'.conv.trans h.conv, h'.accounts.trans h.accounts,
    h'.table.trans h.table⟩

theorem SameBoard.foldl {α β : Type} {f : β → α → β} {g : β → Chans}
    (hf : ∀ b a, SameBoard (g b) (g (f b a))) (l : List α) (b : β) :
    SameBoard (g b) (g (l.foldl f b)) := by
  induction l generalizing b with
  | nil => exact .refl _
  | cons a l ih => exact (hf b a).trans (ih _)

theorem SameStatus.board (h : SameStatus C C') : SameBoard C C' := by
  rw [h]
  exact ⟨rfl, rfl, rfl, rfl, rfl⟩

theorem SameBut.board (h : SameBut C C') : SameBoard C C' := h.sameStatus.board

theorem join_board (N : Nicks) (C : Chans) (n : NickRef) (c : ChanRef) (status : Status) :
    SameBoard C (C.join N n c status) := by
  cases hget : C.getChanUser n c with
  | some cu => exact (join_old hget status).board
  | none =>
    have hlink : SameBoard C (C.linkNew c n status) := ⟨rfl, rfl, rfl, rfl, rfl⟩
    exact hlink.trans (join_new hget status).board

theorem delUserVirtual_board (C : Chans) (c : ChanRef) (n : NickRef) (m : Option Message) :
    SameBoard C (C.delUserVirtual c n m) := by
  rw [delUserVirtual_eq, delUser_eq]
  exact ⟨rfl, rfl, rfl, rfl, rfl⟩

theorem quit_board (N : Nicks) (C : Chans) (n : NickRef) (text : Str) :
    SameBoard C (C.quit N n text) := by
  have hone : ∀ (msg : Message) (st : Chans × List NickRef) cu,
      SameBoard st.1 (quitOne n msg st cu).1 := by
    intro msg st cu
    exact (sameBut_tell msg (st.1.members (st.1.cuChan cu)) st).board.trans
      (delUserVirtual_board _ _ _ _)
  let msg : Message := { cmd := str "QUIT", sender := N.entity n, args := [text] }
  have hall : SameBoard C ((C.channels n).foldl (quitOne n msg) (C, [])).1 :=
    SameBoard.foldl (g := Prod.fst) (hone msg) (C.channels n) (C, [])
  exact hall.trans ⟨rfl, rfl, rfl, rfl, rfl⟩

theorem deleteChan_board (N : Nicks) (C : Chans) (c : ChanRef) : SameBoard C (C.deleteChan N c) := by
  have hone : ∀ (C : Chans) cu, SameBoard C (expel N c C cu) := by
    intro C cu
    exact (sameBut_send C (C.cuNick cu) _).board.trans ⟨rfl, rfl, rfl, rfl, rfl⟩
  have hall : SameBoard C ((C.users c).foldl (expel N c) C) :=
    SameBoard.foldl (g := fun C => C) hone (C.users c) C
  exact hall.trans ⟨rfl, rfl, rfl, rfl, rfl⟩

/-- Every channel is a status channel, found under its own name. -/
def Posted (C : Chans) : Prop := ∀ k c, (k, c) ∈ C.table.entries →
  C.name c = k ∧ C.conv c = none ∧ c < C.next

theorem SameBoard.posted (h : SameBoard C C') (hC : C.Posted) : C'.Posted := by
  intro k c hmem
  rw [h.table] at hmem
  rw [h.name, h.conv, h.next]
  exact hC k c hmem

/-- The status channels are those of the accounts in `S`, and each of these accounts is on its own
once. -/
structure Attached (C : Chans) (channel : AccountRef → Str) (S : AccountRef → Prop) : Prop where
  opened : ∀ name, name.head? = some '&' →
    ((C.getChannel name).isSome = true ↔ ∃ a, S a ∧ channel a = name)
  once : ∀ name c, name.head? = some '&' → C.getChannel name = some c →
    (C.accounts c).Nodup ∧ ∀ a, a ∈ C.accounts c ↔ S a ∧ channel a = name

variable {channel channel' : AccountRef → Str} {S S' : AccountRef → Prop} {a : AccountRef} {k : Str}

theorem SameBoard.attached (h : SameBoard C C') (hC : C.Attached channel S) :
    C'.Attached channel S := by
  refine ⟨fun name hname => ?_, fun name c hname hc => ?_⟩
  · rw [getChannel, h.table]
    exact hC.opened name hname
  · rw [getChannel, h.table] at hc
    rw [h.accounts]
    exact hC.once name c hname hc

/-- Only the accounts whose channel is a status channel matter. -/
theorem Attached.congr (h : C.Attached channel S)
    (hS : ∀ a name, name.head? = some '&' → (S a ∧ channel a = name ↔ S' a ∧ channel' a = name)) :
    C.Attached channel' S' := by
  refine ⟨fun name hname => ?_, fun name c hname hc => ?_⟩
  · rw [h.opened name hname]
    exact exists_congr fun a => hS a name hname
  · obtain ⟨hnodup, hmem⟩ := h.once name c hname hc
    exact ⟨hnodup, fun a => (hmem a).trans (hS a name hname)⟩

theorem Posted.name_ne (h : C.Posted) {c' : ChanRef} {name : Str} (hc : C.getChannel k = some c)
    (hc' : C.getChannel name = some c') (hne : name ≠ k) : c' ≠ c := by
  rintro rfl
  have hk := (h _ _ (OrdMap.find?_eq_some.mp hc)).1
  have hname := (h _ _ (OrdMap.find?_eq_some.mp hc')).1
  exact hne (hname.symm.trans hk)

/-- An account leaves the accounts of its channel. -/
theorem Attached.leave (h : C.Attached channel S) (hC : C.Posted)
    (hc : C.getChannel (channel a) = some c) (hamp : (channel a).head? = some '&')
    (hne : (C.accounts c).erase a ≠ []) :
    ({ C with accounts := update C.accounts c ((C.accounts c).erase a) } : Chans).Attached channel
      fun b => S b ∧ b ≠ a := by
  obtain ⟨hnodup, hmem⟩ := h.once _ c hamp hc
  have herase : ∀ b, b ∈ (C.accounts c).erase a ↔ (S b ∧ b ≠ a) ∧ channel b = channel a := by
    intro b
    rw [hnodup.mem_erase_iff, hmem]
    tauto
  refine ⟨fun name hname => ?_, fun name c' hname hc' => ?_⟩
  · change (C.getChannel name).isSome = true ↔ _
    by_cases hk : name = channel a
    · subst hk
      obtain ⟨b, hb⟩ := List.exists_mem_of_ne_nil _ hne
      rw [hc]
      exact iff_of_true rfl ⟨b, (herase b).mp hb⟩
    · rw [h.opened name hname]
      refine exists_congr fun b => ?_
      have hba : channel b = name → b ≠ a := by
        rintro rfl rfl
        exact hk rfl
      tauto
  · change C.getChannel name = some c' at hc'
    change (update C.accounts c _ c').Nodup ∧ ∀ b, b ∈ update C.accounts c _ c' ↔ _
    by_cases hk : name = channel a
    · subst hk
      rw [hc] at hc'
      obtain rfl := Option.some.inj hc'
      rw [update_self]
      exact ⟨hnodup.erase a, herase⟩
    · rw [update_of_ne (hC.name_ne hc hc' hk)]
      obtain ⟨hnodup', hmem'⟩ := h.once name c' hname hc'
      refine ⟨hnodup', fun b => (hmem' b).trans ?_⟩
      have hba : channel b = name → b ≠ a := by
        rintro rfl rfl
        exact hk rfl
      tauto

/-- The last account leaves, and its channel is removed. -/
theorem Attached.close (h : C.Attached channel S) (hC : C.Posted)
    (hc : C.getChannel (channel a) = some c) (hamp : (channel a).head? = some '&')
    (hnil : (C.accounts c).erase a = []) (hC' : C'.table = C.table.erase (channel a))
    (haccounts : C'.accounts = update C.accounts c ((C.accounts c).erase a)) :
    C'.Attached channel fun b => S b ∧ b ≠ a := by
  obtain ⟨hnodup, hmem⟩ := h.once _ c hamp hc
  have hnone : ∀ b, ¬ ((S b ∧ b ≠ a) ∧ channel b = channel a) := by
    rintro b ⟨⟨hb, hba⟩, hchan⟩
    have : b ∈ (C.accounts c).erase a := hnodup.mem_erase_iff.mpr ⟨hba, (hmem b).mpr ⟨hb, hchan⟩⟩
    rw [hnil] at this
    cases this
  have hother : ∀ {b name}, name ≠ channel a → (S b ∧ channel b = name ↔
      (S b ∧ b ≠ a) ∧ channel b = name) := by
    intro b name hk
    have hba : channel b = name → b ≠ a := by
      rintro rfl rfl
      exact hk rfl
    tauto
  have hget : ∀ name, name ≠ channel a → C'.getChannel name = C.getChannel name := by
    intro name hk
    rw [getChannel, hC', OrdMap.find?_erase_of_ne hk]
    rfl
  have hgone : C'.getChannel (channel a) = none := by
    rw [getChannel, hC', OrdMap.find?_eq_none]
    exact fun v hv => (OrdMap.mem_erase.mp hv).2 rfl
  refine ⟨fun name hname => ?_, fun name c' hname hc' => ?_⟩
  · by_cases hk : name = channel a
    · subst hk
      rw [hgone]
      exact iff_of_false nofun fun ⟨b, hb⟩ => hnone b hb
    · rw [hget name hk, h.opened name hname]
      exact exists_congr fun b => hother hk
  · have hk : name ≠ channel a := by
      rintro rfl
      rw [hgone] at hc'
      cases hc'
    rw [hget name hk] at hc'
    rw [haccounts, update_of_ne (hC.name_ne hc hc' hk)]
    obtain ⟨hnodup', hmem'⟩ := h.once name c' hname hc'
    exact ⟨hnodup', fun b => (hmem' b).trans (hother hk)⟩

/-- An account joins the others of its channel. -/
theorem Attached.enter (h : C.Attached channel S) (hC : C.Posted) (ha : ¬ S a)
    (hc : C.getChannel (channel a) = some c) (hamp : (channel a).head? = some '&') :
    ({ C with accounts := update C.accounts c (C.accounts c ++ [a]) } : Chans).Attached channel
      fun b => S b ∨ b = a := by
  obtain ⟨hnodup, hmem⟩ := h.once _ c hamp hc
  have hnew : a ∉ C.accounts c := fun hin => ha ((hmem a).mp hin).1
  have hother : ∀ {b name}, name ≠ channel a → (S b ∧ channel b = name ↔
      (S b ∨ b = a) ∧ channel b = name) := by
    intro b name hk
    have hba : channel b = name → b ≠ a := by
      rintro rfl rfl
      exact hk rfl
    tauto
  refine ⟨fun name hname => ?_, fun name c' hname hc' => ?_⟩
  · change (C.getChannel name).isSome = true ↔ _
    by_cases hk : name = channel a
    · subst hk
      rw [hc]
      exact iff_of_true rfl ⟨a, .inr rfl, rfl⟩
    · rw [h.opened name hname]
      exact exists_congr fun b => hother hk
  · change C.getChannel name = some c' at hc'
    change (update C.accounts c _ c').Nodup ∧ ∀ b, b ∈ update C.accounts c _ c' ↔ _
    by_cases hk : name = channel a
    · subst hk
      rw [hc] at hc'
      obtain rfl := Option.some.inj hc'
      rw [update_self]
      refine ⟨List.nodup_append.mpr ⟨hnodup, List.pairwise_singleton _ a, ?_⟩, fun b => ?_⟩
      · rintro b hb _ hba rfl
        exact hnew (List.mem_singleton.mp hba ▸ hb)
      · rw [List.mem_append, hmem, List.mem_singleton]
        constructor
        · rintro (⟨hb, hchan⟩ | rfl)
          · exact ⟨.inl hb, hchan⟩
          · exact ⟨.inr rfl, rfl⟩
        · rintro ⟨hb | rfl, hchan⟩
          · exact .inl ⟨hb, hchan⟩
          · exact .inr rfl
    · rw [update_of_ne (hC.name_ne hc hc' hk)]
      obtain ⟨hnodup', hmem'⟩ := h.once name c' hname hc'
      exact ⟨hnodup', fun b => (hmem' b).trans (hother hk)⟩

/-- An account comes with a new channel. -/
theorem Attached.found (h : C.Attached channel S) (hC : C.Posted)
    (hc : C.getChannel (channel a) = none) (hamp : (channel a).head? = some '&')
    (htable : C'.table = C.table.insert (channel a) C.next)
    (haccounts : C'.accounts = update C.accounts C.next [a]) :
    C'.Attached channel fun b => S b ∨ b = a := by
  have hnone : ∀ b, S b → channel b ≠ channel a := by
    intro b hb hchan
    have hopen := (h.opened _ hamp).mpr ⟨b, hb, hchan⟩
    rw [hc] at hopen
    cases hopen
  have hother : ∀ {b name}, name ≠ channel a → (S b ∧ channel b = name ↔
      (S b ∨ b = a) ∧ channel b = name) := by
    intro b name hk
    have hba : channel b = name → b ≠ a := by
      rintro rfl rfl
      exact hk rfl
    tauto
  refine ⟨fun name hname => ?_, fun name c' hname hc' => ?_⟩
  · rw [getChannel, htable, OrdMap.find?_insert]
    split
    · next hk =>
      subst hk
      exact iff_of_true rfl ⟨a, .inr rfl, rfl⟩
    · next hk =>
      have hopen := h.opened name hname
      rw [getChannel] at hopen
      rw [hopen]
      exact exists_congr fun b => hother hk
  · rw [getChannel, htable, OrdMap.find?_insert] at hc'
    split at hc'
    · next hk =>
      subst hk
      obtain rfl := Option.some.inj hc'
      rw [haccounts, update_self]
      refine ⟨List.pairwise_singleton _ a, fun b => ?_⟩
      rw [List.mem_singleton]
      constructor
      · rintro rfl
        exact ⟨.inr rfl, rfl⟩
      · rintro ⟨hb | rfl, hchan⟩
        · exact absurd hchan (hnone b hb)
        · rfl
    · next hk =>
      have hlt := (hC _ _ (OrdMap.find?_eq_some.mp hc')).2.2
      rw [haccounts, update_of_ne (Nat.ne_of_lt hlt)]
      obtain ⟨hnodup', hmem'⟩ := h.once name c' hname hc'
      exact ⟨hnodup', fun b => (hmem' b).trans (hother hk)⟩

end Chans

namespace World

/-- Neither the channels with their accounts nor the conversations came or went. -/
structure SameBoard (w w' : World) : Prop where
  chans : w.chans.SameBoard w'.chans
  convs : w'.convs.alive = w.convs.alive
  channel : w'.data.statusChannel = w.data.statusChannel

variable {P : Purple} {w w' w'' : World} {n : NickRef} {c : ChanRef} {a : AccountRef}
  {S : AccountRef → Prop}

theorem SameBoard.refl (w : World) : SameBoard w w := ⟨.refl _, rfl, rfl⟩

theorem SameBoard.trans (h : SameBoard w w') (h' : SameBoard w' w'') : SameBoard w w'' :=
  ⟨h.chans.trans h'.chans, h'.convs.trans h.convs, h'.channel.trans h.channel⟩

theorem SameBoard.foldl {α : Type} {f : World → α → World} (hf : ∀ w a, SameBoard w (f w a))
    (l : List α) (w : World) : SameBoard w (l.foldl f w) := by
  induction l generalizing w with
  | nil => exact .refl w
  | cons a l ih => exact (hf w a).trans (ih _)

theorem join_board (w : World) (n : NickRef) (c : ChanRef) (status : Status) :
    SameBoard w (w.join n c status) := ⟨Chans.join_board .., rfl, rfl⟩

theorem quit_board (w : World) (n : NickRef) (text : Str) : SameBoard w (w.quit n text) :=
  ⟨Chans.quit_board .., rfl, rfl⟩

theorem updated_board (P : Purple) (w : World) (b : BuddyRef) : SameBoard w (w.updated P b) := by
  unfold updated
  split
  · next c n hc hn =>
    split
    · dsimp only
      split
      · exact join_board ..
      · next cu _ =>
        split
        · exact ⟨(Chans.sameStatus_setMode w.nicks w.chans c statusVoice cu).board, rfl, rfl⟩
        split
        · exact ⟨(Chans.sameStatus_delMode w.nicks w.chans c statusVoice cu).board, rfl, rfl⟩
        · exact .refl w
    split
    · exact quit_board ..
    · exact .refl w
  · exact .refl w

theorem deleteNick_board (w : World) (n : NickRef) : SameBoard w (w.deleteNick n) := by
  refine ⟨Chans.quit_board .., ?_, rfl⟩
  change ((w.convs.unpair n).putConversation n none).alive = w.convs.alive
  unfold Convs.unpair
  split
  · split <;> rfl
  · rfl

theorem removeNick_board (w : World) (nickname : Str) : SameBoard w (w.removeNick nickname) := by
  unfold removeNick
  split
  · exact .refl w
  · next n _ =>
    have hpurge : SameBoard w (w.purgeDccs n) := ⟨.refl _, rfl, rfl⟩
    exact (hpurge.trans (deleteNick_board ..)).trans ⟨.refl _, rfl, rfl⟩

theorem removeServerNicks_board (s : ServerRef) (fuel : Nat) (w : World) :
    SameBoard w (removeServerNicks s fuel w) := by
  induction fuel generalizing w with
  | zero => exact .refl w
  | succ fuel ih =>
    unfold removeServerNicks
    split
    · exact .refl w
    · next e _ =>
      have hdel := deleteNick_board w e.2
      dsimp only
      refine SameBoard.trans ?_ (ih _)
      exact ⟨hdel.chans, hdel.convs, hdel.channel⟩

theorem removeServer_board (w : World) (servername : Str) :
    SameBoard w (w.removeServer servername) := by
  unfold removeServer
  split
  · exact .refl w
  · next s _ => exact (removeServerNicks_board s _ w).trans ⟨.refl _, rfl, rfl⟩

theorem removedNode_board (w : World) (b : BuddyRef) : SameBoard w (w.removedNode b) := by
  unfold removedNode
  split
  · exact (quit_board ..).trans (removeNick_board ..)
  · exact .refl w

theorem newBuddy_board (P : Purple) (w : World) (b : BuddyRef) (s : ServerRef) :
    SameBoard w (w.newBuddy P b s) := ⟨.refl _, rfl, rfl⟩

theorem updateNode_board (P : Purple) (w : World) (b : BuddyRef) : SameBoard w (w.updateNode P b) := by
  have hfinish : ∀ (w : World) (n : NickRef),
      SameBoard w ((if w.getAlias P b = w.nicks.nickname n then w
        else w.setAlias P b (w.nicks.nickname n)).updated P b) := by
    intro w n
    split
    · exact updated_board ..
    · have hstore : SameBoard w (w.storeAlias b (w.nicks.nickname n)) := ⟨.refl _, rfl, rfl⟩
      exact (hstore.trans (updated_board ..)).trans (updated_board ..)
  unfold updateNode
  split
  · exact hfinish ..
  · split
    · exact .refl w
    · exact (newBuddy_board ..).trans (hfinish ..)

theorem part_board (hc : w.chans.conv c = none) (n : NickRef) (message : Str) :
    SameBoard w (w.part n c message) := by
  unfold part
  split
  · exact .refl w
  · next cu _ =>
    have hdrop : w.chans.SameBoard (w.chans.dropChanUser n cu) := ⟨rfl, rfl, rfl, rfl, rfl⟩
    replace hdrop := hdrop.trans (Chans.sameBut_send (w.chans.dropChanUser n cu) n
      (.msg (w.partMessage n c message))).board
    have hleft := hdrop.trans (Chans.delUserVirtual_board _ (c := c) (n := n)
      (m := some (w.partMessage n c message)))
    rw [delUser_none ((congrFun hleft.conv c).trans hc)]
    exact ⟨hleft, rfl, rfl⟩

theorem partStatusChannel_board (hc : w.chans.conv c = none) (l : List BuddyRef) :
    SameBoard w (l.foldl (partStatusChannel c) w) := by
  induction l generalizing w with
  | nil => exact .refl w
  | cons b l ih =>
    have hone : SameBoard w (w.partStatusChannel c b) := by
      unfold partStatusChannel
      split
      · exact part_board hc ..
      · exact .refl w
    exact hone.trans (ih (by rw [hone.chans.conv]; exact hc))

theorem getStatusChannel_eq (hw : w.chans.Posted) (a : AccountRef) : w.getStatusChannel a =
    if (w.data.statusChannel a).head? = some '&' then w.chans.getChannel (w.data.statusChannel a)
    else none := by
  unfold getStatusChannel
  split
  · cases hc : w.chans.getChannel (w.data.statusChannel a) with
    | none => rfl
    | some c =>
      have hconv := (hw _ _ (OrdMap.find?_eq_some.mp hc)).2.1
      simp [hconv]
  · rfl

/-- What changes the status channels leaves the rest of the board as it was. -/
structure SamePosts (w w' : World) : Prop where
  posted : w'.chans.Posted
  convs : w'.convs.alive = w.convs.alive
  channel : w'.data.statusChannel = w.data.statusChannel

theorem leaveStatusChannel_attached (hw : w.chans.Posted)
    (h : w.chans.Attached w.data.statusChannel S) (a : AccountRef) :
    SamePosts w (w.leaveStatusChannel a) ∧
      (w.leaveStatusChannel a).chans.Attached w.data.statusChannel fun b => S b ∧ b ≠ a := by
  unfold leaveStatusChannel
  rw [getStatusChannel_eq hw]
  by_cases hamp : (w.data.statusChannel a).head? = some '&'
  swap
  · rw [if_neg hamp]
    refine ⟨⟨hw, rfl, rfl⟩, h.congr fun b name hname => ?_⟩
    have hba : w.data.statusChannel b = name → b ≠ a := by
      rintro rfl rfl
      exact hamp hname
    tauto
  rw [if_pos hamp]
  cases hc : w.chans.getChannel (w.data.statusChannel a) with
  | none =>
    refine ⟨⟨hw, rfl, rfl⟩, h.congr fun b name hname => ?_⟩
    constructor
    · rintro ⟨hb, rfl⟩
      refine ⟨⟨hb, ?_⟩, rfl⟩
      rintro rfl
      have hopen := (h.opened _ hamp).mpr ⟨b, hb, rfl⟩
      rw [hc] at hopen
      cases hopen
    · exact fun hb => ⟨hb.1.1, hb.2⟩
  | some c =>
    obtain ⟨hname, hconv, hlt⟩ := hw _ _ (OrdMap.find?_eq_some.mp hc)
    dsimp only
    generalize hw₁ : w.setAccounts c ((w.chans.accounts c).erase a) = w₁
    have hpart : SameBoard w₁ ((w.data.buddies a).foldl (partStatusChannel c) w₁) := by
      refine partStatusChannel_board ?_ _
      rw [← hw₁]
      exact hconv
    have hbuddies : w₁.data.buddies a = w.data.buddies a := by rw [← hw₁]; rfl
    rw [hbuddies]
    generalize (w.data.buddies a).foldl (partStatusChannel c) w₁ = w₂ at *
    have hposted : w₂.chans.Posted := by
      refine hpart.chans.posted ?_
      rw [← hw₁]
      exact hw
    have hacc : w₂.chans.accounts = update w.chans.accounts c ((w.chans.accounts c).erase a) := by
      rw [hpart.chans.accounts, ← hw₁]
      rfl
    have htable : w₂.chans.table = w.chans.table := by rw [hpart.chans.table, ← hw₁]; rfl
    have hnames : w₂.chans.name c = w.data.statusChannel a := by
      rw [hpart.chans.name, ← hw₁]
      exact hname
    have hconvs : w₂.convs.alive = w.convs.alive := by rw [hpart.convs, ← hw₁]; rfl
    have hchannel : w₂.data.statusChannel = w.data.statusChannel := by
      rw [hpart.channel, ← hw₁]
      rfl
    have hself : w₂.chans.accounts c = (w.chans.accounts c).erase a := by rw [hacc, update_self]
    rw [hself]
    by_cases hnil : (w.chans.accounts c).erase a = []
    · rw [if_pos (by simpa using hnil), removeChannel, hnames, htable]
      rw [show w.chans.table.find? (w.data.statusChannel a) = some c from hc]
      have hconv₂ : w₂.chans.conv c = none := by rw [hpart.chans.conv, ← hw₁]; exact hconv
      dsimp only
      rw [deleteChannel, hconv₂]
      have hdel := Chans.deleteChan_board w₂.nicks w₂.chans c
      refine ⟨⟨?_, hconvs, hchannel⟩, ?_⟩
      · intro k c' hmem
        exact hdel.posted hposted k c' (OrdMap.mem_erase.mp hmem).1
      · refine h.close hw hc hamp hnil ?_ (hdel.accounts.trans hacc)
        change ((w₂.chans.deleteChan w₂.nicks c).table).erase (w.data.statusChannel a) = _
        rw [hdel.table, htable]
    · rw [if_neg (by simpa using hnil)]
      refine ⟨⟨hposted, hconvs, hchannel⟩, hpart.chans.attached ?_⟩
      rw [← hw₁]
      exact h.leave hw hc hamp hnil

/-- The status channel of an account is opened if it was not, before the account comes. -/
theorem openStatusChannel_attached (hw : w.chans.Posted)
    (h : w.chans.Attached w.data.statusChannel S) (ha : ¬ S a)
    (hamp : (w.data.statusChannel a).head? = some '&') {w₁ w₂ : World}
    (hopen : w.openStatusChannel a = (w₁, c))
    (hw₂ : w₂ = w₁.setAccounts c (w₁.chans.accounts c ++ [a])) :
    SamePosts w w₂ ∧ w₂.chans.Attached w.data.statusChannel fun b => S b ∨ b = a := by
  unfold openStatusChannel at hopen
  rw [getStatusChannel_eq hw, if_pos hamp] at hopen
  cases hc : w.chans.getChannel (w.data.statusChannel a) with
  | some c' =>
    rw [hc] at hopen
    obtain ⟨rfl, rfl⟩ := Prod.mk.inj hopen
    subst hw₂
    exact ⟨⟨hw, rfl, rfl⟩, h.enter hw ha hc hamp⟩
  | none =>
    rw [hc] at hopen
    obtain ⟨rfl, rfl⟩ := Prod.mk.inj hopen
    subst hw₂
    have hjoin := Chans.join_board w.nicks
      ((w.chans.newChan (w.data.statusChannel a) none none).addChannel w.chans.next) userRef
      w.chans.next statusOp
    have hname : update w.chans.name w.chans.next (w.data.statusChannel a) w.chans.next =
        w.data.statusChannel a := update_self ..
    have htable := hjoin.table
    have haccounts := hjoin.accounts
    refine ⟨⟨fun k c' hmem => ?_, rfl, rfl⟩, h.found hw hc hamp ?_ ?_⟩
    · change (k, c') ∈ (Chans.join ..).table.entries at hmem
      rw [htable] at hmem
      change (Chans.join ..).name c' = k ∧ (Chans.join ..).conv c' = none ∧
        c' < (Chans.join ..).next
      rw [hjoin.name, hjoin.conv, hjoin.next]
      rcases OrdMap.mem_insert.mp hmem with ⟨hk, rfl⟩ | ⟨-, hmem⟩
      · exact ⟨hk.symm, update_self .., Nat.lt_succ_self _⟩
      · obtain ⟨hk, hconv, hlt⟩ := hw k c' hmem
        have hne : c' ≠ w.chans.next := Nat.ne_of_lt hlt
        exact ⟨(update_of_ne hne ..).trans hk, (update_of_ne hne ..).trans hconv,
          Nat.lt_succ_of_lt hlt⟩
    · change (Chans.join ..).table = _
      rw [htable]
      exact congrArg (fun k => w.chans.table.insert k w.chans.next) hname
    · change update (Chans.join ..).accounts w.chans.next
        ((Chans.join ..).accounts w.chans.next ++ [a]) = _
      rw [haccounts]
      change update (update w.chans.accounts w.chans.next []) _
        (update w.chans.accounts w.chans.next [] w.chans.next ++ [a]) = _
      rw [update_self, update_idem]
      rfl

theorem createStatusChannel_attached (hw : w.chans.Posted)
    (h : w.chans.Attached w.data.statusChannel S) (ha : ¬ S a) :
    SamePosts w (w.createStatusChannel P a) ∧
      (w.createStatusChannel P a).chans.Attached w.data.statusChannel fun b => S b ∨ b = a := by
  unfold createStatusChannel
  by_cases hamp : (w.data.statusChannel a).head? = some '&'
  · rw [if_neg (not_not_intro hamp)]
    generalize hopen : w.openStatusChannel a = r
    obtain ⟨w₁, c⟩ := r
    dsimp only
    generalize hw₂ : w₁.setAccounts c (w₁.chans.accounts c ++ [a]) = w₂
    obtain ⟨hposts, hatt⟩ := openStatusChannel_attached hw h ha hamp hopen hw₂.symm
    have hboard : SameBoard w₂ ((w₂.data.buddies a).foldl (fun w b => w.updated P b) w₂) :=
      SameBoard.foldl (updated_board P) _ _
    exact ⟨⟨hboard.chans.posted hposts.posted, hboard.convs.trans hposts.convs,
      hboard.channel.trans hposts.channel⟩, hboard.chans.attached hatt⟩
  · rw [if_pos hamp]
    refine ⟨⟨hw, rfl, rfl⟩, h.congr fun b name hname => ?_⟩
    have hba : w.data.statusChannel b = name → b ≠ a := by
      rintro rfl rfl
      exact hamp hname
    tauto

theorem createStatusChannels_attached {l : List AccountRef} (hw : w.chans.Posted)
    (h : w.chans.Attached w.data.statusChannel S) (hl : l.Nodup) (hS : ∀ a ∈ l, ¬ S a) :
    SamePosts w (l.foldl (fun w a => w.createStatusChannel P a) w) ∧
      (l.foldl (fun w a => w.createStatusChannel P a) w).chans.Attached w.data.statusChannel
        fun b => S b ∨ b ∈ l := by
  induction l generalizing w S with
  | nil => exact ⟨⟨hw, rfl, rfl⟩, h.congr fun b name _ => by simp⟩
  | cons a l ih =>
    obtain ⟨hal, hl⟩ := List.nodup_cons.mp hl
    rw [List.forall_mem_cons] at hS
    obtain ⟨hone, hatt⟩ := createStatusChannel_attached (P := P) hw h hS.1
    have hS' : ∀ b ∈ l, ¬ (S b ∨ b = a) := by
      rintro b hb (hin | rfl)
      · exact hS.2 b hb hin
      · exact hal hb
    rw [← hone.channel] at hatt
    obtain ⟨hrest, hatt'⟩ := ih hone.posted hatt hl hS'
    rw [hone.channel] at hatt'
    refine ⟨⟨hrest.posted, hrest.convs.trans hone.convs, hrest.channel.trans hone.channel⟩, ?_⟩
    exact hatt'.congr fun b name _ => by rw [List.mem_cons, or_assoc]

/-- At start-up the accounts come to their channels. -/
theorem startUp_attached {l : List AccountRef} (hw : w.chans.Posted)
    (h : w.chans.Attached w.data.statusChannel fun _ => False) (hl : l.Nodup) :
    SamePosts w (w.startUp P l) ∧
      (w.startUp P l).chans.Attached w.data.statusChannel fun b => b ∈ l := by
  let w₀ : World := { w with started := true }
  obtain ⟨hposts, hatt⟩ := createStatusChannels_attached (w := w₀) (P := P) hw h hl fun _ _ => id
  refine ⟨⟨hposts.posted, hposts.convs, hposts.channel⟩, hatt.congr fun b name _ => ?_⟩
  rw [false_or]

end World
end Minbif
