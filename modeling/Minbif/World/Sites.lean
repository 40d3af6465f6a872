import Minbif.World.Board

/-! Which account is on which status channel, whatever chats there are besides, and the topics. -/
namespace Minbif
open Function

namespace Chans

variable {N : Nicks} {C C' : Chans} {n : NickRef} {c : ChanRef}

theorem SameStatus.topic (h : SameStatus C C') : C'.topic = C.topic := by rw [h]

theorem SameBut.topic (h : SameBut C C') : C'.topic = C.topic := by rw [h]

theorem join_topic (N : Nicks) (C : Chans) (n : NickRef) (c : ChanRef) (status : Status) :
    (C.join N n c status).topic = C.topic := by
  cases hget : C.getChanUser n c with
  | some cu => exact (join_old hget status).topic
  | none => exact (join_new hget status).topic

theorem delUserVirtual_topic (C : Chans) (c : ChanRef) (n : NickRef) (m : Option Message) :
    (C.delUserVirtual c n m).topic = C.topic := by
  rw [delUserVirtual_eq, delUser_eq]

theorem foldl_topic {α β : Type} {f : β → α → β} {g : β → Chans}
    (hf : ∀ b a, (g (f b a)).topic = (g b).topic) (l : List α) (b : β) :
    (g (l.foldl f b)).topic = (g b).topic := by
  induction l generalizing b with
  | nil => rfl
  | cons a l ih => exact (ih _).trans (hf b a)

theorem quit_topic (N : Nicks) (C : Chans) (n : NickRef) (text : Str) :
    (C.quit N n text).topic = C.topic := by
  have hone : ∀ (msg : Message) (st : Chans × List NickRef) cu,
      (quitOne n msg st cu).1.topic = st.1.topic := by
    intro msg st cu
    exact (delUserVirtual_topic _ _ _ _).trans
      (sameBut_tell msg (st.1.members (st.1.cuChan cu)) st).topic
  exact foldl_topic (g := Prod.fst) (hone _) (C.channels n) (C, [])

theorem deleteChan_topic (N : Nicks) (C : Chans) (c : ChanRef) :
    (C.deleteChan N c).topic = C.topic := by
  refine foldl_topic (g := fun C => C) (fun C cu => ?_) (C.users c) C
  exact (sameBut_send C (C.cuNick cu) _).topic

end Chans

namespace World

variable {P : Purple} {w w' w'' : World} {c c' : ChanRef} {a b : AccountRef} {name : Str}

/-- The same channels, with the same accounts and topics. -/
structure SameSigns (w w' : World) : Prop where
  board : SameBoard w w'
  topic : w'.chans.topic = w.chans.topic

theorem SameSigns.refl (w : World) : SameSigns w w := ⟨.refl w, rfl⟩

theorem SameSigns.trans (h : SameSigns w w') (h' : SameSigns w' w'') : SameSigns w w'' :=
  ⟨h.board.trans h'.board, h'.topic.trans h.topic⟩

theorem SameSigns.foldl {α : Type} {f : World → α → World} (hf : ∀ w a, SameSigns w (f w a))
    (l : List α) (w : World) : SameSigns w (l.foldl f w) := by
  induction l generalizing w with
  | nil => exact .refl w
  | cons a l ih => exact (hf w a).trans (ih _)

theorem updated_signs (P : Purple) (w : World) (b : BuddyRef) : SameSigns w (w.updated P b) := by
  refine ⟨updated_board P w b, ?_⟩
  unfold updated
  split
  · next c n _ _ =>
    split
    · dsimp only
      split
      · exact Chans.join_topic ..
      · next cu _ =>
        split
        · exact (Chans.sameStatus_setMode w.nicks w.chans c statusVoice cu).topic
        split
        · exact (Chans.sameStatus_delMode w.nicks w.chans c statusVoice cu).topic
        · rfl
    split
    · exact Chans.quit_topic ..
    · rfl
  · rfl

theorem part_signs (hc : w.chans.conv c = none) (n : NickRef) (message : Str) :
    SameSigns w (w.part n c message) := by
  refine ⟨part_board hc n message, ?_⟩
  unfold part
  split
  · rfl
  · next cu _ =>
    have hsent := Chans.sameBut_send (w.chans.dropChanUser n cu) n (.msg (w.partMessage n c message))
    have hleft := Chans.delUserVirtual_board ((w.chans.dropChanUser n cu).send n
      (.msg (w.partMessage n c message))) c n (some (w.partMessage n c message))
    have hconv := congrFun (hsent.board.trans hleft).conv c
    rw [delUser_none (hconv.trans hc)]
    exact (Chans.delUserVirtual_topic _ _ _ _).trans hsent.topic

theorem partStatusChannel_signs (hc : w.chans.conv c = none) (l : List BuddyRef) :
    SameSigns w (l.foldl (partStatusChannel c) w) := by
  induction l generalizing w with
  | nil => exact .refl w
  | cons b l ih =>
    have hone : SameSigns w (w.partStatusChannel c b) := by
      unfold partStatusChannel
      split
      · exact part_signs hc ..
      · exact .refl w
    exact hone.trans (ih (by rw [hone.board.chans.conv]; exact hc))

/-- An account is on its own status channel, there once and on no other one; a topic is one line. -/
structure Sited (w : World) : Prop where
  named : ∀ k c, (k, c) ∈ w.chans.table.entries → w.chans.name c = k ∧ c < w.chans.next
  own : ∀ c, ∀ a ∈ w.chans.accounts c, w.getStatusChannel a = some c
  once : ∀ c, (w.chans.accounts c).Nodup
  line : ∀ c, '\n' ∉ w.chans.topic c

theorem getStatusChannel_congr (htable : w'.chans.table = w.chans.table)
    (hconv : w'.chans.conv = w.chans.conv) (hchannel : w'.data.statusChannel a = w.data.statusChannel a) :
    w'.getStatusChannel a = w.getStatusChannel a := by
  unfold getStatusChannel Chans.getChannel
  rw [htable, hconv, hchannel]

theorem getStatusChannel_some : w.getStatusChannel a = some c ↔
    (w.data.statusChannel a).head? = some '&' ∧
      (w.data.statusChannel a, c) ∈ w.chans.table.entries ∧ w.chans.conv c = none := by
  unfold getStatusChannel Chans.getChannel
  split
  · next hamp =>
    rw [Option.filter_eq_some_iff, OrdMap.find?_eq_some, Option.isNone_iff_eq_none]
    exact (and_iff_right hamp).symm
  · next hamp => exact iff_of_false nofun fun h => hamp h.1

theorem SameSigns.getStatusChannel (h : SameSigns w w') (a : AccountRef) :
    w'.getStatusChannel a = w.getStatusChannel a :=
  getStatusChannel_congr h.board.chans.table h.board.chans.conv (congrFun h.board.channel a)

theorem SameSigns.sited (h : SameSigns w w') (hw : w.Sited) : w'.Sited := by
  refine ⟨fun k c hmem => ?_, fun c a ha => ?_, fun c => ?_, fun c => ?_⟩
  · rw [h.board.chans.table] at hmem
    rw [h.board.chans.name, h.board.chans.next]
    exact hw.named k c hmem
  · rw [h.board.chans.accounts] at ha
    rw [h.getStatusChannel]
    exact hw.own c a ha
  · rw [h.board.chans.accounts]
    exact hw.once c
  · rw [h.topic]
    exact hw.line c

/-- The account leaves its channel, and the others and all topics stay. -/
structure LeftBy (w : World) (a : AccountRef) (w' : World) : Prop where
  sited : w'.Sited
  gone : ∀ c, a ∉ w'.chans.accounts c
  accounts : ∀ c, ∀ b ∈ w'.chans.accounts c, b ∈ w.chans.accounts c
  topic : w'.chans.topic = w.chans.topic
  channel : w'.data.statusChannel = w.data.statusChannel

theorem setAccounts_leftBy (hw : w.Sited) (hc : w.getStatusChannel a = some c) :
    LeftBy w a (w.setAccounts c ((w.chans.accounts c).erase a)) := by
  have hsub : ∀ c', ∀ b ∈ (w.setAccounts c ((w.chans.accounts c).erase a)).chans.accounts c',
      b ∈ w.chans.accounts c' := by
    intro c' b hb
    change b ∈ update w.chans.accounts c _ c' at hb
    rcases eq_or_ne c' c with rfl | hne
    · rw [update_self] at hb
      exact List.mem_of_mem_erase hb
    · rwa [update_of_ne hne] at hb
  refine ⟨⟨hw.named, fun c' b hb => ?_, fun c' => ?_, hw.line⟩, fun c' ha => ?_, hsub, rfl, rfl⟩
  · exact hw.own c' b (hsub c' b hb)
  · change (update w.chans.accounts c _ c').Nodup
    rcases eq_or_ne c' c with rfl | hne
    · rw [update_self]
      exact (hw.once c').erase a
    · rw [update_of_ne hne]
      exact hw.once c'
  · obtain rfl : c = c' := Option.some.inj (hc.symm.trans (hw.own c' a (hsub c' a ha)))
    change a ∈ update w.chans.accounts c _ c at ha
    rw [update_self] at ha
    exact (hw.once c).not_mem_erase ha

theorem LeftBy.signs (h : LeftBy w a w') (h' : SameSigns w' w'') : LeftBy w a w'' := by
  refine ⟨h'.sited h.sited, fun c => ?_, fun c => ?_, h'.topic.trans h.topic,
    h'.board.channel.trans h.channel⟩
  · rw [h'.board.chans.accounts]
    exact h.gone c
  · rw [h'.board.chans.accounts]
    exact h.accounts c

/-- A channel without accounts is removed. -/
theorem LeftBy.close (h : LeftBy w a w') (hc : w'.getStatusChannel b = some c)
    (hnil : w'.chans.accounts c = []) : LeftBy w a (w'.removeChannel (w'.chans.name c)) := by
  obtain ⟨-, hmem, hconv⟩ := getStatusChannel_some.mp hc
  obtain ⟨hname, -⟩ := h.sited.named _ _ hmem
  have hfind : w'.chans.table.find? (w'.chans.name c) = some c := by
    rw [hname]
    exact OrdMap.find?_eq_some.mpr hmem
  have hdel : w'.deleteChannel c = { w' with chans := w'.chans.deleteChan w'.nicks c } := by
    rw [deleteChannel, hconv]
    rfl
  rw [removeChannel, hfind]
  dsimp only
  rw [hdel]
  have hboard := Chans.deleteChan_board w'.nicks w'.chans c
  have htopic := Chans.deleteChan_topic w'.nicks w'.chans c
  have haccounts : ∀ c', (w'.chans.deleteChan w'.nicks c).accounts c' = w'.chans.accounts c' :=
    congrFun hboard.accounts
  refine ⟨⟨fun k c' hk => ?_, fun c' b' hb' => ?_, fun c' => ?_, fun c' => ?_⟩, fun c' => ?_,
    fun c' => ?_, htopic.trans h.topic, h.channel⟩
  · change _ ∈ ((w'.chans.deleteChan w'.nicks c).table.erase _).entries at hk
    rw [OrdMap.mem_erase, hboard.table] at hk
    change (w'.chans.deleteChan w'.nicks c).name c' = k ∧ c' < (w'.chans.deleteChan w'.nicks c).next
    rw [hboard.name, hboard.next]
    exact h.sited.named k c' hk.1
  · change b' ∈ (w'.chans.deleteChan w'.nicks c).accounts c' at hb'
    rw [haccounts] at hb'
    obtain ⟨hamp', hmem', hconv'⟩ := getStatusChannel_some.mp (h.sited.own c' b' hb')
    refine getStatusChannel_some.mpr ⟨hamp', OrdMap.mem_erase.mpr ⟨?_, fun heq => ?_⟩, ?_⟩
    · change _ ∈ (w'.chans.deleteChan w'.nicks c).table.entries
      rw [hboard.table]
      exact hmem'
    · have hcc : c' = c := by
        change w'.data.statusChannel b' = w'.chans.name c at heq
        rw [heq, hname] at hmem'
        exact OrdMap.mem_unique hmem' hmem
      rw [hcc, hnil] at hb'
      cases hb'
    · exact (congrFun hboard.conv c').trans hconv'
  · exact (congrArg List.Nodup (haccounts c')).mpr (h.sited.once c')
  · exact fun hline => h.sited.line c' ((congrFun htopic c') ▸ hline)
  · exact fun ha => h.gone c' ((haccounts c') ▸ ha)
  · exact fun b' hb' => h.accounts c' b' ((haccounts c') ▸ hb')

theorem leaveStatusChannel_leftBy (hw : w.Sited) (a : AccountRef) :
    LeftBy w a (w.leaveStatusChannel a) := by
  unfold leaveStatusChannel
  cases hc : w.getStatusChannel a with
  | none =>
    refine ⟨hw, fun c ha => ?_, fun c b hb => hb, rfl, rfl⟩
    have hown := hw.own c a ha
    rw [hc] at hown
    cases hown
  | some c =>
    dsimp only
    have hleft := setAccounts_leftBy hw hc
    have hchannel : (w.setAccounts c ((w.chans.accounts c).erase a)).getStatusChannel a = some c :=
      (getStatusChannel_congr rfl rfl rfl).trans hc
    generalize w.setAccounts c ((w.chans.accounts c).erase a) = w₁ at *
    have hpart := partStatusChannel_signs (getStatusChannel_some.mp hchannel).2.2 (w₁.data.buddies a)
    replace hleft := hleft.signs hpart
    rw [← hpart.getStatusChannel] at hchannel
    split
    · next hempty => exact hleft.close hchannel (List.isEmpty_iff.mp hempty)
    · exact hleft

/-- The channel of an account that was on none is open, and all else is as it was. -/
structure OpenedFor (w : World) (a : AccountRef) (w' : World) (c : ChanRef) : Prop where
  sited : w'.Sited
  found : w'.getStatusChannel a = some c
  accounts : ∀ c', ∀ b ∈ w'.chans.accounts c', b ∈ w.chans.accounts c'
  topic : ∀ c', ∀ b ∈ w'.chans.accounts c', w'.chans.topic c' = w.chans.topic c'
  channel : w'.data.statusChannel = w.data.statusChannel

theorem openStatusChannel_openedFor (hw : w.Sited) (hamp : (w.data.statusChannel a).head? = some '&') :
    OpenedFor w a (w.openStatusChannel a).1 (w.openStatusChannel a).2 := by
  unfold openStatusChannel
  cases hc : w.getStatusChannel a with
  | some c => exact ⟨hw, hc, fun _ _ => id, fun _ _ _ => rfl, rfl⟩
  | none =>
    dsimp only
    generalize hw₁ : { w with chans :=
      (w.chans.newChan (w.data.statusChannel a) none none).addChannel w.chans.next } = w₁
    have hjoin : SameSigns w₁ (w₁.join userRef w.chans.next statusOp) :=
      ⟨join_board .., Chans.join_topic ..⟩
    have haccounts : w₁.chans.accounts = update w.chans.accounts w.chans.next [] := by rw [← hw₁]; rfl
    have htopic : w₁.chans.topic = update w.chans.topic w.chans.next [] := by rw [← hw₁]; rfl
    have hconv : w₁.chans.conv = update w.chans.conv w.chans.next none := by rw [← hw₁]; rfl
    have hname : w₁.chans.name = update w.chans.name w.chans.next (w.data.statusChannel a) := by
      rw [← hw₁]; rfl
    have hnext : w₁.chans.next = w.chans.next + 1 := by rw [← hw₁]; rfl
    have hchannel : w₁.data.statusChannel = w.data.statusChannel := by rw [← hw₁]
    have htable : w₁.chans.table = w.chans.table.insert (w.data.statusChannel a) w.chans.next := by
      rw [← hw₁]
      change w.chans.table.insert (update w.chans.name w.chans.next _ w.chans.next) _ = _
      rw [update_self]
    have hold : ∀ c', ∀ b ∈ w₁.chans.accounts c', c' ≠ w.chans.next ∧ b ∈ w.chans.accounts c' := by
      intro c' b hb
      rw [haccounts] at hb
      rcases eq_or_ne c' w.chans.next with rfl | hne
      · rw [update_self] at hb
        cases hb
      · rw [update_of_ne hne] at hb
        exact ⟨hne, hb⟩
    have hsited : w₁.Sited := by
      refine ⟨fun k c' hk => ?_, fun c' b hb => ?_, fun c' => ?_, fun c' => ?_⟩
      · rw [htable, OrdMap.mem_insert] at hk
        rw [hname, hnext]
        rcases hk with ⟨rfl, rfl⟩ | ⟨-, hk⟩
        · exact ⟨update_self .., Nat.lt_succ_self _⟩
        · obtain ⟨hk', hlt⟩ := hw.named k c' hk
          rw [update_of_ne (Nat.ne_of_lt hlt)]
          exact ⟨hk', Nat.lt_succ_of_lt hlt⟩
      · obtain ⟨hne, hb⟩ := hold c' b hb
        have hown := hw.own c' b hb
        obtain ⟨hamp', hmem', hconv'⟩ := getStatusChannel_some.mp hown
        refine getStatusChannel_some.mpr ?_
        rw [hchannel, htable, hconv, update_of_ne hne, OrdMap.mem_insert]
        refine ⟨hamp', .inr ⟨fun heq => ?_, hmem'⟩, hconv'⟩
        rw [getStatusChannel, ← heq, if_pos hamp', Chans.getChannel,
          OrdMap.find?_eq_some.mpr hmem'] at hc
        simp [hconv'] at hc
      · rw [haccounts]
        rcases eq_or_ne c' w.chans.next with rfl | hne
        · rw [update_self]
          exact List.nodup_nil
        · rw [update_of_ne hne]
          exact hw.once c'
      · rw [htopic]
        rcases eq_or_ne c' w.chans.next with rfl | hne
        · rw [update_self]
          exact List.not_mem_nil
        · rw [update_of_ne hne]
          exact hw.line c'
    refine ⟨hjoin.sited hsited, ?_, fun c' b hb => ?_, fun c' b hb => ?_, ?_⟩
    · rw [hjoin.getStatusChannel, getStatusChannel_some, hchannel, htable, hconv,
        OrdMap.mem_insert]
      exact ⟨hamp, .inl ⟨rfl, rfl⟩, update_self ..⟩
    · rw [hjoin.board.chans.accounts] at hb
      exact (hold c' b hb).2
    · rw [hjoin.board.chans.accounts] at hb
      rw [hjoin.topic, htopic, update_of_ne (hold c' b hb).1]
    · exact hjoin.board.channel.trans hchannel

/-- The setting of an account that is on no channel. -/
theorem Sited.renamed (hw : w.Sited) (ha : ∀ c, a ∉ w.chans.accounts c) (name : Str) :
    Sited { w with data := { w.data with
      statusChannel := update w.data.statusChannel a name } } := by
  refine ⟨hw.named, fun c b hb => ?_, hw.once, hw.line⟩
  have hne : b ≠ a := by
    rintro rfl
    exact ha c hb
  refine Eq.trans ?_ (hw.own c b hb)
  exact getStatusChannel_congr (w := w) rfl rfl (update_of_ne hne ..)

/-- The account comes to its channel. -/
theorem Sited.enter (hw : w.Sited) (ha : ∀ c, a ∉ w.chans.accounts c)
    (hc : w.getStatusChannel a = some c) : (w.setAccounts c (w.chans.accounts c ++ [a])).Sited := by
  have hmem : ∀ c', ∀ b ∈ (w.setAccounts c (w.chans.accounts c ++ [a])).chans.accounts c',
      b ∈ w.chans.accounts c' ∨ c' = c ∧ b = a := by
    intro c' b hb
    change b ∈ update w.chans.accounts c _ c' at hb
    rcases eq_or_ne c' c with rfl | hne
    · rw [update_self, List.mem_append, List.mem_singleton] at hb
      exact hb.imp_right fun hb => ⟨rfl, hb⟩
    · rw [update_of_ne hne] at hb
      exact .inl hb
  refine ⟨hw.named, fun c' b hb => ?_, fun c' => ?_, hw.line⟩
  · rcases hmem c' b hb with hb | ⟨rfl, rfl⟩
    · exact hw.own c' b hb
    · exact hc
  · change (update w.chans.accounts c _ c').Nodup
    rcases eq_or_ne c' c with rfl | hne
    · rw [update_self]
      exact List.nodup_append.mpr ⟨hw.once c', List.pairwise_singleton _ a, fun b hb b' hb' heq =>
        ha c' (List.mem_singleton.mp hb' ▸ heq ▸ hb)⟩
    · rw [update_of_ne hne]
      exact hw.once c'

end World
end Minbif
