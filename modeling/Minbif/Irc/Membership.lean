import Minbif.Irc.Channel

/-! Both ends of a membership: `Nick::channels` and `Channel::users`. -/
namespace Minbif
open Function
namespace Chans

variable {N : Nicks} {C C' C'' : Chans} {n : NickRef} {c : ChanRef} {cu cu' : ChanUserRef}
  {s : Sent} {l : List NickRef} {S S' : ChanUserRef → Bool} {m : Option Message}

theorem send_eq (C : Chans) (n : NickRef) (s : Sent) :
    C.send n s = { C with sent := if n = userRef then C.sent ++ [s] else C.sent } := by
  unfold send
  split <;> rfl

/-- The User gets one copy for each of its entries in the list. -/
theorem sendAll_eq (C : Chans) (l : List NickRef) (s : Sent) :
    C.sendAll l s = { C with sent := C.sent ++ List.replicate (l.count userRef) s } := by
  induction l generalizing C with
  | nil => simp [sendAll]
  | cons n l ih =>
    have hfold : C.sendAll (n :: l) s = (C.send n s).sendAll l s := rfl
    rw [hfold, ih, send_eq]
    by_cases hn : n = userRef
    · simp [hn, List.replicate_succ]
    · simp [hn]

theorem broadcast_eq (C : Chans) (c : ChanRef) (m : Message) : C.broadcast c m =
    { C with sent := C.sent ++ List.replicate ((C.members c).count userRef) (.msg m) } :=
  sendAll_eq _ _ _

/-- Only the log of the User differs. -/
def SameBut (C C' : Chans) : Prop := C' = { C with sent := C'.sent }

theorem sameBut_send (C : Chans) (n : NickRef) (s : Sent) : SameBut C (C.send n s) := by
  rw [SameBut, send_eq]

theorem SameBut.trans (h : SameBut C C') (h' : SameBut C' C'') : SameBut C C'' := by
  unfold SameBut at *
  rw [h', h]

theorem SameBut.refl (C : Chans) : SameBut C C := rfl

theorem sameBut_foldl {α : Type} {f : Chans → α → Chans} (hf : ∀ C a, SameBut C (f C a))
    (l : List α) (C : Chans) : SameBut C (l.foldl f C) := by
  induction l generalizing C with
  | nil => exact .refl C
  | cons a l ih => exact (hf C a).trans (ih _)

theorem sameBut_sendNames (N : Nicks) (C : Chans) (c : ChanRef) (n : NickRef) :
    SameBut C (C.sendNames N c n) :=
  (sameBut_send _ _ _).trans (sameBut_send _ _ _)

theorem sameBut_announce (N : Nicks) (C : Chans) (c : ChanRef) (n : NickRef) (status : Status)
    (cu : ChanUserRef) (peer : NickRef) : SameBut C (C.announce N c n status cu peer) := by
  unfold announce
  dsimp only
  split
  · exact (sameBut_send _ _ _).trans (sameBut_send _ _ _)
  · exact sameBut_send _ _ _

theorem sameBut_addUser (N : Nicks) (C : Chans) (c : ChanRef) (n : NickRef) (status : Status) :
    SameBut (C.newChanUser c n status) (C.addUser N c n status) := by
  have hall := sameBut_foldl (fun C' peer => sameBut_announce N C' c n status C.nextCu peer)
    ((C.newChanUser c n status).members c) (C.newChanUser c n status)
  refine hall.trans (SameBut.trans ?_ (sameBut_sendNames N _ c n))
  split
  · exact .refl _
  · exact sameBut_send _ _ _

/-- Who is on which channel, from both sides. -/
structure Member (C : Chans) : Prop where
  fwd : ∀ n, ∀ cu ∈ C.channels n, C.cuNick cu = n ∧ cu ∈ C.users (C.cuChan cu)
  bwd : ∀ c, ∀ cu ∈ C.users c, C.cuChan cu = c ∧ cu ∈ C.channels (C.cuNick cu)
  one : ∀ n, ∀ cu ∈ C.channels n, ∀ cu' ∈ C.channels n, C.cuChan cu = C.cuChan cu' → cu = cu'
  nodupChannels : ∀ n, (C.channels n).Nodup
  nodupUsers : ∀ c, (C.users c).Nodup
  live : ∀ n, ∀ cu ∈ C.channels n, C.cuAlive cu = true
  bound : ∀ cu, C.cuAlive cu = true → cu < C.nextCu

/-- The members of `S` left, on both sides, and nothing else changed. -/
structure Unlinked (C C' : Chans) (S : ChanUserRef → Bool) : Prop where
  channels : ∀ n, C'.channels n = (C.channels n).filter fun cu => !S cu
  users : ∀ c, C'.users c = (C.users c).filter fun cu => !S cu
  cuNick : C'.cuNick = C.cuNick
  cuChan : C'.cuChan = C.cuChan
  cuStatus : C'.cuStatus = C.cuStatus
  cuAlive : ∀ cu, C'.cuAlive cu = (C.cuAlive cu && !S cu)
  nextCu : C'.nextCu = C.nextCu
  name : C'.name = C.name
  conv : C'.conv = C.conv
  table : C'.table = C.table
  next : C'.next = C.next
  upserver : C'.upserver = C.upserver

theorem Unlinked.member (h : Unlinked C C' S) (hC : Member C) : Member C' where
  fwd n cu hcu := by
    rw [h.channels, List.mem_filter] at hcu
    rw [h.cuNick, h.cuChan, h.users, List.mem_filter]
    exact ⟨(hC.fwd n cu hcu.1).1, (hC.fwd n cu hcu.1).2, hcu.2⟩
  bwd c cu hcu := by
    rw [h.users, List.mem_filter] at hcu
    rw [h.cuNick, h.cuChan, h.channels, List.mem_filter]
    exact ⟨(hC.bwd c cu hcu.1).1, (hC.bwd c cu hcu.1).2, hcu.2⟩
  one n cu hcu cu' hcu' hc := by
    rw [h.channels, List.mem_filter] at hcu hcu'
    rw [h.cuChan] at hc
    exact hC.one n cu hcu.1 cu' hcu'.1 hc
  nodupChannels n := h.channels n ▸ (hC.nodupChannels n).filter _
  nodupUsers c := h.users c ▸ (hC.nodupUsers c).filter _
  live n cu hcu := by
    rw [h.channels, List.mem_filter] at hcu
    rw [h.cuAlive, hC.live n cu hcu.1, hcu.2]
    rfl
  bound cu hcu := by
    rw [h.cuAlive, Bool.and_eq_true] at hcu
    exact h.nextCu ▸ hC.bound cu hcu.1

/-- The copies of a message that `delUser` sends to the User. -/
def delSent (C : Chans) (c : ChanRef) (n : NickRef) : Option Message → List Sent
  | none => []
  | some m => List.replicate
      ((((C.users c).filter fun cu => C.cuNick cu ≠ n).map C.cuNick).count userRef) (.msg m)

theorem delUser_eq (C : Chans) (c : ChanRef) (n : NickRef) (m : Option Message) :
    C.delUser c n m = { C with
      sent := C.sent ++ C.delSent c n m
      users := update C.users c ((C.users c).filter fun cu => C.cuNick cu ≠ n)
      cuAlive := fun cu => C.cuAlive cu && !((C.users c).contains cu && C.cuNick cu == n) } := by
  cases m with
  | none => simp [delUser, delSent]
  | some m => simp only [delUser, delSent, sendAll_eq]

/-- `cbuddies` after the virtual `delUser`. -/
def cbuddiesWithout (C : Chans) (c : ChanRef) (n : NickRef) :
    ChanRef → OrdMap CBuddyRef ChanUserRef :=
  if (C.conv c).isSome then update C.cbuddies c (C.withoutNick c n) else C.cbuddies

theorem delUserVirtual_eq (C : Chans) (c : ChanRef) (n : NickRef) (m : Option Message) :
    C.delUserVirtual c n m = { C.delUser c n m with cbuddies := C.cbuddiesWithout c n } := by
  unfold delUserVirtual cbuddiesWithout
  split
  · rw [eraseCBuddy, delUser_eq, delUser_eq]
    rfl
  · rw [delUser_eq]

theorem Member.users_nick (hC : Member C) (hcu : cu ∈ C.users c) (hcu' : cu' ∈ C.users c) :
    C.cuNick cu' = C.cuNick cu ↔ cu' = cu := by
  refine ⟨fun h => ?_, fun h => h ▸ rfl⟩
  obtain ⟨hc, hn⟩ := hC.bwd c cu hcu
  obtain ⟨hc', hn'⟩ := hC.bwd c cu' hcu'
  exact hC.one _ cu' (h ▸ hn') cu hn (hc'.trans hc.symm)

/-- A nick has one `ChanUser` on a channel, so dropping the nick drops only that one. -/
theorem Member.filter_nick (hC : Member C) (hcu : cu ∈ C.users c) :
    ((C.users c).filter fun cu' => C.cuNick cu' ≠ C.cuNick cu) =
      (C.users c).filter fun cu' => !(cu' == cu) := by
  apply List.filter_congr
  intro cu' hcu'
  have := hC.users_nick hcu hcu'
  by_cases h : cu' = cu <;> simp_all

theorem Member.filter_other (hC : Member C) (hcu : cu ∈ C.users c) {c' : ChanRef} (hne : c' ≠ c) :
    ((C.users c').filter fun cu' => !(cu' == cu)) = C.users c' := by
  apply List.filter_eq_self.mpr
  intro cu' hcu'
  have : cu' ≠ cu := by
    rintro rfl
    exact hne ((hC.bwd c' cu' hcu').1.symm.trans (hC.bwd c cu' hcu).1)
  simpa using this

theorem Member.channels_other (hC : Member C) (hcu : cu ∈ C.channels n) {n' : NickRef}
    (hne : n' ≠ n) : ((C.channels n').filter fun cu' => !(cu' == cu)) = C.channels n' := by
  apply List.filter_eq_self.mpr
  intro cu' hcu'
  have : cu' ≠ cu := by
    rintro rfl
    exact hne ((hC.fwd n' cu' hcu').1.symm.trans (hC.fwd n cu' hcu).1)
  simpa using this

theorem Member.mem_users (hC : Member C) (hcu : cu ∈ C.channels n) (hc : C.cuChan cu = c) :
    cu ∈ C.users c := hc ▸ (hC.fwd n cu hcu).2

/-- What `part` and `kicked` do to the two lists. -/
theorem unlinked_leave (hC : Member C) (hcu : cu ∈ C.channels n) (hc : C.cuChan cu = c)
    (C₁ : Chans) (h₁ : SameBut (C.dropChanUser n cu) C₁) (m : Option Message) :
    Unlinked C (C₁.delUserVirtual c n m) (· == cu) := by
  have hmem := hC.mem_users hcu hc
  have hn := (hC.fwd n cu hcu).1
  rw [h₁, delUserVirtual_eq, delUser_eq]
  refine ⟨fun n' => ?_, fun c' => ?_, rfl, rfl, rfl, fun cu' => ?_, rfl, rfl, rfl, rfl, rfl, rfl⟩
  · rcases eq_or_ne n' n with rfl | hne
    · simp only [dropChanUser, update_self]
      exact (hC.nodupChannels _).erase_eq_filter _
    · simp [dropChanUser, hne, hC.channels_other hcu hne]
  · rcases eq_or_ne c' c with rfl | hne
    · simp only [dropChanUser, update_self]
      exact hn ▸ hC.filter_nick hmem
    · simp [dropChanUser, hne, hC.filter_other hmem hne]
  · change (C.cuAlive cu' && !((C.users c).contains cu' && C.cuNick cu' == n)) = _
    have hiff : ((C.users c).contains cu' && C.cuNick cu' == n) = (cu' == cu) := by
      rw [Bool.eq_iff_iff]
      simp only [Bool.and_eq_true, List.contains_iff_mem, beq_iff_eq]
      refine ⟨fun h => (hC.users_nick hmem h.1).mp (h.2.trans hn.symm), ?_⟩
      rintro rfl
      exact ⟨hmem, hn⟩
    rw [hiff]

/-- What `~ConversationChannel` does for a participant. -/
theorem unlinked_release (hC : Member C) (hcu : cu ∈ C.users c) (hn : C.cuNick cu = n) :
    Unlinked C ((C.delUser c n none).removeChanUser n cu) (· == cu) := by
  obtain ⟨hc, hch⟩ := hC.bwd c cu hcu
  rw [hn] at hch
  have h := unlinked_leave hC hch hc _ (.refl _) none
  rw [delUserVirtual_eq, delUser_eq] at h
  rw [delUser_eq]
  refine ⟨fun n' => ?_, h.users, rfl, rfl, rfl, h.cuAlive, rfl, rfl, rfl, rfl, rfl, rfl⟩
  rw [← h.channels]
  rcases eq_or_ne n' n with rfl | hne
  · simp only [removeChanUser, dropChanUser, update_self]
    rw [(hC.nodupChannels _).erase_eq_filter]
    exact List.filter_congr fun x _ => by simp [bne, Bool.beq_eq_decide_eq]
  · simp [removeChanUser, dropChanUser, hne]

/-- `Nick::quit` has left the channels of the `ChanUser`s in `p`. -/
structure QuitTo (C C' : Chans) (n : NickRef) (p : List ChanUserRef) : Prop where
  same : C' = { C with
    sent := C'.sent, users := C'.users, cuAlive := C'.cuAlive, cbuddies := C'.cbuddies }
  users : ∀ c, C'.users c = (C.users c).filter fun cu => !p.contains cu
  cuAlive : ∀ cu, C'.cuAlive cu = (C.cuAlive cu && !p.contains cu)
  cbuddies : ∀ c, C'.cbuddies c =
    if (C.conv c).isSome && p.any (fun cu => C.cuChan cu == c) then C.withoutNick c n
    else C.cbuddies c

theorem sameBut_tell (msg : Message) (l : List NickRef) (st : Chans × List NickRef) :
    SameBut st.1 (l.foldl (fun (st : Chans × List NickRef) peer =>
      if st.2.contains peer then st else (st.1.send peer (.msg msg), st.2 ++ [peer])) st).1 := by
  induction l generalizing st with
  | nil => exact .refl _
  | cons n l ih =>
    refine SameBut.trans ?_ (ih _)
    dsimp only
    split
    · exact .refl _
    · exact sameBut_send _ _ _

theorem quitTo_one (hC : Member C) {p : List ChanUserRef} (h : QuitTo C C' n p)
    (hp : ∀ x ∈ p, x ∈ C.channels n) (hcu : cu ∈ C.channels n) (hnew : cu ∉ p)
    (msg : Message) (told : List NickRef) :
    QuitTo C (quitOne n msg (C', told) cu).1 n (p ++ [cu]) := by
  obtain ⟨T, hT, hstep⟩ : ∃ T, SameBut C' T ∧
      (quitOne n msg (C', told) cu).1 = T.delUserVirtual (T.cuChan cu) n none :=
    ⟨_, sameBut_tell msg (C'.members (C'.cuChan cu)) (C', told), rfl⟩
  have hT : T = { C with
      sent := T.sent, users := C'.users, cuAlive := C'.cuAlive, cbuddies := C'.cbuddies } := by
    rw [hT, h.same]
  obtain ⟨hn, hmem⟩ := hC.fwd n cu hcu
  have hnick : ∀ x ∈ C.users (C.cuChan cu), C.cuNick x = n ↔ x = cu :=
    fun x hx => hn ▸ hC.users_nick hmem hx
  have hnone : p.any (fun x => C.cuChan x == C.cuChan cu) = false := by
    rw [List.any_eq_false]
    intro x hx hc
    exact hnew (hC.one n x (hp x hx) cu hcu (by simpa using hc) ▸ hx)
  rw [hstep, hT, delUserVirtual_eq, delUser_eq]
  refine ⟨rfl, fun c' => ?_, fun x => ?_, fun c' => ?_⟩
  · dsimp only
    rcases eq_or_ne c' (C.cuChan cu) with rfl | hne
    · rw [update_self, h.users, List.filter_filter]
      apply List.filter_congr
      intro x hx
      rcases eq_or_ne x cu with rfl | hxc
      · simp [hn]
      · simp [hnick x hx, hxc]
    · rw [update_of_ne hne, h.users]
      apply List.filter_congr
      intro x hx
      have hxc : x ≠ cu := by
        rintro rfl
        exact hne (hC.bwd c' x hx).1.symm
      simp [hxc]
  · have hgone : ((C'.users (C.cuChan cu)).contains x && C.cuNick x == n) = (x == cu) := by
      rw [Bool.eq_iff_iff, h.users]
      simp only [Bool.and_eq_true, List.contains_iff_mem, beq_iff_eq, List.mem_filter]
      refine ⟨fun hx => (hnick x hx.1.1).mp hx.2, ?_⟩
      rintro rfl
      exact ⟨⟨hmem, by simpa using hnew⟩, hn⟩
    simp only [hgone, h.cuAlive]
    by_cases hxc : x = cu <;> simp [hxc]
  · simp only [cbuddiesWithout]
    rcases eq_or_ne c' (C.cuChan cu) with rfl | hne
    · have hold : C'.cbuddies (C.cuChan cu) = C.cbuddies (C.cuChan cu) := by
        rw [h.cbuddies, hnone, Bool.and_false]
        rfl
      cases hconv : (C.conv (C.cuChan cu)).isSome with
      | true => simp [withoutNick, hold]
      | false => simp [hold]
    · have hlast : (C.cuChan cu == c') = false := by simpa using Ne.symm hne
      rw [List.any_append, List.any_cons, List.any_nil, hlast, Bool.or_false, Bool.or_false,
        ← h.cbuddies c']
      split
      · rw [update_of_ne hne]
      · rfl

theorem quitTo_foldl (hC : Member C) (msg : Message) {l p : List ChanUserRef} (told : List NickRef)
    (h : QuitTo C C' n p) (hp : ∀ x ∈ p, x ∈ C.channels n) (hl : ∀ x ∈ l, x ∈ C.channels n)
    (hnodup : (p ++ l).Nodup) :
    QuitTo C (l.foldl (quitOne n msg) (C', told)).1 n (p ++ l) := by
  induction l generalizing C' p told with
  | nil => simpa using h
  | cons cu l ih =>
    have hnew : cu ∉ p := by
      rw [List.nodup_append] at hnodup
      exact fun hmem => hnodup.2.2 cu hmem cu (by simp) rfl
    have hstep := quitTo_one hC h hp (hl cu (by simp)) hnew msg told
    have hcons : p ++ cu :: l = p ++ [cu] ++ l := by simp
    rw [hcons] at hnodup ⊢
    refine ih _ hstep (fun x hx => ?_) (fun x hx => hl x (by simp [hx])) hnodup
    rcases List.mem_append.mp hx with hx | hx
    · exact hp x hx
    · exact List.mem_singleton.mp hx ▸ hl cu (by simp)

/-- `Nick::quit`: the nick has left every channel it was on. -/
theorem quitTo_quit (hC : Member C) (n : NickRef) (text : Str) :
    ∃ C', QuitTo C C' n (C.channels n) ∧
      C.quit N n text = { C' with channels := update C'.channels n [] } := by
  have h0 : QuitTo C C n [] := ⟨rfl, by simp, by simp, by simp⟩
  have h := quitTo_foldl hC ⟨str "QUIT", N.entity n, .unset, [text]⟩ [] h0 (by simp)
    (fun x hx => hx) (by simpa using hC.nodupChannels n)
  exact ⟨_, by simpa using h, rfl⟩

theorem unlinked_quit (hC : Member C) (n : NickRef) (text : Str) :
    Unlinked C (C.quit N n text) (C.channels n).contains := by
  obtain ⟨C', h, he⟩ := quitTo_quit (N := N) hC n text
  rw [he, h.same]
  refine ⟨fun n' => ?_, h.users, rfl, rfl, rfl, h.cuAlive, rfl, rfl, rfl, rfl, rfl, rfl⟩
  rcases eq_or_ne n' n with rfl | hne
  · simp
  · dsimp only
    rw [update_of_ne hne]
    symm
    apply List.filter_eq_self.mpr
    intro cu hcu
    have : cu ∉ C.channels n := fun h' =>
      hne ((hC.fwd n' cu hcu).1.symm.trans (hC.fwd n cu h').1)
    simpa using this

theorem quit_cbuddies (hC : Member C) (n : NickRef) (text : Str) (c : ChanRef) :
    (C.quit N n text).cbuddies c =
      if (C.conv c).isSome && (C.getChanUser n c).isSome then C.withoutNick c n
      else C.cbuddies c := by
  obtain ⟨C', h, he⟩ := quitTo_quit (N := N) hC n text
  rw [he, h.cbuddies]
  congr 3
  rw [Bool.eq_iff_iff]
  simp [getChanUser, List.find?_isSome]

/-- `~Channel` has let the members in `p` go. -/
structure ExpelTo (C C' : Chans) (p : List ChanUserRef) : Prop where
  same : C' = { C with sent := C'.sent, channels := C'.channels, cuAlive := C'.cuAlive }
  channels : ∀ n, C'.channels n = (C.channels n).filter fun cu => !p.contains cu
  cuAlive : ∀ cu, C'.cuAlive cu = (C.cuAlive cu && !p.contains cu)

theorem expelTo_one (hC : Member C) {p : List ChanUserRef} (h : ExpelTo C C' p)
    (hcu : cu ∈ C.users c) : ExpelTo C (expel N c C' cu) (p ++ [cu]) := by
  have hn : C'.cuNick = C.cuNick := by rw [h.same]
  unfold expel
  dsimp only
  rw [send_eq]
  refine ⟨?_, fun n' => ?_, fun x => ?_⟩
  · simp only [removeChanUser]
    rw [h.same]
  · simp only [removeChanUser]
    rcases eq_or_ne n' (C'.cuNick cu) with rfl | hne
    · rw [update_self, h.channels, List.filter_filter]
      apply List.filter_congr
      intro x _
      by_cases hx : x = cu <;> simp [hx]
    · rw [update_of_ne hne, h.channels]
      apply List.filter_congr
      intro x hx
      have hxc : x ≠ cu := by
        rintro rfl
        exact hne (hn ▸ (hC.fwd n' x hx).1.symm)
      simp [hxc]
  · simp only [removeChanUser]
    rcases eq_or_ne x cu with rfl | hx
    · simp
    · simp [h.cuAlive, hx]

theorem expelTo_foldl (hC : Member C) {l p : List ChanUserRef} (h : ExpelTo C C' p)
    (hl : ∀ x ∈ l, x ∈ C.users c) : ExpelTo C (l.foldl (expel N c) C') (p ++ l) := by
  induction l generalizing C' p with
  | nil => simpa using h
  | cons cu l ih =>
    have hcons : p ++ cu :: l = p ++ [cu] ++ l := by simp
    rw [hcons]
    exact ih (expelTo_one hC h (hl cu (by simp))) fun x hx => hl x (by simp [hx])

theorem expelTo_deleteChan (hC : Member C) (c : ChanRef) :
    ∃ C', ExpelTo C C' (C.users c) ∧
      C.deleteChan N c = { C' with users := update C'.users c [], alive := update C'.alive c false } := by
  have h0 : ExpelTo C C [] := ⟨rfl, by simp, by simp⟩
  exact ⟨_, by simpa using expelTo_foldl (N := N) hC h0 (fun x hx => hx), rfl⟩

/-- `~Channel`: all its members have left. -/
theorem unlinked_deleteChan (hC : Member C) (c : ChanRef) :
    Unlinked C (C.deleteChan N c) (C.users c).contains := by
  obtain ⟨C', h, he⟩ := expelTo_deleteChan (N := N) hC c
  rw [he, h.same]
  refine ⟨h.channels, fun c' => ?_, rfl, rfl, rfl, h.cuAlive, rfl, rfl, rfl, rfl, rfl, rfl⟩
  rcases eq_or_ne c' c with rfl | hne
  · simp
  · dsimp only
    rw [update_of_ne hne]
    symm
    apply List.filter_eq_self.mpr
    intro cu hcu
    have : cu ∉ C.users c := fun h' => hne ((hC.bwd c' cu hcu).1.symm.trans (hC.bwd c cu h').1)
    simpa using this

theorem deleteChan_alive (hC : Member C) (c : ChanRef) :
    (C.deleteChan N c).alive = update C.alive c false ∧
      (C.deleteChan N c).cbuddies = C.cbuddies := by
  obtain ⟨C', h, he⟩ := expelTo_deleteChan (N := N) hC c
  rw [he, h.same]
  exact ⟨rfl, rfl⟩

/-- Only statuses and the log differ. -/
def SameStatus (C C' : Chans) : Prop :=
  C' = { C with sent := C'.sent, cuStatus := C'.cuStatus }

theorem sameStatus_setMode (N : Nicks) (C : Chans) (c : ChanRef) (modes : Status)
    (cu : ChanUserRef) : SameStatus C (C.setMode N c modes cu) := by
  unfold setMode SameStatus
  dsimp only
  split
  · rfl
  · rw [broadcast_eq]

theorem sameStatus_delMode (N : Nicks) (C : Chans) (c : ChanRef) (modes : Status)
    (cu : ChanUserRef) : SameStatus C (C.delMode N c modes cu) := by
  unfold delMode SameStatus
  dsimp only
  split
  · rfl
  · rw [broadcast_eq]

theorem SameStatus.trans (h : SameStatus C C') (h' : SameStatus C' C'') : SameStatus C C'' := by
  unfold SameStatus at *
  rw [h', h]

theorem SameStatus.member (h : SameStatus C C') (hC : Member C) : Member C' := by
  rw [h]
  exact ⟨hC.fwd, hC.bwd, hC.one, hC.nodupChannels, hC.nodupUsers, hC.live, hC.bound⟩

theorem SameBut.sameStatus (h : SameBut C C') : SameStatus C C' := by
  unfold SameBut at h
  rw [SameStatus, h]

/-- A new member, at the end of both lists. -/
def linkNew (C : Chans) (c : ChanRef) (n : NickRef) (status : Status) : Chans :=
  { C.newChanUser c n status with channels := update C.channels n (C.channels n ++ [C.nextCu]) }

theorem join_new (h : C.getChanUser n c = none) (status : Status) :
    SameBut (C.linkNew c n status) (C.join N n c status) := by
  have hadd := sameBut_addUser N C c n status
  unfold join
  rw [h]
  dsimp only
  unfold SameBut at hadd ⊢
  rw [hadd]
  rfl

theorem join_old (h : C.getChanUser n c = some cu) (status : Status) :
    SameStatus C (C.join N n c status) := by
  unfold join
  rw [h]
  dsimp only
  split
  · exact (sameStatus_delMode _ _ _ _ _).trans (sameStatus_setMode _ _ _ _ _)
  · rfl

theorem getChanUser_some (h : C.getChanUser n c = some cu) :
    cu ∈ C.channels n ∧ C.cuChan cu = c :=
  ⟨List.mem_of_find?_eq_some h, by simpa using List.find?_some h⟩

theorem getChanUser_none (h : C.getChanUser n c = none) : ∀ cu ∈ C.channels n, C.cuChan cu ≠ c := by
  simpa [getChanUser] using h

theorem mem_linkNew_channels {n' : NickRef} {status : Status} :
    cu ∈ (C.linkNew c n status).channels n' ↔
      cu ∈ C.channels n' ∨ (n' = n ∧ cu = C.nextCu) := by
  rcases eq_or_ne n' n with rfl | hne
  · simp [linkNew]
  · simp [linkNew, hne]

theorem mem_linkNew_users {c' : ChanRef} {status : Status} :
    cu ∈ (C.linkNew c n status).users c' ↔ cu ∈ C.users c' ∨ (c' = c ∧ cu = C.nextCu) := by
  rcases eq_or_ne c' c with rfl | hne
  · simp [linkNew, newChanUser]
  · simp [linkNew, newChanUser, hne]

theorem Member.fresh (hC : Member C) :
    (∀ n, C.nextCu ∉ C.channels n) ∧ ∀ c, C.nextCu ∉ C.users c := by
  have hch : ∀ n, C.nextCu ∉ C.channels n := fun n h =>
    absurd (hC.bound _ (hC.live n _ h)) (Nat.lt_irrefl _)
  exact ⟨hch, fun c h => hch _ (hC.bwd c _ h).2⟩

theorem Member.linkNew (hC : Member C) (h : C.getChanUser n c = none) (status : Status) :
    Member (C.linkNew c n status) := by
  obtain ⟨hch, hus⟩ := hC.fresh
  have hold : ∀ n', ∀ cu ∈ C.channels n', cu ≠ C.nextCu := fun n' cu hcu he => hch n' (he ▸ hcu)
  have hnick : ∀ cu, cu ≠ C.nextCu → (C.linkNew c n status).cuNick cu = C.cuNick cu :=
    fun cu hcu => by simp [Chans.linkNew, newChanUser, hcu]
  have hchan : ∀ cu, cu ≠ C.nextCu → (C.linkNew c n status).cuChan cu = C.cuChan cu :=
    fun cu hcu => by simp [Chans.linkNew, newChanUser, hcu]
  have hnew : (C.linkNew c n status).cuNick C.nextCu = n ∧
      (C.linkNew c n status).cuChan C.nextCu = c := by simp [Chans.linkNew, newChanUser]
  refine ⟨fun n' cu hcu => ?_, fun c' cu hcu => ?_, fun n' cu hcu cu' hcu' he => ?_, fun n' => ?_,
    fun c' => ?_, fun n' cu hcu => ?_, fun cu hcu => ?_⟩
  · rcases mem_linkNew_channels.mp hcu with hcu | ⟨rfl, rfl⟩
    · rw [hnick _ (hold n' _ hcu), hchan _ (hold n' _ hcu)]
      exact ⟨(hC.fwd n' cu hcu).1, mem_linkNew_users.mpr (.inl (hC.fwd n' cu hcu).2)⟩
    · exact ⟨hnew.1, mem_linkNew_users.mpr (.inr ⟨hnew.2, rfl⟩)⟩
  · rcases mem_linkNew_users.mp hcu with hcu | ⟨rfl, rfl⟩
    · have hne : cu ≠ C.nextCu := fun he => hus c' (he ▸ hcu)
      rw [hnick _ hne, hchan _ hne]
      exact ⟨(hC.bwd c' cu hcu).1, mem_linkNew_channels.mpr (.inl (hC.bwd c' cu hcu).2)⟩
    · exact ⟨hnew.2, mem_linkNew_channels.mpr (.inr ⟨hnew.1, rfl⟩)⟩
  · rcases mem_linkNew_channels.mp hcu with h₁ | ⟨hn₁, h₁⟩ <;>
      rcases mem_linkNew_channels.mp hcu' with h₂ | ⟨hn₂, h₂⟩
    · rw [hchan _ (hold n' _ h₁), hchan _ (hold n' _ h₂)] at he
      exact hC.one n' cu h₁ cu' h₂ he
    · rw [hchan _ (hold _ _ h₁), h₂, hnew.2] at he
      exact (getChanUser_none h cu (hn₂ ▸ h₁) he).elim
    · rw [hchan _ (hold _ _ h₂), h₁, hnew.2] at he
      exact (getChanUser_none h cu' (hn₁ ▸ h₂) he.symm).elim
    · rw [h₁, h₂]
  · rcases eq_or_ne n' n with rfl | hne
    · simpa [Chans.linkNew, List.nodup_append, hC.nodupChannels] using
        fun x (hx : x ∈ C.channels n') (he : x = C.nextCu) => hch n' (he ▸ hx)
    · simpa [Chans.linkNew, hne] using hC.nodupChannels n'
  · rcases eq_or_ne c' c with rfl | hne
    · simpa [Chans.linkNew, newChanUser, List.nodup_append, hC.nodupUsers] using
        fun x (hx : x ∈ C.users c') (he : x = C.nextCu) => hus c' (he ▸ hx)
    · simpa [Chans.linkNew, newChanUser, hne] using hC.nodupUsers c'
  · rcases mem_linkNew_channels.mp hcu with hcu | ⟨rfl, rfl⟩
    · simpa [Chans.linkNew, newChanUser, hold n' cu hcu] using hC.live n' cu hcu
    · simp [Chans.linkNew, newChanUser]
  · rcases eq_or_ne cu C.nextCu with rfl | hne
    · simp [Chans.linkNew, newChanUser]
    · have := hC.bound cu (by simpa [Chans.linkNew, newChanUser, hne] using hcu)
      exact Nat.lt_succ_of_lt this

theorem Member.join (hC : Member C) (n : NickRef) (c : ChanRef) (status : Status) :
    Member (C.join N n c status) := by
  cases h : C.getChanUser n c with
  | none => exact (join_new h status).sameStatus.member (hC.linkNew h status)
  | some cu => exact (join_old h status).member hC

end Chans
end Minbif
