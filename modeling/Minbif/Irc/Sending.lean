import Mathlib.Data.List.Nodup
import Minbif.Irc.Placement

/-! What the User is sent by each operation of a channel. -/
namespace Minbif
open Function
namespace Chans

variable {N : Nicks} {C C' : Chans} {n : NickRef} {c : ChanRef} {cu : ChanUserRef} {s : Sent}
  {m : Message} {l : List NickRef} {status modes : Status}

/-- One copy for the User, if it is among the receivers. -/
def copyFor (l : List NickRef) (s : Sent) : List Sent := if userRef ∈ l then [s] else []

theorem flatMap_user {g : NickRef → List Sent} (hl : l.Nodup) (hg : ∀ n, n ≠ userRef → g n = []) :
    l.flatMap g = if userRef ∈ l then g userRef else [] := by
  induction l with
  | nil => rfl
  | cons a l ih =>
    obtain ⟨ha, hl⟩ := List.nodup_cons.mp hl
    rw [List.flatMap_cons, ih hl]
    rcases eq_or_ne a userRef with rfl | hne
    · simp [ha]
    · simp [hg a hne, hne.symm]

theorem Member.nodup_members (hC : C.Member) (c : ChanRef) : (C.members c).Nodup := by
  refine List.Nodup.map_on ?_ (hC.nodupUsers c)
  intro cu hcu cu' hcu' he
  exact (hC.users_nick hcu' hcu).mp he

theorem mem_members : n ∈ C.members c ↔ ∃ cu ∈ C.users c, C.cuNick cu = n := List.mem_map

theorem send_sent (C : Chans) (n : NickRef) (s : Sent) :
    (C.send n s).sent = C.sent ++ if n = userRef then [s] else [] := by
  rw [send_eq]
  split <;> simp_all

theorem sendAll_sent (hl : l.Nodup) (s : Sent) : (C.sendAll l s).sent = C.sent ++ copyFor l s := by
  rw [sendAll_eq, copyFor]
  by_cases hu : userRef ∈ l
  · simp [hu, List.count_eq_one_of_mem hl hu]
  · simp [hu, List.count_eq_zero_of_not_mem hu]

/-- The mode change that the members hear. -/
def modeMessage (N : Nicks) (C : Chans) (c : ChanRef) (add : Bool) (modes : Status)
    (cu : ChanUserRef) : Message where
  cmd := str "MODE"
  sender := N.ircEntity
  receiver := C.chanEntity c
  args := ((if add then '+' else '-') :: modeLetters modes) ::
    (modeLetters modes).map fun _ => N.nickname (C.cuNick cu)

theorem setMode_eq (hC : C.Member) (c : ChanRef) (hm : modes ≠ 0) (cu : ChanUserRef) :
    C.setMode N c modes cu = { C with
      cuStatus := update C.cuStatus cu (C.cuStatus cu ||| modes)
      sent := C.sent ++ copyFor (C.members c) (.msg (modeMessage N C c true modes cu)) } := by
  unfold setMode
  rw [if_neg hm]
  dsimp only
  rw [broadcast_eq]
  have hcount := sendAll_sent (C := C) (hC.nodup_members c)
    (.msg (modeMessage N C c true modes cu))
  rw [sendAll_eq] at hcount
  rw [← List.append_cancel_left hcount]
  have hne : ¬ modes = 0#32 := hm
  simp [modeMessage, getModeMessage, hne, members, chanEntity]

theorem delMode_eq (hC : C.Member) (c : ChanRef) (hm : modes ≠ 0) (cu : ChanUserRef) :
    C.delMode N c modes cu = { C with
      cuStatus := update C.cuStatus cu (C.cuStatus cu &&& ~~~modes)
      sent := C.sent ++ copyFor (C.members c) (.msg (modeMessage N C c false modes cu)) } := by
  unfold delMode
  rw [if_neg hm]
  dsimp only
  rw [broadcast_eq]
  have hcount := sendAll_sent (C := C) (hC.nodup_members c)
    (.msg (modeMessage N C c false modes cu))
  rw [sendAll_eq] at hcount
  rw [← List.append_cancel_left hcount]
  have hne : ¬ modes = 0#32 := hm
  simp [modeMessage, getModeMessage, hne, members, chanEntity]

theorem foldl_sent {α : Type} {f : Chans → α → Chans} {g : α → List Sent}
    (hf : ∀ C' a, SameBut C C' → SameBut C' (f C' a) ∧ (f C' a).sent = C'.sent ++ g a)
    (l : List α) (h : SameBut C C') : (l.foldl f C').sent = C'.sent ++ l.flatMap g := by
  induction l generalizing C' with
  | nil => simp
  | cons a l ih =>
    obtain ⟨hs, hsent⟩ := hf C' a h
    rw [List.foldl_cons, ih (h.trans hs), hsent, List.flatMap_cons, List.append_assoc]

/-- The `JOIN` that the members hear. -/
def joinMessage (N : Nicks) (C : Chans) (c : ChanRef) (n : NickRef) : Message where
  cmd := str "JOIN"
  sender := N.entity n
  receiver := C.chanEntity c

/-- What one member hears of a new one. -/
def announced (N : Nicks) (C : Chans) (c : ChanRef) (n : NickRef) (status : Status)
    (cu : ChanUserRef) : List Sent :=
  .msg (joinMessage N C c n) ::
    if status ≠ 0 ∧ userRef ≠ n then [.msg (modeMessage N C c true (C.cuStatus cu) cu)] else []

theorem announce_sent (N : Nicks) (C : Chans) (c : ChanRef) (n : NickRef) (status : Status)
    (cu : ChanUserRef) (peer : NickRef) : (C.announce N c n status cu peer).sent =
      C.sent ++ if peer = userRef then C.announced N c n status cu else [] := by
  unfold announce
  dsimp only
  split
  · next h =>
    rw [send_sent, send_sent]
    by_cases hp : peer = userRef
    · subst hp
      simp [announced, joinMessage, send_eq, modeMessage, getModeMessage, chanEntity, h.2]
      exact h.1
    · simp [hp]
  · next h =>
    rw [send_sent]
    by_cases hp : peer = userRef
    · subst hp
      simpa [announced, joinMessage] using h
    · simp [hp]

/-- The end of `addUser`, which only the newcomer hears. -/
def welcomed (N : Nicks) (C : Chans) (c : ChanRef) (n : NickRef) : List Sent :=
  (if (C.topic c).isEmpty then []
    else [.msg { cmd := str "332", sender := N.ircEntity, receiver := N.entity n,
                 args := [C.name c, C.topic c] }]) ++
  [.names (C.name c)
      ((C.users c).map fun cu => (getPrefix (C.cuStatus cu), N.nickname (C.cuNick cu))),
    .msg { cmd := str "366", sender := N.ircEntity, receiver := N.entity n,
           args := [C.name c, str "End of /NAMES list"] }]

theorem sendNames_sent (N : Nicks) (C : Chans) (c : ChanRef) :
    (C.sendNames N c userRef).sent = C.sent ++
      [.names (C.name c)
        ((C.users c).map fun cu => (getPrefix (C.cuStatus cu), N.nickname (C.cuNick cu))),
      .msg { cmd := str "366", sender := N.ircEntity, receiver := N.entity userRef,
             args := [C.name c, str "End of /NAMES list"] }] := by
  unfold sendNames
  rw [send_sent, send_sent]
  simp

theorem sendNames_other (hn : n ≠ userRef) (N : Nicks) (C : Chans) (c : ChanRef) :
    C.sendNames N c n = C := by
  unfold sendNames
  rw [send_eq, send_eq]
  simp [hn]

/-- `Nick::join` of a nick that was not on the channel. -/
theorem join_sent (hC : C.Member) (h : C.getChanUser n c = none) (status : Status) :
    (C.join N n c status).sent = C.sent ++
      (if userRef ∈ (C.linkNew c n status).members c
        then (C.linkNew c n status).announced N c n status C.nextCu else []) ++
      if n = userRef then (C.linkNew c n status).welcomed N c n else [] := by
  have hset : (C.join N n c status).sent = (C.addUser N c n status).sent := by
    unfold join
    rw [h]
  let C₁ := C.newChanUser c n status
  have hmem : (C.linkNew c n status).members c = C₁.members c := rfl
  have hnodup : (C₁.members c).Nodup := hmem ▸ (hC.linkNew h status).nodup_members c
  let C₂ := (C₁.members c).foldl (fun C' peer => C'.announce N c n status C.nextCu peer) C₁
  have hsame : SameBut C₁ C₂ :=
    sameBut_foldl (fun C' peer => sameBut_announce N C' c n status C.nextCu peer) _ _
  have hsent : C₂.sent = C.sent ++ if userRef ∈ C₁.members c
      then (C.linkNew c n status).announced N c n status C.nextCu else [] := by
    have hpeer : ∀ C' peer, SameBut C₁ C' →
        SameBut C' (C'.announce N c n status C.nextCu peer) ∧
          (C'.announce N c n status C.nextCu peer).sent = C'.sent ++
            if peer = userRef then C₁.announced N c n status C.nextCu else [] := by
      intro C' peer hs
      refine ⟨sameBut_announce _ _ _ _ _ _ _, ?_⟩
      rw [announce_sent, hs]
      rfl
    have hfold := foldl_sent hpeer (C₁.members c) (.refl C₁)
    rw [flatMap_user hnodup (by simp +contextual), if_pos rfl] at hfold
    exact hfold
  have hadd : (C.addUser N c n status).sent =
      C₂.sent ++ if n = userRef then C₁.welcomed N c n else [] := by
    change (((if (C₂.topic c).isEmpty then C₂ else C₂.send n (.msg
      { cmd := str "332", sender := N.ircEntity, receiver := N.entity n,
        args := [C₂.name c, C₂.topic c] })).sendNames N c n)).sent = _
    by_cases hn : n = userRef
    · subst hn
      rw [sendNames_sent, hsame, if_pos rfl, welcomed]
      split <;> simp [send_eq]
    · rw [sendNames_other hn, if_neg hn]
      split
      · simp
      · rw [send_sent]
        simp [hn]
  rw [hset, hadd, hsent, hmem]
  rfl

theorem leave_sent (hC : C.Member) (hn : n ≠ userRef) (c : ChanRef) (cu : ChanUserRef)
    (m : Message) : (C.leave c n cu m).sent = C.sent ++ copyFor (C.members c) (.msg m) := by
  unfold leave
  rw [send_eq, if_neg hn, delUserVirtual_eq, delUser_eq]
  change C.sent ++ List.replicate ((((C.users c).filter fun cu => C.cuNick cu ≠ n).map
    C.cuNick).count userRef) (Sent.msg m) = _
  have hstay : ((C.users c).filter fun cu => C.cuNick cu ≠ n).map C.cuNick =
      (C.members c).filter (· ≠ n) := by
    rw [members, List.filter_map]
    rfl
  rw [hstay, List.count_filter (by simpa using hn.symm), copyFor]
  by_cases hu : userRef ∈ C.members c
  · simp [hu, List.count_eq_one_of_mem (hC.nodup_members c) hu]
  · simp [hu, List.count_eq_zero_of_not_mem hu]

/-- The User hears of its own leave, and nobody else on its behalf. -/
theorem leave_sent_user (C : Chans) (c : ChanRef) (cu : ChanUserRef) (m : Message) :
    (C.leave c userRef cu m).sent = C.sent ++ [.msg m] := by
  unfold leave
  rw [send_eq, if_pos rfl, delUserVirtual_eq, delUser_eq]
  change (C.sent ++ [Sent.msg m]) ++ List.replicate ((((C.users c).filter fun cu =>
    C.cuNick cu ≠ userRef).map C.cuNick).count userRef) (Sent.msg m) = _
  have hcount : (((C.users c).filter fun cu => C.cuNick cu ≠ userRef).map C.cuNick).count
      userRef = 0 := by
    rw [List.count_eq_zero]
    simp
  rw [hcount]
  simp

section Quit

/-- The loop over the members of one channel: each one not told yet is told. -/
theorem tell_sent (msg : Message) (l : List NickRef) (st : Chans × List NickRef) :
    (l.foldl (fun (st : Chans × List NickRef) peer =>
        if st.2.contains peer then st else (st.1.send peer (.msg msg), st.2 ++ [peer])) st).1.sent =
      st.1.sent ++ (if userRef ∈ l ∧ userRef ∉ st.2 then [.msg msg] else []) ∧
    (userRef ∈ (l.foldl (fun (st : Chans × List NickRef) peer =>
        if st.2.contains peer then st else (st.1.send peer (.msg msg), st.2 ++ [peer])) st).2 ↔
      userRef ∈ st.2 ∨ userRef ∈ l) := by
  induction l generalizing st with
  | nil => simp
  | cons a l ih =>
    simp only [List.foldl_cons]
    by_cases ha : a ∈ st.2
    · have hc : st.2.contains a = true := List.contains_iff_mem.mpr ha
      simp only [hc, if_true]
      obtain ⟨hs, ht⟩ := ih st
      rw [hs, ht]
      rcases eq_or_ne a userRef with rfl | hne
      · simp [ha]
      · simp [hne.symm]
    · have hc : st.2.contains a = false := by simpa using ha
      simp only [hc, Bool.false_eq_true, if_false]
      obtain ⟨hs, ht⟩ := ih (st.1.send a (.msg msg), st.2 ++ [a])
      rw [hs, ht, send_sent]
      rcases eq_or_ne a userRef with rfl | hne
      · simp [ha]
      · simp [hne, hne.symm]

/-- While a nick leaves its channels the User is told at the first that they share. -/
theorem quitLoop_sent (hC : C.Member) (hn : n ≠ userRef) (msg : Message)
    (l : List ChanUserRef) {p : List ChanUserRef} (told : List NickRef) (h : QuitTo C C' n p) (hp : ∀ x ∈ p, x ∈ C.channels n)
    (hl : ∀ x ∈ l, x ∈ C.channels n) (hnodup : (p ++ l).Nodup)
    (hsent : C'.sent = C.sent ++ if userRef ∈ told then [.msg msg] else [])
    (htold : userRef ∈ told ↔ ∃ cu ∈ p, userRef ∈ C.members (C.cuChan cu)) :
    (l.foldl (quitOne n msg) (C', told)).1.sent = C.sent ++
      if ∃ cu ∈ p ++ l, userRef ∈ C.members (C.cuChan cu) then [.msg msg] else [] := by
  induction l generalizing C' p told with
  | nil => simpa [← htold] using hsent
  | cons cu l ih =>
    have hnew : cu ∉ p := by
      rw [List.nodup_append] at hnodup
      exact fun hmem => hnodup.2.2 cu hmem cu (by simp) rfl
    have hone := quitTo_one hC h hp (hl cu (by simp)) hnew msg told
    have hcons : p ++ cu :: l = p ++ [cu] ++ l := by simp
    rw [hcons] at hnodup ⊢
    have hmem : userRef ∈ C'.members (C'.cuChan cu) ↔ userRef ∈ C.members (C.cuChan cu) := by
      have hchan : C'.cuChan = C.cuChan := by rw [h.same]
      have hnick : C'.cuNick = C.cuNick := by rw [h.same]
      rw [hchan, mem_members, mem_members, hnick, h.users]
      constructor
      · rintro ⟨x, hx, he⟩
        exact ⟨x, (List.mem_filter.mp hx).1, he⟩
      · rintro ⟨x, hx, he⟩
        refine ⟨x, List.mem_filter.mpr ⟨hx, ?_⟩, he⟩
        rw [Bool.not_eq_true', ← Bool.not_eq_true, List.contains_iff_mem]
        intro hxp
        exact hn ((hC.fwd n x (hp x hxp)).1.symm.trans he)
    obtain ⟨hs, ht⟩ := tell_sent msg (C'.members (C'.cuChan cu)) (C', told)
    rw [List.foldl_cons]
    refine ih _ hone (fun x hx => ?_) (fun x hx => hl x (by simp [hx])) hnodup ?_ ?_
    · rcases List.mem_append.mp hx with hx | hx
      · exact hp x hx
      · exact List.mem_singleton.mp hx ▸ hl cu (by simp)
    · dsimp only
      rw [delUserVirtual_eq, delUser_eq]
      dsimp only [delSent]
      rw [List.append_nil, hs, hsent, List.append_assoc]
      congr 1
      simp only [ht, hmem]
      by_cases h₁ : userRef ∈ told <;> by_cases h₂ : userRef ∈ C.members (C.cuChan cu) <;>
        simp [h₁, h₂]
    · change userRef ∈ (List.foldl _ (C', told) (C'.members (C'.cuChan cu))).2 ↔ _
      rw [ht, hmem, htold]
      simp [or_and_right, exists_or]

theorem quit_sent (hC : C.Member) (hn : n ≠ userRef) (text : Str) :
    (C.quit N n text).sent = C.sent ++
      if ∃ cu ∈ C.channels n, userRef ∈ C.members (C.cuChan cu)
        then [.msg { cmd := str "QUIT", sender := N.entity n, args := [text] }] else [] := by
  have h0 : QuitTo C C n [] := ⟨rfl, by simp, by simp, by simp⟩
  have h := quitLoop_sent hC hn { cmd := str "QUIT", sender := N.entity n, args := [text] }
    (C.channels n) [] h0 (by simp) (fun x hx => hx)
    (by simpa using hC.nodupChannels n) (by simp) (by simp)
  have hq : (C.quit N n text).sent = ((C.channels n).foldl (quitOne n
      { cmd := str "QUIT", sender := N.entity n, args := [text] }) (C, [])).1.sent := rfl
  rw [hq, h, List.nil_append]

end Quit

/-- The `PART` that `~Channel` sends the User. -/
def partMessage (N : Nicks) (C : Chans) (c : ChanRef) : Message where
  cmd := str "PART"
  sender := N.entity userRef
  receiver := C.chanEntity c

/-- `~Channel` tells the User on it that it left. -/
theorem deleteChan_sent (hC : C.Member) (c : ChanRef) : (C.deleteChan N c).sent =
    C.sent ++ copyFor (C.members c) (.msg (partMessage N C c)) := by
  have hexpel : ∀ C' cu, C'.cuNick = C.cuNick → C'.name = C.name →
      (expel N c C' cu).sent = C'.sent ++
        if C.cuNick cu = userRef then [.msg (partMessage N C c)] else [] := by
    intro C' cu hnick hname
    unfold expel
    dsimp only [removeChanUser]
    rw [send_sent, hnick]
    by_cases hu : C.cuNick cu = userRef
    · simp [hu, partMessage, chanEntity, hname]
    · simp [hu]
  have hloop : ∀ (l : List ChanUserRef) (C' : Chans), C'.cuNick = C.cuNick → C'.name = C.name →
      (l.foldl (expel N c) C').sent = C'.sent ++ (l.map C.cuNick).flatMap fun n =>
        if n = userRef then [.msg (partMessage N C c)] else [] := by
    intro l
    induction l with
    | nil => simp
    | cons cu l ih =>
      intro C' hnick hname
      rw [List.foldl_cons, ih _ ?_ ?_, hexpel C' cu hnick hname, List.map_cons, List.flatMap_cons,
        List.append_assoc]
      · unfold expel
        dsimp only [removeChanUser]
        rw [send_eq, hnick]
      · unfold expel
        dsimp only [removeChanUser]
        rw [send_eq, hname]
  have hsent : (C.deleteChan N c).sent = ((C.users c).foldl (expel N c) C).sent := rfl
  rw [hsent, hloop _ _ rfl rfl]
  congr 1
  exact flatMap_user (hC.nodup_members c) (by simp +contextual)

end Chans
end Minbif
