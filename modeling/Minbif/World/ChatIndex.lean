import Minbif.Lib.Runs
import Minbif.World.Sound

/-! The index of the participants of a chat: what `cbuddies` names is on the channel. -/
namespace Minbif
open Function
namespace World

variable {P : Purple} {T : Terms} {w w' : World} {n : NickRef} {v : ConvRef} {c : ChanRef}
  {cu : ChanUserRef} {cb h : CBuddyRef} {d : Option ChanRef}

/-- `~ConversationChannel` finds each value of the index on the channel when it comes to it. -/
def ReadsMembers (w : World) (c : ChanRef) : Prop :=
  ∀ xs e ys, (w.chans.cbuddies c).entries = xs ++ e :: ys →
    e.2 ∈ (xs.foldl (releaseCBuddy c) w).chans.users c

/-- No entry of the index is of a `ChanUser` that is not there, now or when one leaves. -/
structure IndexKept (w : World) (c : ChanRef) : Prop where
  member : ∀ e ∈ (w.chans.cbuddies c).entries, e.2 ∈ w.chans.users c
  single : ∀ e ∈ (w.chans.cbuddies c).entries, ∀ e' ∈ (w.chans.cbuddies c).entries,
    e.2 = e'.2 → e.1 = e'.1
  /-- What `delUser` erases. -/
  erased : ∀ n, ∀ e ∈ (w.chans.withoutNick c n).entries, w.chans.cuNick e.2 ≠ n
  destroyed : w.ReadsMembers c
  /-- The User has left, and the chat ends. -/
  left : ∀ cu m, cu ∈ w.chans.channels userRef → w.chans.cuChan cu = c →
    ReadsMembers { w with chans := w.chans.leave c userRef cu m } c

/-- The keys of the User in the index of a chat. -/
def userKeys (w : World) (c : ChanRef) : List CBuddyRef :=
  ((w.chans.cbuddies c).entries.filter fun e => w.chans.cuNick e.2 = userRef).map Prod.fst

/-- The User is in the index of the chat under one key. -/
def OneKey (w : World) (c : ChanRef) : Prop := ∀ h ∈ w.userKeys c, ∀ h' ∈ w.userKeys c, h = h'

theorem mem_userKeys :
    h ∈ w.userKeys c ↔ ∃ cu, (h, cu) ∈ (w.chans.cbuddies c).entries ∧ w.chans.cuNick cu = userRef := by
  simp [userKeys]

section Kept

/-- Two entries of one nick are one, when the User has one key. -/
theorem OneKey.entry_eq (hw : w.Ok none) (hc : w.chans.alive c = true) (hone : w.OneKey c)
    {e e' : CBuddyRef × ChanUserRef} (he : e ∈ (w.chans.cbuddies c).entries)
    (he' : e' ∈ (w.chans.cbuddies c).entries)
    (hn : w.chans.cuNick e.2 = w.chans.cuNick e'.2) : e.1 = e'.1 := by
  obtain ⟨-, hidx⟩ := hw.placed.index c nofun hc e.1 e.2 he
  obtain ⟨-, hidx'⟩ := hw.placed.index c nofun hc e'.1 e'.2 he'
  by_cases hu : w.chans.cuNick e.2 = userRef
  · exact hone e.1 (mem_userKeys.mpr ⟨e.2, he, hu⟩) e'.1 (mem_userKeys.mpr ⟨e'.2, he', hn ▸ hu⟩)
  · have hcb := (hidx.resolve_left hu).2
    have hcb' := (hidx'.resolve_left (hn ▸ hu)).2
    rw [← hcb, ← hcb', hn]

theorem OneKey.withoutNick_gone (hw : w.Ok none) (hc : w.chans.alive c = true)
    (hone : w.OneKey c) (n : NickRef) {e : CBuddyRef × ChanUserRef}
    (he : e ∈ (w.chans.withoutNick c n).entries) : w.chans.cuNick e.2 ≠ n := by
  intro hn
  have hold := Chans.withoutNick_sub he
  cases hf : (w.chans.cbuddies c).entries.find? fun e => w.chans.cuNick e.2 = n with
  | none => simpa [hn] using List.find?_eq_none.mp hf _ hold
  | some e' =>
    have hn' : w.chans.cuNick e'.2 = n := by simpa using List.find?_some hf
    simp only [Chans.withoutNick, hf] at he
    apply (OrdMap.mem_erase.mp he).2
    exact hone.entry_eq hw hc hold (List.mem_of_find?_eq_some hf) (hn.trans hn'.symm)

/-- The destructor of a chat comes to each participant before the `ChanUser` of it goes. -/
theorem releaseAll_users {l xs ys : List (CBuddyRef × ChanUserRef)} {e : CBuddyRef × ChanUserRef}
    (hw : w.Ok (some c)) (hl : l.Pairwise fun a b => a.1 < b.1) (hidx : ∀ e ∈ l, w.Indexed c e)
    (hmem : ∀ e ∈ l, e.2 ∈ w.chans.users c)
    (hdiff : ∀ e ∈ l, ∀ e' ∈ l, w.chans.cuNick e.2 = w.chans.cuNick e'.2 → e.1 = e'.1)
    (hsplit : l = xs ++ e :: ys) : e.2 ∈ (xs.foldl (releaseCBuddy c) w).chans.users c := by
  induction xs generalizing w l with
  | nil => exact hmem e (by simp [hsplit])
  | cons x xs ih =>
    subst hsplit
    obtain ⟨hx, hrest⟩ := List.pairwise_cons.mp hl
    have hin : ∀ y ∈ xs ++ e :: ys, y ∈ x :: (xs ++ e :: ys) := fun y => List.mem_cons_of_mem x
    let T : Terms := w.terms noPurple .welcome
    obtain ⟨hch, -, hrel⟩ := releaseCBuddy_spec (P := noPurple) (T := T) hw (hidx x (by simp))
    have hkeep := (releaseCBuddy_changes (P := noPurple) (T := T) hw (hidx x (by simp))).2.2
    refine ih (hch.ok hw) hrest (fun y hy => hkeep y (Nat.ne_of_gt (hx y hy)) (hidx y (hin y hy)))
      (fun y hy => ?_) (fun y hy z hz hyz => ?_) rfl
    · apply hrel.users _ (hmem y (hin y hy))
      intro hn
      have := hdiff y (hin y hy) x (by simp) hn
      exact Nat.ne_of_gt (hx y hy) this
    · rw [hrel.cuNick] at hyz
      exact hdiff y (hin y hy) z (hin z hz) hyz

theorem OneKey.kept (hw : w.Ok none) (hc : w.chans.alive c = true) (hone : w.OneKey c) :
    w.IndexKept c := by
  have hmem : ∀ e ∈ (w.chans.cbuddies c).entries, e.2 ∈ w.chans.users c := fun e he =>
    (hw.placed.index c nofun hc e.1 e.2 he).1
  refine ⟨hmem, ?_, ?_, ?_, ?_⟩
  · intro e he e' he' heq
    exact hone.entry_eq hw hc he he' (by rw [heq])
  · exact fun n e he => hone.withoutNick_gone hw hc n he
  · intro xs e ys hsplit
    exact releaseAll_users (hw.opened c) (w.chans.cbuddies c).sorted (hw.indexed hc) hmem
      (fun e he e' he' => hone.entry_eq hw hc he he') hsplit
  · intro cu m hcu hcc xs e ys hsplit
    have hu := Chans.unlinked_leave' hw.member hcu hcc m
    have hb := (Chans.leave_rest w.chans c userRef cu m).2
    have hleft : World.Ok { w with chans := w.chans.leave c userRef cu m } (some c) :=
      (hw.opened c).leave hcu hcc m (.inr (.inr rfl))
    have hold : ∀ e ∈ ((w.chans.leave c userRef cu m).cbuddies c).entries,
        e ∈ (w.chans.cbuddies c).entries := fun e he => Chans.cbuddiesWithout_sub (hb ▸ he)
    refine releaseAll_users hleft ((w.chans.leave c userRef cu m).cbuddies c).sorted
      (hw.indexed_leave hcu hcc m) ?_ ?_ hsplit
    · intro e he
      change e.2 ∈ (w.chans.leave c userRef cu m).users c
      rw [hu.users, List.mem_filter]
      refine ⟨hmem e (hold e he), ?_⟩
      simp only [Bool.not_eq_true', beq_eq_false_iff_ne]
      rintro rfl
      have hconv := hw.listed.conv_isSome hc (hold e he)
      rw [hb, Chans.cbuddiesWithout, if_pos hconv, update_self] at he
      exact hone.withoutNick_gone hw hc userRef he (hw.member.fwd userRef _ hcu).1
    · intro e he e' he' hn
      change (w.chans.leave c userRef cu m).cuNick e.2 =
        (w.chans.leave c userRef cu m).cuNick e'.2 at hn
      rw [hu.cuNick] at hn
      exact hone.entry_eq hw hc (hold e he) (hold e' he') hn

/-- The index is kept exactly as long as the User has one key: any other nick has its handle. -/
theorem indexKept_iff (hw : w.Ok none) (hc : w.chans.alive c = true) :
    w.IndexKept c ↔ w.OneKey c := by
  refine ⟨fun hkept h hh h' hh' => ?_, fun hone => hone.kept hw hc⟩
  obtain ⟨cu, hmem, hn⟩ := mem_userKeys.mp hh
  obtain ⟨cu', hmem', hn'⟩ := mem_userKeys.mp hh'
  exact hkept.single _ hmem _ hmem'
    ((hw.member.users_nick (hkept.member _ hmem') (hkept.member _ hmem)).mp (hn.trans hn'.symm))

end Kept

end World

namespace Chans

variable {c : ChanRef}

/-- The entries of the User in the indices of the chats do not grow. -/
def Narrows (C C' : Chans) : Prop :=
  ∀ c, C'.alive c = true → ∀ e ∈ (C'.cbuddies c).entries, C'.cuNick e.2 = userRef →
    C.alive c = true ∧ e ∈ (C.cbuddies c).entries ∧ C.cuNick e.2 = userRef

theorem narrows_refl (C : Chans) : C.Narrows C := fun _ hc _ he hn => ⟨hc, he, hn⟩

theorem Narrows.trans {C C' C'' : Chans} (h : C.Narrows C') (h' : C'.Narrows C'') :
    C.Narrows C'' := by
  intro c hc e he hn
  obtain ⟨hc', he', hn'⟩ := h' c hc e he hn
  exact h c hc' e he' hn'

theorem SameStatus.narrows {C C' : Chans} (h : SameStatus C C') : C.Narrows C' := by
  rw [h]
  exact fun c hc e he hn => ⟨hc, he, hn⟩

theorem Unlinked.narrows {C C' : Chans} {S : ChanUserRef → Bool} (hu : Unlinked C C' S)
    (halive : ∀ c, C'.alive c = true → C.alive c = true)
    (hsub : ∀ c, ∀ e ∈ (C'.cbuddies c).entries, e ∈ (C.cbuddies c).entries) : C.Narrows C' := by
  intro c hc e he hn
  rw [hu.cuNick] at hn
  exact ⟨halive c hc, hsub c e he, hn⟩

theorem narrows_leave {C : Chans} (hC : C.Member) {n : NickRef} {cu : ChanUserRef}
    (hcu : cu ∈ C.channels n) (hc : C.cuChan cu = c) (m : Message) : C.Narrows (C.leave c n cu m) := by
  obtain ⟨ha, hb⟩ := leave_rest C c n cu m
  exact (unlinked_leave' hC hcu hc m).narrows (fun _ h => ha ▸ h) fun c' e he =>
    cbuddiesWithout_sub (hb ▸ he)

theorem narrows_quit {N : Nicks} {C : Chans} (hC : C.Member) (n : NickRef) (text : Str) :
    C.Narrows (C.quit N n text) :=
  (unlinked_quit hC n text).narrows (fun _ h => quit_alive (N := N) hC n text ▸ h) fun _ _ =>
    quit_cbuddies_sub hC

theorem narrows_release {C : Chans} (hC : C.Member) {n : NickRef} {cu : ChanUserRef}
    (hcu : cu ∈ C.users c) (hn : C.cuNick cu = n) : C.Narrows (C.release c n cu) := by
  obtain ⟨ha, hb⟩ := release_rest C c n cu
  exact (unlinked_release hC hcu hn).narrows (fun _ h => ha ▸ h) fun _ _ he => hb ▸ he

theorem narrows_remove {N : Nicks} {C : Chans} (hC : C.Member) (c : ChanRef) :
    C.Narrows (C.remove N c) := by
  have hcb : (C.remove N c).cbuddies = C.cbuddies := (deleteChan_alive (N := N) hC c).2
  intro c' hc' e he hn
  rw [remove_alive hC] at hc'
  have hnick : (C.remove N c).cuNick = C.cuNick := (unlinked_remove (N := N) hC c).cuNick
  rcases eq_or_ne c' c with rfl | hne
  · rw [update_self] at hc'
    cases hc'
  · rw [update_of_ne hne] at hc'
    exact ⟨hc', hcb ▸ he, hnick ▸ hn⟩

theorem narrows_opened {C : Chans} (hL : C.Listed) (name : Str) (v : Option ConvRef)
    (up : Option ServerRef) : C.Narrows (C.opened name v up) := by
  intro c hc e he hn
  rcases opened_alive.mp hc with rfl | hc
  · rw [opened_self.2.2] at he
    cases he
  · rw [(opened_other (hL.ne_next hc)).2.2] at he
    exact ⟨hc, he, hn⟩

theorem join_index (N : Nicks) (C : Chans) (n : NickRef) (c : ChanRef) (status : Status) :
    (C.join N n c status).cbuddies = C.cbuddies ∧
      ∀ cu, cu ≠ C.nextCu → (C.join N n c status).cuNick cu = C.cuNick cu := by
  cases hget : C.getChanUser n c with
  | some cu =>
    rw [join_old (N := N) hget status]
    exact ⟨rfl, fun _ _ => rfl⟩
  | none =>
    rw [join_new (N := N) hget status]
    have hnick : ∀ cu, cu ≠ C.nextCu → (C.linkNew c n status).cuNick cu = C.cuNick cu :=
      fun _ hcu => linkNew_cuNick hcu
    exact ⟨rfl, hnick⟩

theorem narrows_join {N : Nicks} {C : Chans} (hC : C.Member) (hp : Placed N C none) (n : NickRef)
    (c : ChanRef) (status : Status) : C.Narrows (C.join N n c status) := by
  obtain ⟨hb, hnick⟩ := join_index N C n c status
  intro c' hc' e he hn
  rw [(join_rest N C n c status).1] at hc'
  rw [hb] at he
  have hmem := (hp.index c' nofun hc' e.1 e.2 he).1
  rw [hnick e.2 fun h => hC.fresh.2 c' (h ▸ hmem)] at hn
  exact ⟨hc', he, hn⟩

theorem narrows_rebind {C : Chans} {n : NickRef} {cu : ChanUserRef} {cb : CBuddyRef}
    (hn : C.cuNick cu = n) (hu : n ≠ userRef) (old : CBuddyRef) : C.Narrows { C with
      cbuddies := update C.cbuddies c (((C.cbuddies c).erase old).insert cb cu) } := by
  intro c' hc' e he hnick
  refine ⟨hc', ?_, hnick⟩
  rcases eq_or_ne c' c with rfl | hne
  · simp only [update_self] at he
    rcases OrdMap.mem_insert.mp he with ⟨-, hcu⟩ | ⟨-, he⟩
    · rw [hcu] at hnick
      exact (hu (hn.symm.trans hnick)).elim
    · exact (OrdMap.mem_erase.mp he).1
  · simpa only [update_of_ne hne] using he

end Chans

namespace World

variable {P : Purple} {T : Terms} {w w' : World} {c : ChanRef} {cu : ChanUserRef}
  {cb h : CBuddyRef}

section Steps

/-- Only the presentation of participants can give the User another key. -/
theorem Change.narrows {s s' : Stage} (h : Change P T s s') (hok : s.1.Ok s.2)
    (hT : ¬ T.presents) : s.1.chans.Narrows s'.1.chans := by
  cases h with
  | setMode w c modes cu hcu => exact (Chans.sameStatus_setMode _ _ _ _ _).narrows
  | delMode w c modes cu hcu => exact (Chans.sameStatus_delMode _ _ _ _ _).narrows
  | names w c hc => exact (Chans.sameBut_sendNames w.nicks w.chans c userRef).sameStatus.narrows
  | join w n c status => exact Chans.narrows_join hok.member hok.placed n c status
  | leave w n c cu m hcu hc => exact Chans.narrows_leave hok.member hcu hc m
  | leaveChat w c cu m hcu hc => exact Chans.narrows_leave hok.member hcu hc m
  | quit w n text hn => exact Chans.narrows_quit hok.member n text
  | drop w d k n l hmem hn hlist hpeer => exact Chans.narrows_quit hok.member n _
  | release w c n cu hcu hn hk => exact Chans.narrows_release hok.member hcu hn
  | closed w c hc hv => exact Chans.narrows_remove hok.member c
  | closedChat w c v hc hv => exact Chans.narrows_remove hok.member c
  | newStatus w name hfree hhash => exact Chans.narrows_opened hok.listed name none none
  | newChat w a name channame up => exact Chans.narrows_opened hok.listed channame _ up
  | setCBuddy w c cb cu hv hcu hk hpresents => exact (hT hpresents).elim
  | rebound w c n cu cb hcu hn hv hk =>
    refine Chans.narrows_rebind hn ?_ _
    rintro rfl
    cases hok.table.userKind.symm.trans hk
  | _ => exact Chans.narrows_refl _

theorem Changes.narrows {s s' : Stage} (h : Changes P T s s') (hok : s.1.Ok s.2)
    (hT : ¬ T.presents) : s.1.chans.Narrows s'.1.chans := by
  induction h with
  | refl => exact Chans.narrows_refl _
  | tail hrest hstep ih => exact ih.trans (hstep.narrows (Changes.ok hrest hok) hT)

theorem OneKey.narrows (hn : w.chans.Narrows w'.chans)
    (hone : ∀ c, w.chans.alive c = true → w.OneKey c) (hc : w'.chans.alive c = true) :
    w'.OneKey c := by
  intro h hh h' hh'
  obtain ⟨cu, hmem, hnick⟩ := mem_userKeys.mp hh
  obtain ⟨cu', hmem', hnick'⟩ := mem_userKeys.mp hh'
  obtain ⟨hlive, hold, hn₁⟩ := hn c hc _ hmem hnick
  obtain ⟨-, hold', hn₂⟩ := hn c hc _ hmem' hnick'
  exact hone c hlive h (mem_userKeys.mpr ⟨cu, hold, hn₁⟩) h' (mem_userKeys.mpr ⟨cu', hold', hn₂⟩)

end Steps

section Presented

/-- What the presentation of one participant does to the keys of the User. -/
structure Presented (w w' : World) (c : ChanRef) (l : List CBuddyRef) : Prop where
  data : w'.data = w.data
  convs : w'.convs = w.convs
  registered : w'.registered = w.registered
  own : ∀ h, h ∈ w'.userKeys c ↔ h ∈ w.userKeys c ∨ h ∈ l ∧ w.data.cbMe h = true
  other : ∀ c', c' ≠ c → w'.chans.alive c' = true →
    w.chans.alive c' = true ∧ ∀ h, h ∈ w'.userKeys c' → h ∈ w.userKeys c'

theorem userKeys_join (hw : w.Ok none) (n : NickRef) (status : Status) {c' : ChanRef}
    (hc : w.chans.alive c' = true) : (w.join n c status).userKeys c' = w.userKeys c' := by
  obtain ⟨hb, hnick⟩ := Chans.join_index w.nicks w.chans n c status
  have hb' : (w.join n c status).chans.cbuddies = w.chans.cbuddies := hb
  unfold userKeys
  rw [hb']
  congr 1
  apply List.filter_congr
  intro e he
  have hmem := (hw.placed.index c' nofun hc e.1 e.2 he).1
  have hkeep : (w.join n c status).chans.cuNick e.2 = w.chans.cuNick e.2 :=
    hnick e.2 fun h => hw.member.fresh.2 c' (h ▸ hmem)
  rw [hkeep]

theorem mem_userKeys_setCBuddy : h ∈ (w.setCBuddy c cb cu).userKeys c ↔
    h = cb ∧ w.chans.cuNick cu = userRef ∨ h ≠ cb ∧ h ∈ w.userKeys c := by
  simp only [mem_userKeys, setCBuddy, update_self, OrdMap.mem_insert]
  constructor
  · rintro ⟨x, ⟨rfl, rfl⟩ | ⟨hne, hmem⟩, hn⟩
    · exact .inl ⟨rfl, hn⟩
    · exact .inr ⟨hne, x, hmem, hn⟩
  · rintro (⟨rfl, hn⟩ | ⟨hne, x, hmem, hn⟩)
    · exact ⟨cu, .inl ⟨rfl, rfl⟩, hn⟩
    · exact ⟨x, .inr ⟨hne, hmem⟩, hn⟩

theorem userKeys_setCBuddy {c' : ChanRef} (hne : c' ≠ c) :
    (w.setCBuddy c cb cu).userKeys c' = w.userKeys c' := by
  have hb : (w.setCBuddy c cb cu).chans.cbuddies c' = w.chans.cbuddies c' := update_of_ne hne _ _
  unfold userKeys
  rw [hb]
  rfl

/-- A key of the User is one it had, or the one it has just been presented under. -/
theorem presented_set {w₁ : World} (hc : w.chans.alive c = true) (hd : w₁.data = w.data)
    (hv : w₁.convs = w.convs) (hr : w₁.registered = w.registered)
    (ha : w₁.chans.alive = w.chans.alive)
    (hkeys : ∀ c', w.chans.alive c' = true → w₁.userKeys c' = w.userKeys c')
    (hcu : w₁.chans.cuNick cu = userRef ↔ cb ∈ w.userKeys c ∨ w.data.cbMe cb = true) :
    Presented w (w₁.setCBuddy c cb cu) c [cb] := by
  refine ⟨hd, hv, hr, fun x => ?_, fun c' hne hc' => ?_⟩
  · rw [mem_userKeys_setCBuddy, hkeys c hc, hcu, List.mem_singleton]
    rcases eq_or_ne x cb with rfl | hx <;> simp_all
  · have hlive : w₁.chans.alive c' = true := hc'
    rw [ha] at hlive
    rw [userKeys_setCBuddy hne, hkeys c' hlive]
    exact ⟨hlive, fun _ => id⟩

theorem addBuddy_presented (hw : w.Ok none) (hreg : w.registered = true)
    (hc : w.chans.alive c = true) (h : w.addBuddy P c cb = some w') : Presented w w' c [cb] := by
  let T : Terms := w.terms P .welcome
  unfold addBuddy at h
  dsimp only at h
  split at h
  · next hme =>
    obtain ⟨cu, hget, rfl⟩ := Option.map_eq_some_iff.mp h
    have hjoin : Goes P T w (w.join userRef c (w.data.cbFlags cb)) := by
      refine (Change.join w userRef c _ (hw.started hreg) hc hw.table.userAlive (.inl rfl) ?_).goes
      intro hk
      cases hw.table.userKind.symm.trans hk
    have hcu := ((hjoin.ok hw).join_member hget).2
    refine presented_set hc rfl rfl rfl (Chans.join_rest _ _ _ _ _).1
      (fun c' hc' => userKeys_join hw _ _ hc') ?_
    simp [hcu, hme]
  · next hme =>
    rw [Bool.not_eq_true] at hme
    split at h
    · next cu hcu =>
      obtain rfl := Option.some.inj h
      refine presented_set hc rfl rfl rfl rfl (fun _ _ => rfl) ?_
      have hmem := OrdMap.find?_eq_some.mp hcu
      simp only [hme, Bool.false_eq_true, or_false]
      constructor
      · exact fun hn => mem_userKeys.mpr ⟨cu, hmem, hn⟩
      · intro hkey
        obtain ⟨x, hx, hn⟩ := mem_userKeys.mp hkey
        rwa [OrdMap.mem_unique hmem hx]
    · next hnone =>
      obtain ⟨w₁, hnew, h⟩ := Option.bind_eq_some_iff.mp h
      obtain ⟨cu, hget, rfl⟩ := Option.map_eq_some_iff.mp h
      obtain ⟨hadd, hchans, hdata, hreg₁, hfresh, ha, hk, hcb⟩ :=
        newChatBuddy_goes (T := T) hw hreg hc hnew
      have hok := hadd.ok hw
      have hconvs : w₁.convs = w.convs := by
        obtain ⟨s, -, rfl⟩ := Option.map_eq_some_iff.mp hnew
        rfl
      have hjoin : Goes P T w₁ (w₁.join w.nicks.next c (w.data.cbFlags cb)) := by
        refine (Change.join w₁ w.nicks.next c _ (hok.started (hreg₁.trans hreg)) (hchans ▸ hc) ha
          (.inr ?_) fun _ => hfresh).goes
        rw [hk]
        rfl
      have hcu := ((hjoin.ok hok).join_member hget).2
      have hne : w.nicks.next ≠ userRef := fun he => hw.table.ne_next hw.table.userAlive he.symm
      refine presented_set hc hdata hconvs hreg₁ ?_ (fun c' hc' => ?_) ?_
      · exact (Chans.join_rest _ _ _ _ _).1.trans (congrArg Chans.alive hchans)
      · rw [userKeys_join hok _ _ (hchans ▸ hc')]
        unfold userKeys
        rw [hchans]
      · simp only [hcu, hne, hme, Bool.false_eq_true, or_false, false_iff]
        intro hkey
        obtain ⟨x, hx, -⟩ := mem_userKeys.mp hkey
        exact OrdMap.find?_eq_none.mp hnone x hx

theorem Presented.trans {w'' : World} {l l' : List CBuddyRef} (h : Presented w w' c l)
    (h' : Presented w' w'' c l') : Presented w w'' c (l ++ l') where
  data := h'.data.trans h.data
  convs := h'.convs.trans h.convs
  registered := h'.registered.trans h.registered
  own x := by
    rw [h'.own, h.own, h.data, List.mem_append]
    tauto
  other c' hne hc' := by
    obtain ⟨hlive, hsub⟩ := h'.other c' hne hc'
    obtain ⟨hlive', hsub'⟩ := h.other c' hne hlive
    exact ⟨hlive', fun x hx => hsub' x (hsub x hx)⟩

theorem addUsers_presented {l : List CBuddyRef} (hw : w.Ok none) (hreg : w.registered = true)
    (hv : w.chatChan v = some c) (h : l.foldlM (fun w cb =>
      match w.chatChan v with
      | some c => w.addBuddy P c cb
      | none => some w) w = some w') : Presented w w' c l := by
  induction l generalizing w with
  | nil =>
    obtain rfl := Option.some.inj h
    exact ⟨rfl, rfl, rfl, fun _ => by simp, fun _ _ hc' => ⟨hc', fun _ => id⟩⟩
  | cons cb l ih =>
    obtain ⟨w₁, h₁, hrest⟩ := Option.bind_eq_some_iff.mp (by simpa using h)
    rw [hv] at h₁
    obtain ⟨hlive, hconv⟩ := hw.chatChan hv
    have hone := addBuddy_presented hw hreg hlive h₁
    have hok := (addBuddy_goes (T := w.terms P (.addUsers v [cb])) hw hreg hlive hconv
      ⟨v, [cb], rfl⟩ h₁).1.ok hw
    have hv₁ : w₁.chatChan v = some c := by
      unfold World.chatChan
      rw [hone.convs]
      exact hv
    exact hone.trans (ih hok (hone.registered.trans hreg) hv₁ hrest)

end Presented

section Runs

/-- libpurple has one handle for the User in the chat: the key it is in the index under, if any. -/
def PresentedOnce (w : World) : Op → Prop
  | .addUsers v l => w.registered = true → ∀ c ∈ w.chatChan v,
      ∀ h ∈ w.userKeys c ++ l.filter w.data.cbMe,
        ∀ h' ∈ w.userKeys c ++ l.filter w.data.cbMe, h = h'
  | _ => True

instance (w : World) : DecidablePred w.PresentedOnce
  | .addUsers v l => inferInstanceAs (Decidable (w.registered = true → ∀ c ∈ w.chatChan v,
      ∀ h ∈ w.userKeys c ++ l.filter w.data.cbMe,
        ∀ h' ∈ w.userKeys c ++ l.filter w.data.cbMe, h = h'))
  | .data _ | .nick _ | .startUp _ | .welcome | .connected _ | .disconnected _ _
  | .createStatusChannel _ | .leaveStatusChannel _ | .updateNode _ | .buddyUpdated _
  | .removedNode _ | .newConversation _ _ | .recvMessage _ _ _ _ | .privmsg _ _ _ | .flush _
  | .deleteConversation _ | .newChat _ _ | .updateUser _ _ | .removeUser _ _ _ | .renameUser _ _ _
  | .topicChanged _ _ _ | .join _ | .part _ _ | .kick _ _ _ | .kill _ _ | .svsnick _ _ | .names _
  | .dccSend _ | .dccGet _ | .dccFinished _ | .dccUpdated => .isTrue trivial

theorem addUsers_oneKey {l : List CBuddyRef} (hw : w.Ok none)
    (hone : ∀ c, w.chans.alive c = true → w.OneKey c) (h : w.run P (.addUsers v l) = some w') :
    (∀ c, w'.chans.alive c = true → w'.OneKey c) ↔ w.PresentedOnce (.addUsers v l) := by
  simp only [run] at h
  split at h
  · next hreg =>
    obtain rfl := Option.some.inj h
    refine iff_of_true hone fun hreg' => ?_
    rw [hreg'] at hreg
    cases hreg
  · next hreg =>
    rw [Bool.not_eq_true', ← Bool.not_eq_true, not_not] at hreg
    simp only [runRegistered] at h
    cases hv : w.chatChan v with
    | none =>
      have hidle := Runs.foldlM_idle (l := l) (J := fun w : World => w.chatChan v = none)
        (f := fun (w : World) cb => match w.chatChan v with
          | some c => w.addBuddy P c cb
          | none => some w) (fun s hs _ _ => by rw [hs]) hv
      obtain rfl := Option.some.inj (h.symm.trans hidle)
      exact iff_of_true hone fun _ c hc => by cases hv.symm.trans hc
    | some c =>
      have hp := addUsers_presented hw hreg hv h
      have hgo := addUsers_goes (T := w.terms P (.addUsers v l)) hw hreg ⟨v, l, rfl⟩ h
      have hv' : w'.chatChan v = some c := by
        unfold World.chatChan
        rw [hp.convs]
        exact hv
      have hlive' := ((hgo.ok hw).chatChan hv').1
      have hmem : ∀ x, x ∈ w.userKeys c ++ l.filter w.data.cbMe ↔ x ∈ w'.userKeys c := fun x => by
        rw [hp.own, List.mem_append, List.mem_filter]
      constructor
      · rintro hone' - c₁ hc₁ x hx y hy
        obtain rfl := Option.some.inj (hv.symm.trans hc₁)
        exact hone' c hlive' x ((hmem x).mp hx) y ((hmem y).mp hy)
      · intro honce c' hc' x hx y hy
        rcases eq_or_ne c' c with rfl | hne
        · exact honce hreg c' hv x ((hmem x).mpr hx) y ((hmem y).mpr hy)
        · obtain ⟨hlive, hsub⟩ := hp.other c' hne hc'
          exact hone c' hlive x (hsub x hx) y (hsub y hy)

theorem run_oneKey {op : Op} (hw : w.Ok none) (hone : ∀ c, w.chans.alive c = true → w.OneKey c)
    (h : w.run P op = some w') :
    (∀ c, w'.chans.alive c = true → w'.OneKey c) ↔ w.PresentedOnce op := by
  by_cases hop : Presents op
  · obtain ⟨v, l, rfl⟩ := hop
    exact addUsers_oneKey hw hone h
  · have hnarrow := Changes.narrows (run_goes hw h) hw hop
    refine iff_of_true (fun c hc => OneKey.narrows hnarrow hone hc) ?_
    cases op with
    | addUsers v l => exact (hop ⟨v, l, rfl⟩).elim
    | _ => trivial

/-- In every state of a session the indices are kept, exactly as long as libpurple presents the
User of each chat under one handle. -/
theorem indices_kept_iff (P : Purple) {ops : List Op}
    (hrun : Runs.run (run P) initial ops = some w) :
    Runs.Throughout (run P) (fun w => ∀ c, w.chans.alive c = true → w.IndexKept c) initial ops ↔
      Runs.Along (run P) PresentedOnce initial ops := by
  refine Runs.throughout_iff_inv (I := fun w => w.Ok none) ?_ initial_ok nofun hrun
  intro w op w' hw hkept h
  have hw' := (run_goes hw h).ok hw
  refine ⟨fun _ => hw', ?_⟩
  have hone : ∀ c, w.chans.alive c = true → w.OneKey c := fun c hc =>
    (indexKept_iff hw hc).mp (hkept c hc)
  rw [← run_oneKey hw hone h]
  exact forall₂_congr fun c hc => indexKept_iff hw' hc

/-- The User is `alice`, who has two handles. -/
def aliceTwice : Purple where
  buddyAccount _ := 0
  buddyName _ := []
  cbAccount _ := 0
  cbName cb := if cb = 1 then str "bob" else str "alice"
  cbRealName _ := []
  translit _ := none

def aliceJoins : List Op :=
  [.nick (str "alice"), .startUp [], .welcome, .connected 0, .newChat 0 (str "lounge"),
    .data { cbMe := fun cb => cb != 1 }, .addUsers 0 [0, 1]]

theorem indices_kept_part :
    let ops := aliceJoins ++ [.removeUser 0 (str "bob") [], .removeUser 0 (str "alice") []]
    Runs.Throughout (run aliceTwice) (fun w => ∀ c, w.chans.alive c = true → w.IndexKept c)
      initial ops := by
  obtain ⟨w, hrun⟩ := Option.isSome_iff_exists.mp (show (Runs.run (run aliceTwice) initial
    (aliceJoins ++ [.removeUser 0 (str "bob") [], .removeUser 0 (str "alice") []])).isSome = true by
      decide)
  exact (indices_kept_iff aliceTwice hrun).mpr (by decide)

/-- After a second join two keys have the one `ChanUser` of the User. -/
theorem rejoin_doubles : ¬ ∀ (P : Purple) (ops : List Op) (w : World),
    Runs.run (run P) initial ops = some w →
      Runs.Throughout (run P) (fun w => ∀ c, w.chans.alive c = true → w.IndexKept c) initial ops := by
  intro h
  have hrun : Runs.run (run aliceTwice) initial (aliceJoins ++ [.addUsers 0 [2]]) =
      some (initial.runAll aliceTwice (aliceJoins ++ [.addUsers 0 [2]])) := rfl
  have hsingle := ((h _ _ _ hrun).last hrun 0 (by decide)).single
  have hidx : ((initial.runAll aliceTwice (aliceJoins ++ [.addUsers 0 [2]])).chans.cbuddies 0).entries =
      [(0, 0), (1, 1), (2, 0)] := by
    decide
  rw [hidx] at hsingle
  exact absurd (hsingle (0, 0) (by decide) (2, 0) (by decide) rfl) (by decide)

end Runs

end World
end Minbif
