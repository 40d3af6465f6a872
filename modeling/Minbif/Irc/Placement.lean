import Minbif.Irc.Membership
import Minbif.Irc.NickTable

/-! Which channels there are, and which nicks are on them. -/
namespace Minbif
open Function

namespace Chans

variable {N N' : Nicks} {C C' : Chans} {n : NickRef} {c : ChanRef} {cu : ChanUserRef}
  {d : Option ChanRef} {m : Message} {S : ChanUserRef → Bool} {text : Str}

/-- `IRC::channels` holds the live channels, and a name tells a chat from a status channel. -/
structure Listed (C : Chans) : Prop where
  full : ∀ c, C.users c ≠ [] → C.alive c = true
  bound : ∀ c, C.alive c = true → c < C.next
  table : ∀ k c, (k, c) ∈ C.table.entries ↔ C.alive c = true ∧ C.name c = k
  plain : ∀ c, C.alive c = true → C.conv c = none → (C.cbuddies c).entries = []
  hash : ∀ c, C.alive c = true → ((C.conv c).isSome = true ↔ (C.name c).head? = some '#')

theorem Listed.getChannel (h : C.Listed) {k : Str} : C.getChannel k = some c ↔
    C.alive c = true ∧ C.name c = k := by
  rw [Chans.getChannel, OrdMap.find?_eq_some, h.table]

theorem Listed.unlinked (h : C.Listed) (hu : Unlinked C C' S) (halive : C'.alive = C.alive)
    (hsub : ∀ c, ∀ e ∈ (C'.cbuddies c).entries, e ∈ (C.cbuddies c).entries) : C'.Listed where
  full c hne := by
    rw [halive]
    apply h.full
    intro he
    rw [hu.users, he] at hne
    exact hne rfl
  bound c hc := by
    rw [halive] at hc
    exact hu.next ▸ h.bound c hc
  table k c := by rw [hu.table, halive, hu.name, h.table]
  plain c hc hconv := by
    rw [halive] at hc
    rw [hu.conv] at hconv
    refine List.eq_nil_iff_forall_not_mem.mpr fun e he => ?_
    have := hsub c e he
    rw [h.plain c hc hconv] at this
    cases this
  hash c hc := by
    rw [halive] at hc
    rw [hu.conv, hu.name]
    exact h.hash c hc

/-- The members of channels are live nicks, and `cbuddies` names the participants. -/
structure Placed (N : Nicks) (C : Chans) (d : Option ChanRef) : Prop where
  nick : ∀ n, C.channels n ≠ [] →
    N.alive n = true ∧ (n = userRef ∨ (N.kind n).isConvNick = true)
  single : ∀ n, N.kind n = .chatBuddy →
    ∀ cu ∈ C.channels n, ∀ cu' ∈ C.channels n, cu = cu'
  /-- Not of the channel `d`, which is being destroyed. -/
  index : ∀ c, d ≠ some c → C.alive c = true → ∀ h cu, (h, cu) ∈ (C.cbuddies c).entries →
    cu ∈ C.users c ∧ (C.cuNick cu = userRef ∨
      N.kind (C.cuNick cu) = .chatBuddy ∧ N.cbuddy (C.cuNick cu) = h)

theorem Placed.ne_nil (h : Placed N C d) (hC : C.Member) (hcu : cu ∈ C.users c) :
    N.alive (C.cuNick cu) = true ∧
      (C.cuNick cu = userRef ∨ (N.kind (C.cuNick cu)).isConvNick = true) :=
  h.nick _ (List.ne_nil_of_mem (hC.bwd c cu hcu).2)

theorem Placed.congr (h : Placed N C d) (ha : N'.alive = N.alive) (hk : N'.kind = N.kind)
    (hc : N'.cbuddy = N.cbuddy) : Placed N' C d := by
  refine ⟨?_, ?_, ?_⟩
  · rw [ha, hk]
    exact h.nick
  · rw [hk]
    exact h.single
  · rw [hk, hc]
    exact h.index

/-- Members left, and no `cbuddies` names one that did. -/
theorem Placed.unlinked (h : Placed N C d) (hu : Unlinked C C' S)
    (halive : ∀ c, C'.alive c = true → C.alive c = true)
    (hsub : ∀ c, ∀ e ∈ (C'.cbuddies c).entries, e ∈ (C.cbuddies c).entries)
    (hgone : ∀ c, d ≠ some c → C'.alive c = true → ∀ h cu, (h, cu) ∈ (C'.cbuddies c).entries →
      S cu = false) : Placed N C' d where
  nick n hne := by
    apply h.nick
    intro he
    rw [hu.channels, he] at hne
    exact hne rfl
  single n hk cu hcu cu' hcu' := by
    rw [hu.channels, List.mem_filter] at hcu hcu'
    exact h.single n hk cu hcu.1 cu' hcu'.1
  index c hd hc x cu hmem := by
    have hold := h.index c hd (halive c hc) x cu (hsub c _ hmem)
    rw [hu.cuNick, hu.users, List.mem_filter, hgone c hd hc x cu hmem]
    exact ⟨⟨hold.1, rfl⟩, hold.2⟩

theorem withoutNick_sub {e : CBuddyRef × ChanUserRef} (he : e ∈ (C.withoutNick c n).entries) :
    e ∈ (C.cbuddies c).entries := by
  unfold withoutNick at he
  split at he
  · exact (OrdMap.mem_erase.mp he).1
  · exact he

/-- A `ChatBuddy` is in `cbuddies` once, so erasing its first entry erases it. -/
theorem Placed.withoutNick_gone (h : Placed N C d) (hd : d ≠ some c) (hc : C.alive c = true)
    {x : CBuddyRef} (hmem : (x, cu) ∈ (C.withoutNick c n).entries) (hn : n ≠ userRef) :
    C.cuNick cu ≠ n := by
  intro he
  have hkey : ∀ x cu, (x, cu) ∈ (C.cbuddies c).entries → C.cuNick cu = n → N.cbuddy n = x := by
    intro x cu hmem hcu
    have hidx := (h.index c hd hc x cu hmem).2
    rw [hcu] at hidx
    exact (hidx.resolve_left hn).2
  have hold := withoutNick_sub hmem
  cases hf : (C.cbuddies c).entries.find? fun e => C.cuNick e.2 = n with
  | none => simpa [he] using List.find?_eq_none.mp hf _ hold
  | some e =>
    have hen : C.cuNick e.2 = n := by simpa using List.find?_some hf
    simp only [withoutNick, hf] at hmem
    apply (OrdMap.mem_erase.mp hmem).2
    rw [← hkey x cu hold he, hkey e.1 e.2 (List.mem_of_find?_eq_some hf) hen]

/-- Where the `ChanUser` of a participant is, `cbuddies` is the one of its channel. -/
theorem Placed.chan_eq (h : Placed N C d) (hC : C.Member) (hd : d ≠ some c)
    (hc : C.alive c = true) {x : CBuddyRef} (hmem : (x, cu) ∈ (C.cbuddies c).entries) :
    C.cuChan cu = c ∧ cu ∈ C.channels (C.cuNick cu) :=
  hC.bwd c cu (h.index c hd hc x cu hmem).1

/-- Only a chat has participants. -/
theorem Listed.conv_isSome (h : C.Listed) (hc : C.alive c = true)
    {e : CBuddyRef × ChanUserRef} (he : e ∈ (C.cbuddies c).entries) :
    (C.conv c).isSome = true := by
  cases hv : C.conv c with
  | some v => rfl
  | none =>
    rw [h.plain c hc hv] at he
    cases he

/-- One `ChanUser` leaves, with the message its nick and the members get. -/
def leave (C : Chans) (c : ChanRef) (n : NickRef) (cu : ChanUserRef) (m : Message) : Chans :=
  ((C.dropChanUser n cu).send n (.msg m)).delUserVirtual c n (some m)

/-- A participant leaves the chat that is being destroyed. -/
def release (C : Chans) (c : ChanRef) (n : NickRef) (cu : ChanUserRef) : Chans :=
  (C.delUser c n none).removeChanUser n cu

/-- `delete chan`, and `IRC::removeChannel`. -/
def remove (C : Chans) (N : Nicks) (c : ChanRef) : Chans :=
  { C.deleteChan N c with table := (C.deleteChan N c).table.erase (C.name c) }

theorem leave_rest (C : Chans) (c : ChanRef) (n : NickRef) (cu : ChanUserRef) (m : Message) :
    (C.leave c n cu m).alive = C.alive ∧ (C.leave c n cu m).cbuddies = C.cbuddiesWithout c n := by
  unfold leave
  rw [send_eq, delUserVirtual_eq, delUser_eq]
  exact ⟨rfl, rfl⟩

theorem unlinked_leave' (hC : C.Member) (hcu : cu ∈ C.channels n) (hc : C.cuChan cu = c)
    (m : Message) : Unlinked C (C.leave c n cu m) (· == cu) :=
  unlinked_leave hC hcu hc _ (sameBut_send _ _ _) (some m)

theorem quit_alive (hC : C.Member) (n : NickRef) (text : Str) :
    (C.quit N n text).alive = C.alive := by
  obtain ⟨C', h, he⟩ := quitTo_quit (N := N) hC n text
  rw [he, h.same]

theorem cbuddiesWithout_sub {c' : ChanRef} {e : CBuddyRef × ChanUserRef}
    (he : e ∈ (C.cbuddiesWithout c n c').entries) : e ∈ (C.cbuddies c').entries := by
  unfold cbuddiesWithout at he
  split at he
  · rcases eq_or_ne c' c with rfl | hne
    · rw [update_self] at he
      exact withoutNick_sub he
    · rwa [update_of_ne hne] at he
  · exact he

theorem quit_cbuddies_sub (hC : C.Member) {c' : ChanRef} {e : CBuddyRef × ChanUserRef}
    (he : e ∈ ((C.quit N n text).cbuddies c').entries) : e ∈ (C.cbuddies c').entries := by
  rw [quit_cbuddies hC] at he
  split at he
  · exact withoutNick_sub he
  · exact he

theorem Placed.leave (h : Placed N C d) (hC : C.Member) (hL : C.Listed)
    (hcu : cu ∈ C.channels n) (hc : C.cuChan cu = c) (m : Message)
    (hn : n ≠ userRef ∨ C.conv c = none ∨ d = some c) : Placed N (C.leave c n cu m) d := by
  obtain ⟨ha, hb⟩ := leave_rest C c n cu m
  refine h.unlinked (unlinked_leave' hC hcu hc m) ?_ ?_ ?_
  · intro c' hc'
    rwa [ha] at hc'
  · intro c' e he
    rw [hb] at he
    exact cbuddiesWithout_sub he
  · intro c' hd hc' x cu' hmem
    rw [ha] at hc'
    rw [hb] at hmem
    have hold := cbuddiesWithout_sub hmem
    rw [beq_eq_false_iff_ne]
    rintro rfl
    have hcc := (h.chan_eq hC hd hc' hold).1
    rw [hc] at hcc
    subst hcc
    have hconv := hL.conv_isSome hc' hold
    simp only [cbuddiesWithout, hconv, if_true, update_self] at hmem
    rcases hn with hn | hv | hd'
    · exact h.withoutNick_gone hd hc' hmem hn (hC.fwd n _ hcu).1
    · rw [hv] at hconv
      cases hconv
    · exact hd hd'

theorem Placed.quit (h : Placed N C d) (hC : C.Member) (hL : C.Listed) (hn : n ≠ userRef)
    (text : Str) : Placed N (C.quit N n text) d := by
  have ha := quit_alive (N := N) hC n text
  refine h.unlinked (unlinked_quit hC n text) ?_ ?_ ?_
  · intro c' hc'
    rwa [ha] at hc'
  · intro c' e he
    exact quit_cbuddies_sub hC he
  · intro c' hd hc' x cu hmem
    rw [ha] at hc'
    have hold := quit_cbuddies_sub hC hmem
    by_contra hin
    rw [Bool.not_eq_false, List.contains_iff_mem] at hin
    have hcc := (h.chan_eq hC hd hc' hold).1
    have hconv := hL.conv_isSome hc' hold
    have hget : (C.getChanUser n c').isSome = true :=
      List.find?_isSome.mpr ⟨cu, hin, by simpa using hcc⟩
    rw [quit_cbuddies hC, hconv, hget] at hmem
    exact h.withoutNick_gone hd hc' hmem hn (hC.fwd n cu hin).1

theorem release_rest (C : Chans) (c : ChanRef) (n : NickRef) (cu : ChanUserRef) :
    (C.release c n cu).alive = C.alive ∧ (C.release c n cu).cbuddies = C.cbuddies := by
  unfold release removeChanUser
  rw [delUser_eq]
  exact ⟨rfl, rfl⟩

/-- `cbuddies` of the channel itself is not kept any more. -/
theorem Placed.release (h : Placed N C (some c)) (hC : C.Member) (hcu : cu ∈ C.users c)
    (hn : C.cuNick cu = n) : Placed N (C.release c n cu) (some c) := by
  obtain ⟨ha, hb⟩ := release_rest C c n cu
  refine h.unlinked (unlinked_release hC hcu hn) ?_ ?_ ?_
  · intro c' hc'
    rwa [ha] at hc'
  · intro c' e he
    rwa [hb] at he
  · intro c' hd hc' x cu' hmem
    rw [ha] at hc'
    rw [hb] at hmem
    rw [beq_eq_false_iff_ne]
    rintro rfl
    exact hd (congrArg some ((hC.bwd c _ hcu).1.symm.trans (h.chan_eq hC hd hc' hmem).1))

theorem unlinked_remove (hC : C.Member) (c : ChanRef) :
    Unlinked C { C.remove N c with table := C.table } (C.users c).contains := by
  have h := unlinked_deleteChan (N := N) hC c
  exact ⟨h.channels, h.users, h.cuNick, h.cuChan, h.cuStatus, h.cuAlive, h.nextCu, h.name, h.conv,
    rfl, h.next, h.upserver⟩

theorem remove_alive (hC : C.Member) (c : ChanRef) :
    (C.remove N c).alive = update C.alive c false :=
  (deleteChan_alive (N := N) hC c).1

theorem Placed.remove (h : Placed N C (some c)) (hC : C.Member) :
    Placed N (C.remove N c) none := by
  have halive := remove_alive (N := N) hC c
  have hne : ∀ c', (C.remove N c).alive c' = true → c' ≠ c ∧ C.alive c' = true := by
    intro c' hc'
    rw [halive] at hc'
    rcases eq_or_ne c' c with rfl | hne
    · simp at hc'
    · rw [update_of_ne hne] at hc'
      exact ⟨hne, hc'⟩
  have hcb : (C.remove N c).cbuddies = C.cbuddies := (deleteChan_alive (N := N) hC c).2
  have hp : Placed N { C.remove N c with table := C.table } (some c) := by
    refine h.unlinked (unlinked_remove hC c) (fun c' hc' => (hne c' hc').2) ?_ ?_
    · intro c' e he
      exact hcb ▸ he
    · intro c' hd hc' x cu hmem
      by_contra hin
      rw [Bool.not_eq_false, List.contains_iff_mem] at hin
      have hmem : (x, cu) ∈ (C.cbuddies c').entries := hcb ▸ hmem
      have hcc := (h.chan_eq hC hd (hne c' hc').2 hmem).1
      exact hd (congrArg some ((hC.bwd c cu hin).1.symm.trans hcc))
  refine ⟨hp.nick, hp.single, fun c' _ hc' => hp.index c' ?_ hc'⟩
  intro he
  exact (hne c' hc').1 (Option.some.inj he).symm

theorem Member.remove (hC : C.Member) (c : ChanRef) : (C.remove N c).Member := by
  have h := (unlinked_remove (N := N) hC c).member hC
  exact ⟨h.fwd, h.bwd, h.one, h.nodupChannels, h.nodupUsers, h.live, h.bound⟩

theorem Listed.remove (h : C.Listed) (hC : C.Member) (hlive : C.alive c = true) :
    (C.remove N c).Listed := by
  have hu := unlinked_remove (N := N) hC c
  have halive := remove_alive (N := N) hC c
  have hname : (C.remove N c).name = C.name := hu.name
  have hconv : (C.remove N c).conv = C.conv := hu.conv
  have hcb : (C.remove N c).cbuddies = C.cbuddies := (deleteChan_alive (N := N) hC c).2
  have hne : ∀ c', (C.remove N c).alive c' = true ↔ c' ≠ c ∧ C.alive c' = true := by
    intro c'
    rw [halive]
    rcases eq_or_ne c' c with rfl | hne
    · simp
    · simp [hne]
  refine ⟨?_, ?_, ?_, ?_, ?_⟩
  · intro c' hfull
    have hus : (C.remove N c).users c' = (C.users c').filter fun cu => !(C.users c).contains cu :=
      hu.users c'
    rw [hne]
    refine ⟨?_, h.full c' ?_⟩
    · rintro rfl
      apply hfull
      rw [hus]
      simp
    · intro he
      rw [hus, he] at hfull
      exact hfull rfl
  · intro c' hc'
    exact hu.next ▸ h.bound c' ((hne c').mp hc').2
  · intro k c'
    have hmem : (k, c') ∈ (C.remove N c).table.entries ↔
        (k, c') ∈ C.table.entries ∧ k ≠ C.name c := by
      unfold Chans.remove
      rw [(unlinked_deleteChan (N := N) hC c).table]
      exact OrdMap.mem_erase
    rw [hmem, h.table, hne, hname]
    constructor
    · rintro ⟨⟨hc', rfl⟩, hk⟩
      refine ⟨⟨?_, hc'⟩, rfl⟩
      rintro rfl
      exact hk rfl
    · rintro ⟨⟨hcc, hc'⟩, rfl⟩
      refine ⟨⟨hc', rfl⟩, fun hk => hcc ?_⟩
      have hmem' := (h.table _ c').mpr ⟨hc', hk⟩
      exact OrdMap.mem_unique hmem' ((h.table _ c).mpr ⟨hlive, rfl⟩)
  · intro c' hc' hv
    rw [hconv] at hv
    rw [hcb]
    exact h.plain c' ((hne c').mp hc').2 hv
  · intro c' hc'
    rw [hconv, hname]
    exact h.hash c' ((hne c').mp hc').2

theorem Placed.sameStatus (h : Placed N C d) (hs : SameStatus C C') : Placed N C' d := by
  rw [hs]
  exact ⟨h.nick, h.single, h.index⟩

theorem Listed.sameStatus (h : C.Listed) (hs : SameStatus C C') : C'.Listed := by
  rw [hs]
  exact ⟨h.full, h.bound, h.table, h.plain, h.hash⟩

theorem linkNew_cuNick {status : Status} (hcu : cu ≠ C.nextCu) :
    (C.linkNew c n status).cuNick cu = C.cuNick cu := by
  simp [linkNew, newChanUser, hcu]

theorem Placed.linkNew (h : Placed N C d) (hC : C.Member) (hn : N.alive n = true)
    (hkind : n = userRef ∨ (N.kind n).isConvNick = true)
    (hone : N.kind n = .chatBuddy → C.channels n = []) (status : Status) :
    Placed N (C.linkNew c n status) d := by
  refine ⟨?_, ?_, ?_⟩
  · intro n' hne
    rcases eq_or_ne n' n with rfl | hother
    · exact ⟨hn, hkind⟩
    · apply h.nick
      simpa [Chans.linkNew, hother] using hne
  · intro n' hk cu hcu cu' hcu'
    rcases mem_linkNew_channels.mp hcu with hold | ⟨rfl, rfl⟩ <;>
      rcases mem_linkNew_channels.mp hcu' with hold' | ⟨he, rfl⟩
    · exact h.single n' hk cu hold cu' hold'
    · subst he
      rw [hone hk] at hold
      cases hold
    · rw [hone hk] at hold'
      cases hold'
    · rfl
  · intro c' hd hc' x cu hmem
    have hold := h.index c' hd hc' x cu hmem
    have hne : cu ≠ C.nextCu := by
      rintro rfl
      exact hC.fresh.2 c' hold.1
    rw [linkNew_cuNick hne]
    exact ⟨mem_linkNew_users.mpr (.inl hold.1), hold.2⟩

theorem Listed.linkNew (h : C.Listed) (hc : C.alive c = true) (n : NickRef) (status : Status) :
    (C.linkNew c n status).Listed := by
  refine ⟨?_, h.bound, h.table, h.plain, h.hash⟩
  intro c' hfull
  rcases eq_or_ne c' c with rfl | hne
  · exact hc
  · apply h.full
    simpa [Chans.linkNew, newChanUser, hne] using hfull

theorem Placed.join (h : Placed N C d) (hC : C.Member) (hn : N.alive n = true)
    (hkind : n = userRef ∨ (N.kind n).isConvNick = true)
    (hone : N.kind n = .chatBuddy → C.channels n = []) (c : ChanRef) (status : Status) :
    Placed N (C.join N n c status) d := by
  cases hget : C.getChanUser n c with
  | some cu => exact h.sameStatus (join_old hget status)
  | none =>
    exact (h.linkNew hC hn hkind hone status).sameStatus (join_new hget status).sameStatus

theorem Listed.join (h : C.Listed) (hc : C.alive c = true) (n : NickRef) (status : Status) :
    (C.join N n c status).Listed := by
  cases hget : C.getChanUser n c with
  | some cu => exact h.sameStatus (join_old hget status)
  | none => exact (h.linkNew hc n status).sameStatus (join_new hget status).sameStatus

theorem join_rest (N : Nicks) (C : Chans) (n : NickRef) (c : ChanRef) (status : Status) :
    (C.join N n c status).alive = C.alive ∧ (C.join N n c status).conv = C.conv := by
  cases hget : C.getChanUser n c with
  | some cu =>
    rw [join_old (N := N) hget status]
    exact ⟨rfl, rfl⟩
  | none =>
    rw [join_new (N := N) hget status]
    exact ⟨rfl, rfl⟩

section NewChan

variable {name : Str} {v : Option ConvRef} {up : Option ServerRef}

/-- `new Channel` and `IRC::addChannel`. -/
def opened (C : Chans) (name : Str) (v : Option ConvRef) (up : Option ServerRef) : Chans :=
  (C.newChan name v up).addChannel C.next

theorem Listed.users_next (h : C.Listed) : C.users C.next = [] := by
  by_contra hne
  exact absurd (h.bound _ (h.full _ hne)) (Nat.lt_irrefl _)

theorem Listed.opened_users (h : C.Listed) : (C.opened name v up).users = C.users := by
  change update C.users C.next [] = C.users
  rw [← h.users_next, update_eq_self]

theorem opened_alive : (C.opened name v up).alive c = true ↔ c = C.next ∨ C.alive c = true := by
  rcases eq_or_ne c C.next with rfl | hne
  · simp [opened, addChannel, newChan]
  · simp [opened, addChannel, newChan, hne]

theorem opened_self : (C.opened name v up).conv C.next = v ∧
    (C.opened name v up).name C.next = name ∧
    ((C.opened name v up).cbuddies C.next).entries = [] := by
  simp [opened, addChannel, newChan]

theorem opened_other (hne : c ≠ C.next) : (C.opened name v up).conv c = C.conv c ∧
    (C.opened name v up).name c = C.name c ∧
    (C.opened name v up).cbuddies c = C.cbuddies c := by
  simp [opened, addChannel, newChan, hne]

theorem Listed.ne_next (h : C.Listed) (hc : C.alive c = true) : c ≠ C.next :=
  Nat.ne_of_lt (h.bound c hc)

theorem Member.opened (hC : C.Member) (h : C.Listed) : (C.opened name v up).Member := by
  have hu : (C.opened name v up).users = C.users := h.opened_users
  refine ⟨?_, ?_, hC.one, hC.nodupChannels, ?_, hC.live, hC.bound⟩
  · rw [hu]
    exact hC.fwd
  · rw [hu]
    exact hC.bwd
  · rw [hu]
    exact hC.nodupUsers

theorem Listed.opened (h : C.Listed) (hfree : C.getChannel name = none)
    (hhash : v.isSome = true ↔ name.head? = some '#') : (C.opened name v up).Listed := by
  have hu : (C.opened name v up).users = C.users := h.opened_users
  have hself := @opened_self C name v up
  refine ⟨?_, ?_, ?_, ?_, ?_⟩
  · intro c hfull
    rw [hu] at hfull
    exact opened_alive.mpr (.inr (h.full c hfull))
  · intro c hc
    change c < C.next + 1
    rcases opened_alive.mp hc with rfl | hc
    · exact Nat.lt_succ_self _
    · exact Nat.lt_succ_of_lt (h.bound c hc)
  · intro k c
    have hmem : (k, c) ∈ (C.opened name v up).table.entries ↔
        (k = name ∧ c = C.next) ∨ (k ≠ name ∧ (k, c) ∈ C.table.entries) := by
      have : (C.opened name v up).table = C.table.insert name C.next := by
        simp [Chans.opened, addChannel, newChan]
      rw [this]
      exact OrdMap.mem_insert
    rw [hmem, h.table, opened_alive]
    constructor
    · rintro (⟨rfl, rfl⟩ | ⟨-, hc, rfl⟩)
      · exact ⟨.inl rfl, hself.2.1⟩
      · exact ⟨.inr hc, (opened_other (h.ne_next hc)).2.1⟩
    · rintro ⟨rfl | hc, rfl⟩
      · exact .inl ⟨hself.2.1, rfl⟩
      · rw [(opened_other (h.ne_next hc)).2.1]
        refine .inr ⟨?_, hc, rfl⟩
        rintro rfl
        rw [h.getChannel.mpr ⟨hc, rfl⟩] at hfree
        cases hfree
  · intro c hc hv
    rcases opened_alive.mp hc with rfl | hc
    · exact hself.2.2
    · have ho := @opened_other C c name v up (h.ne_next hc)
      rw [ho.1] at hv
      rw [ho.2.2]
      exact h.plain c hc hv
  · intro c hc
    rcases opened_alive.mp hc with rfl | hc
    · rw [hself.1, hself.2.1]
      exact hhash
    · have ho := @opened_other C c name v up (h.ne_next hc)
      rw [ho.1, ho.2.1]
      exact h.hash c hc

theorem Placed.opened (h : Placed N C d) (hL : C.Listed) : Placed N (C.opened name v up) d := by
  have hu : (C.opened name v up).users = C.users := hL.opened_users
  refine ⟨h.nick, h.single, ?_⟩
  intro c hd hc x cu hmem
  rcases opened_alive.mp hc with rfl | hc
  · rw [opened_self.2.2] at hmem
    cases hmem
  · rw [(opened_other (hL.ne_next hc)).2.2] at hmem
    rw [hu]
    exact h.index c hd hc x cu hmem

end NewChan

section Index

variable {cb : CBuddyRef} {f : ChanRef → OrdMap CBuddyRef ChanUserRef}

theorem Listed.indexed (h : C.Listed) (hf : ∀ c, (C.conv c).isSome = false → f c = C.cbuddies c) :
    ({ C with cbuddies := f }).Listed := by
  refine ⟨h.full, h.bound, h.table, ?_, h.hash⟩
  intro c hc hv
  change (f c).entries = []
  have hnone : (C.conv c).isSome = false := by
    rw [show C.conv c = none from hv]
    rfl
  rw [hf c hnone]
  exact h.plain c hc hv

theorem Member.indexed (h : C.Member) : ({ C with cbuddies := f }).Member :=
  ⟨h.fwd, h.bwd, h.one, h.nodupChannels, h.nodupUsers, h.live, h.bound⟩

theorem Placed.setCBuddy (h : Placed N C d) (hcu : cu ∈ C.users c)
    (hk : C.cuNick cu = userRef ∨
      N.kind (C.cuNick cu) = .chatBuddy ∧ N.cbuddy (C.cuNick cu) = cb) :
    Placed N { C with cbuddies := update C.cbuddies c ((C.cbuddies c).insert cb cu) } d := by
  refine ⟨h.nick, h.single, ?_⟩
  intro c' hd hc' x cu' hmem
  rcases eq_or_ne c' c with rfl | hne
  · simp only [update_self] at hmem
    rcases OrdMap.mem_insert.mp hmem with ⟨rfl, rfl⟩ | ⟨-, hmem⟩
    · exact ⟨hcu, hk⟩
    · exact h.index c' hd hc' x cu' hmem
  · simp only [update_of_ne hne] at hmem
    exact h.index c' hd hc' x cu' hmem

/-- A `ChatBuddy` is on one channel, so only `cbuddies` there name it. -/
theorem Placed.rebind (h : Placed N C d) (hC : C.Member) (hcu : cu ∈ C.users c)
    (hn : C.cuNick cu = n) (hk : N.kind n = .chatBuddy) (hu : n ≠ userRef)
    (hf : f = update C.cbuddies c (((C.cbuddies c).erase (N.cbuddy n)).insert cb cu)) :
    Placed { N with cbuddy := update N.cbuddy n cb } { C with cbuddies := f } d := by
  have hcases : ∀ c' x cu', (x, cu') ∈ (f c').entries →
      (c' = c ∧ x = cb ∧ cu' = cu) ∨
        ((x, cu') ∈ (C.cbuddies c').entries ∧ (c' = c → x ≠ N.cbuddy n)) := by
    intro c' x cu' hmem
    rw [hf] at hmem
    rcases eq_or_ne c' c with rfl | hne
    · rw [update_self] at hmem
      rcases OrdMap.mem_insert.mp hmem with ⟨rfl, rfl⟩ | ⟨-, hmem⟩
      · exact .inl ⟨rfl, rfl, rfl⟩
      · exact .inr ⟨(OrdMap.mem_erase.mp hmem).1, fun _ => (OrdMap.mem_erase.mp hmem).2⟩
    · rw [update_of_ne hne] at hmem
      exact .inr ⟨hmem, fun he => (hne he).elim⟩
  obtain ⟨hcc, hch⟩ := hC.bwd c cu hcu
  refine ⟨h.nick, h.single, ?_⟩
  intro c' hd hc' x cu' hmem
  change _ ∧ (_ ∨ _ ∧ update N.cbuddy n cb (C.cuNick cu') = x)
  rcases hcases c' x cu' hmem with ⟨rfl, rfl, rfl⟩ | ⟨hold, hx⟩
  · rw [hn, update_self]
    exact ⟨hcu, .inr ⟨hk, rfl⟩⟩
  · have hidx := h.index c' hd hc' x cu' hold
    have hne : C.cuNick cu' ≠ n := by
      intro he
      obtain ⟨hcc', hch'⟩ := hC.bwd c' cu' hidx.1
      rw [he] at hch' hidx
      rw [hn] at hch
      have hsame := h.single n hk cu' hch' cu hch
      exact hx (by rw [← hcc', hsame, hcc]) (hidx.2.resolve_left hu).2.symm
    rw [update_of_ne hne]
    exact hidx

end Index

end Chans
end Minbif
