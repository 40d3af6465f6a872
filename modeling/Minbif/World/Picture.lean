import Minbif.World.Events

/-! What the client pictures is what the server has. -/
namespace Minbif
open Function

namespace World

variable {P : Purple} {T : Terms} {w w' : World} {d : Option ChanRef} {n : NickRef}
  {c c' : ChanRef} {cu : ChanUserRef} {W : View} {me : Str} {m : Message} {C' : Chans} {N' : Nicks}

/-- The view has the channels of the User, with their members; `d` is being destroyed. -/
structure Pictures (w : World) (W : View) (d : Option ChanRef) : Prop where
  here : ∀ c, w.chans.alive c = true →
    ((W (w.chans.name c)).isSome = true ↔ userRef ∈ w.chans.members c)
  same : ∀ c, w.chans.alive c = true → d ≠ some c → userRef ∈ w.chans.members c →
    W (w.chans.name c) = some (w.chans.picture w.nicks c)
  absent : ∀ s, w.chans.getChannel s = none → W s = none

theorem Ok.present (h : w.Ok d) (hcu : cu ∈ w.chans.users c) :
    w.nicks.Present (w.chans.cuNick cu) := h.placed.ne_nil h.member hcu

theorem Ok.name_inj (h : w.Ok d) (hc : w.chans.alive c = true) (hc' : w.chans.alive c' = true)
    (he : w.chans.name c = w.chans.name c') : c = c' := by
  have hget := h.listed.getChannel.mpr ⟨hc, he⟩
  rw [h.listed.getChannel.mpr ⟨hc', rfl⟩] at hget
  exact (Option.some.inj hget).symm

/-- Among the members a nickname stands for its nick. -/
theorem Ok.nickname_iff (h : w.Ok d) (hcu : cu ∈ w.chans.users c) (hn : w.nicks.Present n) :
    w.nicks.nickname (w.chans.cuNick cu) = w.nicks.nickname n ↔ w.chans.cuNick cu = n :=
  ⟨h.table.nickname_inj (h.present hcu) hn, fun he => he ▸ rfl⟩

theorem Ok.on_alive (h : w.Ok d) (hcu : cu ∈ w.chans.users c) : w.chans.alive c = true :=
  h.listed.full c (List.ne_nil_of_mem hcu)

/-- Nothing a client pictures is different. -/
theorem Pictures.congr (h : w.Pictures W d) (halive : w'.chans.alive = w.chans.alive)
    (hname : w'.chans.name = w.chans.name) (htable : w'.chans.table = w.chans.table)
    (hmem : ∀ c, userRef ∈ w'.chans.members c ↔ userRef ∈ w.chans.members c)
    (hpic : ∀ c, w.chans.alive c = true →
      w'.chans.picture w'.nicks c = w.chans.picture w.nicks c) : w'.Pictures W d where
  here c hc := by
    rw [halive] at hc
    rw [hname, hmem]
    exact h.here c hc
  same c hc hd hu := by
    rw [halive] at hc
    rw [hmem] at hu
    rw [hname, hpic c hc]
    exact h.same c hc hd hu
  absent s hs := by
    unfold Chans.getChannel at hs
    rw [htable] at hs
    exact h.absent s hs

/-- Members other than the User left, and the client heard of it on its channels. -/
theorem Pictures.unlinked {S : ChanUserRef → Bool} (h : w.Pictures W d)
    (hu : Chans.Unlinked w.chans C' S) (halive : C'.alive = w.chans.alive)
    (huser : ∀ c, ∀ cu ∈ w.chans.users c, w.chans.cuNick cu = userRef → S cu = false)
    {W' : View} (hother : ∀ s, W s = none → W' s = none)
    (hhere : ∀ c, w.chans.alive c = true →
      (W' (w.chans.name c)).isSome = (W (w.chans.name c)).isSome)
    (hpic : ∀ c, w.chans.alive c = true → d ≠ some c → userRef ∈ w.chans.members c →
      W' (w.chans.name c) = some (C'.picture w.nicks c)) :
    ({ w with chans := C' }).Pictures W' d := by
  have hmem : ∀ c, userRef ∈ C'.members c ↔ userRef ∈ w.chans.members c := by
    intro c
    rw [hu.mem_members, Chans.mem_members]
    constructor
    · rintro ⟨cu, hcu, he, -⟩
      exact ⟨cu, hcu, he⟩
    · rintro ⟨cu, hcu, he⟩
      exact ⟨cu, hcu, he, huser c cu hcu he⟩
  refine ⟨?_, ?_, ?_⟩
  · intro c hc
    change C'.alive c = true at hc
    rw [halive] at hc
    change (W' (C'.name c)).isSome = true ↔ userRef ∈ C'.members c
    rw [hmem, hu.name, hhere c hc]
    exact h.here c hc
  · intro c hc hd hon
    change C'.alive c = true at hc
    change userRef ∈ C'.members c at hon
    rw [halive] at hc
    rw [hmem] at hon
    change W' (C'.name c) = _
    rw [hu.name]
    exact hpic c hc hd hon
  · intro s hs
    change C'.table.find? s = none at hs
    rw [hu.table] at hs
    exact hother s (h.absent s hs)

theorem Pictures.say {l : List Sent} (h : w.Pictures W d) (hl : ∀ s ∈ l, s.Quiet) :
    ({ w with chans := { w.chans with sent := w.chans.sent ++ l } }).Pictures
      (l.foldl (View.see me) W) d := by
  rw [View.foldl_quiet hl]
  exact h.congr rfl rfl rfl (fun _ => Iff.rfl) fun _ _ => rfl

/-- The client hears of a leave what `gone` makes of it. -/
theorem see_tells (hm : w.Tells m n c) :
    View.see me W (.msg m) = W.gone me (w.chans.name c) (w.nicks.nickname n) := by
  obtain ⟨hr, -, hcase⟩ := hm
  have hchan : m.receiver.getName = w.chans.name c := by
    rw [hr]
    rfl
  rcases hcase with ⟨hcmd, hs⟩ | ⟨hcmd, -, ha⟩
  · have hsender : m.sender.getName = w.nicks.nickname n := by
      rw [hs]
      rfl
    rw [View.see_part hcmd, hchan, hsender]
  · have hhead : m.args.headD [] = w.nicks.nickname n := by
      rw [List.headD_eq_head?_getD, ha]
      rfl
    rw [View.see_kick hcmd, hchan, hhead]

/-- Another nick leaves a channel. -/
theorem Pictures.leave (hok : w.Ok d) (h : w.Pictures W d) (hme : w.nicks.nickname userRef = me)
    (hcu : cu ∈ w.chans.channels n) (hc : w.chans.cuChan cu = c) (hm : w.Tells m n c)
    (hn : n ≠ userRef) : ({ w with chans := w.chans.leave c n cu m }).Pictures
      ((Chans.copyFor (w.chans.members c) (.msg m)).foldl (View.see me) W) d := by
  have hmem := hok.member.mem_users hcu hc
  have hcn := (hok.member.fwd n cu hcu).1
  have hpres := hok.present hmem
  rw [hcn] at hpres
  have huser : w.nicks.Present userRef := ⟨hok.table.userAlive, .inl rfl⟩
  have hnick : w.nicks.nickname n ≠ me := by
    intro he
    exact hn (hok.table.nickname_inj hpres huser (he.trans hme.symm))
  have hlive := hok.on_alive hmem
  refine h.unlinked (Chans.unlinked_leave' hok.member hcu hc m)
    (Chans.leave_rest w.chans c n cu m).1 ?_ ?_ ?_ ?_
  · intro c' x hx he
    rw [beq_eq_false_iff_ne]
    rintro rfl
    exact hn (hcn.symm.trans he)
  all_goals
    unfold Chans.copyFor
    split
  · next hon =>
    intro s hs
    rw [List.foldl_cons, List.foldl_nil, see_tells hm, View.gone_other hnick]
    exact View.alter_eq_none hs
  · exact fun s hs => hs
  · next hon =>
    intro c' hc'
    rw [List.foldl_cons, List.foldl_nil, see_tells hm, View.gone_other hnick, View.alter_isSome]
  · exact fun c' _ => rfl
  · next hon =>
    intro c' hc' hd hon'
    rw [List.foldl_cons, List.foldl_nil, see_tells hm, View.gone_other hnick]
    have hu := Chans.unlinked_leave' hok.member hcu hc m
    rcases eq_or_ne c' c with rfl | hne
    · rw [View.alter_self, h.same c' hc' hd hon', Option.map_some, hu.picture]
      intro x hx
      rw [hok.nickname_iff hx hpres, beq_iff_eq, ← hcn]
      exact (hok.member.users_nick hmem hx).symm
    · have hname : w.chans.name c' ≠ w.chans.name c := fun he => hne (hok.name_inj hc' hlive he)
      rw [View.alter_of_ne hname, h.same c' hc' hd hon', hu.picture_eq]
      intro x hx
      rw [beq_eq_false_iff_ne]
      rintro rfl
      exact hne ((hok.member.bwd c' x hx).1.symm.trans hc)
  · next hon =>
    intro c' hc' hd hon'
    have hne : c' ≠ c := by
      rintro rfl
      exact hon hon'
    have hu := Chans.unlinked_leave' hok.member hcu hc m
    rw [List.foldl_nil, h.same c' hc' hd hon', hu.picture_eq]
    intro x hx
    rw [beq_eq_false_iff_ne]
    rintro rfl
    exact hne ((hok.member.bwd c' x hx).1.symm.trans hc)

/-- The User leaves a channel, which the client drops then. -/
theorem Pictures.leave_user (hok : w.Ok none) (h : w.Pictures W none)
    (hme : w.nicks.nickname userRef = me) (hcu : cu ∈ w.chans.channels userRef)
    (hc : w.chans.cuChan cu = c) (hm : w.Tells m userRef c) :
    ({ w with chans := w.chans.leave c userRef cu m }).Pictures (View.see me W (.msg m)) none := by
  have hu := Chans.unlinked_leave' hok.member hcu hc m
  have ha := (Chans.leave_rest w.chans c userRef cu m).1
  have hmem := hok.member.mem_users hcu hc
  have hcn := (hok.member.fwd _ cu hcu).1
  have hlive := hok.on_alive hmem
  rw [see_tells hm, hme, View.gone_self]
  have hname : ∀ c', w.chans.alive c' = true → c' ≠ c → w.chans.name c' ≠ w.chans.name c :=
    fun c' hc' hne he => hne (hok.name_inj hc' hlive he)
  have hstay : ∀ c', c' ≠ c → ∀ x ∈ w.chans.users c', (x == cu) = false := by
    intro c' hne x hx
    rw [beq_eq_false_iff_ne]
    rintro rfl
    exact hne ((hok.member.bwd c' x hx).1.symm.trans hc)
  have hleft : userRef ∉ (w.chans.leave c userRef cu m).members c := by
    rw [hu.mem_members]
    rintro ⟨x, hx, he, hne⟩
    rw [beq_eq_false_iff_ne] at hne
    exact hne ((hok.member.users_nick hmem hx).mp (he.trans hcn.symm))
  have hother : ∀ c', c' ≠ c → (userRef ∈ (w.chans.leave c userRef cu m).members c' ↔
      userRef ∈ w.chans.members c') := by
    intro c' hne
    rw [hu.mem_members, Chans.mem_members]
    constructor
    · rintro ⟨x, hx, he, -⟩
      exact ⟨x, hx, he⟩
    · rintro ⟨x, hx, he⟩
      exact ⟨x, hx, he, hstay c' hne x hx⟩
  refine ⟨?_, ?_, ?_⟩
  · intro c' hc'
    change (w.chans.leave c userRef cu m).alive c' = true at hc'
    rw [ha] at hc'
    change (update W _ none ((w.chans.leave c userRef cu m).name c')).isSome = true ↔ _
    rw [hu.name]
    rcases eq_or_ne c' c with rfl | hne
    · rw [update_self]
      exact ⟨nofun, fun hon => (hleft hon).elim⟩
    · rw [update_of_ne (hname c' hc' hne)]
      exact (h.here c' hc').trans (hother c' hne).symm
  · intro c' hc' hd hon
    change (w.chans.leave c userRef cu m).alive c' = true at hc'
    rw [ha] at hc'
    change update W _ none ((w.chans.leave c userRef cu m).name c') = _
    have hne : c' ≠ c := by
      rintro rfl
      exact hleft hon
    rw [hu.name, update_of_ne (hname c' hc' hne), h.same c' hc' hd ((hother c' hne).mp hon)]
    exact congrArg some (hu.picture_eq (hstay c' hne)).symm
  · intro s hs
    change (w.chans.leave c userRef cu m).table.find? s = none at hs
    rw [hu.table] at hs
    rcases eq_or_ne s (w.chans.name c) with rfl | hne
    · rw [update_self]
    · rw [update_of_ne hne]
      exact h.absent s hs

/-- A channel that is being destroyed is only required to be there. -/
theorem Pictures.opened (h : w.Pictures W none) (c : ChanRef) : w.Pictures W (some c) :=
  ⟨h.here, fun c' hc' _ => h.same c' hc' nofun, h.absent⟩

/-- A nick leaves all its channels, as the client hears if it is on one of them. -/
theorem Pictures.quit (hok : w.Ok d) (h : w.Pictures W d) (me : Str) (hn : n ≠ userRef)
    (text : Str) :
    (w.quit n text).Pictures ((if ∃ cu ∈ w.chans.channels n,
        userRef ∈ w.chans.members (w.chans.cuChan cu)
      then [.msg { cmd := str "QUIT", sender := w.nicks.entity n, args := [text] }]
      else []).foldl (View.see me) W) d := by
  have hu := Chans.unlinked_quit (N := w.nicks) hok.member n text
  have huser : ∀ c, ∀ cu ∈ w.chans.users c, w.chans.cuNick cu = userRef →
      (w.chans.channels n).contains cu = false := by
    intro c x _ he
    rw [← Bool.not_eq_true, List.contains_iff_mem]
    intro hin
    exact hn ((hok.member.fwd n x hin).1.symm.trans he)
  split
  · next hshare =>
    obtain ⟨cu, hcu, -⟩ := hshare
    have hpres : w.nicks.Present n := hok.placed.nick n (List.ne_nil_of_mem hcu)
    rw [List.foldl_cons, List.foldl_nil, View.see_quit rfl]
    refine h.unlinked hu (Chans.quit_alive hok.member n text) huser ?_ ?_ ?_
    · intro s hs
      rw [hs]
      rfl
    · intro c _
      rw [Option.isSome_map]
    · intro c hc hd hon
      rw [h.same c hc hd hon, Option.map_some, hu.picture]
      intro x hx
      rw [List.contains_iff_mem]
      refine Iff.trans ?_ (hok.nickname_iff hx hpres).symm
      refine ⟨fun hin => (hok.member.fwd n x hin).1, ?_⟩
      rintro rfl
      exact (hok.member.bwd c x hx).2
  · next hshare =>
    refine h.unlinked hu (Chans.quit_alive hok.member n text) huser (fun s hs => hs)
      (fun c _ => rfl) ?_
    intro c hc hd hon
    rw [List.foldl_nil, h.same c hc hd hon, hu.picture_eq]
    intro x hx
    rw [← Bool.not_eq_true, List.contains_iff_mem]
    intro hin
    exact hshare ⟨x, hin, (hok.member.bwd c x hx).1.symm ▸ hon⟩

/-- The participants that a destroyed chat lets go leave without a word. -/
theorem Pictures.release (hok : w.Ok (some c)) (h : w.Pictures W (some c))
    (hcu : cu ∈ w.chans.users c) (hn : w.chans.cuNick cu = n) (hu : n ≠ userRef) :
    ({ w with chans := w.chans.release c n cu }).Pictures W (some c) := by
  have hleft := Chans.unlinked_release hok.member hcu hn
  refine h.unlinked hleft (Chans.release_rest w.chans c n cu).1 ?_ (fun s hs => hs)
    (fun c _ => rfl) ?_
  · intro c' x _ he
    rw [beq_eq_false_iff_ne]
    rintro rfl
    exact hu (hn.symm.trans he)
  · intro c' hc' hd hon
    rw [h.same c' hc' hd hon, hleft.picture_eq]
    intro x hx
    rw [beq_eq_false_iff_ne]
    rintro rfl
    exact hd (congrArg some ((hok.member.bwd c x hcu).1.symm.trans (hok.member.bwd c' x hx).1))

/-- A destroyed channel goes from the table and from the view. -/
theorem Pictures.remove (hok : w.Ok (some c)) (h : w.Pictures W (some c))
    (hme : w.nicks.nickname userRef = me) (hc : w.chans.alive c = true) {V : Convs} :
    ({ w with chans := w.chans.remove w.nicks c, convs := V }).Pictures
      ((Chans.copyFor (w.chans.members c) (.msg (Chans.partMessage w.nicks w.chans c))).foldl
        (View.see me) W) none := by
  have hu := Chans.unlinked_remove (N := w.nicks) hok.member c
  have halive := Chans.remove_alive (N := w.nicks) hok.member c
  have hname : (w.chans.remove w.nicks c).name = w.chans.name := hu.name
  have hW : (Chans.copyFor (w.chans.members c) (.msg (Chans.partMessage w.nicks w.chans c))).foldl
      (View.see me) W = update W (w.chans.name c) none := by
    unfold Chans.copyFor
    split
    · have hsender : (Chans.partMessage w.nicks w.chans c).sender.getName = me := hme
      rw [List.foldl_cons, List.foldl_nil, View.see_part rfl, hsender, View.gone_self]
      rfl
    · next hon =>
      have hnone : W (w.chans.name c) = none := by
        rw [← Option.not_isSome_iff_eq_none]
        exact fun hs => hon ((h.here c hc).mp hs)
      rw [List.foldl_nil, ← hnone, update_eq_self]
  have hne : ∀ c', (w.chans.remove w.nicks c).alive c' = true →
      c' ≠ c ∧ w.chans.alive c' = true := by
    intro c' hc'
    rw [halive] at hc'
    rcases eq_or_ne c' c with rfl | hne
    · simp at hc'
    · rw [update_of_ne hne] at hc'
      exact ⟨hne, hc'⟩
  have hstay : ∀ c', c' ≠ c → ∀ x ∈ w.chans.users c', (w.chans.users c).contains x = false := by
    intro c' hcc x hx
    rw [← Bool.not_eq_true, List.contains_iff_mem]
    intro hin
    exact hcc ((hok.member.bwd c' x hx).1.symm.trans (hok.member.bwd c x hin).1)
  have hmem : ∀ c', c' ≠ c → (userRef ∈ (w.chans.remove w.nicks c).members c' ↔
      userRef ∈ w.chans.members c') := by
    intro c' hcc
    refine (hu.mem_members c' userRef).trans ?_
    rw [Chans.mem_members]
    constructor
    · rintro ⟨x, hx, he, -⟩
      exact ⟨x, hx, he⟩
    · rintro ⟨x, hx, he⟩
      exact ⟨x, hx, he, hstay c' hcc x hx⟩
  rw [hW]
  refine ⟨?_, ?_, ?_⟩
  · intro c' hc'
    obtain ⟨hcc, hc'⟩ := hne c' hc'
    have hnn : w.chans.name c' ≠ w.chans.name c := fun he => hcc (hok.name_inj hc' hc he)
    change (update W _ none ((w.chans.remove w.nicks c).name c')).isSome = true ↔ _
    rw [hname, update_of_ne hnn]
    exact (h.here c' hc').trans (hmem c' hcc).symm
  · intro c' hc' _ hon
    obtain ⟨hcc, hc'⟩ := hne c' hc'
    have hnn : w.chans.name c' ≠ w.chans.name c := fun he => hcc (hok.name_inj hc' hc he)
    change update W _ none ((w.chans.remove w.nicks c).name c') = _
    rw [hname, update_of_ne hnn, h.same c' hc' (fun he => hcc (Option.some.inj he).symm)
      ((hmem c' hcc).mp hon)]
    exact congrArg some (hu.picture_eq (hstay c' hcc)).symm
  · intro s hs
    rcases eq_or_ne s (w.chans.name c) with rfl | hnn
    · rw [update_self]
    · rw [update_of_ne hnn]
      apply h.absent
      have htable : (w.chans.remove w.nicks c).table = w.chans.table.erase (w.chans.name c) := by
        unfold Chans.remove
        rw [(Chans.unlinked_deleteChan (N := w.nicks) hok.member c).table]
      change (w.chans.remove w.nicks c).table.find? s = none at hs
      rwa [htable, OrdMap.find?_erase_of_ne hnn] at hs

/-- One member has other modes, and the client on the channel hears of it. -/
theorem Pictures.mode (hok : w.Ok none) (h : w.Pictures W none) (hcu : cu ∈ w.chans.users c)
    (add : Bool) {modes status : Status} (hstatus : modeSet status = if add
      then modeSet (w.chans.cuStatus cu) ∪ modeSet modes
      else modeSet (w.chans.cuStatus cu) \ modeSet modes) (l : List Sent) :
    ({ w with chans := { w.chans with
        cuStatus := update w.chans.cuStatus cu status, sent := l } }).Pictures
      ((Chans.copyFor (w.chans.members c)
        (.msg (Chans.modeMessage w.nicks w.chans c add modes cu))).foldl (View.see me) W) none := by
  let C' : Chans := { w.chans with cuStatus := update w.chans.cuStatus cu status, sent := l }
  have hother : ∀ c', c' ≠ c → C'.picture w.nicks c' = w.chans.picture w.nicks c' := by
    intro c' hne
    apply List.map_congr_left
    intro x hx
    have hxc : x ≠ cu := by
      rintro rfl
      exact hne ((hok.member.bwd c' x hx).1.symm.trans (hok.member.bwd c x hcu).1)
    simp only [C', update_of_ne hxc]
  have hself : C'.picture w.nicks c = (w.chans.picture w.nicks c).modes
      (Chans.modeMessage w.nicks w.chans c add modes cu).args := by
    unfold Chans.picture Chans.modeMessage
    dsimp only
    rw [Roster.modes_eq, List.map_map]
    apply List.map_congr_left
    intro x hx
    have hiff := (hok.nickname_iff hx (hok.present hcu)).trans (hok.member.users_nick hcu hx)
    rcases eq_or_ne x cu with rfl | hne
    · simp [C', hstatus]
    · simp [C', hne, hiff]
  have hsee : View.see me W (.msg (Chans.modeMessage w.nicks w.chans c add modes cu)) =
      W.alter (w.chans.name c)
        (Roster.modes (Chans.modeMessage w.nicks w.chans c add modes cu).args) := View.see_mode rfl
  have hlive := hok.on_alive hcu
  unfold Chans.copyFor
  split
  · rw [List.foldl_cons, List.foldl_nil, hsee]
    refine ⟨?_, ?_, ?_⟩
    · intro c' hc'
      rw [View.alter_isSome]
      exact h.here c' hc'
    · intro c' hc' hd hon
      have hold := h.same c' hc' hd hon
      change W.alter _ _ (w.chans.name c') = some (C'.picture w.nicks c')
      rcases eq_or_ne c' c with rfl | hne
      · rw [View.alter_self, hold, Option.map_some, hself]
      · rw [View.alter_of_ne fun he => hne (hok.name_inj hc' hlive he), hold, hother c' hne]
    · intro s hs
      exact View.alter_eq_none (h.absent s hs)
  · next hon =>
    refine ⟨h.here, ?_, h.absent⟩
    intro c' hc' hd hon'
    have hne : c' ≠ c := by
      rintro rfl
      exact hon hon'
    exact (h.same c' hc' hd hon').trans (congrArg some (hother c' hne).symm)

theorem Pictures.setMode (hok : w.Ok none) (h : w.Pictures (View.replay me w.chans.sent) none)
    (hcu : cu ∈ w.chans.users c) (modes : Status) :
    ({ w with chans := w.chans.setMode w.nicks c modes cu }).Pictures
      (View.replay me (w.chans.setMode w.nicks c modes cu).sent) none := by
  by_cases hm : modes = 0
  · have heq : w.chans.setMode w.nicks c modes cu = w.chans := if_pos hm
    rw [heq]
    exact h
  · rw [Chans.setMode_eq hok.member c hm cu, View.replay_append]
    exact h.mode hok hcu true modeSet_or _

theorem Pictures.delMode (hok : w.Ok none) (h : w.Pictures (View.replay me w.chans.sent) none)
    (hcu : cu ∈ w.chans.users c) (modes : Status) :
    ({ w with chans := w.chans.delMode w.nicks c modes cu }).Pictures
      (View.replay me (w.chans.delMode w.nicks c modes cu).sent) none := by
  by_cases hm : modes = 0
  · have heq : w.chans.delMode w.nicks c modes cu = w.chans := if_pos hm
    rw [heq]
    exact h
  · rw [Chans.delMode_eq hok.member c hm cu, View.replay_append]
    exact h.mode hok hcu false modeSet_diff _

section Join

variable {status : Status}

theorem names_entries (N : Nicks) (C : Chans) (c : ChanRef) :
    (((C.users c).map fun cu => (getPrefix (C.cuStatus cu), N.nickname (C.cuNick cu))).map
      fun e => (e.2, prefixSet e.1)) = C.picture N c := by
  rw [List.map_map]
  apply List.map_congr_left
  intro cu _
  simp [prefixSet_getPrefix]

/-- The client is told who is on a channel it is on. -/
theorem see_names {N : Nicks} {C : Chans} {l : List Sent} (hl : ∀ s ∈ l, s.Quiet) :
    (Sent.names (C.name c) ((C.users c).map fun cu =>
        (getPrefix (C.cuStatus cu), N.nickname (C.cuNick cu))) :: l).foldl (View.see me) W =
      W.alter (C.name c) fun _ => C.picture N c := by
  rw [List.foldl_cons, View.foldl_quiet hl, View.see, names_entries]

/-- The channel that the User joins. -/
theorem see_join_user (hme : w.nicks.nickname userRef = me) :
    ((w.chans.linkNew c userRef status).announced w.nicks c userRef status w.chans.nextCu ++
        (w.chans.linkNew c userRef status).welcomed w.nicks c userRef).foldl (View.see me) W =
      update W (w.chans.name c)
        (some ((w.chans.linkNew c userRef status).picture w.nicks c)) := by
  have hsender : (w.nicks.entity userRef).getName = me := hme
  have hquiet : ∀ (b : Prop) [Decidable b] (m : Message), m.cmd ∉ viewCmds →
      ∀ s ∈ (if b then [] else [Sent.msg m]), s.Quiet := by
    intro b _ m hm s hs
    split at hs
    · cases hs
    · exact List.mem_singleton.mp hs ▸ hm
  have hann : (w.chans.linkNew c userRef status).announced w.nicks c userRef status w.chans.nextCu =
      [.msg (Chans.joinMessage w.nicks w.chans c userRef)] := by
    unfold Chans.announced
    rw [if_neg fun he => he.2 rfl]
    rfl
  have h332 : str "332" ∉ viewCmds := by decide
  have h366 : str "366" ∉ viewCmds := by decide
  rw [hann, List.singleton_append, List.foldl_cons, View.see_join rfl, Chans.joinMessage,
    if_pos hsender, Chans.welcomed, List.foldl_append, View.foldl_quiet (hquiet _ _ h332), see_names]
  · funext s
    change View.alter (update W (w.chans.name c) (some [])) (w.chans.name c) _ s = _
    rcases eq_or_ne s (w.chans.name c) with rfl | hne
    · rw [View.alter_self, update_self, update_self]
      rfl
    · rw [View.alter_of_ne hne, update_of_ne hne, update_of_ne hne]
  · intro s hs
    rw [List.mem_singleton.mp hs]
    exact h366

/-- The roster of a channel that the client is on, when another nick joins it. -/
theorem see_join_other (hnick : w.nicks.nickname n ≠ me) (hn : n ≠ userRef) {r : Roster}
    (hr : W (w.chans.name c) = some r) (hnew : ∀ e ∈ r, e.1 ≠ w.nicks.nickname n) :
    ((w.chans.linkNew c n status).announced w.nicks c n status w.chans.nextCu).foldl
        (View.see me) W =
      update W (w.chans.name c) (some (r ++ [(w.nicks.nickname n, modeSet status)])) := by
  have hjoin : View.see me W (.msg (Chans.joinMessage w.nicks w.chans c n)) =
      update W (w.chans.name c) (some (r ++ [(w.nicks.nickname n, ∅)])) := by
    have hsender : (Chans.joinMessage w.nicks w.chans c n).sender.getName = w.nicks.nickname n := rfl
    rw [View.see_join rfl, hsender, if_neg hnick]
    change W.alter (w.chans.name c) _ = _
    rw [View.alter, hr, Option.map_some]
  have hstatus : (w.chans.linkNew c n status).cuStatus w.chans.nextCu = status := by
    simp [Chans.linkNew, Chans.newChanUser]
  have hcn : (w.chans.linkNew c n status).cuNick w.chans.nextCu = n := by
    simp [Chans.linkNew, Chans.newChanUser]
  unfold Chans.announced
  rw [List.foldl_cons]
  change List.foldl (View.see me)
    (View.see me W (.msg (Chans.joinMessage w.nicks w.chans c n))) _ = _
  rw [hjoin]
  by_cases hs : status = 0
  · rw [if_neg fun he => he.1 hs, List.foldl_nil, hs, modeSet_zero]
  · rw [if_pos ⟨hs, hn.symm⟩, List.foldl_cons, List.foldl_nil, View.see_mode rfl]
    change View.alter _ (w.chans.name c) _ = _
    rw [View.alter, update_self, update_idem, Option.map_some, Chans.modeMessage]
    dsimp only
    rw [Roster.modes_eq, hstatus, hcn, List.map_append]
    congr 3
    · rw [List.map_congr_left (g := id)]
      · exact List.map_id r
      · intro e he
        simp [hnew e he]
    · simp

theorem linkNew_picture {N : Nicks} {C : Chans} (hC : C.Member) :
    (C.linkNew c n status).picture N c = C.picture N c ++ [(N.nickname n, modeSet status)] := by
  unfold Chans.picture
  have husers : (C.linkNew c n status).users c = C.users c ++ [C.nextCu] := by
    simp [Chans.linkNew, Chans.newChanUser]
  rw [husers, List.map_append]
  congr 1
  · apply List.map_congr_left
    intro cu hcu
    have hne : cu ≠ C.nextCu := by
      rintro rfl
      exact hC.fresh.2 c hcu
    simp [Chans.linkNew, Chans.newChanUser, hne]
  · simp [Chans.linkNew, Chans.newChanUser]

theorem linkNew_picture_other {N : Nicks} {C : Chans} (hC : C.Member) (hne : c' ≠ c) :
    (C.linkNew c n status).picture N c' = C.picture N c' := by
  unfold Chans.picture
  have husers : (C.linkNew c n status).users c' = C.users c' := by
    simp [Chans.linkNew, Chans.newChanUser, hne]
  rw [husers]
  apply List.map_congr_left
  intro cu hcu
  have hcn : cu ≠ C.nextCu := by
    rintro rfl
    exact hC.fresh.2 c' hcu
  simp [Chans.linkNew, Chans.newChanUser, hcn]

theorem mem_linkNew_members {C : Chans} {m : NickRef} (hC : C.Member) :
    m ∈ (C.linkNew c n status).members c' ↔ m ∈ C.members c' ∨ (c' = c ∧ m = n) := by
  rw [Chans.mem_members, Chans.mem_members]
  constructor
  · rintro ⟨cu, hcu, he⟩
    rcases Chans.mem_linkNew_users.mp hcu with hold | ⟨rfl, rfl⟩
    · have hne : cu ≠ C.nextCu := by
        rintro rfl
        exact hC.fresh.2 c' hold
      exact .inl ⟨cu, hold, Chans.linkNew_cuNick hne ▸ he⟩
    · refine .inr ⟨rfl, ?_⟩
      rw [← he]
      simp [Chans.linkNew, Chans.newChanUser]
  · rintro (⟨cu, hcu, he⟩ | ⟨rfl, rfl⟩)
    · have hne : cu ≠ C.nextCu := by
        rintro rfl
        exact hC.fresh.2 c' hcu
      exact ⟨cu, Chans.mem_linkNew_users.mpr (.inl hcu), (Chans.linkNew_cuNick hne).trans he⟩
    · refine ⟨C.nextCu, Chans.mem_linkNew_users.mpr (.inr ⟨rfl, rfl⟩), ?_⟩
      simp [Chans.linkNew, Chans.newChanUser]

/-- There is one more member, whom the client has in its view if it is on the channel. -/
theorem Pictures.linkNew (hok : w.Ok none) (h : w.Pictures W none) (hc : w.chans.alive c = true)
    {W' : View} (hother : ∀ s, s ≠ w.chans.name c → W' s = W s)
    (hself : W' (w.chans.name c) = if userRef ∈ (w.chans.linkNew c n status).members c
      then some ((w.chans.linkNew c n status).picture w.nicks c) else none) (l : List Sent) :
    ({ w with chans := { w.chans.linkNew c n status with sent := l } }).Pictures W' none := by
  have hname : ∀ c', w.chans.alive c' = true → c' ≠ c → w.chans.name c' ≠ w.chans.name c :=
    fun c' hc' hne he => hne (hok.name_inj hc' hc he)
  refine ⟨?_, ?_, ?_⟩
  · intro c' hc'
    change (W' (w.chans.name c')).isSome = true ↔
      userRef ∈ (w.chans.linkNew c n status).members c'
    rcases eq_or_ne c' c with rfl | hne
    · rw [hself]
      split
      · next hon => exact ⟨fun _ => hon, fun _ => rfl⟩
      · next hon => exact ⟨nofun, fun h => (hon h).elim⟩
    · rw [hother _ (hname c' hc' hne), mem_linkNew_members hok.member]
      refine (h.here c' hc').trans ⟨.inl, ?_⟩
      rintro (hon | ⟨he, -⟩)
      · exact hon
      · exact (hne he).elim
  · intro c' hc' hd hon
    change userRef ∈ (w.chans.linkNew c n status).members c' at hon
    change W' (w.chans.name c') = some ((w.chans.linkNew c n status).picture w.nicks c')
    rcases eq_or_ne c' c with rfl | hne
    · rw [hself, if_pos hon]
    · have hon' := (mem_linkNew_members hok.member).mp hon
      rw [hother _ (hname c' hc' hne), linkNew_picture_other hok.member hne]
      exact h.same c' hc' hd (hon'.resolve_right fun hx => hne hx.1)
  · intro s hs
    have hs' : w.chans.getChannel s = none := hs
    have hne : s ≠ w.chans.name c := by
      rintro rfl
      rw [hok.listed.getChannel.mpr ⟨hc, rfl⟩] at hs'
      cases hs'
    rw [hother s hne]
    exact h.absent s hs'

/-- What the client pictures after a nick joined a channel it was not on. -/
theorem Pictures.see_join (hok : w.Ok none) (h : w.Pictures W none)
    (hme : w.nicks.nickname userRef = me) (hc : w.chans.alive c = true)
    (hn : w.nicks.Present n) (hget : w.chans.getChanUser n c = none) (status : Status) :
    ((if userRef ∈ (w.chans.linkNew c n status).members c
        then (w.chans.linkNew c n status).announced w.nicks c n status w.chans.nextCu else []) ++
      if n = userRef then (w.chans.linkNew c n status).welcomed w.nicks c n else []).foldl
        (View.see me) W =
      update W (w.chans.name c) (if userRef ∈ (w.chans.linkNew c n status).members c
        then some ((w.chans.linkNew c n status).picture w.nicks c) else none) := by
  have hmem : userRef ∈ (w.chans.linkNew c n status).members c ↔
      userRef ∈ w.chans.members c ∨ (c = c ∧ userRef = n) := mem_linkNew_members hok.member
  rcases eq_or_ne n userRef with rfl | hu
  · have hon : userRef ∈ (w.chans.linkNew c userRef status).members c :=
      hmem.mpr (.inr ⟨rfl, rfl⟩)
    rw [if_pos hon, if_pos rfl, if_pos hon]
    exact see_join_user hme
  · rw [if_neg hu, List.append_nil]
    have hnick : w.nicks.nickname n ≠ me := by
      intro he
      exact hu (hok.table.nickname_inj hn ⟨hok.table.userAlive, .inl rfl⟩ (he.trans hme.symm))
    by_cases hon : userRef ∈ w.chans.members c
    · rw [if_pos (hmem.mpr (.inl hon)), if_pos (hmem.mpr (.inl hon)), linkNew_picture hok.member]
      refine see_join_other hnick hu (h.same c hc nofun hon) ?_
      intro e he heq
      obtain ⟨x, hx, rfl⟩ := List.mem_map.mp he
      obtain ⟨hxc, hxn⟩ := hok.member.bwd c x hx
      rw [(hok.nickname_iff hx hn).mp heq] at hxn
      exact Chans.getChanUser_none hget x hxn hxc
    · have hoff : userRef ∉ (w.chans.linkNew c n status).members c := by
        intro hx
        rcases hmem.mp hx with hx | ⟨-, hx⟩
        · exact hon hx
        · exact hu hx.symm
      have hnone : W (w.chans.name c) = none := by
        rw [← Option.not_isSome_iff_eq_none]
        exact fun hs => hon ((h.here c hc).mp hs)
      rw [if_neg hoff, if_neg hoff, List.foldl_nil, ← hnone, update_eq_self]

theorem Pictures.join (hok : w.Ok none) (h : w.Pictures (View.replay me w.chans.sent) none)
    (hme : w.nicks.nickname userRef = me) (hc : w.chans.alive c = true)
    (hn : w.nicks.Present n) (status : Status) : (w.join n c status).Pictures
      (View.replay me (w.join n c status).chans.sent) none := by
  cases hget : w.chans.getChanUser n c with
  | some cu =>
    obtain ⟨hcu, hcc⟩ := Chans.getChanUser_some hget
    have hmem := hok.member.mem_users hcu hcc
    let C₁ := w.chans.delMode w.nicks c (w.chans.cuStatus cu &&& ~~~status) cu
    let C₂ := C₁.setMode w.nicks c (status &&& ~~~w.chans.cuStatus cu) cu
    have hjoin : w.join n c status =
        if w.chans.cuStatus cu ≠ status then { w with chans := C₂ } else w := by
      unfold World.join Chans.join
      rw [hget]
      dsimp only
      split <;> rfl
    rw [hjoin]
    split
    · have hstatus : Chans.SameStatus w.chans C₁ := Chans.sameStatus_delMode _ _ _ _ _
      have hdel : ({ w with chans := C₁ }).Pictures (View.replay me C₁.sent) none :=
        h.delMode hok hmem _
      refine hdel.setMode (hok.onStatus hstatus) ?_ _
      change cu ∈ C₁.users c
      rw [hstatus]
      exact hmem
    · exact h
  | none =>
    have hjoin : w.join n c status = { w with
        chans := { w.chans.linkNew c n status with sent := (w.join n c status).chans.sent } } := by
      have hsame := Chans.join_new (N := w.nicks) hget status
      unfold World.join
      rw [hsame]
    have hsent : (w.join n c status).chans.sent = _ :=
      Chans.join_sent (N := w.nicks) hok.member hget status
    have hsee := h.see_join hok hme hc hn hget status
    rw [← View.replay_append, ← List.append_assoc, ← hsent] at hsee
    rw [hsee, hjoin]
    exact h.linkNew hok hc (fun s hs => update_of_ne hs _ _) (update_self _ _ _) _

end Join

end World
end Minbif
