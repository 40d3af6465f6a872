import Minbif.World.Picture
import Minbif.World.Sound

/-! The client and the server agree on the channels, after every event of a session. -/
namespace Minbif
open Function
namespace World

variable {P : Purple} {T : Terms} {w w' : World} {d : Option ChanRef} {n : NickRef}
  {c : ChanRef} {W : View} {me : Str} {N' : Nicks}

/-- Nicks whose names no channel shows have changed. -/
theorem Pictures.onNicks (hok : w.Ok d) (h : w.Pictures W d)
    (hnick : ∀ n, w.nicks.alive n = true → N'.nickname n = w.nicks.nickname n) :
    ({ w with nicks := N' }).Pictures W d := by
  refine h.congr rfl rfl rfl (fun _ => Iff.rfl) ?_
  intro c _
  apply List.map_congr_left
  intro x hx
  have hlive := (hok.present hx).1
  rw [hnick _ hlive]

theorem Pictures.renamed (hok : w.Ok none) (h : w.Pictures W none) (me : Str) (hn : w.nicks.Present n)
    (newnick : Str) (m : Message) (hm : m.cmd = str "NICK") (hs : m.sender = w.nicks.entity n)
    (ha : m.args = [newnick]) :
    ({ w with
        nicks := w.nicks.renameNick n newnick, chans := w.chans.send userRef (.msg m) }).Pictures
      (View.see me W (.msg m)) none := by
  have hsender : m.sender.getName = w.nicks.nickname n := by
    rw [hs]
    rfl
  have hpic : ∀ c, w.chans.picture (w.nicks.renameNick n newnick) c =
      Roster.renamed (w.nicks.nickname n) newnick (w.chans.picture w.nicks c) := by
    intro c
    unfold Chans.picture Roster.renamed
    rw [List.map_map]
    apply List.map_congr_left
    intro x hx
    have hiff := hok.nickname_iff hx hn
    rw [Nicks.renameNick_nickname]
    by_cases hx : w.chans.cuNick x = n
    · simp [hx]
    · simp [hx, hiff]
  rw [View.see_nick hm, hsender, ha, Chans.send_eq]
  refine ⟨?_, ?_, ?_⟩
  · intro c hc
    rw [Option.isSome_map]
    exact h.here c hc
  · intro c hc hd hon
    have hold := h.same c hc hd hon
    change (W (w.chans.name c)).map _ = some (w.chans.picture _ c)
    rw [hold, hpic]
    rfl
  · intro s hs
    have hold := h.absent s hs
    rw [hold]
    rfl

theorem Pictures.newChan (hok : w.Ok none) (h : w.Pictures W none) {name : Str}
    (hfree : w.chans.getChannel name = none) (v : Option ConvRef) (up : Option ServerRef)
    (V : Convs) :
    ({ w with convs := V, chans := w.chans.opened name v up }).Pictures W none := by
  have husers : (w.chans.opened name v up).users = w.chans.users := hok.listed.opened_users
  have hnone : w.chans.users w.chans.next = [] := hok.listed.users_next
  have hmem : ∀ c, (w.chans.opened name v up).members c = w.chans.members c := by
    intro c
    unfold Chans.members
    rw [husers]
    rfl
  have hself : (w.chans.opened name v up).name w.chans.next = name := Chans.opened_self.2.1
  have hoff : userRef ∉ w.chans.members w.chans.next := by
    unfold Chans.members
    rw [hnone]
    simp
  refine ⟨?_, ?_, ?_⟩
  · intro c hc
    change (W ((w.chans.opened name v up).name c)).isSome = true ↔
      userRef ∈ (w.chans.opened name v up).members c
    rw [hmem]
    rcases Chans.opened_alive.mp hc with rfl | hc
    · rw [hself, h.absent name hfree]
      exact ⟨nofun, fun hon => (hoff hon).elim⟩
    · rw [(Chans.opened_other (hok.listed.ne_next hc)).2.1]
      exact h.here c hc
  · intro c hc hd hon
    change userRef ∈ (w.chans.opened name v up).members c at hon
    change W ((w.chans.opened name v up).name c) =
      some ((w.chans.opened name v up).picture w.nicks c)
    rw [hmem] at hon
    have hpic : (w.chans.opened name v up).picture w.nicks c = w.chans.picture w.nicks c := by
      unfold Chans.picture
      rw [husers]
      rfl
    rcases Chans.opened_alive.mp hc with rfl | hc
    · exact (hoff hon).elim
    · rw [(Chans.opened_other (hok.listed.ne_next hc)).2.1, hpic]
      exact h.same c hc hd hon
  · intro s hs
    apply h.absent
    have htable : (w.chans.opened name v up).table = w.chans.table.insert name w.chans.next := by
      simp [Chans.opened, Chans.addChannel, Chans.newChan]
    change (w.chans.opened name v up).table.find? s = none at hs
    rw [htable] at hs
    rcases eq_or_ne s name with rfl | hne
    · rw [OrdMap.find?_insert_self] at hs
      cases hs
    · rwa [OrdMap.find?_insert_of_ne hne] at hs

/-- A NAMES reply says what the client knows. -/
theorem Pictures.names (h : w.Pictures (View.replay me w.chans.sent) none) (hc : w.chans.alive c = true) :
    ({ w with chans := w.chans.sendNames w.nicks c userRef }).Pictures
      (View.replay me (w.chans.sendNames w.nicks c userRef).sent) none := by
  have hsame := Chans.sameBut_sendNames w.nicks w.chans c userRef
  have hnot : (none : Option ChanRef) ≠ some c := (Option.some_ne_none c).symm
  have hview : View.replay me (w.chans.sendNames w.nicks c userRef).sent =
      View.replay me w.chans.sent := by
    have h366 : str "366" ∉ viewCmds := by decide
    rw [Chans.sendNames_sent, View.replay_append, see_names]
    · by_cases hon : userRef ∈ w.chans.members c
      · rw [View.alter, h.same c hc hnot hon, Option.map_some, ← h.same c hc hnot hon,
          update_eq_self]
      · have hnone : View.replay me w.chans.sent (w.chans.name c) = none := by
          rw [← Option.not_isSome_iff_eq_none]
          exact fun hs => hon ((h.here c hc).mp hs)
        rw [View.alter, hnone, Option.map_none, ← hnone, update_eq_self]
    · intro s hs
      rw [List.mem_singleton.mp hs]
      exact h366
  rw [hview]
  refine h.congr ?_ ?_ ?_ ?_ ?_
  · change (w.chans.sendNames w.nicks c userRef).alive = _
    rw [hsame]
  · change (w.chans.sendNames w.nicks c userRef).name = _
    rw [hsame]
  · change (w.chans.sendNames w.nicks c userRef).table = _
    rw [hsame]
  · intro c'
    change _ ∈ (w.chans.sendNames w.nicks c userRef).members c' ↔ _
    rw [hsame]
    rfl
  · intro c' _
    change (w.chans.sendNames w.nicks c userRef).picture _ c' = _
    rw [hsame]
    rfl

/-- The client, whose nickname this is, pictures what the server has. -/
structure Seen (me : Str) (s : Stage) : Prop where
  self : s.1.nicks.nickname userRef = me
  pictures : s.1.Pictures (View.replay me s.1.chans.sent) s.2

theorem Seen.said {s : Stage} {C : Chans} {V : Convs} {d : Option ChanRef} {l : List Sent}
    (h : Seen me s) (hsent : C.sent = s.1.chans.sent ++ l)
    (hp : ({ s.1 with chans := C, convs := V }).Pictures
      (l.foldl (View.see me) (View.replay me s.1.chans.sent)) d) :
    Seen me ({ s.1 with chans := C, convs := V }, d) := by
  refine ⟨h.self, ?_⟩
  change World.Pictures _ (View.replay me C.sent) d
  rw [hsent, View.replay_append]
  exact hp

theorem Change.seen {s s' : Stage} (h : Change P T s s') (hok : s.1.Ok s.2) (hT : T.still)
    (hs : Seen me s) : Seen me s' := by
  obtain ⟨hme, hp⟩ := hs
  cases h with
  | say w d l h => exact Seen.said ⟨hme, hp⟩ rfl (hp.say h)
  | names w c hc => exact ⟨hme, hp.names hc⟩
  | setMode w c modes cu hcu => exact ⟨hme, hp.setMode hok hcu modes⟩
  | delMode w c modes cu hcu => exact ⟨hme, hp.delMode hok hcu modes⟩
  | join w n c status hstarted hc hn hkind hone =>
    exact ⟨hme, hp.join hok hme hc ⟨hn, hkind⟩ status⟩
  | leave w n c cu m hcu hc hm hchat =>
    by_cases hn : n = userRef
    · subst hn
      exact Seen.said ⟨hme, hp⟩ (Chans.leave_sent_user w.chans c cu m)
        (hp.leave_user hok hme hcu hc hm)
    · exact Seen.said ⟨hme, hp⟩ (Chans.leave_sent hok.member hn c cu m)
        (hp.leave hok hme hcu hc hm hn)
  | leaveChat w c cu m hcu hc hm =>
    exact Seen.said ⟨hme, hp⟩ (Chans.leave_sent_user w.chans c cu m)
      ((hp.leave_user hok hme hcu hc hm).opened c)
  | quit w n text hn =>
    exact Seen.said ⟨hme, hp⟩ (Chans.quit_sent hok.member hn text) (hp.quit hok me hn text)
  | drop w d k n l hmem hn hlist hpeer =>
    have hu := Nicks.userRef_ne hok.table hn
    have hq := hp.quit hok me hu (str "*.net *.split")
    rw [← View.replay_append, ← Chans.quit_sent hok.member hu] at hq
    exact ⟨hme, hq.congr rfl rfl rfl (fun _ => Iff.rfl) fun _ _ => rfl⟩
  | opened w c hc => exact ⟨hme, hp.opened c⟩
  | release w c n cu hcu hn hk =>
    have hu : n ≠ userRef := Nicks.userRef_ne hok.table (by rw [hk]; rfl)
    refine Seen.said ⟨hme, hp⟩ (l := []) ?_ (hp.release hok hcu hn hu)
    unfold Chans.release Chans.removeChanUser
    rw [Chans.delUser_eq]
    rfl
  | closed w c hc hv =>
    exact Seen.said ⟨hme, hp⟩ (Chans.deleteChan_sent hok.member c) (hp.remove hok hme hc)
  | closedChat w c v hc hv =>
    exact Seen.said ⟨hme, hp⟩ (Chans.deleteChan_sent hok.member c) (hp.remove hok hme hc)
  | add w kind s nick ident host b cb hreg hkind hfree hserver =>
    refine ⟨?_, hp.onNicks hok fun n hn => (Nicks.added_other (hok.table.ne_next hn)).2.1⟩
    exact (Nicks.added_other (hok.table.ne_next hok.table.userAlive)).2.1.trans hme
  | addLocal w kind name hreg hkind hfree =>
    refine ⟨?_, hp.onNicks hok fun n hn => (Nicks.added_other (hok.table.ne_next hn)).2.1⟩
    exact (Nicks.added_other (hok.table.ne_next hok.table.userAlive)).2.1.trans hme
  | renamed w n newnick hn hconv hfree hsteady =>
    have hu := Nicks.userRef_ne hok.table hconv
    refine ⟨(update_of_ne hu.symm _ _).trans hme, ?_⟩
    have hsent := Chans.send_sent w.chans userRef
      (.msg ⟨str "NICK", w.nicks.entity n, .unset, [newnick]⟩)
    rw [if_pos rfl] at hsent
    change World.Pictures _ (View.replay me (w.chans.send _ _).sent) none
    rw [hsent, View.replay_append]
    exact hp.renamed hok me ⟨hn, .inr hconv⟩ newnick _ rfl rfl rfl
  | nick w newnick hreg hfree hstill hsteady => exact (hstill hT).elim
  | newStatus w name hfree hhash => exact ⟨hme, hp.newChan hok hfree none none w.convs⟩
  | newChat w a name channame up hfree hhash hup => exact ⟨hme, hp.newChan hok hfree _ up _⟩
  | _ => exact ⟨hme, hp.congr rfl rfl rfl (fun _ => Iff.rfl) fun _ _ => rfl⟩

theorem Changes.seen {s s' : Stage} (h : Changes P T s s') (hok : s.1.Ok s.2) (hT : T.still)
    (hs : Seen me s) : Seen me s' := by
  induction h with
  | refl => exact hs
  | tail hrest hstep ih => exact hstep.seen (Changes.ok hrest hok) hT ih

/-- The client has not been sent anything before the start-up. -/
structure Synced (w : World) : Prop where
  silent : w.started = false → w.chans.sent = []
  seen : Seen (w.nicks.nickname userRef) (w, none)

/-- Without channels and messages there is nothing to picture. -/
theorem Ok.synced (hw : w.Ok none) (hs : w.started = false) (hsent : w.chans.sent = []) :
    w.Synced := by
  refine ⟨fun _ => hsent, rfl, ?_⟩
  have hoff : ∀ c, userRef ∉ w.chans.members c := by
    intro c hon
    obtain ⟨cu, hcu, he⟩ := Chans.mem_members.mp hon
    have hin := (hw.member.bwd c cu hcu).2
    rw [he, (hw.early hs).2] at hin
    cases hin
  change World.Pictures w (View.replay _ w.chans.sent) none
  rw [hsent]
  exact ⟨fun c _ => ⟨nofun, fun hon => (hoff c hon).elim⟩, fun c _ _ hon => (hoff c hon).elim,
    fun _ _ => rfl⟩

/-- Before the start-up no event sends anything. -/
theorem run_silent (hw : w.Ok none) (hs : w.started = false) (hsent : w.chans.sent = []) {op : Op}
    (h : w.run P op = some w') : w'.started = false → w'.chans.sent = [] := by
  have hreg := (hw.early hs).1
  cases op with
  | data D => exact fun _ => Option.some.inj h ▸ hsent
  | nick newnick =>
    simp only [run, hreg, Bool.false_or] at h
    split at h <;> exact fun _ => Option.some.inj h ▸ hsent
  | startUp accounts =>
    simp only [run, hs, Bool.false_eq_true, if_false, Option.some.injEq] at h
    rw [← h, startUp_started hw accounts]
    nofun
  | welcome => exact fun _ => Option.some.inj h ▸ hsent
  | _ =>
    simp only [run, hreg, Bool.not_false, if_true] at h
    exact fun _ => Option.some.inj h ▸ hsent

theorem run_synced {op : Op} (hw : w.Ok none) (hop : w.Still op) (h : w.run P op = some w')
    (hs : w.Synced) (hgo : Goes P (w.terms P op) w w') : w'.Synced := by
  by_cases hkeep : w.Keeps op
  · have hseen := Changes.seen hgo hw hkeep hs.seen
    refine ⟨?_, hseen.self ▸ hseen⟩
    by_cases hst : w.started = true
    · intro hst'
      rw [Changes.started hgo hst] at hst'
      cases hst'
    · rw [Bool.not_eq_true] at hst
      exact run_silent hw hst (hs.silent hst) h
  · cases op with
    | nick newnick =>
      have hst : w.started = false := hop.resolve_right hkeep
      have hsent := run_silent hw hst (hs.silent hst) h
      have hst' : w'.started = false := by
        simp only [run] at h
        split at h <;> exact Option.some.inj h ▸ hst
      exact (hgo.ok hw).synced hst' (hsent hst')
    | _ => exact (hkeep trivial).elim

/-- The channels of the User with their members. -/
def serverView (w : World) : View := fun s =>
  (w.chans.getChannel s).bind fun c =>
    if userRef ∈ w.chans.members c then some (w.chans.picture w.nicks c) else none

theorem Pictures.eq_serverView (hok : w.Ok none) (h : w.Pictures W none) : W = w.serverView := by
  funext s
  unfold serverView
  cases hs : w.chans.getChannel s with
  | none => exact h.absent s hs
  | some c =>
    obtain ⟨hc, rfl⟩ := hok.listed.getChannel.mp hs
    rw [Option.bind_some]
    split
    · next hon => exact h.same c hc nofun hon
    · next hon =>
      rw [← Option.not_isSome_iff_eq_none]
      exact fun hsome => hon ((h.here c hc).mp hsome)

/-- After every event the messages sent so far give the client the channels that the User is on,
and on each the nicknames with their modes. -/
theorem runAll_view (P : Purple) (ops : List Op) (h : initial.Along P Still ops) :
    View.replay ((initial.runAll P ops).nicks.nickname userRef) (initial.runAll P ops).chans.sent =
      (initial.runAll P ops).serverView := by
  have hinit : initial.Synced := initial_ok.synced rfl rfl
  have hsync := runAll_keeps (fun _ _ _ hw hQ hr hI hgo => run_synced hw hQ hr hI hgo)
    initial_ok hinit h
  exact hsync.seen.pictures.eq_serverView (runAll_ok P ops)

section Runs

/-- One account whose contact bob is online. -/
def bobPurple : Purple := { noPurple with buddyName := fun _ => str "bob" }

def bobData : PurpleData where
  statusChannel _ := str "&minbif"
  buddies _ := [0]
  online _ := true
  available _ := true

/-- Bob appears on the status channel and is renamed; then alice leaves it and comes back. -/
def bobRenamed : List Op :=
  [.nick (str "alice"), .data bobData, .startUp [0], .welcome, .connected 0, .updateNode 0,
    .svsnick (str "bob") (str "rob"), .part (str "&minbif") [], .join (str "&minbif")]

theorem runAll_view_bob : initial.Along bobPurple Still bobRenamed ∧
    (initial.runAll bobPurple bobRenamed).serverView (str "&minbif") =
      some [(str "rob", {'v'}), (str "alice", {'o'})] ∧
    View.replay ((initial.runAll bobPurple bobRenamed).nicks.nickname userRef)
      (initial.runAll bobPurple bobRenamed).chans.sent =
        (initial.runAll bobPurple bobRenamed).serverView := by
  have h : initial.Along bobPurple Still bobRenamed := by decide
  exact ⟨h, by decide, runAll_view bobPurple _ h⟩

end Runs

end World
end Minbif
