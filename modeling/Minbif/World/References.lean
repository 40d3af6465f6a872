import Minbif.Lib.Runs
import Minbif.World.Attribution
import Minbif.World.Listing

/-! What still refers to the nicks and the server of an account that was disconnected. -/
namespace Minbif
open Function
namespace World

variable {P : Purple} {T : Terms} {w w' w'' : World} {s : ServerRef} {c : ChanRef} {op : Op}
  {a : AccountRef}

/-- Nicks, channels and transfers refer to what is there. -/
structure Homed (w : World) : Prop where
  nick : ∀ n, w.nicks.alive n = true → w.nicks.serverAlive (w.nicks.server n) = true
  chan : ∀ c, w.chans.alive c = true → ∀ s, w.chans.upserver c = some s →
    w.nicks.serverAlive s = true
  table : ∀ k s, (k, s) ∈ w.nicks.servers.entries → w.nicks.serverAlive s = true
  irc : w.nicks.serverAlive ircRef = true
  dccs : ∀ x ∈ w.dccs, ∀ n, x.peer = some n → w.nicks.alive n = true

theorem Homed.offers (h : w.Homed) (hs : w.Offers s) : w.nicks.serverAlive s = true := by
  rcases hs with ⟨k, hk⟩ | ⟨c, hc, hup⟩
  · exact h.table k s hk
  · exact h.chan c hc s hup

theorem Homed.chartered (h : w.Homed) (hc : Chartered w w') (halive : w'.chans.alive c = true)
    (hup : w'.chans.upserver c = some s) : w.nicks.serverAlive s = true := by
  rcases hc.chan c halive with ⟨hold, hu, -⟩ | ⟨-, hu⟩
  · exact h.chan c hold s (hu ▸ hup)
  · obtain ⟨k, hk⟩ := hu s hup
    exact h.table k s hk

theorem Homed.added (h : w.Homed) (hw : w.Ok none) {kind : NickKind} {nick ident host : Str}
    {b : BuddyRef} {cb : CBuddyRef} (hs : w.nicks.serverAlive s = true) :
    ({ w with nicks := w.nicks.added kind s nick ident host b cb }).Homed where
  nick n hn := by
    change w.nicks.serverAlive ((w.nicks.added kind s nick ident host b cb).server n) = true
    rcases Nicks.added_alive.mp hn with rfl | hn
    · simpa [Nicks.added, Nicks.addNick, Nicks.newNick] using hs
    · rw [(Nicks.added_other (hw.table.ne_next hn)).2.2.2.2]
      exact h.nick n hn
  chan := h.chan
  table := h.table
  irc := h.irc
  dccs x hx n hn := Nicks.added_alive.mpr (.inr (h.dccs x hx n hn))

theorem Homed.connected (h : w.Homed) : (w.connected a).Homed := by
  have hold : ∀ s, w.nicks.serverAlive s = true → (w.connected a).nicks.serverAlive s = true := by
    intro s hs
    change update w.nicks.serverAlive w.nicks.nextServer true s = true
    rcases eq_or_ne s w.nicks.nextServer with rfl | hne
    · exact update_self ..
    · rwa [update_of_ne hne]
  refine ⟨fun n hn => hold _ (h.nick n hn), fun c hc s hs => hold s (h.chan c hc s hs), ?_,
    hold _ h.irc, h.dccs⟩
  intro k s hs
  rcases OrdMap.mem_insert.mp hs with ⟨-, rfl⟩ | ⟨-, hs⟩
  · exact update_self ..
  · exact hold s (h.table k s hs)

theorem Homed.dropServer (h : w.Homed) (hw : w.Ok none) (hN : w.Numbered) {name : Str}
    (hs : (name, s) ∈ w.nicks.servers.entries)
    (hnone : ∀ n, w.nicks.alive n = true → w.nicks.server n ≠ s)
    (hup : ∀ c, w.chans.alive c = true → w.chans.upserver c ≠ some s) :
    ({ w with nicks := w.nicks.dropServer name s }).Homed := by
  have hold : ∀ s', s' ≠ s → w.nicks.serverAlive s' = true →
      (w.nicks.dropServer name s).serverAlive s' = true := by
    intro s' hne hs'
    exact (update_of_ne hne ..).trans hs'
  refine ⟨fun n hn => hold _ (hnone n hn) (h.nick n hn), ?_, ?_,
    hold _ (hw.table.remote name s hs).symm h.irc, h.dccs⟩
  · intro c hc s' hs'
    refine hold s' ?_ (h.chan c hc s' hs')
    rintro rfl
    exact hup c hc hs'
  · intro k s' hk
    obtain ⟨hk', hne⟩ := OrdMap.mem_erase.mp hk
    refine hold s' ?_ (h.table k s' hk')
    rintro rfl
    exact hne (hN.nicks.unique k name s' hk' hs)

theorem Change.homed {st st' : Stage} (h : Change P T st st') (hok : st.1.Ok st.2)
    (hN : st.1.Numbered) (hT : T.clean) (hH : st.1.Homed) : st'.1.Homed := by
  have hchan : ∀ c, st'.1.chans.alive c = true → ∀ s, st'.1.chans.upserver c = some s →
      st.1.nicks.serverAlive s = true :=
    fun c hc s hs => hH.chartered (h.chartered hok) hc hs
  cases h with
  | dccs w d l hpeer =>
    refine ⟨hH.nick, hH.chan, hH.table, hH.irc, fun x hx n hn => ?_⟩
    rcases hpeer x hx n hn with ⟨y, hy, hyn⟩ | hlive
    · exact hH.dccs y hy n hyn
    · exact hlive
  | drop w d k n l hmem hn hlist hpeer =>
    refine ⟨fun m hm => hH.nick m (Nicks.dropped_alive.mp hm).2, hchan, hH.table, hH.irc,
      fun x hx m hm => Nicks.dropped_alive.mpr ⟨?_, hH.dccs x hx m hm⟩⟩
    rintro rfl
    exact hpeer hT x hx hm
  | add w kind s nick ident host b cb hreg hkind hfree hserver =>
    exact hH.added hok (hH.offers hserver)
  | addLocal w kind name hreg hkind hfree => exact hH.added hok hH.irc
  | connected w a => exact hH.connected
  | dropServer w name s hs hnone hup => exact hH.dropServer hok hN hs hnone (hup hT)
  | _ => exact ⟨hH.nick, hchan, hH.table, hH.irc, hH.dccs⟩

theorem Changes.homed {st st' : Stage} (h : Changes P T st st') (hok : st.1.Ok st.2)
    (hN : st.1.Numbered) (hT : T.clean) (hH : st.1.Homed) : st'.1.Homed := by
  induction h with
  | refl => exact hH
  | tail hrest hstep ih =>
    exact hstep.homed (Changes.ok hrest hok) (Changes.numbered hrest hok hN) hT ih

theorem initial_homed : initial.Homed where
  nick := fun _ _ => rfl
  chan := nofun
  table := nofun
  irc := rfl
  dccs := nofun

/-- Nothing that a session can still use refers to a deleted nick or to a deleted server. -/
structure Whole (w : World) : Prop where
  users : ∀ k n, (k, n) ∈ w.nicks.users.entries →
    w.nicks.alive n = true ∧ w.nicks.serverAlive (w.nicks.server n) = true
  chanUsers : ∀ c, ∀ cu ∈ w.chans.users c, w.nicks.alive (w.chans.cuNick cu) = true ∧
    w.nicks.serverAlive (w.nicks.server (w.chans.cuNick cu)) = true
  upserver : ∀ c, w.chans.alive c = true → ∀ s, w.chans.upserver c = some s →
    w.nicks.serverAlive s = true
  peer : ∀ x ∈ w.dccs, ∀ n, x.peer = some n →
    w.nicks.alive n = true ∧ w.nicks.serverAlive (w.nicks.server n) = true

theorem Homed.whole (h : w.Homed) (hw : w.Ok none) : w.Whole := by
  refine ⟨fun k n hk => ?_, fun c cu hcu => ?_, h.chan, fun x hx n hn => ?_⟩
  · have hn := hw.table.live k n hk
    exact ⟨hn, h.nick n hn⟩
  · have hn := (hw.placed.ne_nil hw.member hcu).1
    exact ⟨hn, h.nick _ hn⟩
  · have hlive := h.dccs x hx n hn
    exact ⟨hlive, h.nick n hlive⟩

/-- When the server is removed, no chat of the account is kept or was made with the server, and
no transfer is with one of its nicks. -/
def Severed (w : World) (a : AccountRef) (s : ServerRef) : Prop :=
  (∀ c ∈ w.chans.table.values, w.chans.upserver c ≠ some s ∧
    ∀ v ∈ w.chans.conv c, w.convs.account v ≠ a) ∧
  ∀ x ∈ w.dccs, ∀ n ∈ x.peer, w.nicks.server n ≠ s

instance (w : World) (a : AccountRef) (s : ServerRef) : Decidable (w.Severed a s) :=
  inferInstanceAs (Decidable (_ ∧ _))

def Clean (w : World) : Op → Prop
  | .disconnected a left => ∀ r ∈ w.removing (.disconnected a left), r.1.Severed a r.2
  | _ => True

instance (w : World) : DecidablePred w.Clean
  | .disconnected a left =>
    inferInstanceAs (Decidable (∀ r ∈ w.removing (.disconnected a left), r.1.Severed a r.2))
  | .data _ | .nick _ | .startUp _ | .welcome | .connected _ | .createStatusChannel _
  | .leaveStatusChannel _ | .updateNode _ | .buddyUpdated _ | .removedNode _ | .newConversation _ _
  | .recvMessage _ _ _ _ | .privmsg _ _ _ | .flush _ | .deleteConversation _ | .newChat _ _
  | .addUsers _ _ | .updateUser _ _ | .removeUser _ _ _ | .renameUser _ _ _ | .topicChanged _ _ _
  | .join _ | .part _ _ | .kick _ _ _ | .kill _ _ | .svsnick _ _ | .names _ | .dccSend _
  | .dccGet _ | .dccFinished _ | .dccUpdated => .isTrue trivial

theorem Ok.mem_table (hw : w.Ok none) (hc : w.chans.alive c = true) :
    c ∈ w.chans.table.values :=
  List.mem_map.mpr ⟨_, OrdMap.find?_eq_some.mp (hw.listed.getChannel.mpr ⟨hc, rfl⟩), rfl⟩

theorem Severed.unused (h : w.Severed a s) (hw : w.Ok none) : w.Unused s :=
  ⟨fun c hc => (h.1 c (hw.mem_table hc)).1, h.2⟩

/-- Leaving the chats is a part of the event. -/
theorem leaveChats_goes (hw : w.Ok none) (a : AccountRef) (left : List ConvRef) :
    Goes P T w (w.leaveChats a left) := by
  refine foldl_destroyChat_goes hw fun v hv => ?_
  have := (List.mem_filter.mp hv).2
  simp only [Bool.and_eq_true] at this
  exact this.1.2

theorem mem_removing {left : List ConvRef} {r : World × ServerRef}
    (hr : r ∈ w.removing (.disconnected a left)) : w.registered = true ∧
      r.1 = w.leaveChats a left ∧ r.1.nicks.servers.find? (r.1.data.servername a) = some r.2 := by
  simp only [removing] at hr
  split at hr
  · cases hr
  · next hreg =>
    obtain ⟨s, hs, rfl⟩ := Option.map_eq_some_iff.mp hr
    exact ⟨by simpa using hreg, rfl, hs⟩

theorem Clean.terms (h : w.Clean op) (hw : w.Ok none) : (w.terms P op).clean := by
  intro r hr
  cases op with
  | disconnected a left =>
    refine (h r hr).unused ?_
    rw [(mem_removing hr).2.1]
    exact (leaveChats_goes (P := P) (T := w.terms P .welcome) hw a left).ok hw
  | _ => cases hr

section Rejoin

/-- The channels of the first state that are still there. -/
structure Elder (w w' : World) : Prop where
  next : w.chans.next ≤ w'.chans.next
  chan : ∀ c, c < w.chans.next → w'.chans.alive c = true →
    w.chans.alive c = true ∧ w'.chans.conv c = w.chans.conv c

theorem Elder.refl (w : World) : Elder w w := ⟨le_rfl, fun _ _ hc => ⟨hc, rfl⟩⟩

theorem Elder.trans (h : Elder w w') (h' : Elder w' w'') : Elder w w'' := by
  refine ⟨h.next.trans h'.next, fun c hlt hc => ?_⟩
  obtain ⟨hc', hv'⟩ := h'.chan c (Nat.lt_of_lt_of_le hlt h.next) hc
  obtain ⟨hc, hv⟩ := h.chan c hlt hc'
  exact ⟨hc, hv'.trans hv⟩

theorem Chartered.elder (h : Chartered w w') : Elder w w' := by
  refine ⟨h.next, fun c hlt hc => ?_⟩
  rcases h.chan c hc with ⟨hold, -, hv⟩ | ⟨hle, -⟩
  · exact ⟨hold, hv⟩
  · exact absurd hlt (Nat.not_lt.mpr hle)

theorem Changes.elder {st st' : Stage} (h : Changes P T st st') (hok : st.1.Ok st.2) :
    Elder st.1 st'.1 := by
  induction h with
  | refl => exact .refl _
  | tail hrest hstep ih => exact ih.trans (hstep.chartered (Changes.ok hrest hok)).elder

theorem Changes.lasting {st st' : Stage} (h : Changes P T st st') : Lasting st.1 st'.1 := by
  induction h with
  | refl => exact .of_eq rfl rfl rfl rfl rfl rfl
  | tail _ hstep ih => exact ih.trans hstep.lasting

/-- A run that does not stop. -/
theorem runs_elder {ops : List Op} (hw : w.Ok none) (h : Runs.run (run P) w ops = some w') :
    w'.Ok none ∧ Elder w w' := by
  induction ops generalizing w with
  | nil => exact Option.some.inj h ▸ ⟨hw, .refl w⟩
  | cons op ops ih =>
    obtain ⟨u, hu, hrest⟩ := Runs.run_cons.mp h
    have hgo := run_goes hw hu
    obtain ⟨hok, helder⟩ := ih (hgo.ok hw) hrest
    exact ⟨hok, (Changes.elder hgo hw).trans helder⟩

theorem Along.at {Q : World → Op → Prop} {xs ys : List Op} (h : w.Along P Q (xs ++ op :: ys))
    (hrun : Runs.run (run P) w xs = some w') : Q w' op := by
  induction xs generalizing w with
  | nil => exact Option.some.inj hrun ▸ h.1
  | cons x xs ih =>
    obtain ⟨u, hu, hrest⟩ := Runs.run_cons.mp hrun
    exact ih (h.2 u hu) hrest

/-- `IRC::removeServer` destroys no channel. -/
theorem removeServer_alive (hw : w.Ok none) (name : Str) :
    (w.removeServer name).chans.alive = w.chans.alive := by
  unfold removeServer
  split
  · rfl
  · next s hs =>
    let T : Terms := { fair := True, apart := True, still := True, steady := fun _ => True,
                       gone := fun _ => True, clean := False, presents := True }
    have hne := hw.table.remote name s (OrdMap.find?_eq_some.mp hs)
    exact (removeServerNicks_goes (P := ⟨fun _ => 0, fun _ => [], fun _ => 0, fun _ => [],
      fun _ => [], fun _ => none⟩) (T := T) hne trivial _ le_rfl hw nofun).2.chans

/-- A chat that is kept over a disconnection puts its new nicks on the server that its account
has afterwards. -/
def Rejoins (P : Purple) (w₀ : World) (ops : List Op) : Prop :=
  ∀ xs a left ys w w' c v, ops = xs ++ .disconnected a left :: ys →
    Runs.run (run P) w₀ xs = some w → Runs.run (run P) w₀ ops = some w' →
    (w.removing (.disconnected a left)).isSome = true →
    w.chans.alive c = true → w.chans.conv c = some v → w.convs.account v = a →
    w'.chans.alive c = true →
    w'.chans.upserver c = w'.nicks.servers.find? (w'.data.servername a)

/-- A chat of an account that is disconnected cleanly does not last. -/
theorem Clean.not_kept {left : List ConvRef} {v : ConvRef} (hclean : w.Clean (.disconnected a left))
    (hw : w.Ok none) (hr : (w.removing (.disconnected a left)).isSome = true)
    (hc : w.chans.alive c = true) (hv : w.chans.conv c = some v) (ha : w.convs.account v = a)
    (h : w.run P (.disconnected a left) = some w') : w'.chans.alive c = false := by
  obtain ⟨r, hr⟩ := Option.isSome_iff_exists.mp hr
  obtain ⟨hreg, hleave, -⟩ := mem_removing hr
  have hgo : Goes P (w.terms P .welcome) w r.1 := hleave ▸ leaveChats_goes hw a left
  simp only [run, hreg, Bool.not_true, Bool.false_eq_true, if_false, runRegistered,
    ← hleave, Option.some.injEq] at h
  rw [← h, removeServer_alive (hgo.ok hw), ← Bool.not_eq_true]
  intro hkept
  obtain ⟨-, hconv⟩ := (Changes.elder hgo hw).chan c (hw.listed.bound c hc) hkept
  have hvalive := (hw.chats.bwd v c (hw.chats.fwd c v hc hv)).2.2.1
  have hacc := ((Changes.lasting hgo).conv v (hw.talks.bound v hvalive)).1
  have hsev := (hclean r hr).1 c ((hgo.ok hw).mem_table hkept)
  exact hsev.2 v (hconv.trans hv) (hacc.trans ha)

theorem rejoins {ops : List Op} (hw : w.Ok none) (h : w.Along P Clean ops) : w.Rejoins P ops := by
  intro xs a left ys u u' c v hops hxs hrun hr hc hv ha hlive
  subst hops
  obtain ⟨u₁, hu₁, hrest⟩ := Runs.run_append.mp hrun
  obtain rfl := Option.some.inj (hxs.symm.trans hu₁)
  obtain ⟨u₂, hstep, hys⟩ := Runs.run_cons.mp hrest
  have hu := (runs_elder hw hxs).1
  have hgo := run_goes hu hstep
  have hdead := (h.at hxs).not_kept hu hr hc hv ha hstep
  have hnext := Nat.lt_of_lt_of_le (hu.listed.bound c hc) (Changes.elder hgo hu).next
  have halive := ((runs_elder (hgo.ok hu) hys).2.chan c hnext hlive).1
  rw [hdead] at halive
  cases halive

end Rejoin

/-- As long as every disconnection finds the chats of the account closed and its transfers over. -/
theorem runAll_whole (P : Purple) (ops : List Op) (h : initial.Along P Clean ops) :
    (initial.runAll P ops).Whole ∧ initial.Rejoins P ops := by
  have hkeep : (initial.runAll P ops).Numbered ∧ (initial.runAll P ops).Homed := by
    refine runAll_keeps (I := fun w => w.Numbered ∧ w.Homed) (fun w op w' hw hQ _ hI hgo => ?_)
      initial_ok ⟨initial_numbered, initial_homed⟩ h
    exact ⟨Changes.numbered hgo hw hI.1, Changes.homed hgo hw hI.1 (hQ.terms hw) hI.2⟩
  exact ⟨hkeep.2.whole (runAll_ok P ops), rejoins initial_ok h⟩

section Runs

/-- The account 0 is connected with `bob` on its list. -/
def bobOnline : List Op :=
  [.nick (str "alice"), .startUp [], .welcome, .data twoAccounts, .connected 0, .updateNode 0]

/-- A transfer that is over when the account is disconnected, and a chat that is left. -/
theorem runAll_whole_bob :
    let ops := bobOnline ++ [.dccSend (some 0), .dccFinished 0, .dccUpdated, .newChat 0 (str "lounge"),
      .disconnected 0 [0], .connected 0]
    initial.Along twoBobs Clean ops ∧
      (initial.runAll twoBobs ops).Whole ∧ initial.Rejoins twoBobs ops := by
  have h : initial.Along twoBobs Clean (bobOnline ++ [.dccSend (some 0), .dccFinished 0, .dccUpdated,
      .newChat 0 (str "lounge"), .disconnected 0 [0], .connected 0]) := by
    decide
  exact ⟨h, runAll_whole twoBobs _ h⟩

/-- The peer of a transfer is deleted with its server. -/
theorem runAll_not_whole : ¬ ∀ (P : Purple) (ops : List Op),
    (initial.runAll P ops).Whole ∧ initial.Rejoins P ops := by
  intro h
  have hpeer := (h twoBobs (bobOnline ++ [.dccSend (some 0), .disconnected 0 []])).1.peer
  revert hpeer
  decide

/-- A chat that libpurple has not left keeps the server. -/
theorem runAll_kept_chat : ¬ (initial.runAll twoBobs
    (bobOnline ++ [.newChat 0 (str "lounge"), .disconnected 0 [], .connected 0])).Whole := by
  intro h
  have hup := h.upserver 0 (by decide) 1 (by decide)
  revert hup
  decide

end Runs

end World
end Minbif
