import Minbif.World.Servers
import Minbif.World.Attribution
import Minbif.World.Sound

/-! The nicks that each server lists, and that MAP counts. -/
namespace Minbif
open Function

namespace Nicks

/-- The nicks of the table that are on the server. -/
def onServer (N : Nicks) (s : ServerRef) : List NickRef :=
  N.users.values.filter fun n => N.server n = s

/-- `Server::users` has each nick of the table that is on the server once, and no other. -/
structure Lists (N : Nicks) (s : ServerRef) : Prop where
  nodup : (N.serverUsers s).Nodup
  mem : ∀ n, n ∈ N.serverUsers s ↔ (∃ k, (k, n) ∈ N.users.entries) ∧ N.server n = s

variable {N N' : Nicks} {n m : NickRef} {k nick : Str} {s s₀ : ServerRef}

theorem mem_onServer : n ∈ N.onServer s ↔ (∃ k, (k, n) ∈ N.users.entries) ∧ N.server n = s := by
  simp [onServer, OrdMap.values]

/-- A nick has one entry, the one under its name. -/
theorem Table.nodup_values (h : N.Table) : N.users.values.Nodup := by
  refine List.pairwise_map.mpr (N.users.sorted.imp_of_mem ?_)
  intro a b ha hb hlt he
  have ha' := h.key a.1 a.2 ha
  have hb' := h.key b.1 b.2 hb
  rw [he, hb'] at ha'
  exact ne_of_lt hlt ha'.symm

theorem Lists.perm (h : N.Lists s) (ht : N.Table) : (N.serverUsers s).Perm (N.onServer s) :=
  (List.perm_ext_iff_of_nodup h.nodup (ht.nodup_values.filter _)).mpr fun n =>
    (h.mem n).trans mem_onServer.symm

theorem Lists.congr (h : N.Lists s) (hl : N'.serverUsers s = N.serverUsers s)
    (hm : ∀ n, (∃ k, (k, n) ∈ N'.users.entries) ∧ N'.server n = s ↔
      (∃ k, (k, n) ∈ N.users.entries) ∧ N.server n = s) : N'.Lists s := by
  refine ⟨?_, fun n => ?_⟩
  · rw [hl]
    exact h.nodup
  · rw [hl, hm]
    exact h.mem n

theorem mem_dropped_users {l : ServerRef → List NickRef} (ht : N.Table)
    (hmem : (k, n) ∈ N.users.entries) : (∃ k', (k', m) ∈ (N.dropped k n l).users.entries) ↔
      (∃ k', (k', m) ∈ N.users.entries) ∧ m ≠ n := by
  constructor
  · rintro ⟨k', hm⟩
    obtain ⟨hold, hne⟩ := mem_dropped.mp hm
    refine ⟨⟨k', hold⟩, ?_⟩
    rintro rfl
    exact hne ((ht.key k' m hold).symm.trans (ht.key k m hmem))
  · rintro ⟨⟨k', hm⟩, hne⟩
    refine ⟨k', mem_dropped.mpr ⟨hm, ?_⟩⟩
    rintro rfl
    exact hne (OrdMap.mem_unique hm hmem)

/-- `IRC::removeNick` takes the nick off the list of its server. -/
theorem Lists.without (h : N.Lists s) (ht : N.Table) (hmem : (k, n) ∈ N.users.entries) :
    (N.dropped k n (N.serverUsersWithout n)).Lists s := by
  rcases eq_or_ne s (N.server n) with rfl | hs
  · have hl : (N.dropped k n (N.serverUsersWithout n)).serverUsers (N.server n) =
        (N.serverUsers (N.server n)).erase n := update_self ..
    refine ⟨?_, fun m => ?_⟩
    · rw [hl]
      exact h.nodup.erase n
    · rw [hl, h.nodup.mem_erase_iff, h.mem, mem_dropped_users ht hmem]
      tauto
  · refine h.congr (update_of_ne hs ..) fun m => ?_
    rw [mem_dropped_users ht hmem]
    constructor
    · rintro ⟨⟨hm, -⟩, hserver⟩
      exact ⟨hm, hserver⟩
    · rintro ⟨hm, hserver⟩
      refine ⟨⟨hm, ?_⟩, hserver⟩
      rintro rfl
      exact hs hserver.symm

/-- The nicks of another server leave the list as it is. -/
theorem Lists.dropped (h : N.Lists s) (ht : N.Table) (hmem : (k, n) ∈ N.users.entries)
    (hs : N.server n ≠ s) : (N.dropped k n N.serverUsers).Lists s := by
  refine h.congr rfl fun m => ?_
  rw [mem_dropped_users ht hmem]
  constructor
  · rintro ⟨⟨hm, -⟩, hserver⟩
    exact ⟨hm, hserver⟩
  · rintro ⟨hm, hserver⟩
    refine ⟨⟨hm, ?_⟩, hserver⟩
    rintro rfl
    exact hs hserver

/-- `IRC::addNick` of a new nick whose name is free. -/
theorem Lists.added (h : N.Lists s) (ht : N.Table) {kind : NickKind} {ident host : Str}
    {b : BuddyRef} {cb : CBuddyRef} (hfree : N.getNick nick = none) :
    (N.added kind s₀ nick ident host b cb).Lists s := by
  have hkey : ∀ k m, (k, m) ∈ N.users.entries → k ≠ nick := by
    intro k m hm he
    exact getNick_eq_none.mp hfree k m hm (congrArg strlower he)
  have hnew : N.next ∉ N.serverUsers s := by
    intro hm
    obtain ⟨⟨k, hk⟩, -⟩ := (h.mem N.next).mp hm
    exact ht.mem_ne_next hk rfl
  have hserver : (N.added kind s₀ nick ident host b cb).server N.next = s₀ := by
    simp [Nicks.added, addNick, newNick]
  have hlist : (N.added kind s₀ nick ident host b cb).serverUsers s =
      if s = s₀ then N.serverUsers s ++ [N.next] else N.serverUsers s := by
    rcases eq_or_ne s s₀ with rfl | hne
    · simp [Nicks.added, addNick, newNick]
    · simp [Nicks.added, addNick, newNick, hne]
  have hmem : ∀ m, (∃ k, (k, m) ∈ (N.added kind s₀ nick ident host b cb).users.entries) ↔
      m = N.next ∨ ∃ k, (k, m) ∈ N.users.entries := by
    intro m
    constructor
    · rintro ⟨k, hm⟩
      rcases mem_added.mp hm with ⟨-, rfl⟩ | ⟨-, hm⟩
      · exact .inl rfl
      · exact .inr ⟨k, hm⟩
    · rintro (rfl | ⟨k, hm⟩)
      · exact ⟨nick, mem_added.mpr (.inl ⟨rfl, rfl⟩)⟩
      · exact ⟨k, mem_added.mpr (.inr ⟨hkey k m hm, hm⟩)⟩
  refine ⟨?_, fun m => ?_⟩
  · rw [hlist]
    split
    · exact List.nodup_append'.mpr ⟨h.nodup, List.nodup_singleton _, by simpa using hnew⟩
    · exact h.nodup
  · rw [hmem, hlist]
    rcases eq_or_ne m N.next with rfl | hne
    · rw [hserver]
      split
      · next he => simp [he]
      · next hne => simp [hnew, Ne.symm hne]
    · rw [(added_other hne).2.2.2.2, or_iff_right hne, ← h.mem]
      split <;> simp [hne]

/-- A nick of another server takes a name nobody has. -/
theorem Lists.renamed (h : N.Lists s) (ht : N.Table) (hn : N.alive n = true)
    (hk : (N.kind n).isConvNick = true) (hfree : N.FreeFor n nick) (hs : N.server n ≠ s) :
    (N.renameNick n nick).Lists s := by
  refine h.congr (update_of_ne (Ne.symm hs) ..) fun m => and_congr_left fun hserver => ?_
  have hne : m ≠ n := by
    rintro rfl
    exact hs hserver
  constructor
  · rintro ⟨k, hm⟩
    rcases mem_renameNick.mp hm with ⟨-, rfl⟩ | ⟨-, hm, -⟩
    · exact (hne rfl).elim
    · exact ⟨k, hm⟩
  · rintro ⟨k, hm⟩
    exact ⟨k, mem_renameNick.mpr (.inr ⟨hfree.key_ne hm hne, hm, ht.key_ne hn hk hm hne⟩)⟩

/-- A server that no nick is on, before and after. -/
theorem Lists.none (h : N.Lists s) (hl : N'.serverUsers s = N.serverUsers s)
    (hN : ∀ k n, (k, n) ∈ N.users.entries → N.server n ≠ s)
    (hN' : ∀ k n, (k, n) ∈ N'.users.entries → N'.server n ≠ s) : N'.Lists s := by
  refine h.congr hl fun n => ⟨?_, ?_⟩
  · rintro ⟨⟨k, hm⟩, hs⟩
    exact (hN' k n hm hs).elim
  · rintro ⟨⟨k, hm⟩, hs⟩
    exact (hN k n hm hs).elim

end Nicks

namespace World

variable {P : Purple} {T : Terms} {w w' : World} {s : ServerRef} {op : Op}

/-- While there are only nicks of the IRC server, the others list none. -/
theorem Ok.quiet_server (hw : w.Ok none) (hreg : w.registered = false) {k : Str} {n : NickRef}
    (hm : (k, n) ∈ w.nicks.users.entries) : w.nicks.server n = ircRef :=
  hw.table.home n (hw.table.live k n hm) (hw.quiet hreg n (hw.table.live k n hm))

theorem Lists.addLocal (hw : w.Ok none) (hreg : w.registered = false) {kind : NickKind}
    {name : Str} (hfree : s = ircRef → w.nicks.getNick name = none) (h : w.nicks.Lists s) :
    (w.addLocal kind name).nicks.Lists s := by
  rcases eq_or_ne s ircRef with rfl | hs
  · exact h.added hw.table (hfree rfl)
  · refine h.none ?_ (fun k n hm he => hs ?_) fun k n hm he => hs ?_
    · simp [World.addLocal, Nicks.addNick, Nicks.newNick, hs]
    · rw [← he, hw.quiet_server hreg hm]
    · rcases Nicks.mem_added.mp hm with ⟨-, rfl⟩ | ⟨-, hm⟩
      · rw [← he]
        simp [World.addLocal, Nicks.addNick, Nicks.newNick]
      · rw [← he, ← hw.quiet_server hreg hm]
        exact (Nicks.added_other (hw.table.mem_ne_next hm)).2.2.2.2

theorem Lists.nick (hw : w.Ok none) (hreg : w.registered = false) {newnick : Str}
    (hs : s ≠ ircRef) (h : w.nicks.Lists s) : (w.nicks.renameNick userRef newnick).Lists s := by
  have huser : w.nicks.server userRef = ircRef :=
    hw.table.home userRef hw.table.userAlive (by rw [hw.table.userKind]; rfl)
  refine h.none ?_ (fun k n hm he => hs ?_) fun k n hm he => hs ?_
  · exact update_of_ne (by rw [← huser] at hs; exact hs) ..
  · rw [← he, hw.quiet_server hreg hm]
  · rcases Nicks.mem_renameNick.mp hm with ⟨-, rfl⟩ | ⟨-, hm, -⟩
    · rw [← he, ← huser]
      rfl
    · rw [← he, ← hw.quiet_server hreg hm]
      rfl

/-- Only a rename, a name taken twice and the removal of the server touch its list wrongly. -/
theorem Change.lists {st st' : Stage} (h : Change P T st st') (hok : st.1.Ok st.2)
    (hN : st.1.Numbered) (hsteady : T.steady s) (hgone : ¬ T.gone s) (hirc : s = ircRef → T.apart)
    (hs : st.1.nicks.serverAlive s = true → st.1.nicks.Lists s)
    (ha : st'.1.nicks.serverAlive s = true) : st'.1.nicks.Lists s := by
  cases h with
  | drop w d k n l hmem hn hlist hpeer =>
    rcases hlist with rfl | ⟨rfl, hg⟩
    · exact (hs ha).without hok.table hmem
    · refine (hs ha).dropped hok.table hmem ?_
      rintro rfl
      exact hgone hg
  | add w kind s₀ nick ident host b cb hreg hkind hfree hserver =>
    exact (hs ha).added hok.table hfree
  | addLocal w kind name hreg hkind hfree =>
    exact Lists.addLocal hok hreg (fun he => hfree (hirc he)) (hs ha)
  | renamed w n newnick hn hconv hfree hrename =>
    refine (hs ha).renamed hok.table hn hconv hfree ?_
    rintro rfl
    exact hrename hsteady
  | nick w newnick hreg hfree hstill hrename =>
    refine Lists.nick hok hreg ?_ (hs ha)
    rintro rfl
    exact hrename hsteady
  | connected w a =>
    rcases eq_or_ne s w.nicks.nextServer with rfl | hne
    · refine ⟨?_, fun n => ?_⟩
      · simp [World.connected, Nicks.addServer]
      · have hnone : ¬ ((∃ k, (k, n) ∈ w.nicks.users.entries) ∧
            w.nicks.server n = w.nicks.nextServer) := by
          rintro ⟨⟨k, hm⟩, he⟩
          exact absurd (hN.nicks.nick n (hok.table.live k n hm)) (he ▸ Nat.lt_irrefl _)
        simpa [World.connected, Nicks.addServer] using hnone
    · refine (hs ?_).congr (update_of_ne hne ..) fun n => Iff.rfl
      rw [← ha]
      exact (update_of_ne hne ..).symm
  | dropServer w name s₀ hmem hnone hup =>
    have hne : s ≠ s₀ := by
      rintro rfl
      simp [Nicks.dropServer] at ha
    refine (hs ?_).congr rfl fun n => Iff.rfl
    rw [← ha]
    exact (update_of_ne hne ..).symm
  | rebound => exact ⟨(hs ha).nodup, (hs ha).mem⟩
  | _ => exact hs ha

theorem Changes.numbered {st st' : Stage} (h : Changes P T st st') (hok : st.1.Ok st.2)
    (hN : st.1.Numbered) : st'.1.Numbered := by
  induction h with
  | refl => exact hN
  | tail hrest hstep ih => exact hstep.numbered (Changes.ok hrest hok) ih

theorem Changes.lists {st st' : Stage} (h : Changes P T st st') (hok : st.1.Ok st.2)
    (hN : st.1.Numbered) (hsteady : T.steady s) (hgone : ¬ T.gone s) (hirc : s = ircRef → T.apart)
    (hs : st.1.nicks.serverAlive s = true → st.1.nicks.Lists s) :
    st'.1.nicks.serverAlive s = true → st'.1.nicks.Lists s := by
  induction h with
  | refl => exact hs
  | tail hrest hstep ih =>
    exact hstep.lists (Changes.ok hrest hok) (Changes.numbered hrest hok hN) hsteady hgone hirc ih

/-- The server that the event removes is deleted. -/
theorem run_removing {r : World × ServerRef} (hr : r ∈ w.removing op)
    (h : w.run P op = some w') : w'.nicks.serverAlive r.2 = false := by
  unfold removing at hr
  split at hr
  · next a left =>
    split at hr
    · cases hr
    · next hreg =>
      obtain ⟨s, hs, rfl⟩ := Option.map_eq_some_iff.mp hr
      simp only [run, hreg, runRegistered, removeServer, hs] at h
      obtain rfl := Option.some.inj h
      exact update_self ..
  · cases hr

/-- Before the start-up there is only the User, under the name it was made with. -/
def Fresh (w : World) : Prop := w.started = false → w.nicks = initial.nicks

theorem run_fresh (hw : w.Ok none) (hsteady : w.Steady P ircRef op) (h : w.run P op = some w')
    (hf : w.Fresh) (hgo : Goes P (w.terms P op) w w') : w'.Fresh := by
  cases hs : w.started with
  | true =>
    intro hs'
    rw [Changes.started hgo hs] at hs'
    cases hs'
  | false =>
    have hnicks := hf hs
    have hreg := (hw.early hs).1
    cases op with
    | data D => exact fun _ => Option.some.inj h ▸ hnicks
    | nick newnick =>
      by_cases hvalid : isValidNickname newnick = true
      · have huser : w.nicks.server userRef = ircRef :=
          hw.table.home userRef hw.table.userAlive (by rw [hw.table.userKind]; rfl)
        exact (hsteady userRef (by simp [renames, hreg, hvalid]) huser).elim
      · simp only [run, hreg, hvalid, Bool.false_or, Bool.not_false, if_true] at h
        exact fun _ => Option.some.inj h ▸ hnicks
    | startUp accounts =>
      simp only [run, hs, Bool.false_eq_true, if_false, Option.some.injEq] at h
      rw [Fresh, ← h, startUp_started hw accounts]
      exact fun h => (Bool.false_ne_true h.symm).elim
    | welcome => exact fun _ => Option.some.inj h ▸ hnicks
    | _ =>
      simp only [run, hreg, Bool.not_false, if_true] at h
      exact fun _ => Option.some.inj h ▸ hnicks

/-- As long as the User has no other name, both nicks of the server find theirs free. -/
theorem Fresh.apart (hf : w.Fresh) (hw : w.Ok none) (hsteady : w.Steady P ircRef op) :
    w.Apart op := by
  cases op with
  | nick newnick =>
    intro hreg hvalid
    have huser : w.nicks.server userRef = ircRef :=
      hw.table.home userRef hw.table.userAlive (by rw [hw.table.userKind]; rfl)
    exact (hsteady userRef (by simp [renames, hreg, hvalid]) huser).elim
  | startUp accounts =>
    intro hs
    rw [NamesFree, hf hs]
    decide
  | _ => trivial

theorem initial_lists : initial.nicks.Lists ircRef := by
  have hl : initial.nicks.serverUsers ircRef = [userRef] := rfl
  refine ⟨?_, fun n => ?_⟩
  · rw [hl]
    exact List.nodup_singleton _
  · have he : initial.nicks.users.entries = [(str "*", userRef)] := rfl
    have hs : initial.nicks.server n = ircRef := rfl
    simp [hl, he, hs]

/-- The virtual `isOnline`: a `Buddy` asks its contact. -/
def isOnline (w : World) (n : NickRef) : Bool :=
  if w.nicks.kind n = .buddy then w.data.online (w.nicks.buddy n) else true

/-- `Server::countNicks`. -/
def countNicks (w : World) (s : ServerRef) : Nat := (w.nicks.serverUsers s).length

/-- `Server::countOnlineNicks`. -/
def countOnlineNicks (w : World) (s : ServerRef) : Nat :=
  (w.nicks.serverUsers s).countP fun n => w.isOnline n

/-- The list of the server and what MAP shows of it. -/
structure Counted (w : World) (s : ServerRef) : Prop where
  lists : w.nicks.Lists s
  live : ∀ n ∈ w.nicks.serverUsers s, w.nicks.alive n = true
  nicks : w.countNicks s = (w.nicks.onServer s).length
  online : w.countOnlineNicks s = (w.nicks.onServer s).countP fun n => w.isOnline n

theorem Ok.counted (hw : w.Ok none) (h : w.nicks.Lists s) : w.Counted s := by
  have hperm := h.perm hw.table
  refine ⟨h, fun n hn => ?_, hperm.length_eq, hperm.countP_eq _⟩
  obtain ⟨⟨k, hk⟩, -⟩ := (h.mem n).mp hn
  exact hw.table.live k n hk

/-- A server counts its nicks right as long as none of them is renamed. -/
theorem runAll_counted (P : Purple) (ops : List Op) (s : ServerRef)
    (h : initial.Along P (Steady P s) ops)
    (hs : (initial.runAll P ops).nicks.serverAlive s = true) :
    (initial.runAll P ops).Counted s := by
  let I (w : World) : Prop := w.Numbered ∧ (s = ircRef → w.Fresh) ∧
    (w.nicks.serverAlive s = true → w.nicks.Lists s)
  have hinit : I initial := by
    refine ⟨initial_numbered, fun _ _ => rfl, fun ha => ?_⟩
    obtain rfl : s = ircRef := beq_iff_eq.mp ha
    exact initial_lists
  have hkeep : I (initial.runAll P ops) := by
    refine runAll_keeps (fun w op w' hw hQ hrun hI hgo => ?_) initial_ok hinit h
    obtain ⟨hN, hfresh, hlists⟩ := hI
    refine ⟨Changes.numbered hgo hw hN, ?_, ?_⟩
    · rintro rfl
      exact run_fresh hw hQ hrun (hfresh rfl) hgo
    · by_cases hgone : (w.terms P op).gone s
      · obtain ⟨r, hr, rfl⟩ := hgone
        rw [run_removing hr hrun]
        nofun
      · refine Changes.lists hgo hw hN hQ hgone ?_ hlists
        rintro rfl
        exact (hfresh rfl).apart hw hQ
  exact (runAll_ok P ops).counted (hkeep.2.2 hs)

/-- The server of the first account, with `bob` on it. -/
theorem runAll_counted_bob : initial.Along twoBobs (Steady twoBobs 1) (bobWrites 0) ∧
    (initial.runAll twoBobs (bobWrites 0)).Counted 1 := by
  have h : initial.Along twoBobs (Steady twoBobs 1) (bobWrites 0) := by decide
  exact ⟨h, runAll_counted twoBobs _ 1 h (by decide)⟩

/-- `NICK` puts the User on the list of its server a second time. -/
theorem runAll_counted_twice : ¬ ∀ (P : Purple) (ops : List Op) (s : ServerRef),
    (initial.runAll P ops).nicks.serverAlive s = true → (initial.runAll P ops).Counted s := by
  intro h
  have hnodup := (h noPurple [.nick (str "alice")] ircRef rfl).lists.nodup
  revert hnodup
  decide

end World
end Minbif
