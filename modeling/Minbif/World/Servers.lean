import Minbif.World.Events

/-! The servers that nicks and channels are on. -/
namespace Minbif
open Function

namespace Chans

variable {C : Chans}

theorem join_servers (N : Nicks) (C : Chans) (n : NickRef) (c : ChanRef) (status : Status) :
    (C.join N n c status).next = C.next ∧ (C.join N n c status).upserver = C.upserver := by
  cases hget : C.getChanUser n c with
  | some cu =>
    rw [join_old (N := N) hget status]
    exact ⟨rfl, rfl⟩
  | none =>
    rw [join_new (N := N) hget status]
    exact ⟨rfl, rfl⟩

theorem opened_upserver {c : ChanRef} {name : Str} {v : Option ConvRef} {up : Option ServerRef} :
    (C.opened name v up).upserver c = if c = C.next then up else C.upserver c := by
  rcases eq_or_ne c C.next with rfl | hne
  · simp [opened, addChannel, newChan]
  · simp [opened, addChannel, newChan, hne]

end Chans

namespace Nicks

/-- Servers are numbered in the order they come, and each has one name. -/
structure Numbered (N : Nicks) : Prop where
  nick : ∀ n, N.alive n = true → N.server n < N.nextServer
  table : ∀ k s, (k, s) ∈ N.servers.entries → s < N.nextServer
  live : ∀ s, N.serverAlive s = true → s < N.nextServer
  unique : ∀ k k' s, (k, s) ∈ N.servers.entries → (k', s) ∈ N.servers.entries → k = k'

variable {N : Nicks} {k : Str} {a : AccountRef} {s : ServerRef}

theorem Numbered.added (h : N.Numbered) {kind : NickKind} {nick ident host : Str} {b : BuddyRef}
    {cb : CBuddyRef} (hs : s < N.nextServer) :
    (N.added kind s nick ident host b cb).Numbered where
  nick n hn := by
    change (N.added kind s nick ident host b cb).server n < N.nextServer
    rcases eq_or_ne n N.next with rfl | hne
    · simpa [Nicks.added, addNick, newNick] using hs
    · rw [(added_other hne).2.2.2.2]
      exact h.nick n ((added_alive.mp hn).resolve_left hne)
  table := h.table
  live := h.live
  unique := h.unique

theorem Numbered.addServer (h : N.Numbered) : (N.addServer k a).Numbered where
  nick n hn := Nat.lt_succ_of_lt (h.nick n hn)
  table k' s hs := by
    rcases OrdMap.mem_insert.mp hs with ⟨-, rfl⟩ | ⟨-, hs⟩
    · exact Nat.lt_succ_self _
    · exact Nat.lt_succ_of_lt (h.table k' s hs)
  live s hs := by
    rcases eq_or_ne s N.nextServer with rfl | hne
    · exact Nat.lt_succ_self _
    · change update N.serverAlive N.nextServer true s = true at hs
      rw [update_of_ne hne] at hs
      exact Nat.lt_succ_of_lt (h.live s hs)
  unique k₁ k₂ s h₁ h₂ := by
    have hold : ∀ k', (k', N.nextServer) ∉ N.servers.entries := fun k' hk =>
      absurd (h.table k' _ hk) (Nat.lt_irrefl _)
    rcases OrdMap.mem_insert.mp h₁ with ⟨hk₁, hs₁⟩ | ⟨-, hs₁⟩ <;>
      rcases OrdMap.mem_insert.mp h₂ with ⟨hk₂, hs₂⟩ | ⟨-, hs₂⟩
    · exact hk₁.trans hk₂.symm
    · exact (hold k₂ (hs₁ ▸ hs₂)).elim
    · exact (hold k₁ (hs₂ ▸ hs₁)).elim
    · exact h.unique k₁ k₂ s hs₁ hs₂

theorem Numbered.dropServer (h : N.Numbered) : (N.dropServer k s).Numbered where
  nick := h.nick
  table k' s' hs := h.table k' s' (OrdMap.mem_erase.mp hs).1
  live s' hs := by
    rcases eq_or_ne s' s with rfl | hne
    · simp [Nicks.dropServer] at hs
    · change update N.serverAlive s false s' = true at hs
      rw [update_of_ne hne] at hs
      exact h.live s' hs
  unique k₁ k₂ s' h₁ h₂ := h.unique k₁ k₂ s' (OrdMap.mem_erase.mp h₁).1 (OrdMap.mem_erase.mp h₂).1

end Nicks

namespace World

variable {P : Purple} {T : Terms} {w w' : World} {c : ChanRef} {s : ServerRef}

/-- The channels of the second state were there, or are new with a server of the table. -/
structure Chartered (w w' : World) : Prop where
  next : w.chans.next ≤ w'.chans.next
  chan : ∀ c, w'.chans.alive c = true →
    (w.chans.alive c = true ∧ w'.chans.upserver c = w.chans.upserver c ∧
        w'.chans.conv c = w.chans.conv c) ∨
      w.chans.next ≤ c ∧ ∀ s, w'.chans.upserver c = some s → ∃ k, (k, s) ∈ w.nicks.servers.entries

theorem Chartered.shrunk (hn : w'.chans.next = w.chans.next)
    (ha : ∀ c, w'.chans.alive c = true → w.chans.alive c = true)
    (hu : w'.chans.upserver = w.chans.upserver) (hv : w'.chans.conv = w.chans.conv) :
    Chartered w w' :=
  ⟨Nat.le_of_eq hn.symm, fun c hc => .inl ⟨ha c hc, congrFun hu c, congrFun hv c⟩⟩

theorem Chartered.same (hn : w'.chans.next = w.chans.next) (ha : w'.chans.alive = w.chans.alive)
    (hu : w'.chans.upserver = w.chans.upserver) (hv : w'.chans.conv = w.chans.conv) :
    Chartered w w' :=
  .shrunk hn (fun c hc => by rwa [ha] at hc) hu hv

theorem Chartered.status {C : Chans} (hs : Chans.SameStatus w.chans C) (hw : w'.chans = C) :
    Chartered w w' := by
  refine .same ?_ ?_ ?_ ?_ <;> rw [hw, hs]

theorem Chartered.removed (hC : w.chans.Member) (hw : w'.chans = w.chans.remove w.nicks c) :
    Chartered w w' := by
  have hu := Chans.unlinked_remove (N := w.nicks) hC c
  refine .shrunk ?_ ?_ ?_ ?_
  · rw [hw]
    exact hu.next
  · intro c' hc'
    rw [hw, Chans.remove_alive hC] at hc'
    rcases eq_or_ne c' c with rfl | hne
    · simp at hc'
    · rwa [update_of_ne hne] at hc'
  · rw [hw]
    exact hu.upserver
  · rw [hw]
    exact hu.conv

theorem Chartered.opened {name : Str} {v : Option ConvRef} {up : Option ServerRef}
    (hup : ∀ s, up = some s → ∃ k, (k, s) ∈ w.nicks.servers.entries)
    (hL : w.chans.Listed) (hw : w'.chans = w.chans.opened name v up) : Chartered w w' := by
  refine ⟨?_, fun c hc => ?_⟩
  · rw [hw]
    exact Nat.le_succ _
  · rw [hw] at hc ⊢
    rw [Chans.opened_upserver]
    rcases Chans.opened_alive.mp hc with rfl | hc
    · rw [if_pos rfl]
      exact .inr ⟨le_rfl, hup⟩
    · rw [if_neg (hL.ne_next hc)]
      exact .inl ⟨hc, rfl, (Chans.opened_other (hL.ne_next hc)).1⟩

/-- Only a new chat has a server it did not have. -/
theorem Change.chartered {s s' : Stage} (h : Change P T s s') (hok : s.1.Ok s.2) :
    Chartered s.1 s'.1 := by
  cases h with
  | say w d l h => exact .same rfl rfl rfl rfl
  | names w c hc => exact .status (Chans.sameBut_sendNames w.nicks w.chans c userRef).sameStatus rfl
  | setMode w c modes cu hcu => exact .status (Chans.sameStatus_setMode _ _ _ _ _) rfl
  | delMode w c modes cu hcu => exact .status (Chans.sameStatus_delMode _ _ _ _ _) rfl
  | join w n c status =>
    obtain ⟨hn, hu⟩ := Chans.join_servers w.nicks w.chans n c status
    obtain ⟨ha, hv⟩ := Chans.join_rest w.nicks w.chans n c status
    exact .same hn ha hu hv
  | leave w n c cu m hcu hc hm hchat =>
    have hu := Chans.unlinked_leave' hok.member hcu hc m
    exact .same hu.next (Chans.leave_rest w.chans c n cu m).1 hu.upserver hu.conv
  | leaveChat w c cu m hcu hc hm =>
    have hu := Chans.unlinked_leave' hok.member hcu hc m
    exact .same hu.next (Chans.leave_rest w.chans c userRef cu m).1 hu.upserver hu.conv
  | quit w n text hn =>
    have hu := Chans.unlinked_quit (N := w.nicks) hok.member n text
    exact .same hu.next (Chans.quit_alive (N := w.nicks) hok.member n text) hu.upserver hu.conv
  | drop w d k n l hmem hn hlist hpeer =>
    have hu := Chans.unlinked_quit (N := w.nicks) hok.member n (str "*.net *.split")
    exact .same hu.next (Chans.quit_alive (N := w.nicks) hok.member n _) hu.upserver hu.conv
  | release w c n cu hcu hn hk =>
    have hu := Chans.unlinked_release hok.member hcu hn
    exact .same hu.next (Chans.release_rest w.chans c n cu).1 hu.upserver hu.conv
  | closed w c hc hv => exact .removed hok.member rfl
  | closedChat w c v hc hv => exact .removed hok.member rfl
  | newStatus w name hfree hhash => exact .opened (fun _ h => by cases h) hok.listed rfl
  | newChat w a name channame up hfree hhash hup => exact .opened hup hok.listed rfl
  | renamed w n newnick hn hconv hfree hsteady =>
    exact .status (Chans.sameBut_send w.chans userRef _).sameStatus rfl
  | _ => exact .same rfl rfl rfl rfl

/-- Every number of a server is below the next one. -/
structure Numbered (w : World) : Prop where
  nicks : w.nicks.Numbered
  chan : ∀ c, w.chans.alive c = true → ∀ s, w.chans.upserver c = some s → s < w.nicks.nextServer

theorem Numbered.offers (h : w.Numbered) (hs : w.Offers s) : s < w.nicks.nextServer := by
  rcases hs with ⟨k, hk⟩ | ⟨c, hc, hup⟩
  · exact h.nicks.table k s hk
  · exact h.chan c hc s hup

theorem Change.nextServer_le {s s' : Stage} (h : Change P T s s') :
    s.1.nicks.nextServer ≤ s'.1.nicks.nextServer := by
  cases h with
  | connected w a => exact Nat.le_succ _
  | _ => exact le_rfl

theorem Change.numbered {s s' : Stage} (h : Change P T s s') (hok : s.1.Ok s.2)
    (hN : s.1.Numbered) : s'.1.Numbered := by
  refine ⟨?_, ?_⟩
  · have hpos : ircRef < s.1.nicks.nextServer := Nat.pos_of_ne_zero hok.table.nextServer
    cases h with
    | drop w d k n l hmem hn hlist hpeer =>
      exact ⟨fun m hm => hN.nicks.nick m (Nicks.dropped_alive.mp hm).2, hN.nicks.table,
        hN.nicks.live, hN.nicks.unique⟩
    | add w kind s nick ident host b cb hreg hkind hfree hserver =>
      exact hN.nicks.added (hN.offers hserver)
    | addLocal w kind name hreg hkind hfree => exact hN.nicks.added hpos
    | renamed | nick | rebound =>
      exact ⟨hN.nicks.nick, hN.nicks.table, hN.nicks.live, hN.nicks.unique⟩
    | connected w a => exact hN.nicks.addServer
    | dropServer w name s hs hnone hup => exact hN.nicks.dropServer
    | _ => exact hN.nicks
  · intro c hc s hs
    refine Nat.lt_of_lt_of_le ?_ h.nextServer_le
    rcases (h.chartered hok).chan c hc with ⟨hc, hu, -⟩ | ⟨-, hu⟩
    · exact hN.chan c hc s (hu ▸ hs)
    · obtain ⟨k, hk⟩ := hu s hs
      exact hN.nicks.table k s hk

theorem initial_numbered : initial.Numbered where
  nicks := {
    nick := fun _ _ => Nat.zero_lt_one
    table := nofun
    live := fun s hs => by
      obtain rfl : s = ircRef := beq_iff_eq.mp hs
      exact Nat.zero_lt_one
    unique := nofun }
  chan := nofun

end World
end Minbif
