import Mathlib.Data.List.Perm.Subperm
import Minbif.ServerPoll.Sharing

/-! What the master knows of its sessions, and how many there are. -/
namespace Minbif
open Function Runs

namespace Forking

variable {d d' : Forking} {e : Event} {es : List Event} {i k fd maxcon listen : Nat}

/-- The sessions that are left. -/
def sessions (d : Forking) : List Nat :=
  (List.range d.served.length).filter fun k => (d.procs (k + 1)).alive

/-- Each entry of `childs` is the end of a session's pair, which hangs up once the session has gone;
and each session with a pair has an entry until then. -/
structure Attached (d : Forking) : Prop where
  entry : ∀ fd ∈ (d.procs 0).childs, ∃ k, d.served[k]? = some (.forked true) ∧
    (fd, .upper k) ∈ (d.procs 0).fds ∧
    (d.hangup (d.procs 0) fd = true ↔ (d.procs (k + 1)).alive = false)
  session : ∀ k, d.served[k]? = some (.forked true) → (d.procs (k + 1)).alive = true →
    ∃ fd ∈ (d.procs 0).childs, (fd, .upper k) ∈ (d.procs 0).fds

theorem Sound.session_entry (h : d.Sound) (halive : (d.procs 0).alive = true)
    (hk : d.served[k]? = some (.forked true)) (hlive : (d.procs (k + 1)).alive = true) :
    ∃ fd ∈ (d.procs 0).childs, (fd, .upper k) ∈ (d.procs 0).fds := by
  obtain ⟨fd, hfd⟩ := h.attached halive k hk hlive
  rcases (h.table 0).allowed _ _ hfd with hno | ⟨-, hchild⟩
  · rw [hk] at hno
    cases hno
  · exact ⟨fd, hchild, hfd⟩

/-- What the master has open, and how many entries. -/
structure Counted (maxcon : Nat) (d : Forking) : Prop where
  fixed : d.maxcon = maxcon
  limit : 0 < maxcon → (d.procs 0).childs.length ≤ maxcon
  fds : (d.procs 0).alive = true → (d.procs 0).fds.length =
    1 + (d.procs 0).childs.length + 2 * d.served.count (.unforked true)

theorem length_filter_ne {l : List Nat} (h : l.Nodup) (hfd : fd ∈ l) :
    (l.filter (· ≠ fd)).length + 1 = l.length := by
  have herase : l.filter (· ≠ fd) = l.erase fd := by
    rw [h.erase_eq_filter]
    exact List.filter_congr fun a _ => by rw [Bool.eq_iff_iff]; simp
  rw [herase, List.length_erase_of_mem hfd]
  have := List.length_pos_of_mem hfd
  omega

/-- A descriptor is in the table once. -/
theorem length_close {l : List (Nat × Desc)} {x : Desc} (h : (l.map Prod.fst).Nodup) (hfd : (fd, x) ∈ l) :
    (l.filter (·.1 ≠ fd)).length + 1 = l.length := by
  have hmap : (l.filter (·.1 ≠ fd)).map Prod.fst = (l.map Prod.fst).filter (· ≠ fd) := by
    rw [List.filter_map]
    rfl
  have hlen := length_filter_ne h (List.mem_map.mpr ⟨_, hfd, rfl⟩)
  rwa [← hmap, List.length_map, List.length_map] at hlen

theorem start_counted (maxcon listen : Nat) : (start maxcon listen).Counted maxcon := by
  refine ⟨rfl, fun _ => ?_, fun _ => ?_⟩ <;> simp [start]

theorem Counted.newClient {new : Nat} {pair : Option (Nat × Nat)} {forks : Bool}
    (h : d.Counted maxcon) (halive : (d.procs 0).alive = true)
    (hunused : Unused (d.procs 0) new pair) : (d.newClient new pair forks).Counted maxcon := by
  have hnew : (d.procs 0).free new = true := by
    cases pair with
    | none => exact hunused
    | some f => exact hunused.1
  have hfds := h.fds halive
  unfold Forking.newClient
  dsimp only
  split
  · rw [Process.refused_eq hnew]
    refine ⟨h.fixed, h.limit, fun _ => ?_⟩
    simpa using hfds
  · next hfull =>
    have hroom : 0 < maxcon → (d.procs 0).childs.length < maxcon := by
      intro hpos
      by_contra hle
      exact hfull ⟨h.fixed ▸ hpos, h.fixed ▸ Nat.le_of_not_lt hle⟩
    split
    · have hother : ∀ p q, update (update d.procs 0 p) (d.served.length + 1) q 0 = p := by
        intro p q
        rw [update_of_ne (by omega), update_self]
      rw [Process.parent_eq hunused]
      cases pair with
      | none =>
        refine ⟨h.fixed, fun hpos => ?_, fun _ => ?_⟩
        · dsimp only
          rw [hother]
          exact h.limit hpos
        · dsimp only
          rw [hother]
          simpa using hfds
      | some f =>
        refine ⟨h.fixed, fun hpos => ?_, fun _ => ?_⟩
        · dsimp only
          rw [hother, List.length_append, List.length_singleton]
          exact hroom hpos
        · dsimp only
          rw [hother]
          simp [hfds]
          omega
    · rw [Process.unforked_eq hunused]
      cases pair with
      | none =>
        refine ⟨h.fixed, fun hpos => ?_, fun _ => ?_⟩
        · dsimp only
          rw [update_self]
          exact h.limit hpos
        · dsimp only
          rw [update_self]
          simpa [Process.paired] using hfds
      | some f =>
        refine ⟨h.fixed, fun hpos => ?_, fun _ => ?_⟩
        · dsimp only
          rw [update_self]
          exact h.limit hpos
        · dsimp only
          rw [update_self]
          simp [Process.paired, Process.opened, hfds]
          omega

theorem Counted.setProc {p : Process} (h : d.Counted maxcon)
    (hlimit : i = 0 → p.childs.length ≤ (d.procs 0).childs.length)
    (hfds : i = 0 → p.alive = true → (d.procs 0).alive = true ∧
      p.fds.length + (d.procs 0).childs.length = (d.procs 0).fds.length + p.childs.length) :
    (d.setProc i p).Counted maxcon := by
  by_cases hi : i = 0
  · subst hi
    have hself : (d.setProc 0 p).procs 0 = p := by simp [Forking.setProc]
    refine ⟨h.fixed, fun hpos => ?_, fun hp => ?_⟩
    · rw [hself]
      exact Nat.le_trans (hlimit rfl) (h.limit hpos)
    · rw [hself] at hp ⊢
      obtain ⟨halive, hsum⟩ := hfds rfl hp
      have := h.fds halive
      have hserved : (d.setProc 0 p).served = d.served := rfl
      rw [hserved]
      omega
  · have hother : (d.setProc i p).procs 0 = d.procs 0 := update_of_ne (Ne.symm hi) _ _
    refine ⟨h.fixed, fun hpos => ?_, fun hp => ?_⟩
    · rw [hother]
      exact h.limit hpos
    · rw [hother] at hp ⊢
      exact h.fds hp

theorem Counted.step (h : d.Counted maxcon) (hs : d.Sound) (hstep : d.step e = some d') :
    d'.Counted maxcon := by
  cases e with
  | newClient new pair forks =>
    simp only [Forking.step] at hstep
    split at hstep
    · next hok =>
      obtain rfl := Option.some.inj hstep
      exact h.newClient hok.1 hok.2
    · cases hstep
  | childLeft i fd =>
    simp only [Forking.step] at hstep
    split at hstep
    · next hok =>
      obtain rfl := Option.some.inj hstep
      obtain ⟨halive, hfd, -⟩ := hok
      obtain ⟨k, hupper, -⟩ := (hs.table i).entries fd hfd
      have hchilds := length_filter_ne (hs.table i).nodup hfd
      have hclosed := length_close (hs.table i).keys hupper
      refine h.setProc ?_ ?_
      · rintro rfl
        exact List.length_filter_le _ _
      · rintro rfl _
        refine ⟨halive, ?_⟩
        rw [Process.close_fds]
        dsimp only [Process.close]
        omega
    · cases hstep
  | masterLeft i =>
    simp only [Forking.step] at hstep
    split at hstep
    · split at hstep
      · next hok =>
        obtain rfl := Option.some.inj hstep
        have hno : i ≠ 0 := fun h0 => hok.2.1 ((hs.accepts i hok.1).mpr h0)
        exact h.setProc (fun h0 => absurd h0 hno) fun h0 => absurd h0 hno
      · cases hstep
    · cases hstep
  | exit i =>
    simp only [Forking.step] at hstep
    split at hstep
    · obtain rfl := Option.some.inj hstep
      refine h.setProc (fun _ => Nat.zero_le _) ?_
      intro _ hdead
      cases hdead
    · cases hstep

theorem run_counted (hrun : run step (start maxcon listen) es = some d) : d.Counted maxcon := by
  have hboth := run_invariant (I := fun _ d => Sound d ∧ Counted maxcon d)
    (fun _ _ _ _ h hstep => ⟨h.1.step hstep, h.2.step h.1 hstep⟩)
    ⟨start_sound maxcon listen, start_counted maxcon listen⟩ hrun
  exact hboth.2

/-- How many of the sessions there ever were have been forked so. -/
theorem count_served {l : List Outcome} (o : Outcome) :
    ((List.range l.length).filter fun k => decide (l[k]? = some o)).length = l.count o := by
  have hmap : (List.range l.length).map (l[·]?) = l.map some := by
    refine List.ext_getElem (by simp) fun k hk _ => ?_
    simp only [List.length_map, List.length_range] at hk
    simp [hk]
  rw [← List.countP_eq_length_filter, List.count_eq_countP]
  have hcount := congrArg (List.countP fun r => decide (r = some o)) hmap
  rw [List.countP_map, List.countP_map] at hcount
  refine hcount.trans (List.countP_congr fun r _ => ?_)
  simp

/-- Those with a pair have different entries. -/
theorem Sound.paired_le (h : d.Sound) (halive : (d.procs 0).alive = true) :
    (d.sessions.filter fun k => decide (d.served[k]? = some (.forked true))).length ≤
      (d.procs 0).childs.length := by
  have hsub : (d.sessions.filter fun k => decide (d.served[k]? = some (.forked true))).map
      (fun k => some (Desc.upper k)) ⊆ (d.procs 0).childs.map fun fd => List.lookup fd (d.procs 0).fds := by
    intro x hx
    obtain ⟨k, hk, rfl⟩ := List.mem_map.mp hx
    obtain ⟨hlive, hk⟩ := List.mem_filter.mp hk
    obtain ⟨fd, hfd, hupper⟩ := h.session_entry halive (of_decide_eq_true hk)
      (List.mem_filter.mp hlive).2
    exact List.mem_map.mpr ⟨fd, hfd, (h.table 0).lookup hupper⟩
  have hnodup : ((d.sessions.filter fun k => decide (d.served[k]? = some (.forked true))).map
      (fun k => some (Desc.upper k))).Nodup :=
    ((List.nodup_range.filter _).filter _).map fun a b heq => by simpa using heq
  have hle := (hnodup.subperm hsub).length_le
  rwa [List.length_map, List.length_map] at hle

/-- Each end of a session's pair is open in the one process that it is for. -/
def Private (d : Forking) : Prop :=
  ∀ k, d.served[k]? = some (.forked true) → ∀ i fd,
    ((fd, .upper k) ∈ (d.procs i).fds → i = 0) ∧ ((fd, .lower k) ∈ (d.procs i).fds → i = k + 1)

/-- No session is forked without a pair while the master has entries, which that session would keep. -/
def Parts (d : Forking) : Event → Prop
  | .newClient _ none true => d.Full ∨ (d.procs 0).childs = []
  | _ => True

theorem Sound.private_iff (h : d.Sound) : d.Private ↔ ∀ i, i ≠ 0 → (d.procs i).childs = [] := by
  constructor
  · intro hp i hi
    by_contra hne
    obtain ⟨fd, hfd⟩ := List.exists_mem_of_ne_nil _ hne
    obtain ⟨k, hupper, hk⟩ := (h.table i).entries fd hfd
    exact hi ((hp k hk i fd).1 hupper)
  · intro hnil k hk i fd
    constructor
    · intro hfd
      by_contra hi
      rcases (h.table i).allowed _ _ hfd with hno | ⟨-, hchild⟩
      · rw [hk] at hno
        cases hno
      · rw [hnil i hi] at hchild
        cases hchild
    · intro hfd
      rcases (h.table i).allowed _ _ hfd with hno | ⟨-, hi⟩
      · rw [hk] at hno
        cases hno
      · exact hi

/-- The entries a session starts with. -/
theorem session_childs (p : Process) (new k : Nat) (pair : Option (Nat × Nat)) :
    (((p.opened new (.client k)).paired k pair).session pair).childs =
      if pair.isSome then [] else p.childs := by
  cases pair with
  | some f => rfl
  | none => cases hs : p.sock <;> simp [Process.session, Process.paired, Process.opened, Process.close, hs]

theorem newClient_childs {new : Nat} {pair : Option (Nat × Nat)} {forks : Bool} (hi : i ≠ 0) :
    ((d.newClient new pair forks).procs i).childs =
      if ¬ d.Full ∧ forks = true ∧ i = d.served.length + 1 then
        if pair.isSome then [] else (d.procs 0).childs
      else (d.procs i).childs := by
  unfold newClient
  dsimp only
  split
  · next hfull => simp [hi, hfull]
  · next hfull =>
    split
    · next hforks =>
      by_cases hlast : i = d.served.length + 1
      · subst hlast
        have hcond : ¬ d.Full ∧ forks = true ∧ d.served.length + 1 = d.served.length + 1 :=
          ⟨hfull, hforks, rfl⟩
        dsimp only
        rw [update_self, session_childs, if_pos hcond]
      · dsimp only
        rw [update_of_ne hlast, update_of_ne hi, if_neg fun h => hlast h.2.2]
    · next hforks =>
      dsimp only
      rw [update_of_ne hi, if_neg fun h => hforks h.2.1]

theorem step_private (h : d.Sound) (hp : d.Private) (hs : d.step e = some d') :
    d'.Private ↔ d.Parts e := by
  rw [(h.step hs).private_iff]
  rw [h.private_iff] at hp
  have hset : ∀ {i : Nat} {p : Process}, (i ≠ 0 → p.childs = []) →
      ∀ j, j ≠ 0 → ((d.setProc i p).procs j).childs = [] := by
    intro i p hp' j hj
    by_cases hji : j = i
    · subst hji
      simpa [setProc] using hp' hj
    · simpa [setProc, hji] using hp j hj
  cases e with
  | newClient new pair forks =>
    simp only [Forking.step] at hs
    split at hs
    · obtain rfl := Option.some.inj hs
      constructor
      · intro hnil
        cases pair with
        | some f => trivial
        | none =>
          cases forks with
          | false => trivial
          | true =>
            by_contra hno
            rw [Parts, not_or] at hno
            have hlast := hnil (d.served.length + 1) (by omega)
            rw [newClient_childs (by omega), if_pos ⟨hno.1, rfl, rfl⟩] at hlast
            exact hno.2 hlast
      · intro hq i hi
        rw [newClient_childs hi]
        split
        · next hcond =>
          obtain ⟨hfull, rfl, -⟩ := hcond
          cases pair with
          | some f => rfl
          | none => exact hq.resolve_left hfull
        · exact hp i hi
    · cases hs
  | childLeft i fd =>
    simp only [Forking.step] at hs
    split at hs
    · obtain rfl := Option.some.inj hs
      refine iff_of_true (hset fun hi => ?_) trivial
      simp [Process.close, hp i hi]
    · cases hs
  | masterLeft i =>
    simp only [Forking.step] at hs
    split at hs
    · split at hs
      · obtain rfl := Option.some.inj hs
        exact iff_of_true (hset fun hi => hp i hi) trivial
      · cases hs
    · cases hs
  | exit i =>
    simp only [Forking.step] at hs
    split at hs
    · obtain rfl := Option.some.inj hs
      exact iff_of_true (hset fun _ => rfl) trivial
    · cases hs

/-- No process ever has an end that is for another one, exactly when no session is forked without a pair
beside others. -/
theorem run_private (hrun : run step (start maxcon listen) es = some d) :
    Throughout step Private (start maxcon listen) es ↔ Along step Parts (start maxcon listen) es := by
  refine throughout_iff_inv (I := Sound) (fun s e t h hp hs => ?_) (start_sound maxcon listen) ?_ hrun
  · exact ⟨fun _ => h.step hs, step_private h hp hs⟩
  · exact fun k hk => nomatch hk

section Examples

/-- Two sessions come, the third client is refused, and finds room once the first session has left. -/
def twoSessions : List Event :=
  [.newClient 4 (some (5, 6)) true, .newClient 4 (some (6, 7)) true, .newClient 8 (some (9, 10)) true,
    .exit 1, .childLeft 0 5, .newClient 4 (some (5, 7)) true]

theorem run_private_two : Throughout step Private (start 2 3) twoSessions ↔
    Along step Parts (start 2 3) twoSessions :=
  run_private (Option.some_get (by decide +kernel)).symm

end Examples

end Forking
end Minbif
