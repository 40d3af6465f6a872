import Minbif.Irc.Placement

/-! The status that a nick has on a channel, if it is on it. -/
namespace Minbif
open Function

namespace Chans

variable {N : Nicks} {C C' : Chans} {n m : NickRef} {c c' : ChanRef} {cu : ChanUserRef}
  {S : ChanUserRef → Bool} {st modes : Status}

/-- The status that the nick has on the channel. -/
def statusOn (C : Chans) (n : NickRef) (c : ChanRef) : Option Status :=
  (C.getChanUser n c).map C.cuStatus

theorem statusOn_isSome : (C.statusOn n c).isSome = (C.getChanUser n c).isSome := by
  rw [statusOn, Option.isSome_map]

theorem getChanUser_eq_some (hC : C.Member) :
    C.getChanUser n c = some cu ↔ cu ∈ C.channels n ∧ C.cuChan cu = c := by
  refine ⟨getChanUser_some, fun ⟨hcu, hc⟩ => ?_⟩
  cases hget : C.getChanUser n c with
  | none => exact absurd hc (getChanUser_none hget cu hcu)
  | some cu' =>
    obtain ⟨hcu', hc'⟩ := getChanUser_some hget
    rw [hC.one n cu' hcu' cu hcu (hc'.trans hc.symm)]

theorem statusOn_eq_none : C.statusOn n c = none ↔ ∀ cu ∈ C.channels n, C.cuChan cu ≠ c := by
  rw [statusOn, Option.map_eq_none_iff]
  exact ⟨getChanUser_none, fun h => List.find?_eq_none.mpr fun cu hcu => by simpa using h cu hcu⟩

theorem SameBut.statusOn (h : SameBut C C') : C'.statusOn n c = C.statusOn n c := by
  rw [h]
  rfl

/-- Who is not among those that left has the status it had. -/
theorem Unlinked.statusOn_kept (h : Unlinked C C' S) (hC : C.Member)
    (hS : ∀ cu ∈ C.channels n, C.cuChan cu = c → S cu = false) :
    C'.statusOn n c = C.statusOn n c := by
  have hget : C'.getChanUser n c = C.getChanUser n c := by
    cases hold : C.getChanUser n c with
    | none =>
      refine List.find?_eq_none.mpr fun cu hcu => ?_
      rw [h.channels, List.mem_filter] at hcu
      simpa [h.cuChan] using getChanUser_none hold cu hcu.1
    | some cu =>
      obtain ⟨hcu, hc⟩ := getChanUser_some hold
      refine (getChanUser_eq_some (h.member hC)).mpr ⟨?_, by rw [h.cuChan, hc]⟩
      rw [h.channels, List.mem_filter, hS cu hcu hc]
      exact ⟨hcu, rfl⟩
  rw [Chans.statusOn, hget, h.cuStatus, Chans.statusOn]

theorem Unlinked.statusOn_gone (h : Unlinked C C' S)
    (hS : ∀ cu ∈ C.channels n, C.cuChan cu = c → S cu = true) : C'.statusOn n c = none := by
  rw [statusOn_eq_none]
  intro cu hcu hc
  rw [h.channels, List.mem_filter] at hcu
  rw [h.cuChan] at hc
  rw [hS cu hcu.1 hc] at hcu
  cases hcu.2

theorem quit_statusOn (hC : C.Member) (m : NickRef) (text : Str) :
    (C.quit N m text).statusOn n c = if n = m then none else C.statusOn n c := by
  have hu := unlinked_quit (N := N) hC m text
  split
  · next he =>
    subst he
    exact hu.statusOn_gone fun cu hcu _ => List.contains_iff_mem.mpr hcu
  · next hne =>
    refine hu.statusOn_kept hC fun cu hcu _ => ?_
    have hout : cu ∉ C.channels m := fun h => hne ((hC.fwd n cu hcu).1.symm.trans (hC.fwd m cu h).1)
    simpa using hout

theorem deleteChan_statusOn (hC : C.Member) (c' : ChanRef) :
    (C.deleteChan N c').statusOn n c = if c = c' then none else C.statusOn n c := by
  have hu := unlinked_deleteChan (N := N) hC c'
  split
  · next he =>
    subst he
    exact hu.statusOn_gone fun cu hcu hc => List.contains_iff_mem.mpr (hC.mem_users hcu hc)
  · next hne =>
    refine hu.statusOn_kept hC fun cu hcu hc => ?_
    have hout : cu ∉ C.users c' := fun h => hne (hc.symm.trans (hC.bwd c' cu h).1)
    simpa using hout

theorem leave_statusOn (hC : C.Member) (hget : C.getChanUser m c' = some cu) (msg : Message) :
    (C.leave c' m cu msg).statusOn n c = if n = m ∧ c = c' then none else C.statusOn n c := by
  obtain ⟨hcu, hc'⟩ := getChanUser_some hget
  have hu := unlinked_leave' hC hcu hc' msg
  split
  · next he =>
    obtain ⟨rfl, rfl⟩ := he
    refine hu.statusOn_gone fun cu' hcu' hc => beq_iff_eq.mpr ?_
    exact hC.one n cu' hcu' cu hcu (hc.trans hc'.symm)
  · next hne =>
    refine hu.statusOn_kept hC fun cu' hcu' hc => beq_eq_false_iff_ne.mpr ?_
    rintro rfl
    exact hne ⟨(hC.fwd n cu' hcu').1.symm.trans (hC.fwd m cu' hcu).1, hc.symm.trans hc'⟩

/-- One member has another status. -/
theorem setStatus_statusOn (hC : C.Member) (hget : C.getChanUser m c' = some cu) (st : Status) :
    ({ C with cuStatus := update C.cuStatus cu st } : Chans).statusOn n c =
      if n = m ∧ c = c' then some st else C.statusOn n c := by
  change (C.getChanUser n c).map (update C.cuStatus cu st) = _
  split
  · next he =>
    obtain ⟨rfl, rfl⟩ := he
    rw [hget, Option.map_some, update_self]
  · next hne =>
    rw [statusOn]
    refine Option.map_congr fun cu' hcu' => update_of_ne ?_ ..
    rintro rfl
    obtain ⟨hcu, hc⟩ := getChanUser_some hget
    obtain ⟨hcu₁, hc₁⟩ := getChanUser_some hcu'
    exact hne ⟨(hC.fwd n _ hcu₁).1.symm.trans (hC.fwd m _ hcu).1, hc₁.symm.trans hc⟩

theorem setMode_statusOn (hC : C.Member) (hget : C.getChanUser m c' = some cu) :
    (C.setMode N c' modes cu).statusOn n c =
      if n = m ∧ c = c' then some (C.cuStatus cu ||| modes) else C.statusOn n c := by
  unfold setMode
  split
  · next hz =>
    rw [hz, show C.cuStatus cu ||| 0 = C.cuStatus cu from BitVec.or_zero]
    split
    · next he =>
      obtain ⟨rfl, rfl⟩ := he
      rw [statusOn, hget]
      rfl
    · rfl
  · dsimp only
    rw [broadcast_eq]
    exact setStatus_statusOn hC hget _

theorem delMode_statusOn (hC : C.Member) (hget : C.getChanUser m c' = some cu) :
    (C.delMode N c' modes cu).statusOn n c =
      if n = m ∧ c = c' then some (C.cuStatus cu &&& ~~~modes) else C.statusOn n c := by
  unfold delMode
  split
  · next hz =>
    have hall : C.cuStatus cu &&& ~~~0#32 = C.cuStatus cu := by
      rw [BitVec.not_zero, BitVec.and_allOnes]
    rw [hz, show C.cuStatus cu &&& ~~~0 = C.cuStatus cu from hall]
    split
    · next he =>
      obtain ⟨rfl, rfl⟩ := he
      rw [statusOn, hget]
      rfl
    · rfl
  · dsimp only
    rw [broadcast_eq]
    exact setStatus_statusOn hC hget _

theorem join_statusOn (hC : C.Member) (hnone : C.getChanUser m c' = none) (st : Status) :
    (C.join N m c' st).statusOn n c = if n = m ∧ c = c' then some st else C.statusOn n c := by
  rw [(join_new hnone st).statusOn]
  obtain ⟨hfresh, -⟩ := hC.fresh
  have hmem := hC.linkNew hnone st
  have hchan : ∀ cu, cu ≠ C.nextCu → (C.linkNew c' m st).cuChan cu = C.cuChan cu :=
    fun cu hcu => by simp [Chans.linkNew, newChanUser, hcu]
  have hself : (C.linkNew c' m st).cuChan C.nextCu = c' ∧
      (C.linkNew c' m st).cuStatus C.nextCu = st := by simp [Chans.linkNew, newChanUser]
  split
  · next he =>
    obtain ⟨rfl, rfl⟩ := he
    have hget : (C.linkNew c n st).getChanUser n c = some C.nextCu :=
      (getChanUser_eq_some hmem).mpr ⟨mem_linkNew_channels.mpr (.inr ⟨rfl, rfl⟩), hself.1⟩
    rw [statusOn, hget, Option.map_some, hself.2]
  · next hne =>
    cases hold : C.getChanUser n c with
    | none =>
      have hgone : C.statusOn n c = none := by
        rw [statusOn, hold]
        rfl
      rw [hgone, statusOn_eq_none]
      intro cu hcu hc
      rcases mem_linkNew_channels.mp hcu with hcu | ⟨rfl, rfl⟩
      · rw [hchan cu (fun he => hfresh n (he ▸ hcu))] at hc
        exact getChanUser_none hold cu hcu hc
      · exact hne ⟨rfl, hc.symm.trans hself.1⟩
    | some cu =>
      obtain ⟨hcu, hc⟩ := getChanUser_some hold
      have hne' : cu ≠ C.nextCu := fun he => hfresh n (he ▸ hcu)
      have hget : (C.linkNew c' m st).getChanUser n c = some cu :=
        (getChanUser_eq_some hmem).mpr
          ⟨mem_linkNew_channels.mpr (.inl hcu), by rw [hchan cu hne', hc]⟩
      have hstatus : (C.linkNew c' m st).cuStatus cu = C.cuStatus cu := by
        simp [Chans.linkNew, newChanUser, hne']
      rw [statusOn, hget, statusOn, hold, Option.map_some, Option.map_some, hstatus]

end Chans
end Minbif
