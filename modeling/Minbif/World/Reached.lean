import Minbif.World.Events

/-! Pairing and membership in the states that sessions reach. -/
namespace Minbif
open Function

namespace Chans

/-- Both ends of every membership are there, and it is one live object. -/
structure Symmetric (C : Chans) : Prop where
  both : ∀ n c, (∃ cu ∈ C.channels n, C.cuChan cu = c) ↔ ∃ cu ∈ C.users c, C.cuNick cu = n
  same : ∀ n c, ∀ cu ∈ C.channels n, C.cuChan cu = c → ∀ cu' ∈ C.users c, C.cuNick cu' = n → cu = cu'
  liveChannels : ∀ n, ∀ cu ∈ C.channels n, C.cuAlive cu = true
  liveUsers : ∀ c, ∀ cu ∈ C.users c, C.cuAlive cu = true
  nodupChannels : ∀ n, (C.channels n).Nodup
  nodupUsers : ∀ c, (C.users c).Nodup

theorem Member.symmetric {C : Chans} (h : C.Member) : C.Symmetric where
  both n c := by
    constructor
    · rintro ⟨cu, hcu, hc⟩
      exact ⟨cu, h.mem_users hcu hc, (h.fwd n cu hcu).1⟩
    · rintro ⟨cu, hcu, rfl⟩
      exact ⟨cu, (h.bwd c cu hcu).2, (h.bwd c cu hcu).1⟩
  same n c cu hcu hc cu' hcu' hn := by
    obtain ⟨hc', hmem⟩ := h.bwd c cu' hcu'
    exact h.one n cu hcu cu' (hn ▸ hmem) (hc.trans hc'.symm)
  liveChannels := h.live
  liveUsers c cu hcu := h.live _ cu (h.bwd c cu hcu).2
  nodupChannels := h.nodupChannels
  nodupUsers := h.nodupUsers

end Chans

namespace World

/-- At every event boundary each membership is symmetric, whatever the events were. -/
theorem runAll_membership (P : Purple) (ops : List Op) :
    (initial.runAll P ops).chans.Symmetric := (runAll_ok P ops).member.symmetric

/-- The two ends of a conversation agree, and no `ui_data` outlives its nick. -/
structure PairedLive (w : World) : Prop where
  pair : ∀ v n, w.convs.uiNick v = some n ↔ w.convs.conversation n = some v
  live : ∀ v n, w.convs.uiNick v = some n →
    w.nicks.alive n = true ∧ w.nicks.users.find? (w.nicks.nickname n) = some n ∧ w.convs.isIm v

theorem Ok.pairedLive {w : World} (hw : w.Ok none) : w.PairedLive where
  pair := hw.paired.pair
  live v n hu := by
    have hc := (hw.paired.pair v n).mp hu
    obtain ⟨ha, hk⟩ := hw.talks.nick n v hc
    exact ⟨ha, hw.table.find?_nickname ha hk, hw.paired.im n v hc⟩

theorem runAll_pairing (P : Purple) (ops : List Op) : (initial.runAll P ops).PairedLive :=
  (runAll_ok P ops).pairedLive

end World
end Minbif
