import Minbif.World.Events

/-! The names that nicks of the other side have. -/
namespace Minbif
open Function

/-- The nicks that come from libpurple have names made of the characters of nicks. -/
def Nicks.Named (N : Nicks) : Prop :=
  ∀ n, N.alive n = true → (N.kind n).isConvNick = true → ProperNick (N.nickname n)

namespace Nicks

variable {N : Nicks} {n : NickRef} {kind : NickKind} {s : ServerRef} {nick ident host : Str}
  {b : BuddyRef} {cb : CBuddyRef}

theorem Named.added (h : N.Named) (hnick : kind.isConvNick = true → ProperNick nick) :
    (N.added kind s nick ident host b cb).Named := by
  intro m hm hk
  rcases eq_or_ne m N.next with rfl | hne
  · rw [added_kind_self] at hk
    simpa [Nicks.added, addNick, newNick] using hnick hk
  · rw [(added_other hne).1] at hk
    rw [(added_other hne).2.1]
    exact h m ((added_alive.mp hm).resolve_left hne) hk

theorem Named.renamed (h : N.Named) (hnick : (N.kind n).isConvNick = true → ProperNick nick) :
    (N.renameNick n nick).Named := by
  intro m hm hk
  rw [renameNick_nickname]
  rcases eq_or_ne m n with rfl | hne
  · rw [update_self]
    exact hnick hk
  · rw [update_of_ne hne]
    exact h m hm hk

end Nicks

namespace World

variable {P : Purple} {T : Terms} {w w' : World}

theorem Change.named {s s' : Stage} (h : Change P T s s') (hok : s.1.Ok s.2)
    (hN : s.1.nicks.Named) : s'.1.nicks.Named := by
  cases h with
  | drop w d k n l hmem hn hlist hpeer => exact fun m hm => hN m (Nicks.dropped_alive.mp hm).2
  | add w kind s nick ident host b cb hreg hkind hfree hserver hnick hown => exact hN.added fun _ => hnick
  | addLocal w kind name hreg hkind hfree =>
    exact hN.added fun hk => absurd hk (by rw [hkind]; nofun)
  | renamed w n newnick hn hconv hfree hsteady hnick => exact hN.renamed fun _ => hnick
  | nick w newnick hreg hfree hstill hsteady =>
    refine hN.renamed fun hk => ?_
    rw [hok.table.userKind] at hk
    cases hk
  | _ => exact hN

theorem Changes.named {s s' : Stage} (h : Changes P T s s') (hok : s.1.Ok s.2)
    (hN : s.1.nicks.Named) : s'.1.nicks.Named := by
  induction h with
  | refl => exact hN
  | tail hrest hstep ih => exact hstep.named (Changes.ok hrest hok) ih

theorem initial_named : initial.nicks.Named := by
  intro n hn hk
  have hkind : initial.nicks.kind n = .user := rfl
  rw [hkind] at hk
  cases hk

/-- Every nick of the other side has a name that a client can write. -/
theorem runAll_named (P : Purple) (ops : List Op) : (initial.runAll P ops).nicks.Named :=
  runAll_keeps (I := fun w => w.nicks.Named) (fun _ _ _ hw _ _ hI hgo => Changes.named hgo hw hI)
    initial_ok initial_named (along_true P ops initial)

end World
end Minbif
