import Minbif.World.Events

/-! When `IRC::users` tells the nicks apart. -/
namespace Minbif
open Function
namespace World

variable {P : Purple} {T : Terms} {w w' : World}

/-- Only the two registrations take a name without a look at the table. -/
theorem Change.sound {s s' : Stage} (h : Change P T s s') (hok : s.1.Ok s.2) (hT : T.apart)
    (hs : s.1.nicks.Sound) : s'.1.nicks.Sound := by
  cases h with
  | drop w d k n l hmem hn hlist hpeer => exact hs.dropped hok.table hmem hn
  | add w kind s nick ident host b cb hreg hkind hfree hserver => exact hs.added hok.table hfree
  | addLocal w kind name hreg hkind hfree => exact hs.added hok.table (hfree hT)
  | renamed w n newnick hn hconv hfree hsteady =>
    exact hs.renamed (.inr ⟨hn, Nicks.userRef_ne hok.table hconv⟩)
      (hok.table.conv n hn hconv) hfree
  | nick w newnick hreg hfree hstill hsteady =>
    exact hs.renamed (.inl rfl) (OrdMap.find?_eq_some.mp hs.user) (hfree hT)
  | connected | dropServer | rebound => exact ⟨hs.key, hs.unique, hs.user, hs.kept⟩
  | _ => exact hs

theorem Changes.sound {s s' : Stage} (h : Changes P T s s') (hok : s.1.Ok s.2) (hT : T.apart)
    (hs : s.1.nicks.Sound) : s'.1.nicks.Sound := by
  induction h with
  | refl => exact hs
  | tail hrest hstep ih => exact hstep.sound (Changes.ok hrest hok) hT ih

theorem initial_sound : initial.nicks.Sound where
  key := initial_table.key
  unique k n h k' n' h' _ := by
    rw [show initial.nicks.users.entries = [(str "*", userRef)] from rfl] at h h'
    simp_all
  user := rfl
  kept := rfl

/-- The nick table of a session where no registration takes a name that is in use. -/
theorem runAll_sound (P : Purple) (ops : List Op)
    (h : initial.Along P Apart ops) : (initial.runAll P ops).nicks.Sound :=
  runAll_keeps (I := fun w => w.nicks.Sound)
    (fun _ _ _ hw hQ _ hI hgo => Changes.sound hgo hw hQ hI) initial_ok initial_sound h

/-- A session of a client with no account. -/
def noPurple : Purple where
  buddyAccount _ := 0
  buddyName _ := []
  cbAccount _ := 0
  cbName _ := []
  cbRealName _ := []
  translit _ := none

/-- A plain registration keeps the names apart. -/
theorem runAll_sound_plain : initial.Along noPurple Apart
      [.nick (str "alice"), .startUp [], .welcome] ∧
    (initial.runAll noPurple [.nick (str "alice"), .startUp [], .welcome]).nicks.Sound := by
  have h : initial.Along noPurple Apart [.nick (str "alice"), .startUp [], .welcome] := by
    decide
  exact ⟨h, runAll_sound noPurple _ h⟩

/-- The nick `request` of the server takes the entry of a User of that name. -/
theorem runAll_unsound : ¬ ∀ (P : Purple) (ops : List Op),
    (initial.runAll P ops).nicks.Sound := by
  intro h
  have huser := (h noPurple [.nick (str "request"), .startUp []]).user
  revert huser
  decide

end World
end Minbif
