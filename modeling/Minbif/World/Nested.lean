import Minbif.World.Names

/-! `update_node`, which calls itself through the alias of its buddy. -/
namespace Minbif
open Function

/-- A `Buddy` is the one that its buddy points to. -/
def Nicks.Owned (N : Nicks) : Prop :=
  ∀ n, N.alive n = true → N.kind n = .buddy → N.buddyNick (N.buddy n) = some n

namespace Nicks

variable {N : Nicks} {n : NickRef} {kind : NickKind} {s : ServerRef} {k nick ident host : Str}
  {b : BuddyRef} {cb : CBuddyRef} {l : ServerRef → List NickRef}

theorem Owned.added (h : N.Owned) (hown : kind = .buddy → N.buddyNick b = none) :
    (N.added kind s nick ident host b cb).Owned := by
  intro m hm hk
  rcases eq_or_ne m N.next with rfl | hne
  · rw [added_kind_self] at hk
    simp [Nicks.added, addNick, newNick, hk]
  · obtain ⟨hkind, -, hbuddy, -⟩ := @added_other N m nick b s kind ident host cb hne
    have hold := h m ((added_alive.mp hm).resolve_left hne) (hkind ▸ hk)
    rw [hbuddy]
    simp only [Nicks.added, addNick, newNick]
    split
    · next hnew =>
      have hb : N.buddy m ≠ b := by
        rintro rfl
        rw [hown hnew] at hold
        cases hold
      rw [update_of_ne hb]
      exact hold
    · exact hold

theorem Owned.dropped (h : N.Owned) (hn : N.alive n = true) : (N.dropped k n l).Owned := by
  intro m hm hk
  obtain ⟨hne, hm⟩ := dropped_alive.mp hm
  have hold := h m hm hk
  simp only [Nicks.dropped, freeNick]
  split
  · next hbuddy =>
    have hb : N.buddy m ≠ N.buddy n := fun he => by
      rw [he, h n hn hbuddy] at hold
      exact hne (Option.some.inj hold).symm
    rw [update_of_ne hb]
    exact hold
  · exact hold

end Nicks

namespace World

variable (P : Purple)

/-- `im::Buddy::update_node` with at most so many calls of it in each other; `none` where more of
them are needed. `purple_blist_alias_buddy` stores the alias and calls it again. -/
def updateNodeIn : Nat → World → BuddyRef → Option World
  | 0, _, _ => none
  | depth + 1, w, b =>
    let finish (w : World) (n : NickRef) : Option World :=
      (if w.getAlias P b = w.nicks.nickname n then some w
        else updateNodeIn depth (w.storeAlias b (w.nicks.nickname n)) b).map fun w => w.updated P b
    match w.nicks.buddyNick b with
    | some n => finish w n
    | none =>
      match w.nicks.servers.find? (w.data.servername (P.buddyAccount b)) with
      | none => some w
      | some s => finish (w.newBuddy P b s) w.nicks.next

/-- `m_svsnick`, with the calls of `update_node` that its `setAlias` leads to. -/
def svsnickIn (depth : Nat) (w : World) (nick newnick : Str) : Option World :=
  match w.nicks.getNick nick with
  | none => some w
  | some n =>
    if w.nicks.kind n ≠ .buddy ∨ !isValidNickname newnick ∨
        (w.nicks.getNick newnick).any (· ≠ n) then some w
    else
      let w := w.tellUser ⟨str "NICK", w.nicks.entity n, .unset, [newnick]⟩
      let w := { w with nicks := w.nicks.renameNick n newnick }
      updateNodeIn P depth (w.storeAlias (w.nicks.buddy n) newnick) (w.nicks.buddy n)

/-- A `Buddy` of `IRC::users`. -/
def IsNickOf (w : World) (b : BuddyRef) (n : NickRef) : Prop :=
  (∃ k, (k, n) ∈ w.nicks.users.entries) ∧ w.nicks.kind n = .buddy ∧ w.nicks.buddy n = b

variable {P} {T : Terms} {w w' : World} {b : BuddyRef} {n : NickRef} {nick newnick : Str}

section Owned

theorem Change.owned {s s' : Stage} (h : Change P T s s') (hok : s.1.Ok s.2)
    (hN : s.1.nicks.Owned) : s'.1.nicks.Owned := by
  cases h with
  | drop w d k n l hmem hn hlist hpeer => exact hN.dropped (hok.table.live k n hmem)
  | add w kind s nick ident host b cb hreg hkind hfree hserver hnick hown => exact hN.added hown
  | addLocal w kind name hreg hkind hfree =>
    refine hN.added fun hk => ?_
    rw [hk] at hkind
    cases hkind
  | _ => exact hN

theorem Changes.owned {s s' : Stage} (h : Changes P T s s') (hok : s.1.Ok s.2)
    (hN : s.1.nicks.Owned) : s'.1.nicks.Owned := by
  induction h with
  | refl => exact hN
  | tail hrest hstep ih => exact hstep.owned (Changes.ok hrest hok) ih

theorem runAll_owned (P : Purple) (ops : List Op) : (initial.runAll P ops).nicks.Owned :=
  runAll_keeps (I := fun w => w.nicks.Owned) (fun _ _ _ hw _ _ hI hgo => Changes.owned hgo hw hI)
    initial_ok (fun n _ hk => by cases hk) (along_true P ops initial)

theorem isNickOf_iff (hw : w.Ok none) (hown : w.nicks.Owned) :
    w.IsNickOf b n ↔ w.nicks.buddyNick b = some n := by
  constructor
  · rintro ⟨⟨k, hmem⟩, hk, rfl⟩
    exact hown n (hw.table.live k n hmem) hk
  · intro hb
    obtain ⟨ha, hk, hbuddy⟩ := hw.table.buddyNick b n hb
    exact ⟨⟨_, hw.table.conv n ha (by rw [hk]; rfl)⟩, hk, hbuddy⟩

end Owned

section Depth

theorem getAlias_storeAlias (w : World) (b : BuddyRef) (hne : nick ≠ []) :
    (w.storeAlias b nick).getAlias P b = nick := by
  have halias : (w.storeAlias b nick).data.buddyAlias b = nick := update_self ..
  rw [getAlias, halias, if_neg (by simpa using hne)]

/-- The nested call finds the nick and the alias it has been given. -/
theorem updateNodeIn_one (hb : w.nicks.buddyNick b = some n) (hne : w.nicks.nickname n ≠ []) :
    updateNodeIn P 1 (w.storeAlias b (w.nicks.nickname n)) b =
      some (w.setAlias P b (w.nicks.nickname n)) := by
  have hb' : (w.storeAlias b (w.nicks.nickname n)).nicks.buddyNick b = some n := hb
  have halias : (w.storeAlias b (w.nicks.nickname n)).getAlias P b =
      (w.storeAlias b (w.nicks.nickname n)).nicks.nickname n := getAlias_storeAlias w b hne
  simp only [updateNodeIn, hb', if_pos halias, setAlias, Option.map_some]

/-- What a call does once it has the nick. -/
theorem updateNodeIn_finish (hb : w.nicks.buddyNick b = some n) (hne : w.nicks.nickname n ≠ []) :
    (if w.getAlias P b = w.nicks.nickname n then some w
      else updateNodeIn P 1 (w.storeAlias b (w.nicks.nickname n)) b) =
    some (if w.getAlias P b = w.nicks.nickname n then w else w.setAlias P b (w.nicks.nickname n)) := by
  rw [updateNodeIn_one hb hne]
  split <;> rfl

theorem newBuddy_buddyNick (w : World) (b : BuddyRef) (s : ServerRef) :
    (w.newBuddy P b s).nicks.buddyNick b = some w.nicks.next := by
  simp [newBuddy, Nicks.addNick, Nicks.newNick]

theorem newBuddy_nickname_ne_nil (w : World) (b : BuddyRef) (s : ServerRef) :
    (w.newBuddy P b s).nicks.nickname w.nicks.next ≠ [] := by
  have hproper : ProperNick ((w.newBuddy P b s).nicks.nickname w.nicks.next) := by
    simp only [newBuddy, Nicks.addNick, Nicks.newNick, update_self]
    apply Nicks.freeNickname_proper
    split <;> exact nickize_proper _ _
  exact hproper.ne_nil

/-- Two calls in each other are enough. -/
theorem updateNodeIn_two (hw : w.Ok none) (hnamed : w.nicks.Named) (b : BuddyRef) :
    updateNodeIn P 2 w b = some (w.updateNode P b) := by
  rw [updateNodeIn, updateNode]
  cases hb : w.nicks.buddyNick b with
  | some n =>
    obtain ⟨ha, hk, -⟩ := hw.table.buddyNick b n hb
    have hne := (hnamed n ha (by rw [hk]; rfl)).ne_nil
    simp only [updateNodeIn_finish hb hne, Option.map_some]
  | none =>
    dsimp only
    cases w.nicks.servers.find? (w.data.servername (P.buddyAccount b)) with
    | none => rfl
    | some s =>
      simp only [updateNodeIn_finish (newBuddy_buddyNick w b s) (newBuddy_nickname_ne_nil w b s),
        Option.map_some]

/-- A renamed `Buddy` already has the name that it stores, so that nothing calls again. -/
theorem svsnickIn_one (hown : w.nicks.Owned) (hw : w.Ok none) (nick newnick : Str) :
    w.svsnickIn P 1 nick newnick = some (w.svsnick P nick newnick) := by
  unfold svsnickIn svsnick
  cases hn : w.nicks.getNick nick with
  | none => rfl
  | some n =>
    dsimp only
    split
    · rfl
    · next hcond =>
      simp only [not_or, not_not] at hcond
      obtain ⟨hk, hvalid, -⟩ := hcond
      obtain ⟨k, hmem, -⟩ := Nicks.getNick_eq_some hn
      have hb := hown n (hw.table.live k n hmem) hk
      have hproper : ProperNick newnick := .of_valid (by simpa using hvalid)
      have hname : (w.nicks.renameNick n newnick).nickname n = newnick := by
        rw [Nicks.renameNick_nickname, update_self]
      let w₁ : World := { w.tellUser ⟨str "NICK", w.nicks.entity n, .unset, [newnick]⟩ with
        nicks := w.nicks.renameNick n newnick }
      have hone := updateNodeIn_one (P := P) (w := w₁) hb (hname ▸ hproper.ne_nil)
      rwa [show w₁.nicks.nickname n = newnick from hname] at hone

end Depth

/-- In every state that is reached, `update_node` returns after at most two calls in each other, as
the one made by SVSNICK does after one, and a buddy has the nick of `IRC::users` that it points to
and no other. -/
theorem one_nick (P : Purple) (ops : List Op) :
    (∀ b, updateNodeIn P 2 (initial.runAll P ops) b = some ((initial.runAll P ops).updateNode P b)) ∧
    (∀ nick newnick, (initial.runAll P ops).svsnickIn P 1 nick newnick =
      some ((initial.runAll P ops).svsnick P nick newnick)) ∧
    ∀ b n, (initial.runAll P ops).IsNickOf b n ↔ (initial.runAll P ops).nicks.buddyNick b = some n := by
  have hw := runAll_ok P ops
  have hown := runAll_owned P ops
  exact ⟨updateNodeIn_two hw (runAll_named P ops), svsnickIn_one hown hw,
    fun b n => isNickOf_iff hw hown⟩

end World
end Minbif
