import Minbif.World.Events

/-! The User over the events of a session: it keeps its nickname once it is registered. -/
namespace Minbif
open Function

namespace World

variable {P : Purple} {T : Terms} {w w' : World} {op : Op}

/-- No change but the User's own NICK renames it, and that one comes before the registration. -/
theorem Change.user {s s' : Stage} (h : Change P T s s') (hok : s.1.Ok s.2)
    (hT : T.still ∨ s.1.registered = true) :
    s'.1.nicks.nickname userRef = s.1.nicks.nickname userRef ∧
      (s.1.registered = true → s'.1.registered = true) := by
  cases h with
  | registered w h => exact ⟨rfl, fun _ => rfl⟩
  | add w kind s nick ident host b cb hreg hkind hfree hserver =>
    exact ⟨(Nicks.added_other (hok.table.ne_next hok.table.userAlive)).2.1, id⟩
  | addLocal w kind name hreg hkind hfree =>
    exact ⟨(Nicks.added_other (hok.table.ne_next hok.table.userAlive)).2.1, id⟩
  | renamed w n newnick hn hconv hfree hsteady =>
    have hu := Nicks.userRef_ne hok.table hconv
    exact ⟨update_of_ne hu.symm _ _, id⟩
  | nick w newnick hreg hfree hstill hsteady =>
    rcases hT with hT | hT
    · exact (hstill hT).elim
    · rw [hreg] at hT
      cases hT
  | _ => exact ⟨rfl, id⟩

theorem Changes.user {s s' : Stage} (h : Changes P T s s') (hok : s.1.Ok s.2)
    (hT : T.still ∨ s.1.registered = true) :
    s'.1.nicks.nickname userRef = s.1.nicks.nickname userRef ∧
      (s.1.registered = true → s'.1.registered = true) := by
  induction h with
  | refl => exact ⟨rfl, id⟩
  | tail hrest hstep ih =>
    have hnext := hstep.user (Changes.ok hrest hok) (hT.imp_right ih.2)
    exact ⟨hnext.1.trans ih.1, fun h => hnext.2 (ih.2 h)⟩

/-- One event leaves the nickname of the User alone, unless it is the User's own NICK. -/
theorem run_user (hw : w.Ok none) (h : w.run P op = some w')
    (hop : (∀ nick, op ≠ .nick nick) ∨ w.registered = true) :
    w'.nicks.nickname userRef = w.nicks.nickname userRef ∧
      (w.registered = true → w'.registered = true) := by
  have hT : (w.terms P op).still ∨ w.registered = true := by
    rcases hop with hop | hreg
    · left
      change w.Keeps op
      cases op with
      | nick nick => exact (hop nick rfl).elim
      | _ => trivial
    · exact .inr hreg
  exact Changes.user (run_goes hw h) hw hT

theorem startUp_registered (hw : w.Ok none) (accounts : List AccountRef) :
    (w.startUp P accounts).registered = w.registered := by
  let T : Terms := w.terms P .welcome
  have hstart : Goes P T w { w with started := true } := (Change.started w).goes
  exact (foldl_create_goes (T := T) (l := accounts) (hstart.ok hw) rfl).2.registered

/-- What NICK does before the registration. -/
theorem run_nick {nick : Str} (hreg : w.registered = false) (hvalid : isValidNickname nick = true)
    (h : w.run P (.nick nick) = some w') :
    w'.nicks.nickname userRef = nick ∧ w'.registered = false := by
  simp only [run, hreg, hvalid, Bool.not_true, Bool.or_false, Bool.false_eq_true, if_false,
    Option.some.injEq] at h
  obtain rfl := h
  exact ⟨by simp [Nicks.renameNick_nickname], rfl⟩

end World
end Minbif
