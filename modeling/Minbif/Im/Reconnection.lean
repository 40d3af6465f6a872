import Minbif.Irc.Nick
import Minbif.Lib.Runs

/-! The timers that reconnect the accounts, and the settings that keep their ids. -/
namespace Minbif
open Function Runs

/-- What a GLib source of the process is for. -/
inductive Source
  | reconnect (a : AccountRef) (interval : UInt32)
  | other

/-- `PurpleConnectionError`; minbif retries none of the errors left out. -/
inductive ConnectionError
  | networkError
  | encryptionError
  | otherError
  | unretried
deriving DecidableEq, Repr

structure Reconnections where
  accounts : List AccountRef := []
  /-- The setting `delay-reconnect` of each account, 15 where there is none. -/
  delayReconnect : AccountRef → Int32 := fun _ => 15
  /-- The setting `id-reconnect` of each account, -1 where there is none. -/
  idReconnect : AccountRef → Int32 := fun _ => -1
  sources : UInt32 → Option Source := fun _ => none
  /-- The calls of `g_source_remove`: for which account, of which id, among which sources. -/
  removals : List (AccountRef × UInt32 × (UInt32 → Option Source)) := []

namespace Reconnections

def sourceRemove (r : Reconnections) (a : AccountRef) (id : UInt32) : Reconnections :=
  { r with
    sources := update r.sources id none
    removals := r.removals ++ [(a, id, r.sources)] }

/-- `purple_account_set_ui_int` for both settings. -/
def setReconnect (r : Reconnections) (a : AccountRef) (delay id : Int32) : Reconnections :=
  { r with
    delayReconnect := update r.delayReconnect a delay
    idReconnect := update r.idReconnect a id }

/-- `if(id >= 0) g_source_remove(id);` -/
def dropTimer (r : Reconnections) (a : AccountRef) : Reconnections :=
  if 0 ≤ r.idReconnect a then r.sourceRemove a (r.idReconnect a).toUInt32 else r

/-- `g_timeout_add`, which never returns the id of a source that exists. -/
def sourceAdd (r : Reconnections) (id : UInt32) (s : Source) : Option Reconnections :=
  if id = 0 ∨ (r.sources id).isSome then none
  else some { r with sources := update r.sources id (some s) }

/-- `Account::delayReconnect`, when `g_timeout_add` returns that id. -/
def delayReconnection (r : Reconnections) (a : AccountRef) (id : UInt32) : Option Reconnections :=
  let delay := r.delayReconnect a * 2
  ((r.dropTimer a).sourceAdd id (.reconnect a (delay * 1000).toUInt32)).map fun r =>
    r.setReconnect a delay id.toInt32

/-- `Account::removeReconnection`. -/
def removeReconnection (r : Reconnections) (a : AccountRef) : Reconnections :=
  (r.dropTimer a).setReconnect a 15 (-1)

/-- `Account::disconnect_reason`. -/
def disconnectReason (r : Reconnections) (a : AccountRef) (reason : ConnectionError)
    (id : UInt32) : Option Reconnections :=
  match reason with
  | .networkError | .encryptionError | .otherError => r.delayReconnection a id
  | .unretried => some r

inductive Event
  | added (a : AccountRef)
  | error (a : AccountRef) (reason : ConnectionError) (id : UInt32)
  /-- The timer of `Account::reconnect` that has that id. -/
  | expired (id : UInt32)
  | connected (a : AccountRef)
  | squit (a : AccountRef)
  | deleted (a : AccountRef)
  | sourceAdded (id : UInt32)
  | sourceEnded (id : UInt32)
  | restarted

def step (r : Reconnections) : Event → Option Reconnections
  | .added a =>
    if a ∈ r.accounts then none
    else some { (r.setReconnect a 15 (-1)) with accounts := r.accounts ++ [a] }
  | .error a reason id => if a ∈ r.accounts then r.disconnectReason a reason id else none
  | .expired id =>
    match r.sources id with
    | some (.reconnect a _) =>
      some { r with
        sources := update r.sources id none
        idReconnect := update r.idReconnect a (-1) }
    | _ => none
  | .connected a | .squit a => if a ∈ r.accounts then some (r.removeReconnection a) else none
  | .deleted a =>
    if a ∈ r.accounts then
      let r := r.removeReconnection a
      some { r with accounts := r.accounts.filter (· ≠ a) }
    else none
  | .sourceAdded id => r.sourceAdd id .other
  | .sourceEnded id =>
    match r.sources id with
    | some .other => some { r with sources := update r.sources id none }
    | _ => none
  -- the settings are stored, the sources are not
  | .restarted => some { r with sources := fun _ => none }

/-- The id is that of the one pending timer of the account. -/
def TheTimer (sources : UInt32 → Option Source) (a : AccountRef) (id : UInt32) : Prop :=
  (∃ interval, sources id = some (.reconnect a interval)) ∧
    ∀ j interval, sources j = some (.reconnect a interval) → j = id

/-- The settings name the timers, and only such timers were ever removed. -/
structure Owned (r : Reconnections) : Prop where
  timer : ∀ a ∈ r.accounts, 0 ≤ r.idReconnect a →
    TheTimer r.sources a (r.idReconnect a).toUInt32
  removals : ∀ x ∈ r.removals, TheTimer x.2.2 x.1 x.2.1

def NoTimer (sources : UInt32 → Option Source) (a : AccountRef) : Prop :=
  ∀ id interval, sources id ≠ some (.reconnect a interval)

/-- No process ends while a setting names a timer; an id that an `int` cannot hold is not followed
by one it can while its timer is pending. -/
def Lasting (r : Reconnections) : Event → Prop
  | .restarted => ∀ a ∈ r.accounts, r.idReconnect a < 0
  | .error a reason id => reason ≠ .unretried → r.idReconnect a < 0 → 0 ≤ id.toInt32 →
      NoTimer r.sources a
  | _ => True

variable {r r' : Reconnections} {a b : AccountRef} {id : UInt32} {src src' : UInt32 → Option Source}
  {e : Event} {es : List Event}

/-- The sources differ in none of the timers of the account. -/
def SameTimers (src src' : UInt32 → Option Source) (a : AccountRef) : Prop :=
  ∀ id interval, src' id = some (.reconnect a interval) ↔ src id = some (.reconnect a interval)

theorem TheTimer.congr (h : TheTimer src a id) (hs : SameTimers src src' a) :
    TheTimer src' a id := by
  obtain ⟨⟨interval, hid⟩, hone⟩ := h
  exact ⟨⟨interval, (hs id interval).mpr hid⟩, fun j k hj => hone j k ((hs j k).mp hj)⟩

/-- A source that was not a timer of the account and is none now. -/
theorem sameTimers_update {s : Option Source} (hold : ∀ k, src id ≠ some (.reconnect a k))
    (hnew : ∀ k, s ≠ some (.reconnect a k)) : SameTimers src (update src id s) a := by
  intro j k
  rcases eq_or_ne j id with rfl | hne
  · rw [update_self]
    exact iff_of_false (hnew k) (hold k)
  · rw [update_of_ne hne]

/-- A step about one account: the others keep theirs, so only its own timer is left to look at. -/
theorem Owned.about (h : Owned r)
    (hothers : ∀ b ∈ r'.accounts, b ≠ a → b ∈ r.accounts ∧ r'.idReconnect b = r.idReconnect b ∧
      SameTimers r.sources r'.sources b)
    (hrem : ∀ x ∈ r'.removals, TheTimer x.2.2 x.1 x.2.1) :
    Owned r' ↔ (a ∈ r'.accounts → 0 ≤ r'.idReconnect a →
      TheTimer r'.sources a (r'.idReconnect a).toUInt32) := by
  refine ⟨fun h' => h'.timer a, fun ha => ⟨fun b hb hid => ?_, hrem⟩⟩
  by_cases hne : b = a
  · subst hne
    exact ha hb hid
  · obtain ⟨hold, heq, hsame⟩ := hothers b hb hne
    rw [heq] at hid ⊢
    exact (h.timer b hold hid).congr hsame

/-- A step after which the setting of the account names no timer. -/
theorem Owned.cleared (h : Owned r)
    (hothers : ∀ b ∈ r'.accounts, b ≠ a → b ∈ r.accounts ∧ r'.idReconnect b = r.idReconnect b ∧
      SameTimers r.sources r'.sources b)
    (hrem : ∀ x ∈ r'.removals, TheTimer x.2.2 x.1 x.2.1) (hid : r'.idReconnect a = -1) :
    Owned r' := by
  refine (h.about hothers hrem).mpr fun _ hpos => ?_
  rw [hid] at hpos
  exact absurd hpos (by decide)

/-- `g_source_remove` hits the timer of the account, which then has none. -/
theorem Owned.dropTimer (h : Owned r) (ha : a ∈ r.accounts) :
    (∀ x ∈ (r.dropTimer a).removals, TheTimer x.2.2 x.1 x.2.1) ∧
      (∀ b, b ≠ a → SameTimers r.sources (r.dropTimer a).sources b) ∧
      (NoTimer (r.dropTimer a).sources a ↔ (r.idReconnect a < 0 → NoTimer r.sources a)) := by
  unfold Reconnections.dropTimer
  by_cases hid : 0 ≤ r.idReconnect a
  · have htimer := h.timer a ha hid
    have ⟨⟨interval, hsrc⟩, hone⟩ := htimer
    rw [if_pos hid]
    refine ⟨?_, ?_, ?_⟩
    · intro x hx
      rcases List.mem_append.mp hx with hx | hx
      · exact h.removals x hx
      · obtain rfl := List.mem_singleton.mp hx
        exact htimer
    · intro b hb
      apply sameTimers_update
      · intro k hk
        rw [hsrc] at hk
        exact hb (by injection hk with hk; injection hk with hk; exact hk.symm)
      · exact nofun
    · refine iff_of_true ?_ fun hneg => absurd hid (by simpa using hneg)
      intro j k hj
      by_cases hji : j = (r.idReconnect a).toUInt32
      · simp [sourceRemove, hji] at hj
      · simp only [sourceRemove, update_of_ne hji] at hj
        exact hji (hone j k hj)
  · rw [if_neg hid]
    exact ⟨h.removals, fun b _ j k => Iff.rfl, by simp [Int32.not_le.mp hid]⟩

@[simp] theorem dropTimer_accounts : (r.dropTimer a).accounts = r.accounts := by
  unfold Reconnections.dropTimer
  split <;> rfl

@[simp] theorem dropTimer_idReconnect : (r.dropTimer a).idReconnect = r.idReconnect := by
  unfold Reconnections.dropTimer
  split <;> rfl

theorem Owned.removeReconnection (h : Owned r) (ha : a ∈ r.accounts) :
    Owned (r.removeReconnection a) := by
  obtain ⟨hrem, hsame, -⟩ := h.dropTimer ha
  have hids : (r.removeReconnection a).idReconnect = update r.idReconnect a (-1) := by
    simp [Reconnections.removeReconnection, setReconnect]
  have hacc : (r.removeReconnection a).accounts = r.accounts := dropTimer_accounts
  refine h.cleared (a := a) ?_ hrem ?_
  · intro b hb hne
    rw [hacc] at hb
    exact ⟨hb, by rw [hids, update_of_ne hne], hsame b hne⟩
  · rw [hids, update_self]

/-- A new timer is the only one of its account if an old one could be found and removed. -/
theorem Owned.delayReconnection_iff (h : Owned r) (ha : a ∈ r.accounts)
    (hr : r.delayReconnection a id = some r') :
    Owned r' ↔ (r.idReconnect a < 0 → 0 ≤ id.toInt32 → NoTimer r.sources a) := by
  obtain ⟨hrem, hsame, hnone⟩ := h.dropTimer ha
  unfold delayReconnection sourceAdd at hr
  split at hr
  · cases hr
  · next hfree =>
    rw [not_or, Option.isSome_iff_ne_none, not_not] at hfree
    obtain rfl := Option.some.inj hr
    have hothers : ∀ b, b ≠ a → SameTimers (r.dropTimer a).sources
        (update (r.dropTimer a).sources id
          (some (.reconnect a (r.delayReconnect a * 2 * 1000).toUInt32))) b := by
      intro b hb
      apply sameTimers_update
      · simp [hfree.2]
      · rintro k hk
        injection hk with hk
        injection hk with hk
        exact hb hk.symm
    rw [h.about (a := a)]
    · simp only [setReconnect, dropTimer_accounts, update_self, UInt32.toUInt32_toInt32]
      constructor
      · intro htimer hneg hid
        obtain ⟨-, hone⟩ := htimer ha hid
        refine hnone.mp (fun j k hj => ?_) hneg
        have hne : j ≠ id := by
          rintro rfl
          rw [hfree.2] at hj
          cases hj
        exact hne (hone j k (by rwa [update_of_ne hne]))
      · intro hneg _ hid
        have hno := hnone.mpr fun hneg' => hneg hneg' hid
        refine ⟨⟨_, update_self _ _ _⟩, fun j k hj => ?_⟩
        by_contra hne
        rw [update_of_ne hne] at hj
        exact hno j k hj
    · intro b hb hne
      simp only [setReconnect, dropTimer_accounts, dropTimer_idReconnect] at hb ⊢
      refine ⟨hb, update_of_ne hne _ _, fun j k => ?_⟩
      rw [hothers b hne j k, hsame b hne j k]
    · exact hrem

/-- What one step needs to keep the timers owned. -/
theorem owned_step (h : Owned r) (hs : step r e = some r') : Owned r' ↔ Lasting r e := by
  cases e with
  | added a =>
    refine iff_of_true ?_ trivial
    simp only [step] at hs
    split at hs
    · cases hs
    · next ha =>
      obtain rfl := Option.some.inj hs
      refine h.cleared ?_ h.removals (update_self a _ _)
      intro b hb hne
      refine ⟨?_, update_of_ne hne _ _, fun _ _ => Iff.rfl⟩
      simpa [hne] using hb
  | error a reason id =>
    simp only [step] at hs
    split at hs
    · next ha =>
      cases reason with
      | unretried =>
        obtain rfl := Option.some.inj hs
        exact iff_of_true h fun hu => (hu rfl).elim
      | networkError => simpa [Lasting] using h.delayReconnection_iff ha hs
      | encryptionError => simpa [Lasting] using h.delayReconnection_iff ha hs
      | otherError => simpa [Lasting] using h.delayReconnection_iff ha hs
    · cases hs
  | expired id =>
    refine iff_of_true ?_ trivial
    simp only [step] at hs
    split at hs
    · next a interval hsrc =>
      obtain rfl := Option.some.inj hs
      refine h.cleared ?_ h.removals (update_self a _ _)
      intro b hb hne
      refine ⟨hb, update_of_ne hne _ _, sameTimers_update ?_ nofun⟩
      rintro k hk
      rw [hsrc] at hk
      injection hk with hk
      injection hk with hk
      exact hne hk.symm
    · cases hs
  | connected a =>
    refine iff_of_true ?_ trivial
    simp only [step] at hs
    split at hs
    · next ha => exact Option.some.inj hs ▸ h.removeReconnection ha
    · cases hs
  | squit a =>
    refine iff_of_true ?_ trivial
    simp only [step] at hs
    split at hs
    · next ha => exact Option.some.inj hs ▸ h.removeReconnection ha
    · cases hs
  | deleted a =>
    refine iff_of_true ?_ trivial
    simp only [step] at hs
    split at hs
    · next ha =>
      obtain rfl := Option.some.inj hs
      have h' := h.removeReconnection ha
      exact ⟨fun b hb => h'.timer b (List.mem_of_mem_filter hb), h'.removals⟩
    · cases hs
  | sourceAdded id =>
    refine iff_of_true ?_ trivial
    simp only [step, sourceAdd] at hs
    split at hs
    · cases hs
    · next hfree =>
      rw [not_or, Option.isSome_iff_ne_none, not_not] at hfree
      obtain rfl := Option.some.inj hs
      exact ⟨fun b hb hid => (h.timer b hb hid).congr
        (sameTimers_update (by simp [hfree.2]) nofun), h.removals⟩
  | sourceEnded id =>
    refine iff_of_true ?_ trivial
    simp only [step] at hs
    split at hs
    · next hsrc =>
      obtain rfl := Option.some.inj hs
      exact ⟨fun b hb hid => (h.timer b hb hid).congr
        (sameTimers_update (by simp [hsrc]) nofun), h.removals⟩
    · cases hs
  | restarted =>
    obtain rfl := Option.some.inj hs
    constructor
    · intro h' a ha
      by_contra hid
      obtain ⟨⟨interval, hsrc⟩, -⟩ := h'.timer a ha (Int32.not_lt.mp hid)
      cases hsrc
    · intro hneg
      refine ⟨fun a ha hid => ?_, h.removals⟩
      exact absurd hid (Int32.not_le.mpr (hneg a ha))

/-- In every run: the timers are owned in all of its states exactly if none is pending when the
process ends. -/
theorem run_owned_iff (hr : run step {} es = some r) :
    Throughout step Owned {} es ↔ Along step Lasting {} es :=
  throughout_iff (fun _ _ _ h hs => owned_step h hs) ⟨nofun, nofun⟩ hr

theorem run_owned_connected :
    Throughout step Owned {} [.added 0, .error 0 .networkError 7, .connected 0] := by
  refine (run_owned_iff rfl).mpr ⟨trivial, ?_⟩
  intro r hr
  obtain rfl := Option.some.inj hr
  exact ⟨fun _ _ _ => nofun, fun r _ => ⟨trivial, fun _ _ => trivial⟩⟩

/-- The next process has a source of its own under the stored id: the connection removes it. -/
theorem run_not_owned : ¬ Throughout step Owned {}
    [.added 0, .error 0 .networkError 7, .restarted, .sourceAdded 7, .connected 0] := by
  intro h
  have hend := ((((h.2 _ rfl).2 _ rfl).2 _ rfl).2 _ rfl).2 _ rfl
  obtain ⟨⟨interval, hsrc⟩, -⟩ := hend.head.removals _ (List.mem_singleton.mpr rfl)
  cases hsrc

end Reconnections
end Minbif
