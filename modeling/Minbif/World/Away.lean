import Mathlib.Data.List.Induction
import Minbif.Lib.Runs
import Minbif.World.Sites
import Minbif.World.StatusTopic

/-! AWAY, and the topics of the status channels beside the messages of their accounts. -/
namespace Minbif
open Function

/-- A `PurpleStatusPrimitive`; 0 is UNSET. -/
abbrev StatusPrimitive := Nat

def statusOffline : StatusPrimitive := 1
def statusAvailable : StatusPrimitive := 2
def statusAway : StatusPrimitive := 5

/-- The primitives of libpurple, each with its id and its name. -/
structure Primitives where
  table : List (Str × Str)
  apart : (table.map Prod.fst).Nodup
  available : (table.map Prod.fst)[statusAvailable]? = some Statuses.available

namespace Primitives

variable (K : Primitives)

/-- `purple_primitive_get_id_from_type`; UNSET stands for no primitive. -/
def id (prim : StatusPrimitive) : Option Str :=
  if prim = 0 then none else some (((K.table.map Prod.fst)[prim]?).getD [])

/-- `purple_primitive_get_type_from_id` -/
def ofId (id : Str) : StatusPrimitive := ((K.table.map Prod.fst).idxOf? id).getD 0

/-- The primitive that `IM::setStatus` looks for, and the message it leaves. -/
def asked (away : Str) : StatusPrimitive × Str :=
  if away.isEmpty then (statusAvailable, [])
  else
    match K.table.findIdx? fun e => strlower e.2 = strlower away || e.1 = strlower away with
    | some prim => (prim, [])
    | none => (statusAway, away)

end Primitives

namespace Statuses

/-- No call nests deeper. -/
def depth : Nat := 4

variable (P : Purple) (K : Primitives)

/-- `Account::getStatus` -/
def getStatus (s : Statuses) (a : AccountRef) : StatusPrimitive := K.ofId (s.active a)

/-- `IM::setStatus`, over what `getAccountsList` returns. -/
def setStatuses (s : Statuses) (accounts : List AccountRef) (away : Str) : Option Statuses :=
  accounts.foldlM (fun s a => setStatus depth s a (K.id (K.asked away).1) (K.asked away).2) s

/-- The first loop of `IM::isAway`: the last account that is away counts. -/
def awayPrimitive (s : Statuses) (accounts : List AccountRef) : StatusPrimitive :=
  accounts.foldl (fun prim a =>
    if statusAvailable < s.getStatus K a then s.getStatus K a else prim) statusAvailable

/-- Neither offline nor away. -/
def awake (s : Statuses) (a : AccountRef) : Bool :=
  s.getStatus K a ≠ statusOffline && s.getStatus K a ≤ statusAvailable

/-- One turn of the second loop of `IM::isAway`. -/
def follow (prim : StatusPrimitive) (s : Statuses) (a : AccountRef) : Option Statuses :=
  if s.awake K a then setStatus depth s a (K.id prim) [] else some s

/-- `IM::isAway` -/
def isAway (s : Statuses) (accounts : List AccountRef) : Option (Bool × Statuses) :=
  (accounts.foldlM (follow K (s.awayPrimitive K accounts)) s).map fun t =>
    (s.awayPrimitive K accounts ≠ statusAvailable, t)

/-- How `Account::createStatusChannel` reconciles the topic and the message of the account. -/
def reconcile (s : Statuses) (a : AccountRef) (c : ChanRef) : Option Statuses :=
  let status := (s.message a available).getD []
  if s.world.chans.topic c = status then some s
  else if !status.isEmpty then setTopic depth s c s.world.nicks.ircEntity status
  else setStatus depth s a none (s.world.chans.topic c)

/-- `chan->addAccount(*this)`, and the buddies of the account. -/
def enter (s : Statuses) (a : AccountRef) (c : ChanRef) : Statuses :=
  let w := s.world.setAccounts c (s.world.chans.accounts c ++ [a])
  { s with world := (w.data.buddies a).foldl (fun w b => w.updated P b) w }

/-- `Account::createStatusChannel` -/
def createStatusChannel (s : Statuses) (a : AccountRef) : Option Statuses :=
  if (s.world.data.statusChannel a).head? ≠ some '&' then some s
  else
    let (w, c) := s.world.openStatusChannel a
    let s : Statuses := { s with world := w }
    (s.reconcile a c).map fun s => s.enter P a c

def leaveStatusChannel (s : Statuses) (a : AccountRef) : Statuses :=
  { s with world := s.world.leaveStatusChannel a }

/-- `Account::setStatusChannelName` -/
def setStatusChannelName (s : Statuses) (a : AccountRef) (name : Str) : Option Statuses :=
  let w := s.world.leaveStatusChannel a
  let s : Statuses := { s with world := { w with data := { w.data with
    statusChannel := update w.data.statusChannel a name } } }
  s.createStatusChannel P a

/-- The loop of `Account::init`. -/
def init (s : Statuses) (accounts : List AccountRef) : Option Statuses :=
  accounts.foldlM (fun s a => s.createStatusChannel P a) s

inductive Event
  /-- The option `status_channel` of an account. -/
  | statusChannel (a : AccountRef) (name : Str)
  /-- `account_removed` -/
  | removed (a : AccountRef)
  /-- `purple_savedstatus_activate_for_account`, of a saved status that has no message. -/
  | activated (a : AccountRef) (id : Str)
  /-- TOPIC with a text. -/
  | topic (channame text : Str)
  /-- AWAY, with what `getAccountsList` returns. -/
  | away (accounts : List AccountRef) (message : Str)
  /-- The end of `sendWelcome`. -/
  | welcome (accounts : List AccountRef)

/-- `m_topic` with a text; that of a chat is up to libpurple. -/
def mTopic (s : Statuses) (channame text : Str) : Option Statuses :=
  match s.world.chans.getChannel channame with
  | none => some s
  | some c =>
    if (s.world.chans.conv c).isSome then some s
    else setTopic depth s c (s.world.nicks.entity userRef) text

def step (s : Statuses) : Event → Option Statuses
  | .statusChannel a name => s.setStatusChannelName P a name
  | .removed a => some (s.leaveStatusChannel a)
  | .activated a id => some (if (s.status a id).isSome then s.purpleSetStatus a id [] else s)
  | .topic channame text => s.mTopic channame text
  | .away accounts message => s.setStatuses K accounts message
  | .welcome accounts => (s.isAway K accounts).map Prod.snd

/-- An account is in the status it was in, or in the one that was asked for, if it has that. -/
structure Moves (prim : Option Str) (s t : Statuses) : Prop where
  has : ∀ b i, (t.status b i).isSome = (s.status b i).isSome
  active : ∀ b, t.active b = s.active b ∨
    ∃ id ∈ prim, t.active b = id ∧ (s.status b id).isSome = true

variable {P : Purple} {K : Primitives} {s t u : Statuses} {a b : AccountRef} {c : ChanRef}
  {sender : StoredEntity} {m id : Str} {prim : Option Str} {l : List AccountRef}

theorem Moves.refl (prim : Option Str) (s : Statuses) : Moves prim s s :=
  ⟨fun _ _ => rfl, fun _ => .inl rfl⟩

theorem Moves.trans (h : Moves prim s t) (h' : Moves prim t u) : Moves prim s u := by
  refine ⟨fun b i => (h'.has b i).trans (h.has b i), fun b => ?_⟩
  rcases h'.active b with hb | ⟨id, hid, hb, hsome⟩
  · rw [hb]
    exact h.active b
  · rw [h.has] at hsome
    exact .inr ⟨id, hid, hb, hsome⟩

theorem isSome_purpleSetStatus (s : Statuses) (a : AccountRef) (id m : Str) (b : AccountRef)
    (i : Str) : ((s.purpleSetStatus a id m).status b i).isSome = (s.status b i).isSome := by
  unfold purpleSetStatus
  dsimp only
  rcases eq_or_ne b a with rfl | hb
  · rw [update_self]
    rcases eq_or_ne i id with rfl | hi
    · rw [update_self, Option.isSome_map]
    · rw [update_of_ne hi]
  · rw [update_of_ne hb]

theorem moves_purpleSetStatus (hid : prim.getD (s.active a) = id)
    (hsome : (s.status a id).isSome = true) : Moves prim s (s.purpleSetStatus a id m) := by
  refine ⟨isSome_purpleSetStatus s a id m, fun b => ?_⟩
  change update s.active a id b = _ ∨ ∃ i ∈ prim, update s.active a id b = i ∧ _
  rcases eq_or_ne b a with rfl | hb
  · rw [update_self]
    cases prim with
    | none => exact .inl hid.symm
    | some i =>
      obtain rfl : i = id := hid
      exact .inr ⟨i, rfl, rfl, hsome⟩
  · rw [update_of_ne hb]
    exact .inl rfl

theorem moves_spread (s : Statuses) (c : ChanRef) (sender : StoredEntity) (m : Str) :
    Moves (some available) s (s.spread c sender m) := by
  have hstart : Moves (some available) s (s.setChannelTopic c sender m) :=
    ⟨fun _ _ => rfl, fun _ => .inl rfl⟩
  refine hstart.trans ?_
  rw [spread]
  generalize s.setChannelTopic c sender m = t
  induction s.world.chans.accounts c generalizing t with
  | nil => exact .refl _ t
  | cons a l ih =>
    refine Moves.trans ?_ (ih (t.give m a))
    unfold give
    split
    · next hsome => exact moves_purpleSetStatus rfl hsome
    · exact .refl _ t

/-- The account is given a message of that status; that of AVAILABLE can be spread before. -/
theorem setStatus_cases (h : setStatus depth s a prim m = some t) {st : PurpleStatus}
    (hst : s.status a (prim.getD (s.active a)) = some st) :
    (∃ m', t = s.purpleSetStatus a (prim.getD (s.active a)) m') ∨
      prim = some available ∧ ∃ c m',
        t = (s.spread c s.world.nicks.ircEntity m').purpleSetStatus a available m' := by
  rw [depth, setStatus] at h
  simp only [hst] at h
  generalize (if m.isEmpty then (s.world.getStatusChannel a).elim m s.world.chans.topic else m) = m₁ at h
  by_cases hask : m₁.isEmpty && prim.isSome
  swap
  · rw [if_neg hask] at h
    exact .inl ⟨m₁, (Option.some.inj h).symm⟩
  rw [if_pos hask] at h
  have hkeep : ∀ r, r = some s → r.map (fun s' : Statuses => s'.purpleSetStatus a
      (prim.getD (s.active a)) (st.message.getD [])) = some t →
      ∃ m', t = s.purpleSetStatus a (prim.getD (s.active a)) m' := by
    rintro _ rfl ht
    exact ⟨_, (Option.some.inj ht).symm⟩
  cases hc : s.world.getStatusChannel a with
  | none =>
    rw [hc] at h
    exact .inl (hkeep _ rfl h)
  | some c =>
    rw [hc] at h
    by_cases hsay : (!(st.message.getD []).isEmpty && decide (prim.getD (s.active a) = available)) = true
    · dsimp only at h
      rw [if_pos hsay] at h
      simp only [Bool.and_eq_true, Bool.not_eq_true', List.isEmpty_eq_false_iff,
        decide_eq_true_eq] at hask hsay
      obtain ⟨p, rfl⟩ := Option.isSome_iff_exists.mp hask.2
      obtain ⟨hsay, rfl⟩ : st.message.getD [] ≠ [] ∧ p = available := hsay
      rw [setTopic_give hsay] at h
      exact .inr ⟨rfl, c, _, (Option.some.inj h).symm⟩
    · dsimp only at h
      rw [if_neg hsay] at h
      exact .inl (hkeep _ rfl h)

/-- Whatever else it takes, an account that has the status asked for is in it. -/
theorem setStatus_moves (h : setStatus depth s a prim m = some t) : Moves prim s t ∧
    ∀ id ∈ prim, (s.status a id).isSome = true → t.active a = id := by
  cases hst : s.status a (prim.getD (s.active a)) with
  | none =>
    rw [depth, setStatus] at h
    simp only [hst, Option.some.injEq] at h
    subst h
    refine ⟨.refl _ s, ?_⟩
    rintro id rfl hsome
    change s.status a id = none at hst
    simp [hst] at hsome
  | some st =>
    have hsome : (s.status a (prim.getD (s.active a))).isSome = true := by simp [hst]
    rcases setStatus_cases h hst with ⟨m', rfl⟩ | ⟨rfl, c, m', rfl⟩
    · refine ⟨moves_purpleSetStatus rfl hsome, ?_⟩
      rintro id rfl -
      exact update_self ..
    · have hspread := moves_spread s c s.world.nicks.ircEntity m'
      refine ⟨hspread.trans (moves_purpleSetStatus rfl ?_), ?_⟩
      · rw [hspread.has]
        exact hsome
      · rintro id hid -
        obtain rfl := Option.some.inj hid
        exact update_self ..

/-- The accounts that have the status asked for are in it, and the others stay in theirs. -/
theorem foldlM_moves (h : l.foldlM (fun s a => setStatus depth s a prim m) s = some t) :
    Moves prim s t ∧ ∀ a ∈ l, ∀ id ∈ prim, (s.status a id).isSome = true → t.active a = id := by
  induction l generalizing s with
  | nil =>
    obtain rfl := Option.some.inj h
    exact ⟨.refl _ s, nofun⟩
  | cons a l ih =>
    rw [List.foldlM_cons] at h
    obtain ⟨u, hu, h⟩ := Option.bind_eq_some_iff.mp h
    obtain ⟨hone, hself⟩ := setStatus_moves hu
    obtain ⟨hrest, hothers⟩ := ih h
    refine ⟨hone.trans hrest, fun b hb id hid hsome => ?_⟩
    rcases List.mem_cons.mp hb with rfl | hb
    · rcases hrest.active b with hkeep | ⟨id', hid', hmove, -⟩
      · rw [hkeep]
        exact hself id hid hsome
      · obtain rfl : id' = id := Option.some.inj (hid'.symm.trans hid)
        exact hmove
    · rw [← hone.has] at hsome
      exact hothers b hb id hid hsome

/-- AWAY puts the accounts that have the status it asks for into it, and leaves the others alone. -/
theorem active_setStatuses (h : s.setStatuses K l m = some t) {a : AccountRef} (ha : a ∈ l) :
    t.active a = ((K.id (K.asked m).1).filter fun id => (s.status a id).isSome).getD (s.active a) := by
  obtain ⟨hmoves, hself⟩ := foldlM_moves h
  cases hid : K.id (K.asked m).1 with
  | none =>
    rcases hmoves.active a with hkeep | ⟨id, hmem, -⟩
    · exact hkeep
    · rw [hid] at hmem
      cases hmem
  | some id =>
    rw [hid] at hmoves hself
    by_cases hsome : (s.status a id).isSome = true
    · rw [Option.filter_some, if_pos hsome]
      exact hself a ha id rfl hsome
    · rw [Option.filter_some, if_neg hsome]
      rcases hmoves.active a with hkeep | ⟨id', hmem, -, hhas⟩
      · exact hkeep
      · obtain rfl : id = id' := Option.some.inj hmem
        exact absurd hhas hsome

theorem setStatus_text (hm : m ≠ []) : setStatus depth s a (some id) m =
    some (if (s.status a id).isSome then s.purpleSetStatus a id m else s) := by
  rw [depth, setStatus]
  cases hst : s.status a id with
  | none => simp [hst]
  | some st => simp [hst, hm]

theorem message_purpleSetStatus_self : (s.purpleSetStatus a id m).message b id =
    if b = a then (s.message b id).map fun _ => m else s.message b id := by
  unfold message purpleSetStatus
  rcases eq_or_ne b a with rfl | hb
  · rw [if_pos rfl]
    dsimp only
    rw [update_self, update_self]
    cases s.status b id with
    | none => rfl
    | some st => rfl
  · rw [if_neg hb]
    dsimp only
    rw [update_of_ne hb]

/-- Each account says the text in the status that goes with it. -/
theorem foldlM_text (hm : m ≠ [])
    (h : l.foldlM (fun s a => setStatus depth s a (some id) m) s = some t) :
    (∀ b, (∀ m' ∈ s.message b id, m' = m) → ∀ m' ∈ t.message b id, m' = m) ∧
      ∀ a ∈ l, ∀ m' ∈ t.message a id, m' = m := by
  induction l generalizing s with
  | nil =>
    obtain rfl := Option.some.inj h
    exact ⟨fun _ hb => hb, nofun⟩
  | cons a l ih =>
    rw [List.foldlM_cons, setStatus_text hm] at h
    obtain ⟨hkeep, hothers⟩ := ih h
    have hself : ∀ m' ∈ (if (s.status a id).isSome then s.purpleSetStatus a id m else s).message a id,
        m' = m := by
      intro m' hm'
      split at hm'
      · rw [message_purpleSetStatus_self, if_pos rfl] at hm'
        obtain ⟨-, -, rfl⟩ := Option.map_eq_some_iff.mp hm'
        rfl
      · next hnone =>
        rw [Option.not_isSome_iff_eq_none] at hnone
        rw [message, hnone] at hm'
        cases hm'
    refine ⟨fun b hb => hkeep b fun m' hm' => ?_, fun b hb => ?_⟩
    · rcases eq_or_ne b a with rfl | hne
      · exact hself m' hm'
      · refine hb m' ?_
        split at hm'
        · rwa [message_purpleSetStatus_self, if_neg hne] at hm'
        · exact hm'
    · rcases List.mem_cons.mp hb with rfl | hb
      · exact hkeep b hself
      · exact hothers b hb

/-- A text that is not the name of a status is what the accounts say while they are away. -/
theorem message_setStatuses (h : s.setStatuses K l m = some t) (hm : (K.asked m).2 ≠ []) (ha : a ∈ l)
    (hid : K.id (K.asked m).1 = some id) : ∀ m' ∈ t.message a id, m' = (K.asked m).2 := by
  rw [setStatuses, hid] at h
  exact (foldlM_text hm h).2 a ha

theorem Primitives.id_ne_available {prim : StatusPrimitive} (hprim : prim ≠ statusAvailable)
    (hid : K.id prim = some id) : id ≠ available := by
  rintro rfl
  unfold Primitives.id at hid
  split at hid
  · cases hid
  · have hget := Option.some.inj hid
    cases hother : (K.table.map Prod.fst)[prim]? with
    | none =>
      rw [hother] at hget
      revert hget
      decide
    | some id =>
      rw [hother] at hget
      obtain rfl : id = available := hget
      obtain ⟨hlt, -⟩ := List.getElem?_eq_some_iff.mp hother
      exact hprim ((List.getElem?_inj hlt K.apart).mp (hother.trans K.available.symm))

theorem id_ofId (h : K.ofId id ≠ 0) : K.id (K.ofId id) = some id := by
  unfold Primitives.id
  rw [if_neg h]
  unfold Primitives.ofId at h ⊢
  cases hidx : (K.table.map Prod.fst).idxOf? id with
  | none =>
    rw [hidx] at h
    exact absurd rfl h
  | some i =>
    obtain ⟨hlt, hget, -⟩ := List.idxOf?_eq_some_iff.mp hidx
    rw [Option.getD_some, List.getElem?_eq_getElem hlt, hget]
    rfl

/-- The last account that is away. -/
def lastAway (K : Primitives) (s : Statuses) (l : List AccountRef) : Option AccountRef :=
  (l.filter fun a => statusAvailable < s.getStatus K a).getLast?

theorem awayPrimitive_eq (s : Statuses) (l : List AccountRef) :
    s.awayPrimitive K l = ((s.lastAway K l).map (s.getStatus K)).getD statusAvailable := by
  unfold awayPrimitive lastAway
  induction l using List.reverseRecOn with
  | nil => rfl
  | append_singleton l a ih =>
    rw [List.foldl_append, List.filter_append, List.foldl_cons, List.foldl_nil, ih]
    by_cases ha : statusAvailable < s.getStatus K a
    · simp [ha]
    · simp [ha]

theorem awake_congr (h : t.active b = s.active b) : t.awake K b = s.awake K b := by
  rw [awake, awake, getStatus, getStatus, h]

theorem follow_active {prim : StatusPrimitive} (hid : K.id prim = some id) (hne : id ≠ available)
    (h : s.follow K prim a = some t) : (∀ b i, (t.status b i).isSome = (s.status b i).isSome) ∧
    ∀ b, t.active b = if b = a ∧ s.awake K b ∧ (s.status b id).isSome then id else s.active b := by
  unfold follow at h
  split at h
  swap
  · next hsleep =>
    obtain rfl := Option.some.inj h
    refine ⟨fun _ _ => rfl, fun b => (if_neg ?_).symm⟩
    rintro ⟨rfl, hawake, -⟩
    exact hsleep hawake
  next hawake =>
  rw [hid] at h
  cases hst : s.status a id with
  | none =>
    rw [depth, setStatus] at h
    simp only [Option.getD_some, hst, Option.some.injEq] at h
    subst h
    refine ⟨fun _ _ => rfl, fun b => (if_neg ?_).symm⟩
    rintro ⟨rfl, -, hsome⟩
    simp [hst] at hsome
  | some st =>
    rcases setStatus_cases h hst with ⟨m', rfl⟩ | ⟨havail, -⟩
    · refine ⟨isSome_purpleSetStatus s a id m', fun b => ?_⟩
      change update s.active a id b = _
      rcases eq_or_ne b a with rfl | hb
      · rw [update_self, if_pos ⟨rfl, hawake, by simp [hst]⟩]
      · rw [update_of_ne hb, if_neg fun h => hb h.1]
    · exact absurd (Option.some.inj havail) hne

/-- The accounts that are awake go to that status, if they have it. -/
theorem foldlM_follow {prim : StatusPrimitive} (hid : K.id prim = some id) (hne : id ≠ available)
    (h : l.foldlM (follow K prim) s = some t) (b : AccountRef) :
    t.active b = if b ∈ l ∧ s.awake K b ∧ (s.status b id).isSome then id else s.active b := by
  induction l generalizing s with
  | nil =>
    obtain rfl := Option.some.inj h
    simp
  | cons a l ih =>
    rw [List.foldlM_cons] at h
    obtain ⟨u, hu, h⟩ := Option.bind_eq_some_iff.mp h
    obtain ⟨hhas, hactive⟩ := follow_active hid hne hu
    rw [ih h, hhas]
    by_cases hgo : b = a ∧ s.awake K b ∧ (s.status b id).isSome
    · have hin : b ∈ a :: l := hgo.1 ▸ List.mem_cons_self
      rw [hactive, if_pos hgo, ite_self, if_pos ⟨hin, hgo.2⟩]
    · have hkeep : u.active b = s.active b := by rw [hactive, if_neg hgo]
      rw [awake_congr hkeep, hkeep]
      refine if_congr ?_ rfl rfl
      rw [List.mem_cons]
      tauto

end Statuses
end Minbif
