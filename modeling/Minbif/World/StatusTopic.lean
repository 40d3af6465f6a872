import Minbif.Irc.Membership
import Minbif.World.Step

/-! The topics of the status channels, and the status messages of their accounts. -/
namespace Minbif
open Function

/-- A status of an account; `none` where it has no attribute for a message. -/
structure PurpleStatus where
  message : Option Str := some []
deriving DecidableEq, Repr

structure Statuses where
  world : World := {}
  /-- The id of the status that each account is in. -/
  active : AccountRef → Str := fun _ => str "offline"
  /-- `purple_account_get_status`. -/
  status : AccountRef → Str → Option PurpleStatus := fun _ _ => none

namespace Statuses

def available : Str := str "available"

/-- `purple_status_get_attr_string`, where there is that status with that attribute. -/
def message (s : Statuses) (a : AccountRef) (id : Str) : Option Str :=
  (s.status a id).bind PurpleStatus.message

/-- `purple_account_set_status` to a status that there is. -/
def purpleSetStatus (s : Statuses) (a : AccountRef) (id message : Str) : Statuses :=
  { s with
    active := update s.active a id
    status := update s.status a (update (s.status a) id
      ((s.status a id).map fun st => { st with message := st.message.map fun _ => message })) }

/-- `Channel::setTopic`. -/
def setChannelTopic (s : Statuses) (c : ChanRef) (sender : StoredEntity) (topic : Str) : Statuses :=
  { s with world := s.world.setTopic c sender topic }

mutual

/-- `StatusChannel::setTopic`; the sender NULL is the server. -/
def setTopic : Nat → Statuses → ChanRef → StoredEntity → Str → Option Statuses
  | 0, _, _, _, _ => none
  | fuel + 1, s, c, sender, message =>
    let s := s.setChannelTopic c sender message
    (s.world.chans.accounts c).foldlM
      (fun s acc => setStatus fuel s acc (some available) message) s

/-- `Account::setStatus`; the primitive `none` is `PURPLE_STATUS_UNSET`. -/
def setStatus : Nat → Statuses → AccountRef → Option Str → Str → Option Statuses
  | 0, _, _, _, _ => none
  | fuel + 1, s, a, prim, message =>
    let id := prim.getD (s.active a)
    match s.status a id with
    | none => some s
    | some status =>
      let chan := s.world.getStatusChannel a
      let message := if message.isEmpty then chan.elim message s.world.chans.topic else message
      if message.isEmpty && prim.isSome then
        let message := status.message.getD []
        let t := match chan with
          | some c =>
            if !message.isEmpty && id = available then
              setTopic fuel s c s.world.nicks.ircEntity message
            else some s
          | none => some s
        t.map fun s => s.purpleSetStatus a id message
      else some (s.purpleSetStatus a id message)

end

/-- The text is the topic up to its end of line, and the message of every account that has one. -/
structure Agree (s : Statuses) (c : ChanRef) (text : Str) : Prop where
  topic : s.world.chans.topic c = text.takeWhile (· ≠ '\n')
  message : ∀ a ∈ s.world.chans.accounts c, ∀ m ∈ s.message a available, m = text

/-- Nothing is left that an empty message is replaced by. -/
def Quiet (s : Statuses) (c : ChanRef) (a : AccountRef) : Prop :=
  ∀ m ∈ s.message a available, m = [] ∧
    ∀ c' ∈ s.world.getStatusChannel a, c' ≠ c → s.world.chans.topic c' = []

variable {s t u : Statuses} {a b : AccountRef} {c c' : ChanRef} {sender : StoredEntity}
  {text m : Str} {l : List AccountRef} {fuel : Nat}

section Operations

theorem message_purpleSetStatus : (s.purpleSetStatus a available m).message b available =
    if b = a then (s.message b available).map fun _ => m else s.message b available := by
  unfold message purpleSetStatus
  rcases eq_or_ne b a with rfl | hb
  · rw [if_pos rfl]
    dsimp only
    rw [update_self, update_self]
    cases s.status b available with
    | none => rfl
    | some st => rfl
  · rw [if_neg hb]
    dsimp only
    rw [update_of_ne hb]

@[simp] theorem world_purpleSetStatus : (s.purpleSetStatus a available m).world = s.world := rfl

/-- Only the topic of the channel changes, and what the User was told. -/
theorem setChannelTopic_frame (s : Statuses) (c : ChanRef) (sender : StoredEntity) (topic : Str) :
    ∃ sent, s.setChannelTopic c sender topic = { s with world := { s.world with chans :=
      { s.world.chans with
        topic := update s.world.chans.topic c (topic.takeWhile (· ≠ '\n')), sent := sent } } } := by
  unfold setChannelTopic World.setTopic
  dsimp only
  split
  · next heq =>
    rw [← heq, update_eq_self]
    exact ⟨s.world.chans.sent, rfl⟩
  · rw [World.tellChan, Chans.broadcast_eq]
    exact ⟨_, rfl⟩

/-- What an account with that status is given. -/
def give (s : Statuses) (m : Str) (a : AccountRef) : Statuses :=
  if (s.status a available).isSome then s.purpleSetStatus a available m else s

@[simp] theorem world_give : (s.give m a).world = s.world := by
  unfold give
  split <;> rfl

theorem message_give : (s.give m a).message b available =
    if b = a then (s.message b available).map fun _ => m else s.message b available := by
  unfold give
  split
  · exact message_purpleSetStatus
  · next hnone =>
    rw [Option.not_isSome_iff_eq_none] at hnone
    split
    · next hb => rw [hb, message, hnone]; rfl
    · rfl

theorem foldl_give (s : Statuses) (l : List AccountRef) (m : Str) :
    (l.foldl (fun s a => s.give m a) s).world = s.world ∧
      ∀ b, (l.foldl (fun s a => s.give m a) s).message b available =
        if b ∈ l then (s.message b available).map fun _ => m else s.message b available := by
  induction l generalizing s with
  | nil => exact ⟨rfl, fun b => (if_neg List.not_mem_nil).symm⟩
  | cons a l ih =>
    obtain ⟨hworld, hmessage⟩ := ih (s.give m a)
    refine ⟨hworld.trans world_give, fun b => (hmessage b).trans ?_⟩
    rw [message_give]
    by_cases ha : b = a
    · by_cases hl : a ∈ l
      · simp [ha, hl, Option.map_map, Function.comp_def]
      · simp [ha, hl]
    · simp [ha]

/-- The text becomes the topic, and the accounts are given it. -/
def spread (s : Statuses) (c : ChanRef) (sender : StoredEntity) (m : Str) : Statuses :=
  (s.world.chans.accounts c).foldl (fun s a => s.give m a) (s.setChannelTopic c sender m)

/-- A text that is not empty is given as it is. -/
theorem setStatus_give (hm : m ≠ []) :
    setStatus (fuel + 1) s a (some available) m = some (s.give m a) := by
  rw [setStatus, give]
  cases hst : s.status a available with
  | none => simp [hst]
  | some st => simp [hst, hm]

theorem setTopic_give (ht : text ≠ []) :
    setTopic (fuel + 2) s c sender text = some (s.spread c sender text) := by
  obtain ⟨sent, hframe⟩ := setChannelTopic_frame s c sender text
  have haccounts : (s.setChannelTopic c sender text).world.chans.accounts =
      s.world.chans.accounts := by rw [hframe]
  rw [setTopic, haccounts, spread]
  generalize s.setChannelTopic c sender text = t
  induction s.world.chans.accounts c generalizing t with
  | nil => rfl
  | cons a l ih =>
    rw [List.foldlM_cons, setStatus_give ht, List.foldl_cons]
    exact ih (t.give text a)

end Operations

section Empty

/-- What the operations leave alone. -/
structure Frame (s u : Statuses) : Prop where
  accounts : u.world.chans.accounts = s.world.chans.accounts
  channel : ∀ a, u.world.getStatusChannel a = s.world.getStatusChannel a
  message : ∀ a, (u.message a available).isSome = (s.message a available).isSome

theorem Frame.trans (h : Frame s t) (h' : Frame t u) : Frame s u :=
  ⟨h'.accounts.trans h.accounts, fun a => (h'.channel a).trans (h.channel a),
    fun a => (h'.message a).trans (h.message a)⟩

def Loud (s : Statuses) (a : AccountRef) : Prop := ∃ m ∈ s.message a available, m ≠ []

/-- What it does to give the accounts an empty message, one after the other. -/
structure Empties (s : Statuses) (l : List AccountRef) (u : Statuses) : Prop where
  frame : Frame s u
  quiet : ∀ c, s.world.chans.topic c = [] → (∀ a ∈ l, s.Quiet c a) →
    u.world = s.world ∧ ∀ b, u.message b available = s.message b available
  loud : ∀ b, s.Loud b → u.Loud b
  topic : ∀ c, s.world.chans.topic c ≠ [] → u.world.chans.topic c ≠ []
  fed : ∀ a ∈ l, ∀ c ∈ s.world.getStatusChannel a, s.world.chans.topic c ≠ [] →
    (s.message a available).isSome = true → u.Loud a

theorem Empties.nil (s : Statuses) : Empties s [] s :=
  ⟨⟨rfl, fun _ => rfl, fun _ => rfl⟩, fun _ _ _ => ⟨rfl, fun _ => rfl⟩, fun _ => id, fun _ => id,
    nofun⟩

theorem Quiet.congr (h : s.Quiet c a) (hworld : t.world = s.world)
    (hmessage : t.message a available = s.message a available) : t.Quiet c a := by
  unfold Quiet
  rw [hworld, hmessage]
  exact h

theorem Empties.cons (h : Empties s [a] t) (h' : Empties t l u) : Empties s (a :: l) u where
  frame := h.frame.trans h'.frame
  quiet c hc hl := by
    obtain ⟨ha, hl⟩ := List.forall_mem_cons.mp hl
    obtain ⟨hworld, hmessage⟩ := h.quiet c hc (by simpa using ha)
    obtain ⟨hworld', hmessage'⟩ := h'.quiet c (by rw [hworld, hc])
      fun b hb => (hl b hb).congr hworld (hmessage b)
    exact ⟨hworld'.trans hworld, fun b => (hmessage' b).trans (hmessage b)⟩
  loud b hb := h'.loud b (h.loud b hb)
  topic c hc := h'.topic c (h.topic c hc)
  fed b hb c hc htopic hsome := by
    rcases List.mem_cons.mp hb with rfl | hb
    · exact h'.loud b (h.fed b (by simp) c hc htopic hsome)
    · refine h'.fed b hb c ?_ (h.topic c htopic) ?_
      · rw [h.frame.channel]
        exact hc
      · rw [h.frame.message]
        exact hsome

theorem frame_purpleSetStatus (s : Statuses) (a : AccountRef) (m : Str) :
    Frame s (s.purpleSetStatus a available m) := by
  refine ⟨rfl, fun _ => rfl, fun b => ?_⟩
  rw [message_purpleSetStatus]
  split
  · exact Option.isSome_map
  · rfl

theorem Loud.purpleSetStatus (h : s.Loud b) (hm : b = a → m ≠ []) :
    (s.purpleSetStatus a available m).Loud b := by
  obtain ⟨m', hm', hne⟩ := h
  rw [Loud, message_purpleSetStatus, hm']
  split
  · next hb => exact ⟨m, rfl, hm hb⟩
  · exact ⟨m', rfl, hne⟩

/-- One account is given the message. -/
theorem empties_give (hkeep : s.Loud a → m ≠ [])
    (hquiet : ∀ c, s.world.chans.topic c = [] → s.Quiet c a → ∀ m' ∈ s.message a available, m' = m)
    (hfed : ∀ c ∈ s.world.getStatusChannel a, s.world.chans.topic c ≠ [] → m ≠ []) :
    Empties s [a] (s.purpleSetStatus a available m) where
  frame := frame_purpleSetStatus s a m
  quiet c hc hq := by
    refine ⟨rfl, fun b => ?_⟩
    rw [message_purpleSetStatus]
    split
    · next hb =>
      subst hb
      cases hmsg : s.message b available with
      | none => rfl
      | some m' => rw [hquiet c hc (hq b (by simp)) m' hmsg]; rfl
    · rfl
  loud b hb := hb.purpleSetStatus fun heq => hkeep (heq ▸ hb)
  topic c hc := hc
  fed b hb c hc htopic hsome := by
    obtain rfl := List.mem_singleton.mp hb
    obtain ⟨m', hm'⟩ := Option.isSome_iff_exists.mp hsome
    rw [Loud, message_purpleSetStatus, if_pos rfl, hm']
    exact ⟨m, rfl, hfed c hc htopic⟩

/-- An account whose own message becomes the topic of its channel. -/
theorem empties_spread (hm : m ≠ []) (hown : s.message a available = some m)
    (hc : s.world.getStatusChannel a = some c) (htopic : s.world.chans.topic c = []) :
    Empties s [a] ((s.spread c sender m).purpleSetStatus a available m) := by
  obtain ⟨sent, hset⟩ := setChannelTopic_frame s c sender m
  obtain ⟨hworld, hmessage⟩ :=
    foldl_give (s.setChannelTopic c sender m) (s.world.chans.accounts c) m
  have hsame : ∀ b, (s.setChannelTopic c sender m).message b available =
      s.message b available := fun _ => rfl
  have hframe : Frame s (s.spread c sender m) := by
    refine ⟨?_, fun a => ?_, fun b => ?_⟩
    · rw [spread, hworld, hset]
    · rw [spread, hworld, hset]
      rfl
    · rw [spread, hmessage, hsame]
      split
      · exact Option.isSome_map
      · rfl
  have hloud : ∀ b, s.Loud b → (s.spread c sender m).Loud b := by
    rintro b ⟨m', hm', hne⟩
    rw [Loud, spread, hmessage, hsame, hm']
    split
    · exact ⟨m, rfl, hm⟩
    · exact ⟨m', rfl, hne⟩
  refine ⟨hframe.trans (frame_purpleSetStatus _ a m), fun c' _ hq => ?_, fun b hb => ?_,
    fun c' hc' => ?_, fun b hb c' hc' hne => ?_⟩
  · exact absurd (hq a (by simp) m hown).1 hm
  · exact (hloud b hb).purpleSetStatus fun _ => hm
  · have hcc : c' ≠ c := by
      rintro rfl
      exact hc' htopic
    rw [world_purpleSetStatus, spread, hworld, hset]
    dsimp only
    rw [update_of_ne hcc]
    exact hc'
  · obtain rfl := List.mem_singleton.mp hb
    rw [hc] at hc'
    obtain rfl := Option.some.inj hc'
    exact absurd htopic hne

theorem setStatus_empty (s : Statuses) (a : AccountRef) : ∃ u,
    (∀ fuel, setStatus (fuel + 3) s a (some available) [] = some u) ∧ Empties s [a] u := by
  cases hst : s.status a available with
  | none =>
    have hnone : s.message a available = none := by
      rw [message, hst]
      rfl
    refine ⟨s, fun fuel => by simp [setStatus, hst], ⟨rfl, fun _ => rfl, fun _ => rfl⟩,
      fun _ _ _ => ⟨rfl, fun _ => rfl⟩, fun _ => id, fun _ => id, fun b hb c _ _ hsome => ?_⟩
    obtain rfl := List.mem_singleton.mp hb
    rw [hnone] at hsome
    cases hsome
  | some st =>
    have hmessage : s.message a available = st.message := by
      rw [message, hst]
      rfl
    cases hc : s.world.getStatusChannel a with
    | none =>
      refine ⟨s.purpleSetStatus a available (st.message.getD []), fun fuel => ?_,
        empties_give ?_ ?_ ?_⟩
      · simp [setStatus, hst, hc]
      · rintro ⟨m, hm, hne⟩
        rw [hmessage] at hm
        rw [hm]
        exact hne
      · intro c _ _ m hm
        rw [hmessage] at hm
        rw [hm]
        rfl
      · rw [hc]
        exact nofun
    | some c =>
      by_cases htopic : s.world.chans.topic c = []
      · by_cases hm : st.message.getD [] = []
        · refine ⟨s.purpleSetStatus a available [], fun fuel => ?_, empties_give ?_ ?_ ?_⟩
          · simp [setStatus, hst, hc, htopic, hm]
          · rintro ⟨m, hmem, hne⟩
            rw [hmessage] at hmem
            rw [hmem] at hm
            exact absurd hm hne
          · intro c _ _ m hmem
            rw [hmessage] at hmem
            rw [hmem] at hm
            exact hm
          · rintro c' hc' hne
            rw [hc] at hc'
            obtain rfl := Option.some.inj hc'
            exact absurd htopic hne
        · have hown : s.message a available = some (st.message.getD []) := by
            rw [hmessage]
            cases hopt : st.message with
            | none =>
              rw [hopt] at hm
              exact absurd rfl hm
            | some m => rfl
          refine ⟨(s.spread c s.world.nicks.ircEntity (st.message.getD [])).purpleSetStatus a
            available (st.message.getD []), fun fuel => ?_, empties_spread hm hown hc htopic⟩
          simp [setStatus, hst, hc, htopic, hm, setTopic_give hm]
      · refine ⟨s.purpleSetStatus a available (s.world.chans.topic c), fun fuel => ?_,
          empties_give (fun _ => htopic) ?_ ?_⟩
        · simp [setStatus, hst, hc, htopic]
        · intro c' hc' hq m hm
          obtain ⟨-, hother⟩ := hq m hm
          by_cases hcc : c = c'
          · rw [hcc] at htopic
            exact absurd hc' htopic
          · exact absurd (hother c hc hcc) htopic
        · rintro c' hc' hne
          rw [hc] at hc'
          obtain rfl := Option.some.inj hc'
          exact hne

end Empty

section Topics

/-- The loop over the accounts, whatever the fuel. -/
theorem foldlM_empty (s : Statuses) (l : List AccountRef) : ∃ u, (∀ fuel,
    l.foldlM (fun s acc => setStatus (fuel + 3) s acc (some available) []) s = some u) ∧
      Empties s l u := by
  induction l generalizing s with
  | nil => exact ⟨s, fun _ => rfl, Empties.nil s⟩
  | cons a l ih =>
    obtain ⟨t, ht, hone⟩ := setStatus_empty s a
    obtain ⟨u, hu, hrest⟩ := ih t
    refine ⟨u, fun fuel => ?_, hone.cons hrest⟩
    rw [List.foldlM_cons, ht]
    exact hu fuel

/-- A text that is not empty reaches the channel and every account. -/
theorem agree_spread (s : Statuses) (c : ChanRef) (sender : StoredEntity) (text : Str) :
    Agree (s.spread c sender text) c text := by
  obtain ⟨sent, hset⟩ := setChannelTopic_frame s c sender text
  obtain ⟨hworld, hmessage⟩ :=
    foldl_give (s.setChannelTopic c sender text) (s.world.chans.accounts c) text
  constructor
  · rw [spread, hworld, hset]
    dsimp only
    rw [update_self]
  · intro a ha m hm
    have ha : a ∈ s.world.chans.accounts c := by
      rw [spread, hworld, hset] at ha
      exact ha
    rw [spread, hmessage, if_pos ha] at hm
    obtain ⟨m', -, rfl⟩ := Option.map_eq_some_iff.mp hm
    rfl

/-- An empty text is what all of them are left with exactly if no account has anything else. -/
theorem agree_empty_iff (hu : Empties s (s.world.chans.accounts c) u)
    (htopic : s.world.chans.topic c = []) :
    Agree u c [] ↔ ∀ a ∈ s.world.chans.accounts c, s.Quiet c a := by
  constructor
  · intro hagree a ha m hm
    have hsilent : ¬ u.Loud a := by
      rintro ⟨m', hm', hne⟩
      refine hne (hagree.message a ?_ m' hm')
      rw [hu.frame.accounts]
      exact ha
    refine ⟨?_, fun c' hc' _ => ?_⟩
    · by_contra hne
      exact hsilent (hu.loud a ⟨m, hm, hne⟩)
    · by_contra hne
      refine hsilent (hu.fed a ha c' hc' hne ?_)
      rw [hm]
      rfl
  · intro hquiet
    obtain ⟨hworld, hmessage⟩ := hu.quiet c htopic hquiet
    constructor
    · rw [hworld, htopic]
      rfl
    · intro a ha m hm
      rw [hworld] at ha
      rw [hmessage] at hm
      exact (hquiet a ha m hm).1

/-- The recursion ends, and the channel and its accounts agree on the text exactly if it is not empty
or no attached account has a message that takes its place. -/
theorem setTopic_agrees_iff (s : Statuses) (c : ChanRef) (sender : StoredEntity) (text : Str) :
    ∃ u, (∀ fuel, 4 ≤ fuel → setTopic fuel s c sender text = some u) ∧
      (Agree u c text ↔ text ≠ [] ∨ ∀ a ∈ s.world.chans.accounts c, s.Quiet c a) := by
  by_cases ht : text = []
  · subst ht
    obtain ⟨sent, hset⟩ := setChannelTopic_frame s c sender []
    generalize hstart : s.setChannelTopic c sender [] = t at hset
    obtain ⟨u, hrun, hempties⟩ := foldlM_empty t (t.world.chans.accounts c)
    refine ⟨u, fun fuel hfuel => ?_, ?_⟩
    · obtain ⟨fuel, rfl⟩ := Nat.exists_eq_add_of_le' hfuel
      rw [setTopic, hstart]
      exact hrun fuel
    · have htopic : t.world.chans.topic c = [] := by
        rw [hset]
        exact update_self ..
      have haccounts : t.world.chans.accounts c = s.world.chans.accounts c := by rw [hset]
      have hquiet : ∀ a, t.Quiet c a ↔ s.Quiet c a := by
        intro a
        have hmessage : t.message a available = s.message a available := by
          rw [hset]
          rfl
        have hchan : t.world.getStatusChannel a = s.world.getStatusChannel a := by
          rw [hset]
          rfl
        have hothers : ∀ c', c' ≠ c → t.world.chans.topic c' = s.world.chans.topic c' := by
          intro c' hc'
          rw [hset]
          exact update_of_ne hc' _ _
        rw [Quiet, hmessage, hchan]
        refine forall₂_congr fun m hm => and_congr_right' (forall₂_congr fun c' hc' => ?_)
        exact imp_congr_right fun hne => by rw [hothers c' hne]
      rw [agree_empty_iff hempties htopic, haccounts, or_iff_right (not_not.mpr rfl)]
      exact forall₂_congr fun a _ => hquiet a
  · refine ⟨s.spread c sender text, fun fuel hfuel => ?_, ?_⟩
    · obtain ⟨fuel, rfl⟩ := Nat.exists_eq_add_of_le' hfuel
      exact setTopic_give ht
    · exact iff_of_true (agree_spread s c sender text) (.inl ht)

/-- One account whose message is the topic of its channel. -/
def hello : Statuses where
  world := { chans := {
    next := 1, alive := fun c => c = 0, name := fun _ => str "&minbif"
    topic := fun _ => str "Hello", accounts := fun _ => [0]
    table := OrdMap.insert .empty (str "&minbif") 0 }
             data := { statusChannel := fun _ => str "&minbif" } }
  active := fun _ => available
  status := fun _ id => if id = available then some { message := some (str "Hello") } else none

/-- The User clears the topic, which comes back from the account. -/
theorem topic_not_cleared : ¬ ∀ (s : Statuses) (c : ChanRef) (sender : StoredEntity) (text : Str),
    (∀ a ∈ s.world.chans.accounts c, s.world.getStatusChannel a = some c) →
    ∃ u, (∀ fuel, 4 ≤ fuel → setTopic fuel s c sender text = some u) ∧ Agree u c text := by
  intro h
  obtain ⟨u, hu, hagree⟩ := h hello 0 (.entity (str "me") (str "me")) [] (by decide)
  have htopic : (setTopic 4 hello 0 (.entity (str "me") (str "me")) []).map
      (fun u => u.world.chans.topic 0) = some (str "Hello") := by decide +kernel
  rw [hu 4 le_rfl, Option.map_some, hagree.topic] at htopic
  cases htopic

end Topics

end Statuses
end Minbif
