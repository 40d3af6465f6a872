import Minbif.Irc.ConvEntity
import Minbif.World.Losses

/-! The timers of what the client has typed, which no destructor stops. -/
namespace Minbif
open Function Runs

/-- What ends the process in `flush_messages`: a read of a deleted object, or `assert(isValid())`. -/
inductive BadFlush
  | deleted
  | invalid

/-- The session, the chats' own queues, and the callbacks that glib holds for
`ConvEntity::enqueueMessage`; no destructor removes one. -/
structure Timers where
  world : World := World.initial
  chats : ChanRef → ConvEntity := fun _ => {}
  pending : List EntityRef := []

/-- An event of the session, or a timer that expires. -/
inductive Beat
  | op (op : Op)
  | expired (e : EntityRef)

/-- `flush_messages` of a nick; empty texts alone are joined to nothing that is sent. -/
def World.flushed (w : World) (n : NickRef) : Option World :=
  if (w.convs.queue n).all List.isEmpty then
    some { w with convs := { w.convs with queue := update w.convs.queue n [] } }
  else w.flush n

namespace Timers

/-- The chat that a target of a message is. -/
def chatNamed (w : World) (target : Str) : Option ChanRef :=
  if w.registered ∧ (target.head? = some '&' ∨ target.head? = some '#') then
    (w.chans.getChannel target).filter fun c => (w.chans.conv c).isSome
  else none

/-- `enqueueMessage` of a chat. -/
def enqueueChat (t : Timers) (c : ChanRef) (text : Str) : Timers :=
  let chat := (t.chats c).enqueueMessage text t.world.data.sendDelay
  { t with
    chats := update t.chats c chat
    pending := if (t.chats c).timers < chat.timers then t.pending ++ [.chan c] else t.pending }

/-- The nicks for which `enqueueMessage` adds a timer: their first text has come. -/
def firstTexts (w w' : World) : List EntityRef :=
  (w'.nicks.users.values.filter fun n =>
    (w.convs.queue n).isEmpty && !(w'.convs.queue n).isEmpty).map .nick

/-- What a line of the client leaves behind, from the world after it. -/
def typed (t : Timers) (w : World) (target text : Str) : Timers :=
  let t' := { t with world := w, pending := t.pending ++ firstTexts t.world w }
  match chatNamed t.world target with
  | some c => t'.enqueueChat c text
  | none => t'

/-- `ConvEntity::flush_messages`, which `g_callback_delete` calls once. -/
def flushMessages (t : Timers) : EntityRef → Except BadFlush Timers
  | .nick n =>
    if t.world.nicks.alive n then
      match t.world.flushed n with
      | some w => .ok { t with world := w, pending := t.pending.erase (.nick n) }
      | none => .error .invalid
    else .error .deleted
  | .chan c =>
    if t.world.chans.alive c then
      if (t.chats c).enqueuedMessages.all List.isEmpty ∨ (t.world.chans.conv c).isSome then
        .ok { t with
          chats := update t.chats c
            { (t.chats c).flushMessages with timers := (t.chats c).timers - 1 }
          pending := t.pending.erase (.chan c) }
      else .error .invalid
    else .error .deleted

/-- One event. A timer expires when it is pending, and `flush_messages` runs for nothing else. -/
def step (P : Purple) (t : Timers) : Beat → Option Timers
  | .op (.flush _) => none
  | .op (.privmsg target text dcc) =>
    (t.world.run P (.privmsg target text dcc)).map fun w => t.typed w target text
  | .op op => (t.world.run P op).map fun w => { t with world := w }
  | .expired e => if e ∈ t.pending then (t.flushMessages e).toOption else none

/-- Whichever timer expires next, its `flush_messages` finds its object and a valid conversation. -/
def Calm (t : Timers) : Prop := ∀ e ∈ t.pending, ∃ t', t.flushMessages e = .ok t'

/-- The event takes no nick or chat away, nor its conversation, while it has a timer. -/
def Lasting (P : Purple) (t : Timers) : Beat → Prop
  | .op op => t.world.registered = true → ∀ e ∈ t.pending, ¬ t.world.Loses P e op
  | .expired _ => True

variable {P : Purple} {t t' : Timers} {w : World} {e : EntityRef} {op : Op} {target text : Str}

/-- What keeps the timers calm. -/
structure Sound (t : Timers) : Prop where
  ok : t.world.Ok none
  named : t.world.nicks.Named
  held : ∀ e ∈ t.pending, t.world.convs.Has e

theorem Sound.calm (h : t.Sound) : t.Calm := by
  intro e he
  have hhas := h.held e he
  cases e with
  | nick n =>
    obtain ⟨v, hv⟩ := Option.isSome_iff_exists.mp hhas
    have halive := (h.ok.talks.nick n v hv).1
    have hflush : ∃ w, t.world.flushed n = some w := by
      unfold World.flushed World.flush
      split
      · exact ⟨_, rfl⟩
      · split
        · exact ⟨_, rfl⟩
        · exact ⟨_, by rw [hv, Option.map_some]⟩
    obtain ⟨w, hw⟩ := hflush
    exact ⟨_, by rw [flushMessages, if_pos halive, hw]⟩
  | chan c =>
    obtain ⟨v, hv⟩ := hhas
    obtain ⟨halive, hconv, -⟩ := h.ok.chats.bwd v c hv
    have hvalid : (t.chats c).enqueuedMessages.all List.isEmpty ∨ (t.world.chans.conv c).isSome :=
      .inr (by rw [hconv]; rfl)
    exact ⟨_, by rw [flushMessages, if_pos halive, if_pos hvalid]⟩

theorem flushed_spares {n : NickRef} (h : t.world.flushed n = some w) :
    World.Goes World.noPurple (t.world.terms World.noPurple .welcome) t.world w ∧
      World.Spares (fun _ => False) t.world w := by
  unfold World.flushed at h
  split at h
  · obtain rfl := Option.some.inj h
    exact ⟨(World.Change.queued t.world _).goes, .same rfl rfl⟩
  · exact ⟨World.flush_goes h, World.flush_spares h⟩

/-- An event that takes nothing from the entities with a timer. -/
theorem Sound.after (h : t.Sound) (hl : t.Lasting P (.op op)) (hrun : t.world.run P op = some w) :
    Sound { t with world := w } := by
  have hgo := World.run_goes h.ok hrun
  refine ⟨hgo.ok h.ok, World.Changes.named hgo h.ok h.named, fun e he => ?_⟩
  exact World.run_spares h.ok h.named hrun e (h.held e he) fun hloss => hl hloss.1 e he hloss.2

theorem Sound.enqueueChat {c : ChanRef} (h : t.Sound) (hc : t.world.convs.Has (.chan c)) (text : Str) :
    (t.enqueueChat c text).Sound := by
  unfold Timers.enqueueChat
  refine ⟨h.ok, h.named, fun e he => ?_⟩
  dsimp only at he
  split at he
  · rcases List.mem_append.mp he with he | he
    · exact h.held e he
    · exact List.mem_singleton.mp he ▸ hc
  · exact h.held e he

/-- What is typed adds timers only for nicks and chats that have a conversation. -/
theorem Sound.typed {dcc : Bool} (h : t.Sound) (hl : t.Lasting P (.op (.privmsg target text dcc)))
    (hrun : t.world.run P (.privmsg target text dcc) = some w) : (t.typed w target text).Sound := by
  have hafter := h.after hl hrun
  have hstarts : ∀ e ∈ firstTexts t.world w, w.convs.Has e := by
    intro e he
    obtain ⟨n, hn, rfl⟩ := List.mem_map.mp he
    simp only [List.mem_filter, Bool.and_eq_true, List.isEmpty_iff, Bool.not_eq_true',
      ← Bool.not_eq_true] at hn
    obtain ⟨-, hnil, hne⟩ := hn
    simp only [World.run] at hrun
    split at hrun
    · obtain rfl := Option.some.inj hrun
      exact (hne hnil).elim
    · exact (World.privmsg_types h.ok h.named hrun).starts n hnil hne
  let t₁ : Timers := { t with world := w, pending := t.pending ++ firstTexts t.world w }
  have ht₁ : t₁.Sound := by
    refine ⟨hafter.ok, hafter.named, fun e he => ?_⟩
    rcases List.mem_append.mp he with he | he
    · exact hafter.held e he
    · exact hstarts e he
  unfold Timers.typed
  cases hchat : chatNamed t.world target with
  | none => exact ht₁
  | some c =>
    refine ht₁.enqueueChat ?_ text
    have hc : t.world.convs.Has (.chan c) := by
      unfold chatNamed at hchat
      split at hchat
      · obtain ⟨hget, hconv⟩ := Option.filter_eq_some_iff.mp hchat
        obtain ⟨v, hv⟩ := Option.isSome_iff_exists.mp hconv
        exact ⟨v, h.ok.chats.fwd c v (h.ok.listed.getChannel.mp hget).1 hv⟩
      · cases hchat
    -- no text takes the conversation of a chat
    refine World.run_spares h.ok h.named hrun (.chan c) hc ?_
    rintro ⟨-, n, -, v, -, hhad⟩
    exact hhad

theorem Sound.flushMessages (h : t.Sound) (hf : t.flushMessages e = .ok t') : t'.Sound := by
  cases e with
  | nick n =>
    simp only [Timers.flushMessages] at hf
    split at hf
    · split at hf
      · next w hw =>
        obtain rfl := Except.ok.inj hf
        obtain ⟨hgo, hspares⟩ := flushed_spares hw
        refine ⟨hgo.ok h.ok, World.Changes.named hgo h.ok h.named, fun e he => ?_⟩
        exact hspares e (h.held e (List.mem_of_mem_erase he)) id
      · cases hf
    · cases hf
  | chan c =>
    simp only [Timers.flushMessages] at hf
    split at hf
    · split at hf
      · obtain rfl := Except.ok.inj hf
        exact ⟨h.ok, h.named, fun e he => h.held e (List.mem_of_mem_erase he)⟩
      · cases hf
    · cases hf

theorem Sound.step {x : Beat} (h : t.Sound) (hl : t.Lasting P x) (hs : t.step P x = some t') :
    t'.Sound := by
  unfold Timers.step at hs
  split at hs
  · cases hs
  · obtain ⟨w, hrun, rfl⟩ := Option.map_eq_some_iff.mp hs
    exact h.typed hl hrun
  · obtain ⟨w, hrun, rfl⟩ := Option.map_eq_some_iff.mp hs
    exact h.after hl hrun
  · split at hs
    · next e _ =>
      cases hf : t.flushMessages e with
      | error x =>
        rw [hf] at hs
        cases hs
      | ok u =>
        rw [hf] at hs
        exact Option.some.inj hs ▸ h.flushMessages hf
    · cases hs

theorem initial_held : ({} : Timers).Sound :=
  ⟨World.initial_ok, World.initial_named, nofun⟩

/-- In a run none of whose events takes an entity with a timer away, or its conversation, every timer
that may expire finds both. -/
theorem run_calm (P : Purple) (xs : List Beat) (h : Runs.Along (step P) (Lasting P) {} xs) :
    Runs.Throughout (step P) Calm {} xs :=
  Runs.throughout_of_along (I := Sound) (fun _ hs => hs.calm)
    (fun _ _ _ _ hs hl hstep => hs.step hl hstep) initial_held h

instance (P : Purple) (t : Timers) : DecidablePred (t.Lasting P)
  | .op op => inferInstanceAs (Decidable (t.world.registered = true → ∀ e ∈ t.pending,
      ¬ t.world.Loses P e op))
  | .expired _ => inferInstanceAs (Decidable True)

/-- Bob is written to, and the timer expires before the account is disconnected. -/
theorem run_calm_bob : Runs.Throughout (step World.bobPurple) Calm {}
    ((World.bobOnStatus.map .op) ++ [.op (.privmsg (str "bob") (str "hi") false), .expired (.nick 3),
      .op (.disconnected 0 [])]) :=
  run_calm World.bobPurple _ (by decide)

end Timers
end Minbif
