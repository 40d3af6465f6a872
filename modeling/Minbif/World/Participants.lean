import Minbif.World.Sound

/-! Which participant of a chat the callbacks of libpurple reach by its name. -/
namespace Minbif
open Function
namespace World

variable {P : Purple} {w : World} {v : ConvRef} {c : ChanRef} {e e' : CBuddyRef × ChanUserRef}
  {cu : ChanUserRef} {name : Str}

/-- The lines of a message, as a participant says them. -/
def recvFrom (w : World) (c : ChanRef) (cu : ChanUserRef) (text : Str) (action : Bool) : World :=
  let who := w.nicks.entity (w.chans.cuNick cu)
  (stringtokLoop ['\n', '\r'] (text.length + 1) text).foldl (fun w line =>
    let line := if action then str "\x01ACTION " ++ line ++ ['\x01'] else line
    w.tellChan c ⟨str "PRIVMSG", who, w.chans.chanEntity c, [line]⟩) w

/-- Each event that names a participant is one of this `ChanUser`. -/
structure Reaches (P : Purple) (w : World) (c : ChanRef) (e : CBuddyRef × ChanUserRef) : Prop where
  selected : w.chanUserNamed P c (P.cbName e.1) = some e.2
  received : ∀ v text action, w.chatChan v = some c →
    w.runRegistered P (.recvMessage v (P.cbName e.1) text action) =
      some (w.recvFrom c e.2 text action)
  left : ∀ v reason, w.chatChan v = some c →
    w.runRegistered P (.removeUser v (P.cbName e.1) reason) =
      some (w.part (w.chans.cuNick e.2) c reason)
  topic : ∀ v topic, w.chatChan v = some c →
    w.runRegistered P (.topicChanged v (P.cbName e.1) topic) =
      some (w.setTopic c (w.nicks.entity (w.chans.cuNick e.2)) topic)
  renamed : ∀ v cb, w.chatChan v = some c →
    w.runRegistered P (.renameUser v e.1 cb) = w.renameBuddy P c e.2 cb

/-- A channel whose participants have different names, whatever their case. -/
def Unfolded (P : Purple) (w : World) (c : ChanRef) : Prop :=
  ∀ e ∈ (w.chans.cbuddies c).entries, ∀ e' ∈ (w.chans.cbuddies c).entries,
    strlower (P.cbName e.1) = strlower (P.cbName e'.1) → e.2 = e'.2

/-- The search stops at a participant that has the name up to case. -/
theorem chanUserNamed_some (h : w.chanUserNamed P c name = some cu) :
    ∃ e ∈ (w.chans.cbuddies c).entries, strlower (P.cbName e.1) = strlower name ∧ e.2 = cu := by
  obtain ⟨e, hfind, rfl⟩ := Option.map_eq_some_iff.mp h
  exact ⟨e, List.mem_of_find?_eq_some hfind, by simpa using List.find?_some hfind, rfl⟩

/-- It stops somewhere when a participant is named. -/
theorem chanUserNamed_isSome (he : e ∈ (w.chans.cbuddies c).entries) :
    (w.chanUserNamed P c (P.cbName e.1)).isSome = true := by
  rw [chanUserNamed, Option.isSome_map, List.find?_isSome]
  exact ⟨e, he, by simp⟩

/-- Two names that agree up to case lead to the same `ChanUser`. -/
theorem chanUserNamed_congr {name' : Str} (h : strlower name = strlower name') :
    w.chanUserNamed P c name = w.chanUserNamed P c name' := by
  unfold chanUserNamed
  rw [h]

theorem selected_iff : (∀ e ∈ (w.chans.cbuddies c).entries,
    w.chanUserNamed P c (P.cbName e.1) = some e.2) ↔ Unfolded P w c := by
  constructor
  · intro h e he e' he' hfold
    have heq := (h e he).symm.trans ((chanUserNamed_congr hfold).trans (h e' he'))
    exact Option.some.inj heq
  · intro h e he
    obtain ⟨cu, hcu⟩ := Option.isSome_iff_exists.mp (chanUserNamed_isSome (P := P) he)
    obtain ⟨e', he', hfold, rfl⟩ := chanUserNamed_some hcu
    rw [hcu, h e' he' e he hfold]

theorem chatChan_some (h : w.chatChan v = some c) :
    w.convs.alive v = true ∧ w.convs.isChat v = true ∧ w.convs.uiChan v = some c := by
  unfold chatChan at h
  split at h
  · next hchat =>
    rw [Bool.and_eq_true] at hchat
    exact ⟨hchat.1, hchat.2, h⟩
  · cases h

/-- The callbacks do nothing with a name but look it up. -/
theorem Reaches.of_selected (h : w.chanUserNamed P c (P.cbName e.1) = some e.2) :
    Reaches P w c e where
  selected := h
  received v text action hv := by
    obtain ⟨ha, hchat, hc⟩ := chatChan_some hv
    simp only [runRegistered, recvMessage, recvChat, recvFrom, ha, hchat, hc, h, if_true]
  left v reason hv := by simp only [runRegistered, hv, h]
  topic v topic hv := by simp only [runRegistered, hv, h]
  renamed v cb hv := by simp only [runRegistered, hv, h, Option.bind_some]

/-- Every participant of a chat is reached by its own name exactly when no other one has that name
up to case. -/
theorem reaches_iff (P : Purple) (w : World) (c : ChanRef) :
    (∀ e ∈ (w.chans.cbuddies c).entries, Reaches P w c e) ↔ Unfolded P w c := by
  rw [← selected_iff]
  constructor
  · exact fun h e he => (h e he).selected
  · exact fun h e he => .of_selected (h e he)

section Runs

/-- Two contacts of a chat whose names differ in their case. -/
def bobAndBob : Purple where
  buddyAccount _ := 0
  buddyName _ := []
  cbAccount _ := 0
  cbName cb := if cb = 0 then str "bob" else str "Bob"
  cbRealName _ := []
  translit _ := none

def lounge : List Op :=
  [.nick (str "alice"), .startUp [], .welcome, .connected 0, .newChat 0 (str "lounge"),
    .addUsers 0 [0, 1]]

/-- `bob` leaves when `Bob` does. -/
theorem left_by_case : ¬ ∀ (P : Purple) (ops : List Op) (c : ChanRef),
    (∀ e ∈ ((initial.runAll P ops).chans.cbuddies c).entries,
      ∀ e' ∈ ((initial.runAll P ops).chans.cbuddies c).entries,
        P.cbName e.1 = P.cbName e'.1 → e = e') →
    ∀ e ∈ ((initial.runAll P ops).chans.cbuddies c).entries,
      Reaches P (initial.runAll P ops) c e := by
  intro h
  have hidx : ((initial.runAll bobAndBob lounge).chans.cbuddies 0).entries = [(0, 1), (1, 2)] := by
    decide
  have hsel := (h bobAndBob lounge 0 (by rw [hidx]; decide) (1, 2) (by rw [hidx]; decide)).selected
  revert hsel
  decide

end Runs

end World
end Minbif
