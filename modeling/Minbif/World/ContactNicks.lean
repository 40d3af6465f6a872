import Minbif.Irc.Nickize
import Minbif.World.Privmsg

/-! The nicknames that are made up for the contacts. -/
namespace Minbif
open Function

/-- Underscores do no harm but to the length. -/
theorem valid_underscores_iff {nick : Str} (h : isValidNickname nick = true) (n : Nat) :
    isValidNickname (nick ++ List.replicate n '_') = true ↔
      (nick ++ List.replicate n '_').length ≤ nickMaxLength := by
  obtain ⟨hfit, hchars⟩ := isValidNickname_iff.mp h
  rw [isValidNickname_iff]
  constructor
  · exact fun hlong => hlong.1.length
  · intro hlen
    refine ⟨⟨by simp [hfit.ne_nil], ?_, hlen⟩, fun c hc => ?_⟩
    · rw [List.head?_append_of_ne_nil _ hfit.ne_nil]
      exact hfit.head
    · rcases List.mem_append.mp hc with hc | hc
      · exact hchars c hc
      · obtain rfl := (List.mem_replicate.mp hc).2
        decide

namespace Nicks

variable {N : Nicks} {base nick : Str}

def taken (N : Nicks) (nick : Str) : Bool := (N.getNick nick).isSome

/-- A name of the right length is left over. -/
def Room (N : Nicks) (base : Str) : Prop :=
  ∃ n, base.length + n ≤ nickMaxLength ∧ N.getNick (base ++ List.replicate n '_') = none

/-- What the loops over the nicks are for. -/
structure Chosen (N : Nicks) (base nick : Str) : Prop where
  ends : Fresh.Ends N.taken '_' base nick
  valid : isValidNickname nick = true
  free : ∀ k n, (k, n) ∈ N.users.entries → strlower k ≠ strlower nick

theorem freeNickname_ends (N : Nicks) (base : Str) :
    Fresh.Ends N.taken '_' base (N.freeNickname base) :=
  Fresh.freshLoop_ends (by
    have h := freeNickname_free N base
    rw [freeNickname] at h
    exact Option.isSome_eq_false_iff.mpr (Option.isNone_iff_eq_none.mpr h))

theorem freeNickname_valid_iff (N : Nicks) (hbase : isValidNickname base = true) :
    isValidNickname (N.freeNickname base) = true ↔ N.Room base := by
  have hends := N.freeNickname_ends base
  obtain ⟨n, hn⟩ := hends.suffix
  rw [hn, valid_underscores_iff hbase, ← hn, hends.length_le_iff]
  simp [Room, taken]

theorem freeNickname_chosen_iff (N : Nicks) (hbase : isValidNickname base = true) :
    N.Chosen base (N.freeNickname base) ↔ N.Room base := by
  rw [← N.freeNickname_valid_iff hbase]
  constructor
  · exact fun h => h.valid
  · exact fun h => ⟨N.freeNickname_ends base, h, getNick_eq_none.mp (freeNickname_free N base)⟩

end Nicks

/-- For whom a nickname is made up, and by which call. -/
inductive Contact
  /-- `Buddy::update_node`. -/
  | buddy (b : BuddyRef)
  /-- `ConversationChannel::addBuddy`. -/
  | chatBuddy (c : ChanRef) (cb : CBuddyRef)
  /-- `Conversation::recvMessage` in a conversation with one that is no buddy. -/
  | unknownBuddy (v : ConvRef) (sender text : Str) (action : Bool)
  /-- `Conversation::recvMessage` in a chat that the sender does not take part in. -/
  | stranger (c : ChanRef) (sender : Str)

namespace World

variable {P : Purple} {w w' : World} {nick : Str} {b : BuddyRef} {c : ChanRef} {cb : CBuddyRef}
  {v : ConvRef} {n : NickRef}

/-- The name of the nick made on the way from `w` to `w'`. -/
def madeNick (w w' : World) : Option Str :=
  if w'.nicks.next = w.nicks.next then none else some (w'.nicks.nickname w.nicks.next)

/-- Under what `recvMessage` shows the lines in a chat. -/
def chatSender (P : Purple) (w : World) (c : ChanRef) (sender : Str) : StoredEntity :=
  match w.chanUserNamed P c sender with
  | some cu => w.nicks.entity (w.chans.cuNick cu)
  | none => .name (w.nicks.freeNickname (nickize (P.translit sender) sender))

theorem recvChat_eq (P : Purple) (w : World) (c : ChanRef) (sender text : Str) (action : Bool) :
    w.recvChat P c sender text action =
      (stringtokLoop ['\n', '\r'] (text.length + 1) text).foldl (fun w' line =>
        let line := if action then str "\x01ACTION " ++ line ++ ['\x01'] else line
        w'.tellChan c ⟨str "PRIVMSG", w.chatSender P c sender, w'.chans.chanEntity c, [line]⟩) w :=
  rfl

/-- The nickname that the call comes up with, if it needs one. -/
def givenNick (P : Purple) (w : World) : Contact → Option Str
  | .buddy b => w.madeNick (w.updateNode P b)
  | .chatBuddy c cb => (w.addBuddy P c cb).bind w.madeNick
  | .unknownBuddy v sender text action => (w.recvMessage P v sender text action).bind w.madeNick
  | .stranger c sender =>
    match w.chatSender P c sender with
    | .name nick => some nick
    | _ => none

/-- The name or alias that goes into `nickize`. -/
def imName (P : Purple) (w : World) : Contact → Str
  | .buddy b =>
    let nickalias := w.getAlias P b
    if nickalias.contains '@' || nickalias.contains ' ' then (stringtok (P.buddyName b) ['@']).1
    else nickalias
  | .chatBuddy _ cb =>
    if (P.cbName cb).contains '@' then (stringtok (P.cbName cb) ['@']).1 else P.cbName cb
  | .unknownBuddy v _ _ _ =>
    let name := w.convs.name v
    if name.contains '@' || name.contains ' ' then (stringtok name ['@']).1 else name
  | .stranger _ sender => sender

/-- What the loop starts with. -/
def nickized (P : Purple) (w : World) (x : Contact) : Str :=
  nickize (P.translit (w.imName P x)) (w.imName P x)

theorem nickized_valid (P : Purple) (w : World) (x : Contact) :
    isValidNickname (w.nickized P x) = true := nickize_valid _ _

section Made

theorem madeNick_same (h : w'.nicks = w.nicks) : w.madeNick w' = none :=
  if_pos (congrArg Nicks.next h)

theorem madeNick_added {kind : NickKind} {s : ServerRef} {ident host : Str}
    (h : w'.nicks = w.nicks.added kind s nick ident host b cb) : w.madeNick w' = some nick := by
  unfold madeNick
  rw [h]
  simp [Nicks.added, Nicks.addNick, Nicks.newNick]

theorem newBuddy_nicks (P : Purple) (w : World) (b : BuddyRef) (s : ServerRef) :
    ∃ ident host, (w.newBuddy P b s).nicks = w.nicks.added .buddy s
      (w.nicks.freeNickname (w.nickized P (.buddy b))) ident host b 0 := by
  have hname := apply_ite (fun n => nickize (P.translit n) n)
    ((w.getAlias P b).contains '@' || (w.getAlias P b).contains ' ')
    (stringtok (P.buddyName b) ['@']).1 (w.getAlias P b)
  rw [show w.nickized P (.buddy b) = _ from hname]
  exact ⟨_, _, rfl⟩

theorem updateNode_made (h : w.madeNick (w.updateNode P b) = some nick) :
    nick = w.nicks.freeNickname (w.nickized P (.buddy b)) := by
  have hfinish : ∀ (w : World) (n : NickRef), ((if w.getAlias P b = w.nicks.nickname n then w
      else w.setAlias P b (w.nicks.nickname n)).updated P b).nicks = w.nicks := by
    intro w n
    rw [(updated_nicks P _ b).1]
    split
    · rfl
    · rw [setAlias, (updated_nicks P _ b).1]
      rfl
  unfold updateNode at h
  dsimp only at h
  split at h
  · rw [madeNick_same (hfinish w _)] at h
    cases h
  · split at h
    · rw [madeNick_same rfl] at h
      cases h
    · next s _ =>
      obtain ⟨ident, host, hnew⟩ := newBuddy_nicks P w b s
      rw [madeNick_added ((hfinish _ _).trans hnew)] at h
      exact (Option.some.inj h).symm

theorem newChatBuddy_nicks (h : w.newChatBuddy P c cb = some w') :
    ∃ s ident host, w'.nicks = w.nicks.added .chatBuddy s
      (w.nicks.freeNickname (w.nickized P (.chatBuddy c cb))) ident host 0 cb := by
  unfold newChatBuddy at h
  dsimp only at h
  obtain ⟨s, -, rfl⟩ := Option.map_eq_some_iff.mp h
  exact ⟨s, _, _, rfl⟩

theorem addBuddy_made (h : (w.addBuddy P c cb).bind w.madeNick = some nick) :
    nick = w.nicks.freeNickname (w.nickized P (.chatBuddy c cb)) := by
  obtain ⟨w', hadd, hmade⟩ := Option.bind_eq_some_iff.mp h
  unfold addBuddy at hadd
  dsimp only at hadd
  split at hadd
  · obtain ⟨cu, -, rfl⟩ := Option.map_eq_some_iff.mp hadd
    rw [madeNick_same (by rfl)] at hmade
    cases hmade
  · split at hadd
    · obtain rfl := Option.some.inj hadd
      rw [madeNick_same (by rfl)] at hmade
      cases hmade
    · obtain ⟨w₁, hnew, hjoin⟩ := Option.bind_eq_some_iff.mp hadd
      obtain ⟨cu, -, rfl⟩ := Option.map_eq_some_iff.mp hjoin
      obtain ⟨s, ident, host, hnicks⟩ := newChatBuddy_nicks hnew
      rw [madeNick_added (by exact hnicks)] at hmade
      exact (Option.some.inj hmade).symm

theorem newUnknown_nicks (h : w.newUnknown P v = some w') (sender text : Str) (action : Bool) :
    ∃ s ident host, w'.nicks = w.nicks.added .unknownBuddy s
      (w.nicks.freeNickname (w.nickized P (.unknownBuddy v sender text action))) ident host 0 0 := by
  unfold newUnknown at h
  dsimp only at h
  obtain ⟨s, -, rfl⟩ := Option.map_eq_some_iff.mp h
  have hname := apply_ite (fun n => nickize (P.translit n) n)
    ((w.convs.name v).contains '@' || (w.convs.name v).contains ' ')
    (stringtok (w.convs.name v) ['@']).1 (w.convs.name v)
  rw [show w.nickized P (.unknownBuddy v sender text action) = _ from hname]
  exact ⟨s, _, _, rfl⟩

theorem removeNick_next (w : World) (k : Str) : (w.removeNick k).nicks.next = w.nicks.next := by
  unfold removeNick
  split <;> rfl

theorem pairUp_next (w : World) (n : NickRef) (v : ConvRef) :
    (w.pairUp n v).nicks.next = w.nicks.next := by
  have hset : (w.setNick v (some n)).nicks.next = w.nicks.next := by
    unfold setNick
    dsimp only
    split
    · rfl
    · split
      · rfl
      · split
        · exact removeNick_next _ _
        · rfl
  exact hset

/-- The nick may be found for a conversation at once. -/
theorem madeNick_pairUp (w w' : World) (n : NickRef) (v : ConvRef) :
    w.madeNick (w'.pairUp n v) = w.madeNick w' := by
  unfold madeNick
  rw [pairUp_next, (pairUp_names w' n v).1]

theorem showLines_nicks (w : World) (n : NickRef) (v : ConvRef) (text : Str) (action : Bool) :
    (w.showLines n v text action).nicks = w.nicks := by
  unfold showLines
  generalize stringtokLoop ['\n', '\r'] (text.length + 1) text = lines
  induction lines generalizing w with
  | nil => rfl
  | cons line lines ih =>
    rw [List.foldl_cons, ih]
    rfl

theorem recvChat_nicks (P : Purple) (w : World) (c : ChanRef) (sender text : Str) (action : Bool) :
    (w.recvChat P c sender text action).nicks = w.nicks := by
  rw [recvChat_eq]
  generalize w.chatSender P c sender = who
  generalize stringtokLoop ['\n', '\r'] (text.length + 1) text = lines
  induction lines generalizing w with
  | nil => rfl
  | cons line lines ih =>
    rw [List.foldl_cons, ih]
    rfl

theorem recvNick_made {sender : Str} {r : World × Option NickRef} (h : w.recvNick P v sender = some r)
    (hmade : w.madeNick r.1 = some nick) (text : Str) (action : Bool) :
    nick = w.nicks.freeNickname (w.nickized P (.unknownBuddy v sender text action)) := by
  have hold : w.madeNick w = none := madeNick_same rfl
  unfold recvNick at h
  split at h
  · obtain rfl := Option.some.inj h
    rw [hold] at hmade
    cases hmade
  split at h
  · obtain rfl := Option.some.inj h
    rw [madeNick_pairUp, hold] at hmade
    cases hmade
  split at h
  · obtain rfl := Option.some.inj h
    rw [madeNick_pairUp, hold] at hmade
    cases hmade
  split at h
  · obtain rfl := Option.some.inj h
    rw [hold] at hmade
    cases hmade
  · obtain ⟨w₁, hnew, rfl⟩ := Option.map_eq_some_iff.mp h
    obtain ⟨s, ident, host, hnicks⟩ := newUnknown_nicks hnew sender text action
    rw [madeNick_pairUp, madeNick_added hnicks] at hmade
    exact (Option.some.inj hmade).symm

theorem recvMessage_made {sender text : Str} {action : Bool}
    (h : (w.recvMessage P v sender text action).bind w.madeNick = some nick) :
    nick = w.nicks.freeNickname (w.nickized P (.unknownBuddy v sender text action)) := by
  obtain ⟨w', hrecv, hmade⟩ := Option.bind_eq_some_iff.mp h
  have hold : w.madeNick w = none := madeNick_same rfl
  unfold recvMessage at hrecv
  split at hrecv
  · obtain rfl := Option.some.inj hrecv
    split at hmade
    · rw [madeNick_same (recvChat_nicks P w _ _ _ _)] at hmade
      cases hmade
    · rw [hold] at hmade
      cases hmade
  · obtain ⟨r, hr, rfl⟩ := Option.map_eq_some_iff.mp hrecv
    refine recvNick_made hr ?_ text action
    split at hmade
    · unfold madeNick at hmade ⊢
      rwa [showLines_nicks] at hmade
    · exact hmade

theorem chatSender_made {sender : Str} (h : w.givenNick P (.stranger c sender) = some nick) :
    nick = w.nicks.freeNickname (w.nickized P (.stranger c sender)) := by
  unfold givenNick chatSender at h
  dsimp only at h
  cases hcu : w.chanUserNamed P c sender with
  | some cu =>
    rw [hcu] at h
    cases h
  | none =>
    rw [hcu] at h
    exact (Option.some.inj h).symm

/-- The same loop, every time. -/
theorem givenNick_eq {x : Contact} (h : w.givenNick P x = some nick) :
    nick = w.nicks.freeNickname (w.nickized P x) := by
  cases x with
  | buddy b => exact updateNode_made h
  | chatBuddy c cb => exact addBuddy_made h
  | unknownBuddy v sender text action => exact recvMessage_made h
  | stranger c sender => exact chatSender_made h

end Made

/-- The nickname that a contact is given is legal and free exactly when one that is short enough is
left over. -/
theorem givenNick_chosen_iff (P : Purple) (w : World) (x : Contact) {nick : Str}
    (h : w.givenNick P x = some nick) :
    w.nicks.Chosen (w.nickized P x) nick ↔ w.nicks.Room (w.nickized P x) := by
  obtain rfl := givenNick_eq h
  exact w.nicks.freeNickname_chosen_iff (nickized_valid P w x)

section Runs

/-- Two contacts that have one name. -/
def namesakes (name : Str) : Purple where
  buddyAccount _ := 0
  buddyName _ := name
  cbAccount _ := 0
  cbName _ := name
  cbRealName _ := name
  translit _ := none

def oneBuddy : List Op := [.startUp [], .welcome, .connected 0, .updateNode 0]

theorem givenNick_chosen_bob :
    let P := namesakes (str "bob")
    let w := initial.runAll P oneBuddy
    w.givenNick P (.buddy 1) = some (str "bob_") ∧
      w.nicks.Chosen (w.nickized P (.buddy 1)) (str "bob_") := by
  have h : (initial.runAll (namesakes (str "bob")) oneBuddy).givenNick (namesakes (str "bob"))
      (.buddy 1) = some (str "bob_") := by decide +kernel
  exact ⟨h, (givenNick_chosen_iff _ _ _ h).mpr ⟨1, by decide +kernel, by decide +kernel⟩⟩

/-- A name of 29 characters that is taken gets one more. -/
theorem namesake_too_long : ¬ ∀ (P : Purple) (ops : List Op) (x : Contact) (nick : Str),
    (initial.runAll P ops).givenNick P x = some nick →
      (initial.runAll P ops).nicks.Chosen ((initial.runAll P ops).nickized P x) nick := by
  intro h
  have hlong := h (namesakes (str "wolfeschlegelsteinhausenberge")) oneBuddy (.buddy 1)
    (str "wolfeschlegelsteinhausenberge_") (by decide +kernel)
  have hvalid := hlong.valid
  revert hvalid
  decide

end Runs

end World
end Minbif
