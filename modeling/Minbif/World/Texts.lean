import Minbif.World.References

/-! The texts of contacts, chats and rooms that the client is shown, and the lines they make. -/
namespace Minbif
open Message

/-- A text without an end of line. -/
def Inline (s : Str) : Prop := '\r' ∉ s ∧ '\n' ∉ s

instance : DecidablePred Inline := fun _ => inferInstanceAs (Decidable (_ ∧ _))

/-- The only end of line is the last. -/
def OneLine (s : Str) : Prop := ∃ body, s = body ++ ['\r', '\n'] ∧ Inline body

section Inline

variable {a b : Str} {c : Char} {m : Message}

@[simp] theorem inline_nil : Inline [] := by simp [Inline]

@[simp] theorem inline_cons : Inline (c :: a) ↔ (c ≠ '\r' ∧ c ≠ '\n') ∧ Inline a := by
  simp only [Inline, List.mem_cons, not_or, ne_comm, ne_eq]
  tauto

@[simp] theorem inline_append : Inline (a ++ b) ↔ Inline a ∧ Inline b := by
  simp only [Inline, List.mem_append, not_or]
  tauto

@[simp] theorem inline_flatMap {α : Type} {f : α → Str} {l : List α} :
    Inline (l.flatMap f) ↔ ∀ x ∈ l, Inline (f x) := by
  induction l with
  | nil => simp
  | cons x l ih => simp [ih]

theorem oneLine_append : OneLine (a ++ ['\r', '\n']) ↔ Inline a := by
  constructor
  · rintro ⟨body, he, h⟩
    rwa [List.append_cancel_right he]
  · intro h
    exact ⟨a, rfl, h⟩

theorem inline_formatArg : Inline (formatArg a) ↔ Inline a := by
  unfold formatArg
  split <;> simp

theorem inline_sender (e : StoredEntity) :
    Inline (if e.isSet then ':' :: (e.getLongName ++ [' ']) else []) ↔ Inline e.getLongName := by
  cases e with
  | unset => simp [StoredEntity.isSet, StoredEntity.getLongName]
  | entity n l => simp [StoredEntity.isSet, StoredEntity.getLongName]
  | name n => cases n <;> simp [StoredEntity.isSet, StoredEntity.getLongName]

theorem inline_receiver (e : StoredEntity) :
    Inline (if e.isSet then ' ' :: e.getName else []) ↔ Inline e.getName := by
  cases e with
  | unset => simp [StoredEntity.isSet, StoredEntity.getName]
  | entity n l => simp [StoredEntity.isSet, StoredEntity.getName]
  | name n => cases n <;> simp [StoredEntity.isSet, StoredEntity.getName]

/-- `Message::format` lets every part of the message through as it is. -/
theorem format_oneLine : OneLine m.format ↔ Inline m.sender.getLongName ∧ Inline m.cmd ∧
    Inline m.receiver.getName ∧ ∀ a ∈ m.args, Inline a := by
  unfold Message.format
  rw [oneLine_append]
  simp only [inline_append, inline_sender, inline_receiver, inline_flatMap, inline_formatArg]
  tauto

end Inline

/-- A field of a room, by its type. -/
inductive RoomField
  | bool (b : Bool)
  | int (n : Nat)
  | string (s : Str)

def RoomField.text : RoomField → Str
  | bool b => if b then str "True" else str "False"
  | int n => Nat.toDigits 10 n
  | string s => s

/-- What only replies show of libpurple, and the fields `away` and `realname` of `Nick`. -/
structure Texts where
  chanTopic : ConvRef → Str := fun _ => []
  buddyStatus : BuddyRef → Str := fun _ => []
  buddyRealName : BuddyRef → Str := fun _ => []
  groupName : BuddyRef → Str := fun _ => []
  serverInfo : ServerRef → Str := fun _ => []
  away : NickRef → Str := fun _ => []
  realname : NickRef → Str := fun _ => []

/-- What shows the client a text of the other side. -/
inductive Showing
  /-- The end of `Channel::addUser`, for the User. -/
  | join (c : ChanRef)
  /-- `m_topic` without a text. -/
  | topic (c : ChanRef)
  | setTopic (c : ChanRef) (who : StoredEntity) (topic : Str)
  | part (n : NickRef) (c : ChanRef) (reason : Str)
  /-- The answer of `m_privmsg` to a message for an absent nick. -/
  | away (n : NickRef)
  | whois (n : NickRef)
  | who (channame : Str) (n : NickRef) (status : Bool)
  /-- `RoomList::set_fields`, with the labels that are not hidden. -/
  | setFields (labels : List Str)
  /-- `RoomList::add_room`, with the fields that are not hidden. -/
  | addRoom (a : AccountRef) (name : Str) (fields : List RoomField)

namespace World

variable (P : Purple) (X : Texts) (w : World)

/-- The virtual `getTopic`. -/
def getTopic (c : ChanRef) : Str :=
  match w.chans.conv c with
  | some v => X.chanTopic v
  | none => w.chans.topic c

/-- The virtual `isAway`. -/
def isAway (n : NickRef) : Bool :=
  match w.nicks.kind n with
  | .buddy => !w.data.online (w.nicks.buddy n) || !w.data.available (w.nicks.buddy n)
  | .chatBuddy | .unknownBuddy => false
  | _ => !(X.away n).isEmpty

/-- The virtual `getAwayMessage`. -/
def getAwayMessage (n : NickRef) : Str :=
  match w.nicks.kind n with
  | .buddy =>
    if w.data.online (w.nicks.buddy n) then X.buddyStatus (w.nicks.buddy n)
    else str "User is offline"
  | .chatBuddy | .unknownBuddy => []
  | _ => X.away n

/-- The virtual `getStatusMessage`. -/
def getStatusMessage (n : NickRef) (away : Bool) : Str :=
  match w.nicks.kind n with
  | .buddy => if !away && w.isAway X n then [] else X.buddyStatus (w.nicks.buddy n)
  | _ => []

/-- The virtual `getRealName`; that of an `UnknownBuddy` asserts a conversation. -/
def getRealName (n : NickRef) : Option Str :=
  match w.nicks.kind n with
  | .buddy => some (X.buddyRealName (w.nicks.buddy n) ++ str " [Group: " ++
      X.groupName (w.nicks.buddy n) ++ [']'])
  | .chatBuddy => some (P.cbName (w.nicks.cbuddy n))
  | .unknownBuddy => (w.convs.conversation n).map w.convs.name
  | _ => some (X.realname n)

/-- A numeric reply to the User. -/
def reply (cmd : Str) (args : List Str) : Message :=
  ⟨cmd, w.nicks.ircEntity, w.nicks.entity userRef, args⟩

/-- The `RPL_AWAY` of `m_privmsg` and `m_whois`. -/
def awayReply (n : NickRef) : List Message :=
  if w.isAway X n then [w.reply (str "301") [w.nicks.nickname n, w.getAwayMessage X n]] else []

/-- The names of the channels of a nick, with a space between two. -/
def channelNames (n : NickRef) : Str :=
  [' '].intercalate ((w.chans.channels n).map fun cu => w.chans.name (w.chans.cuChan cu))

/-- `m_whois` up to the flags and the icon. -/
def whois (n : NickRef) : Option (List Message) :=
  (w.getRealName P X n).map fun realname =>
    [w.reply (str "311") [w.nicks.nickname n, w.nicks.identname n, w.nicks.hostname n, ['*'],
      realname]] ++
    (if (w.channelNames n).isEmpty then []
      else [w.reply (str "319") [w.nicks.nickname n, w.channelNames n]]) ++
    [w.reply (str "312") [w.nicks.nickname n, w.nicks.serverName (w.nicks.server n),
      X.serverInfo (w.nicks.server n)]] ++
    w.awayReply X n ++
    (if (w.getStatusMessage X n false).isEmpty then []
      else [w.reply (str "320") [w.nicks.nickname n, w.getStatusMessage X n false]])

/-- One `RPL_WHOREPLY` of `m_who`. -/
def who (channame : Str) (n : NickRef) (status : Bool) : Option (List Message) :=
  (w.getRealName P X n).map fun realname =>
    [w.reply (str "352") [channame, w.nicks.identname n, w.nicks.hostname n,
      w.nicks.serverName (w.nicks.server n), w.nicks.nickname n,
      if w.isAway X n then ['G'] else ['H'],
      str "0 " ++ if status then w.getStatusMessage X n true else realname]]

/-- What the operation sends the client; `none` is an assertion that fails. -/
def messages : Showing → Option (List Message)
  | .join c => some (if (w.getTopic X c).isEmpty then []
      else [w.reply (str "332") [w.chans.name c, w.getTopic X c]])
  | .topic c => some (if (w.getTopic X c).isEmpty then
        [w.reply (str "331") [w.chans.name c, str "No topic set."]]
      else [w.reply (str "332") [w.chans.name c, w.getTopic X c]])
  | .setTopic c who topic =>
    let newTopic := topic.takeWhile (· ≠ '\n')
    some (if w.chans.topic c = newTopic then [] else [w.topicMessage c who newTopic])
  | .part n c reason => some [w.partMessage n c reason]
  | .away n => some (w.awayReply X n)
  | .whois n => w.whois P X n
  | .who channame n status => w.who P X channame n status
  | .setFields labels =>
    some [w.reply (str "321") [str "Channel", labels.flatMap fun l => l ++ [' ']]]
  | .addRoom a name fields =>
    some [w.reply (str "322") [w.normalizeIRCName a name,
      fields.flatMap fun f => f.text ++ [' ']]]

/-- `Channel::setTopic` broadcasts just this message. -/
theorem setTopic_tells {c : ChanRef} {who : StoredEntity} {topic : Str} {m : Message}
    (h : w.messages P X (.setTopic c who topic) = some [m]) : w.setTopic c who topic =
      tellChan { w with chans := { w.chans with
        topic := Function.update w.chans.topic c (topic.takeWhile (· ≠ '\n')) } } c m := by
  unfold setTopic
  simp only [messages, Option.some.injEq] at h
  split at h
  · cases h
  · next hne =>
    obtain rfl := List.singleton_injective h
    exact if_neg hne

/-- `Nick::part` sends just this message. -/
theorem part_tells {n : NickRef} {c : ChanRef} {reason : Str} {m : Message} {cu : ChanUserRef}
    (hcu : w.chans.getChanUser n c = some cu)
    (h : w.messages P X (.part n c reason) = some [m]) : w.part n c reason =
      delUser { w with chans := (w.chans.dropChanUser n cu).send n (.msg m) } c n m := by
  obtain rfl := List.singleton_injective (Option.some.inj h)
  unfold part
  rw [hcu]

/-- The names at the head of every reply. -/
def Headed : Prop := Inline (w.nicks.serverName ircRef) ∧ Inline (w.nicks.nickname userRef)

/-- The names and the texts that the operation puts on its lines have no end of line. -/
def Showable : Showing → Prop
  | .join c => w.getTopic X c = [] ∨
      w.Headed ∧ Inline (w.chans.name c) ∧ Inline (w.getTopic X c)
  | .topic c => w.Headed ∧ Inline (w.chans.name c) ∧ Inline (w.getTopic X c)
  | .setTopic c who topic => w.chans.topic c = topic.takeWhile (· ≠ '\n') ∨
      Inline who.getLongName ∧ Inline (w.chans.name c) ∧ '\r' ∉ topic.takeWhile (· ≠ '\n')
  | .part n c reason => Inline (w.nicks.longName n) ∧ Inline (w.chans.name c) ∧ Inline reason
  | .away n => w.isAway X n = true →
      w.Headed ∧ Inline (w.nicks.nickname n) ∧ Inline (w.getAwayMessage X n)
  | .whois n => ∀ realname ∈ w.getRealName P X n,
      w.Headed ∧ Inline (w.nicks.longName n) ∧ Inline realname ∧
      (∀ cu ∈ w.chans.channels n, Inline (w.chans.name (w.chans.cuChan cu))) ∧
      Inline (w.nicks.serverName (w.nicks.server n)) ∧ Inline (X.serverInfo (w.nicks.server n)) ∧
      (w.isAway X n = true → Inline (w.getAwayMessage X n)) ∧
      Inline (w.getStatusMessage X n false)
  | .who channame n status => ∀ realname ∈ w.getRealName P X n,
      w.Headed ∧ Inline channame ∧ Inline (w.nicks.longName n) ∧
      Inline (w.nicks.serverName (w.nicks.server n)) ∧
      if status then Inline (w.getStatusMessage X n true) else Inline realname
  | .setFields labels => w.Headed ∧ ∀ l ∈ labels, Inline l
  | .addRoom a name fields => w.Headed ∧ Inline name ∧ Inline (w.data.accountId a) ∧
      ∀ s, .string s ∈ fields → Inline s

variable {P : Purple} {X : Texts} {w : World} {cmd t : Str} {args : List Str} {n : NickRef}

theorem reply_oneLine (hcmd : Inline cmd) :
    OneLine (w.reply cmd args).format ↔ w.Headed ∧ ∀ a ∈ args, Inline a := by
  rw [format_oneLine]
  change Inline (w.nicks.serverName ircRef) ∧ Inline cmd ∧ Inline (w.nicks.nickname userRef) ∧ _ ↔ _
  simp only [hcmd, Headed, true_and, and_assoc]
  rfl

theorem longName_inline : Inline (w.nicks.longName n) ↔ Inline (w.nicks.nickname n) ∧
    Inline (w.nicks.identname n) ∧ Inline (w.nicks.hostname n) := by
  simp [Nicks.longName]

theorem toDigits_inline (k : Nat) : Inline (Nat.toDigits 10 k) := by
  have hdigit : ∀ c, c ∈ Nat.toDigits 10 k → c.isDigit = true := fun c hc =>
    Nat.isDigit_of_mem_toDigits (by decide) (by decide) hc
  exact ⟨fun h => Bool.false_ne_true (hdigit _ h), fun h => Bool.false_ne_true (hdigit _ h)⟩

theorem intercalate_inline (l : List Str) :
    Inline ([' '].intercalate l) ↔ ∀ a ∈ l, Inline a := by
  induction l with
  | nil => simp [List.intercalate]
  | cons a l ih =>
    cases l with
    | nil => simp [List.intercalate]
    | cons b l =>
      rw [List.forall_mem_cons, ← ih]
      simp [List.intercalate, List.intersperse]

theorem channelNames_inline : Inline (w.channelNames n) ↔
    ∀ cu ∈ w.chans.channels n, Inline (w.chans.name (w.chans.cuChan cu)) := by
  rw [channelNames, intercalate_inline, List.forall_mem_map]

theorem normalizeIRCName_inline (a : AccountRef) (name : Str) :
    Inline (w.normalizeIRCName a name) ↔ Inline name ∧ Inline (w.data.accountId a) := by
  have hmap : Inline (name.map fun c => if c = ' ' then '_' else c) ↔ Inline name := by
    induction name with
    | nil => simp
    | cons c name ih =>
      rw [List.map_cons, inline_cons, inline_cons, ih]
      by_cases hc : c = ' ' <;> simp [hc]
  simp [normalizeIRCName, hmap]

theorem room_inline (fields : List RoomField) :
    Inline (fields.flatMap fun f => f.text ++ [' ']) ↔ ∀ s, .string s ∈ fields → Inline s := by
  rw [inline_flatMap]
  constructor
  · intro h s hs
    exact (inline_append.mp (h _ hs)).1
  · intro h f hf
    rw [inline_append]
    refine ⟨?_, by simp⟩
    cases f with
    | bool b => cases b <;> decide
    | int k => exact toDigits_inline k
    | string s => exact h s hf

/-- A text before its first line feed. -/
theorem takeWhile_inline : Inline (t.takeWhile (· ≠ '\n')) ↔ '\r' ∉ t.takeWhile (· ≠ '\n') := by
  refine and_iff_left fun h => ?_
  simpa using List.mem_takeWhile_imp h

theorem awayReply_oneLine : (∀ m ∈ w.awayReply X n, OneLine m.format) ↔ (w.isAway X n = true →
    w.Headed ∧ Inline (w.nicks.nickname n) ∧ Inline (w.getAwayMessage X n)) := by
  unfold awayReply
  split
  · next h => simp [reply_oneLine (show Inline (str "301") by decide), h]
  · next h => simp [h]

/-- A reply that is only sent with a text. -/
theorem optional_oneLine (hcmd : Inline cmd) (hw : w.Headed) (ha : ∀ a ∈ args, Inline a) :
    (∀ m ∈ if t.isEmpty then [] else [w.reply cmd (args ++ [t])], OneLine m.format) ↔ Inline t := by
  cases t with
  | nil => simp
  | cons c t =>
    simp only [List.isEmpty_cons, Bool.false_eq_true, if_false, List.forall_mem_singleton,
      reply_oneLine hcmd, List.forall_mem_append, hw, true_and]
    exact and_iff_right ha

theorem whois_oneLine : (∀ l ∈ w.whois P X n, ∀ m ∈ l, OneLine m.format) ↔
    w.Showable P X (.whois n) := by
  unfold whois
  cases hreal : w.getRealName P X n with
  | none => simp [Showable, hreal]
  | some realname =>
    simp only [Option.map_some, Option.mem_def, Option.some.injEq, forall_eq', Showable, hreal,
      List.forall_mem_append, List.forall_mem_singleton, awayReply_oneLine,
      reply_oneLine (show Inline (str "311") by decide),
      reply_oneLine (show Inline (str "312") by decide), List.forall_mem_cons]
    rw [longName_inline, ← channelNames_inline]
    have hstar : Inline ['*'] := by decide
    by_cases hw : w.Headed
    · by_cases hn : Inline (w.nicks.nickname n)
      · have hargs : ∀ a ∈ [w.nicks.nickname n], Inline a := by simpa using hn
        have hchans := optional_oneLine (t := w.channelNames n)
          (show Inline (str "319") by decide) hw hargs
        have hstatus := optional_oneLine (t := w.getStatusMessage X n false)
          (show Inline (str "320") by decide) hw hargs
        rw [List.singleton_append] at hchans hstatus
        simp only [hchans, hstatus, hw, hn, hstar, true_and]
        tauto
      · simp [hn]
    · simp [hw]

theorem who_oneLine {channame : Str} {status : Bool} :
    (∀ l ∈ w.who P X channame n status, ∀ m ∈ l, OneLine m.format) ↔
      w.Showable P X (.who channame n status) := by
  unfold who
  cases hreal : w.getRealName P X n with
  | none => simp [Showable, hreal]
  | some realname =>
    have hflag : Inline (if w.isAway X n then ['G'] else ['H']) := by
      split <;> decide
    have hzero : Inline (str "0 ") := by decide
    simp only [Option.map_some, Option.mem_def, Option.some.injEq, forall_eq', Showable, hreal,
      List.forall_mem_singleton, reply_oneLine (show Inline (str "352") by decide),
      List.forall_mem_cons, inline_append, hflag, hzero, longName_inline]
    cases status <;> simp <;> tauto

/-- What the other side says comes as one line if and only if it has no end of line in it. -/
theorem messages_oneLine_iff (P : Purple) (X : Texts) (w : World) (sh : Showing) :
    (∀ l ∈ w.messages P X sh, ∀ m ∈ l, OneLine m.format) ↔ w.Showable P X sh := by
  cases sh with
  | join c =>
    by_cases ht : w.getTopic X c = []
    · simp [messages, Showable, ht]
    · simp [messages, Showable, ht, reply_oneLine (show Inline (str "332") by decide)]
  | topic c =>
    by_cases ht : w.getTopic X c = []
    · have hno : Inline (str "No topic set.") := by decide
      simp [messages, Showable, ht, reply_oneLine (show Inline (str "331") by decide), hno]
    · simp [messages, Showable, ht, reply_oneLine (show Inline (str "332") by decide)]
  | setTopic c who topic =>
    by_cases ht : w.chans.topic c = topic.takeWhile (· ≠ '\n')
    · simp only [messages, Showable, ht, if_true, true_or, iff_true]
      simp
    · have hcmd : Inline (str "TOPIC") := by decide
      simp only [messages, ht, if_false, Showable, false_or, Option.mem_def, Option.some.injEq,
        forall_eq', List.forall_mem_singleton, format_oneLine]
      rw [← takeWhile_inline]
      simp [topicMessage, Chans.chanEntity, StoredEntity.getName, hcmd]
  | part n c reason =>
    have hcmd : Inline (str "PART") := by decide
    simp [messages, Showable, format_oneLine, partMessage, Nicks.entity, Chans.chanEntity,
      StoredEntity.getName, StoredEntity.getLongName, hcmd]
  | away n =>
    simp only [messages, Showable, Option.mem_def, Option.some.injEq, forall_eq',
      awayReply_oneLine]
  | whois n => exact whois_oneLine
  | who channame n status => exact who_oneLine
  | setFields labels =>
    have hfield : Inline (str "Channel") := by decide
    simp [messages, Showable, reply_oneLine (show Inline (str "321") by decide), hfield]
  | addRoom a name fields =>
    simp only [messages, Showable, Option.mem_def, Option.some.injEq, forall_eq',
      List.forall_mem_singleton, reply_oneLine (show Inline (str "322") by decide),
      List.forall_mem_cons, normalizeIRCName_inline, room_inline, and_assoc]

/-- A contact sets the topic of a chat to two lines. -/
theorem messages_not_oneLine : ¬ ∀ (P : Purple) (X : Texts) (w : World) (sh : Showing),
    ∀ l ∈ w.messages P X sh, ∀ m ∈ l, OneLine m.format := by
  intro h
  let w := initial.runAll twoBobs (bobOnline ++ [.newChat 0 (str "lounge")])
  have hline := h twoBobs { chanTopic := fun _ => str "hi\nQUIT" } w (.join 0) _ rfl _
    (List.mem_singleton.mpr rfl)
  have htext := (format_oneLine.mp hline).2.2.2 (str "hi\nQUIT")
  revert htext
  decide

end World
end Minbif
