import Minbif.Im.Conversation

/-! The objects of a session, and the operations that reach several kinds of them. -/
namespace Minbif
open Function

/-- What libpurple never changes about its objects, and the transliteration of glib. -/
structure Purple where
  buddyAccount : BuddyRef → AccountRef
  buddyName : BuddyRef → Str
  cbAccount : CBuddyRef → AccountRef
  cbName : CBuddyRef → Str
  cbRealName : CBuddyRef → Str
  translit : Str → Option Str

/-- What libpurple and the preferences say at one moment. -/
structure PurpleData where
  accountId : AccountRef → Str := fun _ => []
  username : AccountRef → Str := fun _ => []
  statusChannel : AccountRef → Str := fun _ => []
  buddies : AccountRef → List BuddyRef := fun _ => []
  buddyAlias : BuddyRef → Str := fun _ => []
  online : BuddyRef → Bool := fun _ => false
  available : BuddyRef → Bool := fun _ => false
  cbMe : CBuddyRef → Bool := fun _ => false
  cbFlags : CBuddyRef → Status := fun _ => 0
  voicedBuddies : Bool := true
  acceptNoBuddies : Bool := true
  sendDelay : Nat := 300

/-- `Account::getServername`. -/
def PurpleData.servername (D : PurpleData) (a : AccountRef) : Str :=
  D.username a ++ ':' :: D.accountId a

/-- An entry of `IRC::dccs`: a `DCCGet` or a `DCCServer`. -/
structure Dcc where
  isGet : Bool
  peer : Option NickRef
  finished : Bool := false

/-- `setPeer(NULL)`, which ends a `DCCGet`. -/
def Dcc.leave (d : Dcc) : Dcc := { d with peer := none, finished := d.finished || d.isGet }

structure World where
  nicks : Nicks := {}
  chans : Chans := {}
  convs : Convs := {}
  dccs : List Dcc := []
  data : PurpleData := {}
  /-- `Purple::inited` has run. -/
  started : Bool := false
  /-- The REGISTERED flag of the User. -/
  registered : Bool := false

namespace World

/-- `IRC::getNick(im::Conversation)`. -/
def getNickOfConv (w : World) (c : ConvRef) : Option NickRef :=
  w.nicks.users.values.find? fun n =>
    (w.nicks.kind n).isConvNick ∧ w.convs.conversation n = some c

/-- `delete nick`. -/
def deleteNick (w : World) (n : NickRef) : World :=
  { w with
    convs := w.convs.forget n
    chans := w.chans.quit w.nicks n (str "*.net *.split")
    nicks := w.nicks.freeNick n }

/-- The loop of `IRC::removeNick` over the transfers. -/
def purgeDccs (w : World) (n : NickRef) : World :=
  { w with dccs := (w.dccs.filter fun d => !d.finished).map fun d =>
      if d.peer = some n then d.leave else d }

def removeNick (w : World) (nickname : Str) : World :=
  match w.nicks.users.find? nickname with
  | none => w
  | some n =>
    let w := (w.purgeDccs n).deleteNick n
    { w with nicks := w.nicks.dropUser nickname n }

/-- The loop of `IRC::removeServer`, which starts over after each nick it deletes. -/
def removeServerNicks (s : ServerRef) : Nat → World → World
  | 0, w => w
  | fuel + 1, w =>
    match w.nicks.users.entries.find? fun e => w.nicks.server e.2 = s with
    | none => w
    | some e =>
      let w := w.deleteNick e.2
      removeServerNicks s fuel
        { w with nicks := { w.nicks with users := w.nicks.users.erase e.1 } }

def removeServer (w : World) (servername : Str) : World :=
  match w.nicks.servers.find? servername with
  | none => w
  | some s =>
    let w := removeServerNicks s w.nicks.users.entries.length w
    { w with nicks := w.nicks.dropServer servername s }

/-- `Conversation::setNick`. -/
def setNick (w : World) (c : ConvRef) (n : Option NickRef) : World :=
  let last := w.convs.uiNick c
  let w := { w with convs := w.convs.setUiNick c n }
  match last with
  | none => w
  | some l =>
    if n = some l then w
    else if w.nicks.kind l = .unknownBuddy then w.removeNick (w.nicks.nickname l)
    else { w with convs := w.convs.setConversation (w.nicks.kind l) l none }

/-- `n->setConversation(c)`. -/
def setConversation (w : World) (n : NickRef) (c : Option ConvRef) : World :=
  { w with convs := w.convs.setConversation (w.nicks.kind n) n c }

/-- `ConversationChannel::~ConversationChannel` for one entry of `cbuddies`. -/
def releaseCBuddy (c : ChanRef) (w : World) (e : CBuddyRef × ChanUserRef) : World :=
  let n := w.chans.cuNick e.2
  if w.nicks.kind n = .chatBuddy then
    let w := { w with chans := (w.chans.delUser c n none).removeChanUser n e.2 }
    w.removeNick (w.nicks.nickname n)
  else w

/-- `delete chan`. -/
def deleteChannel (w : World) (c : ChanRef) : World :=
  let w := if (w.chans.conv c).isSome then
      (w.chans.cbuddies c).entries.foldl (releaseCBuddy c) w
    else w
  { w with chans := w.chans.deleteChan w.nicks c }

def removeChannel (w : World) (name : Str) : World :=
  match w.chans.table.find? name with
  | none => w
  | some c =>
    let w := w.deleteChannel c
    { w with chans := { w.chans with table := w.chans.table.erase name } }

/-- `Conversation::destroy` for a chat, from the signal of `purple_conversation_destroy`. -/
def destroyChat (w : World) (v : ConvRef) : World :=
  let w := match w.convs.uiChan v with
    | some c => w.removeChannel (w.chans.name c)
    | none => w
  { w with convs := { w.convs with
      uiChan := update w.convs.uiChan v none, alive := update w.convs.alive v false } }

/-- `Conversation::destroy` for an IM conversation, which libpurple frees after it. -/
def destroyIm (w : World) (v : ConvRef) : World :=
  let w := w.setNick v none
  let w := match w.getNickOfConv v with
    | some n => w.setConversation n none
    | none => w
  { w with convs := { w.convs with alive := update w.convs.alive v false } }

/-- The virtual `delUser`: a chat lets go of its participant, and ends when the User leaves. -/
def delUser (w : World) (c : ChanRef) (n : NickRef) (m : Message) : World :=
  let w := { w with chans := w.chans.delUserVirtual c n (some m) }
  match w.chans.conv c with
  | none => w
  | some v =>
    if w.nicks.kind n = .chatBuddy then w.removeNick (w.nicks.nickname n)
    else if n = userRef then w.destroyChat v
    else w

theorem delUser_none {w : World} {c : ChanRef} {n : NickRef} {m : Message}
    (h : (w.chans.delUserVirtual c n (some m)).conv c = none) :
    w.delUser c n m = { w with chans := w.chans.delUserVirtual c n (some m) } := by
  simp only [delUser, h]

theorem delUser_some {w : World} {c : ChanRef} {n : NickRef} {m : Message} {v : ConvRef}
    (h : (w.chans.delUserVirtual c n (some m)).conv c = some v) :
    w.delUser c n m =
      let w := { w with chans := w.chans.delUserVirtual c n (some m) }
      if w.nicks.kind n = .chatBuddy then w.removeNick (w.nicks.nickname n)
      else if n = userRef then w.destroyChat v
      else w := by
  simp only [delUser, h]

def partMessage (w : World) (n : NickRef) (c : ChanRef) (message : Str) : Message :=
  { cmd := str "PART", sender := w.nicks.entity n, receiver := w.chans.chanEntity c,
    args := [message] }

/-- `Nick::part`. -/
def part (w : World) (n : NickRef) (c : ChanRef) (message : Str) : World :=
  match w.chans.getChanUser n c with
  | none => w
  | some cu =>
    let m := w.partMessage n c message
    let w := { w with chans := (w.chans.dropChanUser n cu).send n (.msg m) }
    w.delUser c n m

/-- `Nick::kicked` for one `ChanUser`. -/
def kickedOff (n : NickRef) (c : ChanRef) (kicker : NickRef) (message : Str) (w : World)
    (cu : ChanUserRef) : World :=
  let w := { w with chans := w.chans.dropChanUser n cu }
  w.delUser c n { cmd := str "KICK", sender := w.nicks.entity kicker,
                  receiver := w.chans.chanEntity c, args := [w.nicks.nickname n, message] }

/-- `Nick::kicked`. -/
def kicked (w : World) (n : NickRef) (c : ChanRef) (kicker : NickRef) (message : Str) : World :=
  ((w.chans.channels n).filter fun cu => w.chans.cuChan cu = c).foldl
    (kickedOff n c kicker message) w

/-- `Nick::quit`, of a `Buddy`. -/
def quit (w : World) (n : NickRef) (text : Str) : World :=
  { w with chans := w.chans.quit w.nicks n text }

def join (w : World) (n : NickRef) (c : ChanRef) (status : Status) : World :=
  { w with chans := w.chans.join w.nicks n c status }

end World
end Minbif
