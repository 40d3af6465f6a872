import Minbif.Irc.Nick

/-! Channels, their members, and the messages the User is sent. -/
namespace Minbif
open Function

abbrev ChanRef := Nat
abbrev ChanUserRef := Nat
/-- A `PurpleConversation*`. -/
abbrev ConvRef := Nat

/-- A status of `ChanUser`, a C++ `int`. -/
abbrev Status := BitVec 32

def statusVoice : Status := 1
def statusHalfop : Status := 2
def statusOp : Status := 4
def statusFounder : Status := 8

/-- `ChanUser::m2c`: mode, letter and prefix. -/
def m2c : List (Status × Char × Char) :=
  [(statusFounder, 'q', '~'), (statusOp, 'o', '@'), (statusHalfop, 'h', '%'),
    (statusVoice, 'v', '+')]

/-- The entries of `m2c` that a status contains. -/
def modesOf (status : Status) : List (Status × Char × Char) := m2c.filter fun e => e.1 &&& status ≠ 0

def modeLetters (status : Status) : List Char := (modesOf status).map fun e => e.2.1

def getPrefix (status : Status) : Str := (modesOf status).map fun e => e.2.2

/-- What the User is sent; a NAMES reply is kept as its list of prefixes and nicknames. -/
inductive Sent
  | msg (m : Message)
  | names (chan : Str) (entries : List (Str × Str))
deriving DecidableEq

/-- The channel objects, `Nick::channels` of every nick, and the output of `User::send`. -/
structure Chans where
  next : ChanRef := 0
  alive : ChanRef → Bool := fun _ => false
  name : ChanRef → Str := fun _ => []
  /-- The conversation of a `ConversationChannel`; a `StatusChannel` has none. -/
  conv : ChanRef → Option ConvRef := fun _ => none
  upserver : ChanRef → Option ServerRef := fun _ => none
  topic : ChanRef → Str := fun _ => []
  accounts : ChanRef → List AccountRef := fun _ => []
  users : ChanRef → List ChanUserRef := fun _ => []
  cbuddies : ChanRef → OrdMap CBuddyRef ChanUserRef := fun _ => .empty
  /-- `Nick::channels`. -/
  channels : NickRef → List ChanUserRef := fun _ => []
  nextCu : ChanUserRef := 0
  cuAlive : ChanUserRef → Bool := fun _ => false
  cuNick : ChanUserRef → NickRef := fun _ => userRef
  cuChan : ChanUserRef → ChanRef := fun _ => 0
  cuStatus : ChanUserRef → Status := fun _ => 0
  /-- `IRC::channels`. -/
  table : OrdMap Str ChanRef := .empty
  sent : List Sent := []

namespace Chans

variable (N : Nicks)

def chanEntity (C : Chans) (c : ChanRef) : StoredEntity := .entity (C.name c) (C.name c)

/-- `Nick::send`: outside private messages only `User::send` does anything. -/
def send (C : Chans) (n : NickRef) (s : Sent) : Chans :=
  if n = userRef then { C with sent := C.sent ++ [s] } else C

def sendAll (C : Chans) (l : List NickRef) (s : Sent) : Chans := l.foldl (fun C n => C.send n s) C

def members (C : Chans) (c : ChanRef) : List NickRef := (C.users c).map C.cuNick

/-- `Nick::getChanUser`. -/
def getChanUser (C : Chans) (n : NickRef) (c : ChanRef) : Option ChanUserRef :=
  (C.channels n).find? fun cu => C.cuChan cu = c

/-- `ChanUser::getModeMessage`: each mode letter, with the nickname once for each. -/
def getModeMessage (C : Chans) (add : Bool) (modes : Status) (cu : ChanUserRef) : Message :=
  let modes := if modes = 0 then C.cuStatus cu else modes
  { cmd := str "MODE"
    args := ((if add then '+' else '-') :: modeLetters modes) ::
      (modeLetters modes).map fun _ => N.nickname (C.cuNick cu) }

/-- `Channel::broadcast`, the messages a conversation takes over apart. -/
def broadcast (C : Chans) (c : ChanRef) (m : Message) : Chans := C.sendAll (C.members c) (.msg m)

def setMode (C : Chans) (c : ChanRef) (modes : Status) (cu : ChanUserRef) : Chans :=
  if modes = 0 then C
  else
    let C := { C with cuStatus := update C.cuStatus cu (C.cuStatus cu ||| modes) }
    C.broadcast c { C.getModeMessage N true modes cu with
      sender := N.ircEntity, receiver := C.chanEntity c }

def delMode (C : Chans) (c : ChanRef) (modes : Status) (cu : ChanUserRef) : Chans :=
  if modes = 0 then C
  else
    let C := { C with cuStatus := update C.cuStatus cu (C.cuStatus cu &&& ~~~modes) }
    C.broadcast c { C.getModeMessage N false modes cu with
      sender := N.ircEntity, receiver := C.chanEntity c }

/-- `Channel::sendNames`. -/
def sendNames (C : Chans) (c : ChanRef) (n : NickRef) : Chans :=
  (C.send n (.names (C.name c)
      ((C.users c).map fun cu => (getPrefix (C.cuStatus cu), N.nickname (C.cuNick cu))))).send n
    (.msg { cmd := str "366", sender := N.ircEntity, receiver := N.entity n,
            args := [C.name c, str "End of /NAMES list"] })

/-- `new ChanUser(this, nick, status)` at the end of `Channel::users`. -/
def newChanUser (C : Chans) (c : ChanRef) (n : NickRef) (status : Status) : Chans :=
  { C with
    nextCu := C.nextCu + 1
    cuAlive := update C.cuAlive C.nextCu true
    cuNick := update C.cuNick C.nextCu n
    cuChan := update C.cuChan C.nextCu c
    cuStatus := update C.cuStatus C.nextCu status
    users := update C.users c (C.users c ++ [C.nextCu]) }

/-- What `Channel::addUser` sends to one member. -/
def announce (C : Chans) (c : ChanRef) (n : NickRef) (status : Status) (cu : ChanUserRef)
    (peer : NickRef) : Chans :=
  let C := C.send peer (.msg { cmd := str "JOIN", sender := N.entity n, receiver := C.chanEntity c })
  if status ≠ 0 ∧ peer ≠ n then
    C.send peer (.msg { C.getModeMessage N true 0 cu with
      sender := N.ircEntity, receiver := C.chanEntity c })
  else C

/-- `Channel::addUser`; the new `ChanUser` is the one `nextCu` named. -/
def addUser (C : Chans) (c : ChanRef) (n : NickRef) (status : Status) : Chans :=
  let cu := C.nextCu
  let C := C.newChanUser c n status
  let C := (C.members c).foldl (fun C peer => C.announce N c n status cu peer) C
  let C := if (C.topic c).isEmpty then C
    else C.send n (.msg { cmd := str "332", sender := N.ircEntity, receiver := N.entity n,
                          args := [C.name c, C.topic c] })
  C.sendNames N c n

/-- `Nick::join`. -/
def join (C : Chans) (n : NickRef) (c : ChanRef) (status : Status) : Chans :=
  match C.getChanUser n c with
  | some cu =>
    let last := C.cuStatus cu
    if last ≠ status then (C.delMode N c (last &&& ~~~status) cu).setMode N c (status &&& ~~~last) cu
    else C
  | none =>
    let cu := C.nextCu
    let C := C.addUser N c n status
    { C with channels := update C.channels n (C.channels n ++ [cu]) }

/-- `Channel::delUser` of the base class; without a message when it is empty. -/
def delUser (C : Chans) (c : ChanRef) (n : NickRef) (m : Option Message) : Chans :=
  let stay := (C.users c).filter fun cu => C.cuNick cu ≠ n
  let C := match m with
    | some m => C.sendAll (stay.map C.cuNick) (.msg m)
    | none => C
  { C with
    users := update C.users c stay
    cuAlive := fun cu => C.cuAlive cu && !((C.users c).contains cu && C.cuNick cu == n) }

/-- `cbuddies` without the first participant whose `ChanUser` belongs to the nick. -/
def withoutNick (C : Chans) (c : ChanRef) (n : NickRef) : OrdMap CBuddyRef ChanUserRef :=
  match (C.cbuddies c).entries.find? fun e => C.cuNick e.2 = n with
  | some e => (C.cbuddies c).erase e.1
  | none => C.cbuddies c

def eraseCBuddy (C : Chans) (c : ChanRef) (n : NickRef) : Chans :=
  { C with cbuddies := update C.cbuddies c (C.withoutNick c n) }

/-- `delUser` as a virtual call reaches it for a nick that is no `ChatBuddy` any more. -/
def delUserVirtual (C : Chans) (c : ChanRef) (n : NickRef) (m : Option Message) : Chans :=
  if (C.conv c).isSome then (C.eraseCBuddy c n).delUser c n m else C.delUser c n m

def removeChanUser (C : Chans) (n : NickRef) (cu : ChanUserRef) : Chans :=
  { C with channels := update C.channels n ((C.channels n).filter (· ≠ cu)) }

/-- `channels.erase(it)`. -/
def dropChanUser (C : Chans) (n : NickRef) (cu : ChanUserRef) : Chans :=
  { C with channels := update C.channels n ((C.channels n).erase cu) }

/-- One channel of `Nick::quit`: those not told yet are told. -/
def quitOne (n : NickRef) (m : Message) (st : Chans × List NickRef) (cu : ChanUserRef) :
    Chans × List NickRef :=
  let told := ((st.1.members (st.1.cuChan cu)).foldl
    (fun (st : Chans × List NickRef) peer =>
      if st.2.contains peer then st else (st.1.send peer (.msg m), st.2 ++ [peer])) st)
  (told.1.delUserVirtual (told.1.cuChan cu) n none, told.2)

/-- `Nick::quit`, of a nick that no channel deletes for it. -/
def quit (C : Chans) (n : NickRef) (text : Str) : Chans :=
  let m : Message := { cmd := str "QUIT", sender := N.entity n, args := [text] }
  let C := ((C.channels n).foldl (quitOne n m) (C, [])).1
  { C with channels := update C.channels n [] }

/-- `Channel::~Channel` for one member. -/
def expel (c : ChanRef) (C : Chans) (cu : ChanUserRef) : Chans :=
  let n := C.cuNick cu
  let C := C.send n (.msg { cmd := str "PART", sender := N.entity n, receiver := C.chanEntity c })
  let C := C.removeChanUser n cu
  { C with cuAlive := update C.cuAlive cu false }

/-- `Channel::~Channel`. -/
def deleteChan (C : Chans) (c : ChanRef) : Chans :=
  let C := (C.users c).foldl (expel N c) C
  { C with users := update C.users c [], alive := update C.alive c false }

def newChan (C : Chans) (name : Str) (conv : Option ConvRef) (upserver : Option ServerRef) : Chans :=
  { C with
    next := C.next + 1
    alive := update C.alive C.next true
    name := update C.name C.next name
    conv := update C.conv C.next conv
    upserver := update C.upserver C.next upserver
    topic := update C.topic C.next []
    accounts := update C.accounts C.next []
    users := update C.users C.next []
    cbuddies := update C.cbuddies C.next {} }

/-- `IRC::addChannel`. -/
def addChannel (C : Chans) (c : ChanRef) : Chans := { C with table := C.table.insert (C.name c) c }

def getChannel (C : Chans) (name : Str) : Option ChanRef := C.table.find? name

end Chans
end Minbif
