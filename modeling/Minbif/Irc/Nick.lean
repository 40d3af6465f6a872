import Mathlib.Data.List.Lex
import Mathlib.Logic.Function.Basic
import Minbif.Irc.Message
import Minbif.Lib.Fresh
import Minbif.Lib.OrdMap

/-! Nicks, servers and the nick table of `IRC`. -/
namespace Minbif
open Function

abbrev NickRef := Nat
abbrev ServerRef := Nat
abbrev AccountRef := Nat
/-- A `PurpleBuddy*`. -/
abbrev BuddyRef := Nat
/-- A `PurpleConvChatBuddy*`. -/
abbrev CBuddyRef := Nat

def nickLcChars : Str := str "0123456789abcdefghijklmnopqrstuvwxyz\x7b\x7d^`-_|"
def nickUcChars : Str := str "0123456789ABCDEFGHIJKLMNOPQRSTUVWXYZ[]~`-_\\"
def nickMaxLength : Nat := 29

def isNickChar (c : Char) : Bool := nickLcChars.contains c || nickUcChars.contains c

/-- `Nick::isValidNickname` of a name without NUL, as what is read from a socket has none. -/
def isValidNickname (nick : Str) : Bool :=
  !(nick.isEmpty || nick.head?.any Char.isDigit || nickMaxLength < nick.length) &&
    nick.all isNickChar

/-- `Nick::nickize`, given what the transliteration of `n` returned. -/
def nickize (translit : Option Str) (n : Str) : Str :=
  -- the loop ends at the first NUL
  let chars := (translit.getD n).takeWhile (· ≠ '\x00')
  let nick := (chars.map fun c => if c = ' ' then '_' else c).filter isNickChar
  let nick := if nick.head?.any Char.isDigit then '_' :: nick else nick
  let nick := nick.take nickMaxLength
  if nick.isEmpty then str "Invalid" else nick

inductive NickKind
  | user
  | requestNick
  | buddyIcon
  | buddy
  | chatBuddy
  | unknownBuddy
deriving DecidableEq, Repr

/-- The subclasses of `ConvNick`. -/
def NickKind.isConvNick : NickKind → Bool
  | .buddy | .chatBuddy | .unknownBuddy => true
  | _ => false

/-- `IRC::user`. -/
def userRef : NickRef := 0

/-- The `IRC` object as a server. -/
def ircRef : ServerRef := 0

/-- The nick objects, `IRC::users` and `IRC::servers`. -/
structure Nicks where
  next : NickRef := 1
  alive : NickRef → Bool := (· == userRef)
  kind : NickRef → NickKind := fun _ => .user
  nickname : NickRef → Str := fun _ => str "*"
  identname : NickRef → Str := fun _ => []
  hostname : NickRef → Str := fun _ => []
  server : NickRef → ServerRef := fun _ => ircRef
  buddy : NickRef → BuddyRef := fun _ => 0
  cbuddy : NickRef → CBuddyRef := fun _ => 0
  users : OrdMap Str NickRef := .empty
  /-- `ui_data` of the buddies. -/
  buddyNick : BuddyRef → Option NickRef := fun _ => none
  nextServer : ServerRef := 1
  serverAlive : ServerRef → Bool := (· == ircRef)
  serverName : ServerRef → Str := fun _ => str "localhost.localdomain"
  /-- The account of a `RemoteServer`. -/
  account : ServerRef → Option AccountRef := fun _ => none
  serverUsers : ServerRef → List NickRef := fun _ => []
  servers : OrdMap Str ServerRef := .empty
  /-- How often `addNick` found its key taken and logged `W_DESYNCH`. -/
  desynch : Nat := 0

namespace Nicks

/-- `nick!ident@host`. -/
def longName (N : Nicks) (n : NickRef) : Str :=
  N.nickname n ++ '!' :: N.identname n ++ '@' :: N.hostname n

def entity (N : Nicks) (n : NickRef) : StoredEntity := .entity (N.nickname n) (N.longName n)

def ircEntity (N : Nicks) : StoredEntity := .entity (N.serverName ircRef) (N.serverName ircRef)

def addNick (N : Nicks) (n : NickRef) : Nicks :=
  { N with
    desynch := if (N.users.find? (N.nickname n)).isSome then N.desynch + 1 else N.desynch
    users := N.users.insert (N.nickname n) n
    serverUsers := update N.serverUsers (N.server n) (N.serverUsers (N.server n) ++ [n]) }

def setNickname (N : Nicks) (n : NickRef) (newnick : Str) : Nicks :=
  { N with nickname := update N.nickname n newnick }

def renameNick (N : Nicks) (n : NickRef) (newnick : Str) : Nicks :=
  ({ N with users := N.users.erase (N.nickname n) }.setNickname n newnick).addNick n

/-- `IRC::getNick(nickname)`, which ignores the case. -/
def getNick (N : Nicks) (nickname : Str) : Option NickRef :=
  (N.users.entries.find? fun e => strlower e.1 = strlower nickname).map Prod.snd

/-- `IRC::getNick(im::Buddy)`. -/
def getNickOfBuddy (N : Nicks) (b : BuddyRef) : Option NickRef :=
  N.users.values.find? fun n => N.kind n = .buddy ∧ N.buddy n = b

/-- `while(irc->getNick(nick)) nick += "_"`. -/
def freeNickname (N : Nicks) (nick : Str) : Str :=
  Fresh.freshLoop (fun s => (N.getNick s).isSome) '_' (N.users.entries.length + 1) nick

/-- The constructors of `Nick`: spaces leave the ident and the host. -/
def newNick (N : Nicks) (kind : NickKind) (server : ServerRef) (nickname identname hostname : Str)
    (buddy : BuddyRef) (cbuddy : CBuddyRef) : Nicks :=
  { N with
    next := N.next + 1
    alive := update N.alive N.next true
    kind := update N.kind N.next kind
    nickname := update N.nickname N.next nickname
    identname := update N.identname N.next (identname.map fun c => if c = ' ' then '_' else c)
    hostname := update N.hostname N.next (hostname.map fun c => if c = ' ' then '.' else c)
    server := update N.server N.next server
    buddy := update N.buddy N.next buddy
    cbuddy := update N.cbuddy N.next cbuddy
    buddyNick := if kind = .buddy then update N.buddyNick buddy (some N.next) else N.buddyNick }

/-- What the destructors of a nick do outside channels and conversations. -/
def freeNick (N : Nicks) (n : NickRef) : Nicks :=
  { N with
    alive := update N.alive n false
    buddyNick := if N.kind n = .buddy then update N.buddyNick (N.buddy n) none else N.buddyNick }

/-- `Server::removeNick` of the server of the nick. -/
def serverUsersWithout (N : Nicks) (n : NickRef) : ServerRef → List NickRef :=
  update N.serverUsers (N.server n) ((N.serverUsers (N.server n)).erase n)

/-- What `IRC::removeNick` does besides deleting the nick it finds. -/
def dropUser (N : Nicks) (nickname : Str) (n : NickRef) : Nicks :=
  { N with users := N.users.erase nickname, serverUsers := N.serverUsersWithout n }

def addServer (N : Nicks) (name : Str) (account : AccountRef) : Nicks :=
  { N with
    nextServer := N.nextServer + 1
    serverAlive := update N.serverAlive N.nextServer true
    serverName := update N.serverName N.nextServer name
    account := update N.account N.nextServer (some account)
    serverUsers := update N.serverUsers N.nextServer []
    servers := N.servers.insert name N.nextServer }

/-- What `IRC::removeServer` does after it has deleted the nicks of the server. -/
def dropServer (N : Nicks) (name : Str) (s : ServerRef) : Nicks :=
  { N with serverAlive := update N.serverAlive s false, servers := N.servers.erase name }

end Nicks
end Minbif
