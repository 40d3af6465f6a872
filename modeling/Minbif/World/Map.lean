import Minbif.Im.Accounts
import Minbif.World.Step

/-! The accounts of a session: the MAP command, and what libpurple calls back about accounts and their
buddies. -/
namespace Minbif
open Function

/-- What the presence of a buddy is. -/
inductive Presence
  | offline
  | away
  | available
deriving DecidableEq, Repr

structure IM where
  accounts : Accounts
  world : World := World.initial
  presence : BuddyRef → Presence := fun _ => .offline
  /-- The errors the User was told. -/
  errors : List Str := []

namespace IM

variable (P : Purple)

/-- What libpurple answers from now on. -/
def sync (s : IM) : IM :=
  { s with world := { s.world with data := { s.world.data with
      accountId := s.accounts.id
      username := s.accounts.username
      statusChannel := s.accounts.channel
      online := fun b => s.accounts.connected (P.buddyAccount b) && s.presence b ≠ .offline
      available := fun b => s.presence b = .available } } }

def setAccounts (s : IM) (A : Accounts) : IM := sync P { s with accounts := A }

def error (s : IM) (reason : Str) : IM := { s with errors := s.errors ++ [str "Error: " ++ reason] }

/-- `Channel::isChanName` and `Channel::isStatusChannel`. -/
def isStatusName (name : Str) : Bool := name.head? = some '&' && !name.contains ' '

/-- `Account::setStatusChannelName`. -/
def setStatusChannelName (s : IM) (a : AccountRef) (name : Str) : IM :=
  let s := { s with world := s.world.leaveStatusChannel a }
  let s := s.setAccounts P { s.accounts with channel := update s.accounts.channel a name }
  { s with world := s.world.createStatusChannel P a }

/-- One option of `Account::setOptions`; the first result is the reason of an `OptionError`. -/
def setOption (s : IM) (a : AccountRef) (e : Str × ProtocolOption) : Option Str × IM :=
  match e.2.type with
  | .accid =>
    let r := s.accounts.setAccid a e.2.value
    (r.1, s.setAccounts P r.2)
  | .statusChannel =>
    if s.accounts.channel a = e.2.value then (none, s)
    else if !isStatusName e.2.value then
      (some (str "'" ++ e.2.value ++ str "' is not a valid channel name"), s)
    else (none, s.setStatusChannelName P a e.2.value)
  | _ => (none, { s with accounts := s.accounts.setOther a e.1 e.2 })

def setOptionsLoop (a : AccountRef) : List (Str × ProtocolOption) → IM → Option Str × IM
  | [], s => (none, s)
  | e :: l, s =>
    match s.setOption P a e with
    | (some reason, s) => (some reason, s)
    | (none, s) => setOptionsLoop a l s

/-- `Account::setOptions`. -/
def setOptions (s : IM) (a : AccountRef) (options : Options) : Option Str × IM :=
  setOptionsLoop P a options.entries s

/-- `Purple::addAccount`, until the account is enabled. -/
def addAccount (s : IM) (proto : Protocol) (username : Str) (options : Options)
    (found : Option AccountRef) : IM :=
  let r := s.accounts.newAccount username proto.purpleId found
  match (s.setAccounts P r.2).setOptions P r.1 options with
  | (some reason, s) => (s.setAccounts P (s.accounts.destroy r.1)).error reason
  | (none, s) => s.setAccounts P (s.accounts.add r.1)

/-- The loop of `m_map_registeradd` over the words after the protocol; `decode` is
`purple_url_decode`. -/
def readWords (decode : Str → Str) : List Str → Str → Options → Except Str (Str × Options)
  | [], username, options => .ok (username, options)
  | s :: args, username, options =>
    if username.isEmpty then readWords decode args (decode s) options
    else if s.head? = some '-' then
      let off := s.tail.head? = some '!'
      let name := s.drop (if off then 2 else 1)
      match options.find? name with
      | none => .error (str "Option '" ++ s ++ str "' does not exist")
      | some o =>
        if o.type = .bool ∨ o.type = .serverAliases then
          readWords decode args username
            (options.insert name { o with value := if off then str "false" else str "true" })
        else
          match args with
          | [] => .error (str "Option '" ++ s ++ str "' needs a value")
          | value :: args => readWords decode args username (options.insert name { o with value := value })
    else
      let password := (options.find? (str "password")).getD {}
      if password.value.isEmpty then
        readWords decode args username (options.insert (str "password") { password with value := s })
      else
        let channel := (options.find? (str "status_channel")).getD {}
        readWords decode args username (options.insert (str "status_channel") { channel with value := s })

/-- What MAP add is asked to add. -/
def readAdd (s : IM) (decode : Str → Str) : List Str → Except Str (Protocol × Str × Options)
  | [] => .error (str "Usage: /MAP add PROTO USERNAME [OPTIONS]")
  | protoname :: args =>
    match s.accounts.getProtocolsList.find? protoname with
    | none => .error (str "Protocol " ++ protoname ++ str " is unknown. Try '/STATS p' to list protocols.")
    | some proto =>
      if args.isEmpty then .error (str "Usage: /MAP add " ++ proto.getID ++ str " USERNAME")
      else (readWords decode args [] proto.getOptions).map fun r => (proto, r.1, r.2)

/-- The account `purple_account_new` finds is one that exists. -/
def existing (s : IM) (proto : Protocol) (found : Option AccountRef) : Option AccountRef :=
  found.filter fun a => s.accounts.all.contains a && s.accounts.alive a &&
    s.accounts.protocolId a = proto.purpleId

/-- `m_map_add`. -/
def mapAdd (s : IM) (decode : Str → Str) (args : List Str) (found : Option AccountRef) : IM :=
  match s.readAdd decode args with
  | .error reason => s.error reason
  | .ok (proto, username, options) => s.addAccount P proto username options (s.existing proto found)

/-- The words of a value, with the spaces between them. -/
def joinWords (args : List Str) : Str :=
  args.foldl (fun value s => if value.isEmpty then s else value ++ ' ' :: s) []

/-- What MAP edit is asked to change, once the account is known. -/
def readEdit (A : Accounts) (a : AccountRef) (key : Str) (value : Str) : Except Str Options :=
  let options := A.getOptions a
  match options.find? key with
  | none => .error (str "Key " ++ key ++ str " does not exist.")
  | some o =>
    if o.type = .bool ∧ value ≠ str "true" ∧ value ≠ str "false" then
      .error (str "Option '" ++ key ++ str "' is a boolean ('true' or 'false')")
    else .ok (options.insert key { o with value := value })

/-- `m_map_edit` with a value. -/
def mapEdit (s : IM) (account key : Str) (value : List Str) : IM :=
  let r := s.accounts.getAccount account
  let s := s.setAccounts P r.2
  match r.1 with
  | none => s.error (str "Account " ++ account ++ str " is unknown")
  | some a =>
    match readEdit s.accounts a key (joinWords value) with
    | .error reason => s.error reason
    | .ok options =>
      match s.setOptions P a options with
      | (some reason, s) => s.error reason
      | (none, s) => s

/-- The connection of an account ends: `Account::disconnected`. -/
def disconnect (s : IM) (a : AccountRef) (left : List ConvRef) : IM :=
  if !s.accounts.connected a then s
  else
    let s := s.setAccounts P { s.accounts with connected := update s.accounts.connected a false }
    let w := s.world.leaveChats a left
    { s with world := w.removeServer (w.data.servername a) }

/-- `purple_blist_remove_buddy`. -/
def removeBuddy (s : IM) (b : BuddyRef) : IM :=
  let a := P.buddyAccount b
  let D := s.world.data
  let w := { s.world with data := { D with buddies := update D.buddies a ((D.buddies a).erase b) } }
  { s with world := w.removedNode b }

/-- `purple_accounts_delete`; `account_removed` leaves the status channel. -/
def deleteAccount (s : IM) (a : AccountRef) (left : List ConvRef) : IM :=
  let s := s.disconnect P a left
  let s := s.setAccounts P (s.accounts.remove a)
  let s := { s with world := s.world.leaveStatusChannel a }
  let s := (s.world.data.buddies a).foldl (fun s b => s.removeBuddy P b) s
  s.setAccounts P (s.accounts.destroy a)

/-- `m_map_delete`. -/
def mapDelete (s : IM) (account : Str) (left : List ConvRef) : IM :=
  let r := s.accounts.getAccount account
  let s := s.setAccounts P r.2
  match r.1 with
  | none => s.error (str "Account " ++ account ++ str " is unknown")
  | some a => s.deleteAccount P a left

/-- `Account::connected`. -/
def connect (s : IM) (a : AccountRef) : IM :=
  if !s.accounts.all.contains a || !s.accounts.alive a || s.accounts.connected a then s
  else
    let s := s.setAccounts P { s.accounts with connected := update s.accounts.connected a true }
    { s with world := s.world.connected a }

/-- The presence of a buddy changes, and libpurple calls `update_node`. -/
def setPresence (s : IM) (b : BuddyRef) (p : Presence) : IM :=
  if !(s.world.data.buddies (P.buddyAccount b)).contains b then s
  else
    let s := sync P { s with presence := update s.presence b p }
    { s with world := s.world.updateNode P b }

/-- `Account::updatedAllBuddies`. -/
def updatedAllBuddies (w : World) (a : AccountRef) : World :=
  (w.data.buddies a).foldl (fun w b => w.updated P b) w

/-- `IM::setVoicedBuddies`. -/
def setVoicedBuddies (s : IM) (enabled : Bool) : IM :=
  if s.world.data.voicedBuddies = enabled then s
  else
    let r := s.accounts.getAccountsList
    let s := s.setAccounts P r.2
    let w := { s.world with data := { s.world.data with voicedBuddies := enabled } }
    { s with world := r.1.values.foldl (updatedAllBuddies P) w }

inductive Event
  /-- With the account that `purple_account_new` finds. -/
  | add (args : List Str) (found : Option AccountRef)
  | edit (account key : Str) (value : List Str)
  | delete (account : Str) (left : List ConvRef)
  | connected (a : AccountRef)
  | disconnected (a : AccountRef) (left : List ConvRef)
  | presence (b : BuddyRef) (p : Presence)
  | buddyRemoved (b : BuddyRef)
  | voicedBuddies (enabled : Bool)

/-- The state after an event. -/
def after (decode : Str → Str) (s : IM) : Event → IM
  | .add args found => s.mapAdd P decode args found
  | .edit account key value => s.mapEdit P account key value
  | .delete account left => s.mapDelete P account left
  | .connected a => s.connect P a
  | .disconnected a left => s.disconnect P a left
  | .presence b p => s.setPresence P b p
  | .buddyRemoved b =>
    if (s.world.data.buddies (P.buddyAccount b)).contains b then s.removeBuddy P b else s
  | .voicedBuddies enabled => s.setVoicedBuddies P enabled

/-- No account that is listed was destroyed. -/
def intact (s : IM) : Bool := s.accounts.all.all s.accounts.alive

/-- `none` is the memory of a destroyed account, which whatever lists the accounts reads. -/
def step (decode : Str → Str) (s : IM) (e : Event) : Option IM :=
  if s.intact then some (s.after P decode e) else none

/-- A session whose User has just registered: `Account::init` made the status channels. -/
def start (A : Accounts) (D : PurpleData) : IM :=
  let r := A.getAccountsList
  let s := sync P { accounts := r.2, world := { World.initial with data := D } }
  { s with world := { s.world.startUp P r.1.values with registered := true } }

end IM
end Minbif
