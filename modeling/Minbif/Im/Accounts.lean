import Mathlib.Logic.Function.Basic
import Minbif.Core.Util
import Minbif.Irc.Nick
import Minbif.Lib.OrdMap

/-! The protocols, the accounts libpurple keeps, and the IDs the accounts have. -/
namespace Minbif
open Function

/-- An option that a protocol plugin declares: its `PurplePrefType`, with the default. -/
inductive Pref
  | boolean (value : Bool)
  | string (value : Option Str)
  | stringList (value : Option Str) (choices : List Str)
  | int (value : Int)
  | other

/-- `Protocol::Option::type_t`. -/
inductive OptionType
  | none
  | str
  | strList
  | bool
  | int
  | accid
  | serverAliases
  | password
  | statusChannel
deriving DecidableEq, Repr

/-- `Protocol::Option`, without the name it is found under. -/
structure ProtocolOption where
  type : OptionType := .none
  value : Str := []
  choices : List Str := []

/-- `s2t<int>` of digits. -/
def s2t (s : Str) : Nat := Nat.ofDigitChars 10 (s.takeWhile Char.isDigit) 0

namespace ProtocolOption

def getValueInt (o : ProtocolOption) : Int :=
  if o.value.head? = some '-' then -s2t o.value.tail else s2t o.value

def getValueBool (o : ProtocolOption) : Bool := o.value = str "true" || o.value = str "1"

end ProtocolOption

/-- `Protocol::Options`. -/
abbrev Options := OrdMap Str ProtocolOption

/-- A `PurplePlugin*`. -/
structure Protocol where
  purpleId : Str
  settings : List (Str × Pref) := []

namespace Protocol

def getID (p : Protocol) : Str :=
  if (str "prpl-").isPrefixOf p.purpleId then p.purpleId.drop 5 else p.purpleId

/-- The loop over `protocol_options`. -/
def addSetting (options : Options) (e : Str × Pref) : Options :=
  match e.2 with
  | .boolean value => options.insert e.1 { type := .bool, value := if value then str "true" else str "false" }
  | .string value => options.insert e.1 { type := .str, value := p2s value }
  | .stringList value choices => options.insert e.1 { type := .strList, value := p2s value, choices := choices }
  | .int value => options.insert e.1 { type := .int, value := t2s value }
  | .other => options

def getOptions (p : Protocol) : Options :=
  let options := p.settings.foldl addSetting .empty
  let options := options.insert (str "accid") { type := .accid }
  let options := options.insert (str "status_channel") { type := .statusChannel, value := str "&minbif" }
  let options := options.insert (str "password") { type := .password }
  options.insert (str "server_aliases") { type := .serverAliases, value := str "true" }

end Protocol

/-- What libpurple keeps for an account that no ID, channel or list depends on. -/
structure Settings where
  password : AccountRef → Str := fun _ => []
  rememberPassword : AccountRef → Bool := fun _ => false
  serverAliases : AccountRef → Bool := fun _ => true
  values : AccountRef → Str → Option Str := fun _ _ => none

structure Accounts where
  /-- `purple_plugins_get_protocols`. -/
  protocols : List Protocol
  /-- `purple_accounts_get_all`. -/
  all : List AccountRef := []
  next : AccountRef := 0
  /-- Not destroyed. -/
  alive : AccountRef → Bool := fun _ => false
  protocolId : AccountRef → Str := fun _ => []
  username : AccountRef → Str := fun _ => []
  id : AccountRef → Str := fun _ => []
  channel : AccountRef → Str := fun _ => []
  connected : AccountRef → Bool := fun _ => false
  settings : Settings := {}

/-- The ID of a protocol, and the number after it unless it is 0. -/
def numbered (id : Str) (i : Nat) : Str := id ++ if i = 0 then [] else t2s i

/-- The loop of `getNewAccountName`, one pass over the list at a time: it starts over when an account
has the name. -/
def newNameLoop (taken : Str → Bool) (id : Str) : Nat → Nat → Str
  | 0, i => numbered id i
  | fuel + 1, i =>
    if taken (numbered id i) then
      newNameLoop taken id fuel (if i = 0 then 1 else s2t ((numbered id i).drop id.length) + 1)
    else numbered id i

namespace Accounts

/-- `getProtocolsList`. -/
def getProtocolsList (A : Accounts) : OrdMap Str Protocol :=
  A.protocols.foldl (fun m p => m.insert p.getID p) .empty

def getProtocolByPurpleID (A : Accounts) (id : Str) : Option Protocol :=
  A.protocols.find? fun p => p.purpleId = id

/-- The protocol of an account; `none` is one that is not valid. -/
def protocol (A : Accounts) (a : AccountRef) : Option Protocol :=
  A.getProtocolByPurpleID (A.protocolId a)

/-- Whether another account of the protocol has the ID. -/
def named (A : Accounts) (proto : Protocol) (butone : AccountRef) (id : Str) : Bool :=
  A.all.any fun a => a ≠ butone && (A.protocol a).any (fun p => p.purpleId = proto.purpleId) && A.id a = id

def getNewAccountName (A : Accounts) (proto : Protocol) (butone : AccountRef) : Str :=
  newNameLoop (A.named proto butone) proto.getID (A.all.length + 1) 0

def setID (A : Accounts) (a : AccountRef) (id : Str) : Accounts := { A with id := update A.id a id }

/-- `getID`, which gives an ID to an account without one; its protocol asserts its plugin. -/
def getID (A : Accounts) (a : AccountRef) : Str × Accounts :=
  if (A.id a).isEmpty then
    match A.protocol a with
    | none => ([], A)
    | some p => (A.getNewAccountName p a, A.setID a (A.getNewAccountName p a))
  else (A.id a, A)

/-- One account of `getAccountsList`. -/
def listAccount (r : OrdMap Str AccountRef × Accounts) (a : AccountRef) :
    OrdMap Str AccountRef × Accounts :=
  if (r.2.protocol a).isNone then r
  else (r.1.insert (r.2.getID a).1 a, (r.2.getID a).2)

def getAccountsList (A : Accounts) : OrdMap Str AccountRef × Accounts :=
  A.all.foldl listAccount (.empty, A)

def getServername (A : Accounts) (a : AccountRef) : Str := A.username a ++ ':' :: A.id a

/-- `IM::getAccount`. -/
def getAccount (A : Accounts) (name : Str) : Option AccountRef × Accounts :=
  let r := A.getAccountsList
  (r.1.values.find? fun a => r.2.getServername a = name || r.2.id a = name, r.2)

/-- `purple_account_new`, which returns the account of that name and protocol that exists. -/
def newAccount (A : Accounts) (username protocolId : Str) (found : Option AccountRef) :
    AccountRef × Accounts :=
  match found with
  | some a => (a, A)
  | none => (A.next, { A with
      next := A.next + 1
      alive := update A.alive A.next true
      protocolId := update A.protocolId A.next protocolId
      username := update A.username A.next username
      id := update A.id A.next []
      channel := update A.channel A.next []
      connected := update A.connected A.next false })

/-- `purple_accounts_add`. -/
def add (A : Accounts) (a : AccountRef) : Accounts :=
  if A.all.contains a then A else { A with all := A.all ++ [a] }

/-- `purple_account_destroy`, which takes nothing off a list. -/
def destroy (A : Accounts) (a : AccountRef) : Accounts := { A with alive := update A.alive a false }

/-- `purple_accounts_remove`. -/
def remove (A : Accounts) (a : AccountRef) : Accounts := { A with all := A.all.erase a }

/-- `purple_account_set_string`, and as numbers and booleans are read back from it. -/
def setSetting (A : Accounts) (a : AccountRef) (name value : Str) : Accounts :=
  { A with settings := { A.settings with
      values := update A.settings.values a (update (A.settings.values a) name (some value)) } }

/-- The cases of `setOptions` that never throw. -/
def setOther (A : Accounts) (a : AccountRef) (name : Str) (option : ProtocolOption) : Accounts :=
  match option.type with
  | .str | .strList => A.setSetting a name option.value
  | .int => A.setSetting a name (t2s option.getValueInt)
  | .bool => A.setSetting a name (if option.getValueBool then str "true" else str "false")
  | .password =>
    if option.value = A.settings.password a then A
    else if option.value.isEmpty then
      { A with settings := { A.settings with
          rememberPassword := update A.settings.rememberPassword a false } }
    else
      { A with settings := { A.settings with
          password := update A.settings.password a option.value
          rememberPassword := update A.settings.rememberPassword a true } }
  | .serverAliases =>
    { A with settings := { A.settings with
        serverAliases := update A.settings.serverAliases a option.getValueBool } }
  | .none | .accid | .statusChannel => A

/-- The ACCID case of `setOptions`; the first result is the reason of an `OptionError`. -/
def setAccid (A : Accounts) (a : AccountRef) (value : Str) : Option Str × Accounts :=
  let r := A.getID a
  let A := r.2
  if r.1 = value then (none, A)
  else if A.connected a then (some (str "Can't change ID of a connected account"), A)
  else if value.isEmpty then
    match A.protocol a with
    | none => (none, A)
    | some p => (none, A.setID a (A.getNewAccountName p a))
  else
    let r := A.getAccount value
    if r.1.isSome then (some (str "This ID is already used."), r.2)
    else (none, r.2.setID a value)

/-- One option of `Account::getOptions`. -/
def fillOption (A : Accounts) (a : AccountRef) (options : Options) (e : Str × ProtocolOption) : Options :=
  let value : Str := match e.2.type with
    | .str | .strList | .int | .bool => (A.settings.values a e.1).getD e.2.value
    | .accid => A.id a
    | .statusChannel => A.channel a
    | .password => A.settings.password a
    | .serverAliases => if A.settings.serverAliases a then str "true" else str "false"
    | .none => e.2.value
  options.insert e.1 { e.2 with value := value }

def getOptions (A : Accounts) (a : AccountRef) : Options :=
  ((A.protocol a).map fun p => p.getOptions.entries.foldl (A.fillOption a) .empty).getD .empty

end Accounts
end Minbif
