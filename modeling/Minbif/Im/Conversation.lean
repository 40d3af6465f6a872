import Minbif.Irc.Channel

/-! Conversations of libpurple and the nicks they are paired with. -/
namespace Minbif
open Function

/-- The conversation objects, and the conversation and queue of every `ConvNick`. -/
structure Convs where
  next : ConvRef := 0
  alive : ConvRef → Bool := fun _ => false
  account : ConvRef → AccountRef := fun _ => 0
  name : ConvRef → Str := fun _ => []
  isChat : ConvRef → Bool := fun _ => false
  /-- `ui_data` of an IM conversation. -/
  uiNick : ConvRef → Option NickRef := fun _ => none
  /-- `ui_data` of a chat. -/
  uiChan : ConvRef → Option ChanRef := fun _ => none
  conversation : NickRef → Option ConvRef := fun _ => none
  queue : NickRef → List Str := fun _ => []
  /-- Under which nick the lines received in which conversation were shown. -/
  shown : List (NickRef × ConvRef) := []
  /-- Into which conversation the texts typed to a nick went. -/
  replies : List (NickRef × ConvRef) := []

namespace Convs

def isIm (V : Convs) (c : ConvRef) : Prop := V.alive c = true ∧ V.isChat c = false

/-- `purple_conversation_new`, without the conversation it finds. -/
def newConv (V : Convs) (chat : Bool) (account : AccountRef) (name : Str) : Convs :=
  { V with
    next := V.next + 1
    alive := update V.alive V.next true
    account := update V.account V.next account
    name := update V.name V.next name
    isChat := update V.isChat V.next chat
    uiNick := update V.uiNick V.next none
    uiChan := update V.uiChan V.next none }

/-- The IM conversation that libpurple already has. -/
def findIm (V : Convs) (account : AccountRef) (name : Str) : Option ConvRef :=
  (List.range V.next).find? fun c =>
    V.alive c && !V.isChat c && V.account c == account && V.name c == name

/-- `purple_conversation_new(PURPLE_CONV_TYPE_IM, ...)`. -/
def imConversation (V : Convs) (account : AccountRef) (name : Str) : ConvRef × Convs :=
  match V.findIm account name with
  | some c => (c, V)
  | none => (V.next, V.newConv false account name)

def setUiNick (V : Convs) (c : ConvRef) (n : Option NickRef) : Convs :=
  { V with uiNick := update V.uiNick c n }

/-- `ConvEntity::setConversation`. -/
def putConversation (V : Convs) (n : NickRef) (c : Option ConvRef) : Convs :=
  { V with conversation := update V.conversation n c }

/-- `conv.setNick(NULL)` for the nick that `conv` names: the pairing is undone on both sides. -/
def unpair (V : Convs) (n : NickRef) : Convs :=
  match V.conversation n with
  | some c =>
    if V.uiNick c = some n then
      -- `setNick` calls `setConversation` back, which finds `n` gone from `conv`
      (V.setUiNick c none).putConversation n none
    else V
  | none => V

/-- The virtual `setConversation`, of which `Buddy` overrides the base one. -/
def setConversation (V : Convs) (kind : NickKind) (n : NickRef) (c : Option ConvRef) : Convs :=
  if kind = .buddy then (V.unpair n).putConversation n c else V.putConversation n c

/-- The destructors `~Buddy`, `~ChatBuddy` and `~UnknownBuddy`; the object is gone after them. -/
def forget (V : Convs) (n : NickRef) : Convs :=
  { (V.unpair n).putConversation n none with queue := update V.queue n [] }

end Convs
end Minbif
