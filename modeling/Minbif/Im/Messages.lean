import Minbif.Core.MarkupLines
import Minbif.World.Step

/-! What `Conversation::sendMessage` makes of a text, and `write_conv` and `recvMessage` of a message. -/
namespace Minbif
namespace Talk
open Mirc

/-- The functions of glib, libpurple and the protocol that the texts of an IM go through; these are
valid UTF-8 without NUL. -/
structure Wire where
  /-- `g_markup_escape_text`. -/
  escape : Char → Str
  /-- `purple_cmd_do_command` does a command. -/
  command : Str → Str → Bool
  /-- `purple_message_meify`: the message without its `/me`. -/
  meify : Str → Option Str
  withHtml : Str → Str
  stripHtml : Str → Str

inductive TypingState
  | notTyping
  | typing
  | typed
deriving DecidableEq

/-- A call of libpurple. -/
inductive Given
  | command (cmd markup : Str)
  | typing (state : TypingState)
  | markup (text : Str)
deriving DecidableEq

def actionStart : Str := str "\x01ACTION "

def typingStart : Str := str "\x01TYPING "

/-- `text.substr(8, text.size() - 8 - 1)`. -/
def ctcpText (text : Str) : Str := (text.drop 8).dropLast

/-- `purple_strreplace(escape, "&apos;", "'")`. -/
def unquoteFrom : Nat → Str → Str
  | _, [] => []
  | 0, c :: s =>
    if (str "&apos;").isPrefixOf (c :: s) then '\'' :: unquoteFrom 5 s else c :: unquoteFrom 0 s
  | skip + 1, _ :: s => unquoteFrom skip s

/-- `Conversation::sendMessage`, once the text is no command. -/
def Wire.sendText (W : Wire) (text : Str) : List Given :=
  ((irc2markup W.escape text).map (unquoteFrom 0)).toList.map .markup

/-- `Conversation::sendMessage` of an IM: what libpurple is given. -/
def Wire.sendMessage (W : Wire) (text : Str) : List Given :=
  if actionStart.isPrefixOf text then
    let text := str "/me " ++ ctcpText text
    let markup := text.tail.flatMap W.escape
    .command text.tail markup :: if W.command text.tail markup then [] else W.sendText text
  else if typingStart.isPrefixOf text then
    if ctcpText text = ['1'] then [.typing .typing]
    else if ctcpText text = ['0'] then [.typing .notTyping]
    else []
  else W.sendText text

/-- The flags of a message that `write_conv` looks at; `delayed` is the time it puts before the text. -/
structure MessageFlags where
  recv : Bool := false
  system : Bool := false
  notify : Bool := false
  delayed : Option Str := none

/-- `Conversation::write_conv`: the text and the `action` that `recvMessage` is called with. -/
def Wire.writeConv (W : Wire) (who : Option Str) (flags : MessageFlags) (message : Str) :
    Option (Str × Bool) :=
  if flags.recv && !(flags.system && !flags.notify) then
    let meant := if who.isSome then W.meify message else none
    let strip := markup2irc W.withHtml W.stripHtml (meant.getD message)
    some (flags.delayed.getD [] ++ strip, meant.isSome)
  else none

/-- The texts of the lines that `Conversation::recvMessage` shows. -/
def said (text : Str) (action : Bool) : List Str :=
  (stringtokLoop lineEnds (text.length + 1) text).map fun line =>
    if action then actionStart ++ line ++ ['\x01'] else line

/-- `Conversation::buddy_typing`. -/
def buddyTyping (notice : Bool) (state : TypingState) : List Str :=
  if !notice then []
  else match state with
    | .typing => [str "\x01TYPING 1\x01"]
    | .typed => [str "\x01TYPING 2\x01"]
    | .notTyping => [str "\x01TYPING 0\x01"]

/-- What a gateway tells its User when the protocol brings it what another gateway's libpurple was
given; a command that was not done is not brought. -/
def Wire.told (W : Wire) (notice : Bool) (who : Str) : Given → List Str
  | .command _ _ => []
  | .typing state => buddyTyping notice state
  | .markup text =>
    match W.writeConv (some who) { recv := true } text with
    | some (text, action) => said text action
    | none => []

/-- The messages that `recvMessage` sends the User for a nick. -/
theorem showLines_sent (w : World) (n : NickRef) (v : ConvRef) (text : Str) (action : Bool) :
    (w.showLines n v text action).chans.sent = w.chans.sent ++ (said text action).map fun line =>
      .msg ⟨str "PRIVMSG", w.nicks.entity n, w.nicks.entity userRef, [line]⟩ := by
  unfold World.showLines said
  rw [List.map_map]
  change (List.foldl _ w (stringtokLoop lineEnds _ _)).chans.sent = _
  generalize stringtokLoop lineEnds (text.length + 1) text = lines
  induction lines generalizing w with
  | nil => exact (List.append_nil _).symm
  | cons line lines ih =>
    rw [List.foldl_cons, ih, List.map_cons]
    exact (List.append_cons _ _ _).symm

end Talk
end Minbif
