import Mathlib.Logic.Relation
import Minbif.Irc.View
import Minbif.World.Invariant

/-! The elementary changes that events are made of; a run is a chain of them. -/
namespace Minbif
open Function

namespace World

/-- The promises some results make about a run. -/
structure Terms where
  /-- A conversation without a nick only goes to the buddy it belongs to. -/
  fair : Prop
  /-- The nicks of a registration have different names. -/
  apart : Prop
  /-- The User does not change its nickname. -/
  still : Prop
  /-- No nick of the server changes its name. -/
  steady : ServerRef → Prop
  /-- The server is removed. -/
  gone : ServerRef → Prop
  /-- Nothing but its nicks refers to a server that is removed. -/
  clean : Prop
  /-- Participants are put in the index of a chat. -/
  presents : Prop

/-- If the nick is a `Buddy`, it has the account and the name of the conversation. -/
def Fits (P : Purple) (w : World) (n : NickRef) (v : ConvRef) : Prop :=
  w.nicks.kind n = .buddy → w.convs.account v = P.buddyAccount (w.nicks.buddy n) ∧
    w.convs.name v = P.buddyName (w.nicks.buddy n)

/-- The participant of a `ChatBuddy` is another one. -/
def rebind (w : World) (c : ChanRef) (n : NickRef) (cu : ChanUserRef) (cb : CBuddyRef) : World :=
  let index := ((w.chans.cbuddies c).erase (w.nicks.cbuddy n)).insert cb cu
  { w with
    nicks := { w.nicks with cbuddy := update w.nicks.cbuddy n cb }
    chans := { w.chans with cbuddies := update w.chans.cbuddies c index } }

/-- The message that a nick leaves a channel, by itself or by a kick. -/
def Tells (w : World) (m : Message) (n : NickRef) (c : ChanRef) : Prop :=
  m.receiver = w.chans.chanEntity c ∧ m.args ≠ [] ∧
    (m.cmd = str "PART" ∧ m.sender = w.nicks.entity n ∨
      m.cmd = str "KICK" ∧ n ≠ userRef ∧ m.args.head? = some (w.nicks.nickname n))

/-- A server that new nicks are put on: one of the table, or the one a chat was made with. -/
def Offers (w : World) (s : ServerRef) : Prop :=
  (∃ k, (k, s) ∈ w.nicks.servers.entries) ∨
    ∃ c, w.chans.alive c = true ∧ w.chans.upserver c = some s

/-- The state, and the channel that is being destroyed. -/
abbrev Stage := World × Option ChanRef

inductive Change (P : Purple) (T : Terms) : Stage → Stage → Prop
  | data (w d) (D : PurpleData) : Change P T (w, d) ({ w with data := D }, d)
  | dccs (w d) (l : List Dcc)
      (hpeer : ∀ x ∈ l, ∀ n, x.peer = some n →
        (∃ y ∈ w.dccs, y.peer = some n) ∨ w.nicks.alive n = true) :
      Change P T (w, d) ({ w with dccs := l }, d)
  | started (w) : Change P T (w, none) ({ w with started := true }, none)
  | registered (w) (h : w.started = true) :
      Change P T (w, none) ({ w with registered := true }, none)
  | say (w d) (l : List Sent) (h : ∀ s ∈ l, s.Quiet) :
      Change P T (w, d) ({ w with chans := { w.chans with sent := w.chans.sent ++ l } }, d)
  | board (w d) (t : ChanRef → Str) (a : ChanRef → List AccountRef) :
      Change P T (w, d) ({ w with chans := { w.chans with topic := t, accounts := a } }, d)
  | names (w) (c : ChanRef) (hc : w.chans.alive c = true) :
      Change P T (w, none) ({ w with chans := w.chans.sendNames w.nicks c userRef }, none)
  | setMode (w c modes cu) (hcu : cu ∈ w.chans.users c) :
      Change P T (w, none) ({ w with chans := w.chans.setMode w.nicks c modes cu }, none)
  | delMode (w c modes cu) (hcu : cu ∈ w.chans.users c) :
      Change P T (w, none) ({ w with chans := w.chans.delMode w.nicks c modes cu }, none)
  | join (w n c status) (hstarted : w.started = true) (hc : w.chans.alive c = true)
      (hn : w.nicks.alive n = true)
      (hkind : n = userRef ∨ (w.nicks.kind n).isConvNick = true)
      (hone : w.nicks.kind n = .chatBuddy → w.chans.channels n = []) :
      Change P T (w, none) (w.join n c status, none)
  | leave (w n c cu m) (hcu : cu ∈ w.chans.channels n) (hc : w.chans.cuChan cu = c)
      (hm : w.Tells m n c) (hchat : n ≠ userRef ∨ w.chans.conv c = none) :
      Change P T (w, none) ({ w with chans := w.chans.leave c n cu m }, none)
  -- a chat the User leaves is destroyed
  | leaveChat (w c cu m) (hcu : cu ∈ w.chans.channels userRef) (hc : w.chans.cuChan cu = c)
      (hm : w.Tells m userRef c) :
      Change P T (w, none) ({ w with chans := w.chans.leave c userRef cu m }, some c)
  | quit (w n text) (hn : n ≠ userRef) : Change P T (w, none) (w.quit n text, none)
  | drop (w d k n l) (hmem : (k, n) ∈ w.nicks.users.entries)
      (hn : (w.nicks.kind n).isConvNick = true)
      (hlist : l = w.nicks.serverUsersWithout n ∨
        l = w.nicks.serverUsers ∧ T.gone (w.nicks.server n))
      (hpeer : T.clean → ∀ x ∈ w.dccs, x.peer ≠ some n) :
      Change P T (w, d) ({ w.deleteNick n with nicks := w.nicks.dropped k n l }, d)
  | opened (w c) (hc : w.chans.alive c = true) : Change P T (w, none) (w, some c)
  | release (w c n cu) (hcu : cu ∈ w.chans.users c) (hn : w.chans.cuNick cu = n)
      (hk : w.nicks.kind n = .chatBuddy) :
      Change P T (w, some c) ({ w with chans := w.chans.release c n cu }, some c)
  | closed (w c) (hc : w.chans.alive c = true) (hv : w.chans.conv c = none) :
      Change P T (w, some c) ({ w with chans := w.chans.remove w.nicks c }, none)
  | closedChat (w c v) (hc : w.chans.alive c = true) (hv : w.chans.conv c = some v) :
      Change P T (w, some c) ({ w with
        chans := w.chans.remove w.nicks c
        convs := { w.convs with
          uiChan := update w.convs.uiChan v none, alive := update w.convs.alive v false } }, none)
  | ended (w v) (hc : w.convs.uiChan v = none) (hn : w.convs.uiNick v = none) :
      Change P T (w, none) ({ w with convs := { w.convs with
        uiChan := update w.convs.uiChan v none, alive := update w.convs.alive v false } }, none)
  | newIm (w a name) : Change P T (w, none) ({ w with convs := w.convs.newConv false a name }, none)
  | link (w n v) (hn : w.nicks.alive n = true) (hconv : (w.nicks.kind n).isConvNick = true)
      (hv : w.convs.isIm v) (hne : w.convs.conversation n ≠ some v)
      (hk : w.nicks.kind n = .buddy ∨ w.convs.conversation n = none)
      (hfit : T.fair → w.Fits P n v) :
      Change P T (w, none) ({ w with convs := w.convs.link (w.nicks.kind n) n v }, none)
  | unlink (w v) : Change P T (w, none) ({ w with convs := w.convs.unlink v }, none)
  | showed (w n v) (h : w.convs.conversation n = some v) :
      Change P T (w, none)
        ({ w with convs := { w.convs with shown := w.convs.shown ++ [(n, v)] } }, none)
  | replied (w n v) (h : w.convs.conversation n = some v) (q : NickRef → List Str) :
      Change P T (w, none)
        ({ w with convs := { w.convs with
            queue := q, replies := w.convs.replies ++ [(n, v)] } }, none)
  | queued (w) (q : NickRef → List Str) :
      Change P T (w, none) ({ w with convs := { w.convs with queue := q } }, none)
  | add (w kind s nick ident host b cb) (hreg : w.registered = true)
      (hkind : kind.isConvNick = true) (hfree : w.nicks.getNick nick = none)
      (hserver : w.Offers s) (hnick : ProperNick nick)
      (hown : kind = .buddy → w.nicks.buddyNick b = none) :
      Change P T (w, none) ({ w with nicks := w.nicks.added kind s nick ident host b cb }, none)
  | addLocal (w kind name) (hreg : w.registered = false) (hkind : kind.isConvNick = false)
      (hfree : T.apart → w.nicks.getNick name = none) :
      Change P T (w, none) (w.addLocal kind name, none)
  | renamed (w n newnick) (hn : w.nicks.alive n = true)
      (hconv : (w.nicks.kind n).isConvNick = true) (hfree : w.nicks.FreeFor n newnick)
      (hsteady : ¬ T.steady (w.nicks.server n)) (hnick : ProperNick newnick) :
      Change P T (w, none) ({ w.tellUser ⟨str "NICK", w.nicks.entity n, .unset, [newnick]⟩ with
        nicks := w.nicks.renameNick n newnick }, none)
  | nick (w newnick) (hreg : w.registered = false)
      (hfree : T.apart → w.nicks.FreeFor userRef newnick)
      (hstill : ¬ T.still) (hsteady : ¬ T.steady ircRef) :
      Change P T (w, none) ({ w with nicks := w.nicks.renameNick userRef newnick }, none)
  | connected (w a) : Change P T (w, none) (w.connected a, none)
  | dropServer (w name s) (hs : (name, s) ∈ w.nicks.servers.entries)
      (hnone : ∀ n, w.nicks.alive n = true → w.nicks.server n ≠ s)
      (hup : T.clean → ∀ c, w.chans.alive c = true → w.chans.upserver c ≠ some s) :
      Change P T (w, none) ({ w with nicks := w.nicks.dropServer name s }, none)
  | newStatus (w name) (hfree : w.chans.getChannel name = none) (hhash : name.head? ≠ some '#') :
      Change P T (w, none) ({ w with chans := w.chans.opened name none none }, none)
  | newChat (w a name channame up) (hfree : w.chans.getChannel channame = none)
      (hhash : channame.head? = some '#')
      (hup : ∀ s, up = some s → ∃ k, (k, s) ∈ w.nicks.servers.entries) :
      Change P T (w, none) ({ w with
        convs := w.convs.openChat a name w.chans.next
        chans := w.chans.opened channame (some w.convs.next) up }, none)
  | setCBuddy (w c cb cu) (hv : (w.chans.conv c).isSome = true) (hcu : cu ∈ w.chans.users c)
      (hk : w.chans.cuNick cu = userRef ∨ w.nicks.kind (w.chans.cuNick cu) = .chatBuddy ∧
        w.nicks.cbuddy (w.chans.cuNick cu) = cb) (hpresents : T.presents) :
      Change P T (w, none) (w.setCBuddy c cb cu, none)
  | rebound (w c n cu cb) (hcu : cu ∈ w.chans.users c) (hn : w.chans.cuNick cu = n)
      (hv : (w.chans.conv c).isSome = true) (hk : w.nicks.kind n = .chatBuddy) :
      Change P T (w, none) (w.rebind c n cu cb, none)

def Changes (P : Purple) (T : Terms) : Stage → Stage → Prop := Relation.ReflTransGen (Change P T)

end World
end Minbif
