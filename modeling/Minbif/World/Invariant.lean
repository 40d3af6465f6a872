import Minbif.Im.Pairing
import Minbif.Irc.Placement
import Minbif.World.Step

/-! What holds of the objects of a session between two events. -/
namespace Minbif
open Function

namespace Convs

/-- A chat and its channel name each other. -/
structure Chats (C : Chans) (V : Convs) : Prop where
  fwd : ∀ c v, C.alive c = true → C.conv c = some v → V.uiChan v = some c
  bwd : ∀ v c, V.uiChan v = some c →
    C.alive c = true ∧ C.conv c = some v ∧ V.alive v = true ∧ V.isChat v = true

structure Talks (N : Nicks) (V : Convs) : Prop where
  nick : ∀ n v, V.conversation n = some v → N.alive n = true ∧ (N.kind n).isConvNick = true
  bound : ∀ v, V.alive v = true → v < V.next

/-- A new chat, and the channel made for it. -/
def openChat (V : Convs) (a : AccountRef) (name : Str) (c : ChanRef) : Convs :=
  let W := V.newConv true a name
  { W with uiChan := update W.uiChan V.next (some c) }

end Convs

namespace World

/-- The invariant, while the channel `d` is being destroyed. -/
structure Ok (w : World) (d : Option ChanRef) : Prop where
  table : w.nicks.Table
  member : w.chans.Member
  listed : w.chans.Listed
  placed : Chans.Placed w.nicks w.chans d
  chats : Convs.Chats w.chans w.convs
  paired : w.convs.Paired
  talks : Convs.Talks w.nicks w.convs
  /-- Other nicks come when the User is registered. -/
  quiet : w.registered = false →
    ∀ n, w.nicks.alive n = true → (w.nicks.kind n).isConvNick = false
  early : w.started = false → w.registered = false ∧ w.chans.channels userRef = []

end World
end Minbif
