import Minbif.World.State

/-! The events of a session: client commands and the callbacks of libpurple. -/
namespace Minbif
open Function

inductive Op
  /-- Anything libpurple keeps changes: aliases, presences, account settings. -/
  | data (D : PurpleData)
  | nick (newnick : Str)
  | startUp (accounts : List AccountRef)
  | welcome
  | connected (a : AccountRef)
  | disconnected (a : AccountRef) (left : List ConvRef)
  | createStatusChannel (a : AccountRef)
  | leaveStatusChannel (a : AccountRef)
  | updateNode (b : BuddyRef)
  | buddyUpdated (b : BuddyRef)
  | removedNode (b : BuddyRef)
  | newConversation (a : AccountRef) (name : Str)
  | recvMessage (v : ConvRef) (sender text : Str) (action : Bool)
  | privmsg (target text : Str) (dcc : Bool)
  | flush (n : NickRef)
  | deleteConversation (v : ConvRef)
  | newChat (a : AccountRef) (name : Str)
  | addUsers (v : ConvRef) (l : List CBuddyRef)
  | updateUser (v : ConvRef) (cb : CBuddyRef)
  | removeUser (v : ConvRef) (name reason : Str)
  | renameUser (v : ConvRef) (old cb : CBuddyRef)
  | topicChanged (v : ConvRef) (who topic : Str)
  | join (channame : Str)
  | part (channame reason : Str)
  | kick (channame nick reason : Str)
  | kill (nick reason : Str)
  | svsnick (nick newnick : Str)
  | names (channame : Str)
  /-- `FileTransfert::add_xfer` of a file to receive, when the port is open. -/
  | dccSend (buddy : Option BuddyRef)
  /-- A DCC SEND request that the nick has accepted. -/
  | dccGet (n : NickRef)
  | dccFinished (i : Nat)
  | dccUpdated

namespace World

variable (P : Purple)

/-- `Account::getStatusChannel`. -/
def getStatusChannel (w : World) (a : AccountRef) : Option ChanRef :=
  if (w.data.statusChannel a).head? = some '&' then
    (w.chans.getChannel (w.data.statusChannel a)).filter fun c => (w.chans.conv c).isNone
  else none

/-- The nick that a buddy has, by its `ui_data` or else by a search. -/
def nickOfBuddy (w : World) (b : BuddyRef) : Option NickRef :=
  (w.nicks.buddyNick b).or (w.nicks.getNickOfBuddy b)

/-- `im::Buddy::updated`. -/
def updated (w : World) (b : BuddyRef) : World :=
  match w.getStatusChannel (P.buddyAccount b), w.nickOfBuddy b with
  | some c, some n =>
    if w.data.online b then
      let available := w.data.available b && w.data.voicedBuddies
      match w.chans.getChanUser n c with
      | none => w.join n c (if available then statusVoice else 0)
      | some cu =>
        if available && w.chans.cuStatus cu &&& statusVoice = 0 then
          { w with chans := w.chans.setMode w.nicks c statusVoice cu }
        else if !available && w.chans.cuStatus cu &&& statusVoice ≠ 0 then
          { w with chans := w.chans.delMode w.nicks c statusVoice cu }
        else w
    else if (w.chans.getChanUser n c).isSome then w.quit n (str "Signed-Off")
    else w
  | _, _ => w

/-- `getHostname` of a contact: what follows `@` in its name, and the account. -/
def hostOf (w : World) (a : AccountRef) (rest : Str) : Str :=
  if rest.isEmpty then w.data.accountId a else rest ++ ':' :: w.data.accountId a

/-- The status channel of an account, made with the User as its operator if there is none. -/
def openStatusChannel (w : World) (a : AccountRef) : World × ChanRef :=
  match w.getStatusChannel a with
  | some c => (w, c)
  | none =>
    let c := w.chans.next
    let C := (w.chans.newChan (w.data.statusChannel a) none none).addChannel c
    (join { w with chans := C } userRef c statusOp, c)

def setAccounts (w : World) (c : ChanRef) (accounts : List AccountRef) : World :=
  { w with chans := { w.chans with accounts := update w.chans.accounts c accounts } }

/-- `Account::createStatusChannel`, without the topic. -/
def createStatusChannel (w : World) (a : AccountRef) : World :=
  if (w.data.statusChannel a).head? ≠ some '&' then w
  else
    let (w, c) := w.openStatusChannel a
    let w := w.setAccounts c (w.chans.accounts c ++ [a])
    (w.data.buddies a).foldl (fun w b => w.updated P b) w

/-- A buddy of the account that leaves. -/
def partStatusChannel (c : ChanRef) (w : World) (b : BuddyRef) : World :=
  match w.nicks.buddyNick b with
  | some n => w.part n c (str "Leaving status channel")
  | none => w

/-- `Account::leaveStatusChannel`. -/
def leaveStatusChannel (w : World) (a : AccountRef) : World :=
  match w.getStatusChannel a with
  | none => w
  | some c =>
    let w := w.setAccounts c ((w.chans.accounts c).erase a)
    let w := (w.data.buddies a).foldl (partStatusChannel c) w
    if (w.chans.accounts c).isEmpty then w.removeChannel (w.chans.name c) else w

/-- `RequestNick` and `BuddyIcon`, which nothing keeps from taking a name that is in use. -/
def addLocal (w : World) (kind : NickKind) (name : Str) : World :=
  { w with nicks := (w.nicks.newNick kind ircRef name name
      (w.nicks.serverName ircRef) 0 0).addNick w.nicks.next }

/-- `Purple::inited`: the status channels of the accounts, then the two nicks of the server. -/
def startUp (w : World) (accounts : List AccountRef) : World :=
  let w := { w with started := true }
  let w := accounts.foldl (fun w a => w.createStatusChannel P a) w
  let w := w.addLocal .requestNick (str "request")
  w.addLocal .buddyIcon (str "buddyicon")

/-- `Account::connected`. -/
def connected (w : World) (a : AccountRef) : World :=
  { w with nicks := w.nicks.addServer (w.data.servername a) a }

/-- `im::Buddy::getAlias`. -/
def getAlias (w : World) (b : BuddyRef) : Str :=
  if (w.data.buddyAlias b).isEmpty then P.buddyName b else w.data.buddyAlias b

/-- `irc::Buddy::Buddy` and `IRC::addNick`, when the account has its server. -/
def newBuddy (w : World) (b : BuddyRef) (s : ServerRef) : World :=
  let name := stringtok (P.buddyName b) ['@']
  let nickalias := w.getAlias P b
  let nickname := if nickalias.contains '@' || nickalias.contains ' ' then
      nickize (P.translit name.1) name.1
    else nickize (P.translit nickalias) nickalias
  let N := w.nicks.newNick .buddy s (w.nicks.freeNickname nickname) name.1
    (w.hostOf (P.buddyAccount b) name.2) b 0
  { w with nicks := N.addNick w.nicks.next }

def storeAlias (w : World) (b : BuddyRef) (nickname : Str) : World :=
  { w with data := { w.data with buddyAlias := update w.data.buddyAlias b nickname } }

/-- `setAlias(n->getNickname())`, which calls `update_node` again for its `updated`. -/
def setAlias (w : World) (b : BuddyRef) (nickname : Str) : World :=
  (w.storeAlias b nickname).updated P b

/-- `im::Buddy::update_node`. -/
def updateNode (w : World) (b : BuddyRef) : World :=
  let finish (w : World) (n : NickRef) : World :=
    let w := if w.getAlias P b = w.nicks.nickname n then w
      else w.setAlias P b (w.nicks.nickname n)
    w.updated P b
  match w.nicks.buddyNick b with
  | some n => finish w n
  | none =>
    match w.nicks.servers.find? (w.data.servername (P.buddyAccount b)) with
    | none => w
    | some s => finish (w.newBuddy P b s) w.nicks.next

/-- `im::Buddy::removed_node`. -/
def removedNode (w : World) (b : BuddyRef) : World :=
  match w.nickOfBuddy b with
  | some n =>
    let w := w.quit n (str "Removed")
    w.removeNick (w.nicks.nickname n)
  | none => w

/-- `setNick(n)` and `n->setConversation(conv)`. -/
def pairUp (w : World) (n : NickRef) (v : ConvRef) : World :=
  (w.setNick v (some n)).setConversation n (some v)

/-- `check_conv` and its copy in `ChatBuddy::send`. -/
def checkConv (w : World) (n : NickRef) (a : AccountRef) (name : Str) : World :=
  if (w.convs.conversation n).isSome then w
  else
    let (v, V) := w.convs.imConversation a name
    { w with convs := V }.pairUp n v

/-- `ConvEntity::enqueueMessage`; `Conversation::sendMessage` asserts a conversation. -/
def enqueueMessage (w : World) (n : NickRef) (text : Str) : Option World :=
  if w.data.sendDelay = 0 then
    (w.convs.conversation n).map fun v =>
      { w with convs := { w.convs with replies := w.convs.replies ++ [(n, v)] } }
  else some { w with convs := { w.convs with
    queue := update w.convs.queue n (w.convs.queue n ++ [text]) } }

/-- `Buddy::send`, after `process_dcc_get` declined the text. -/
def buddySend (w : World) (n : NickRef) (text : Str) : Option World :=
  let b := w.nicks.buddy n
  (w.checkConv n (P.buddyAccount b) (P.buddyName b)).enqueueMessage n text

/-- `irc->getUser()->send(m)`. -/
def tellUser (w : World) (m : Message) : World :=
  { w with chans := w.chans.send userRef (.msg m) }

def tellChan (w : World) (c : ChanRef) (m : Message) : World :=
  { w with chans := w.chans.broadcast c m }

/-- The overrides of `Nick::send` for a private message to the nick itself. -/
def nickSend (w : World) (n : NickRef) (text : Str) (dcc : Bool) : Option World :=
  match w.nicks.kind n with
  | .user =>
    some (w.tellUser ⟨str "PRIVMSG", w.nicks.entity userRef, w.nicks.entity userRef, [text]⟩)
  | .buddy => if dcc then some w else w.buddySend P n text
  | .chatBuddy =>
    let cb := w.nicks.cbuddy n
    (w.checkConv n (P.cbAccount cb) (P.cbRealName cb)).enqueueMessage n text
  | .unknownBuddy =>
    if (w.convs.conversation n).isSome then w.enqueueMessage n text else some w
  | .requestNick | .buddyIcon => some w

/-- What a line typed on a status channel does to one member: it may be named there. -/
def channelSend (w : World) (n : NickRef) (text : Str) (dcc : Bool) : Option World :=
  if w.nicks.kind n = .buddy ∧ (w.nicks.nickname n ++ str ": ").isPrefixOf text ∧ ¬ dcc then
    w.buddySend P n (stringtok text [' ']).2
  else some w

/-- `m_privmsg` for one target. -/
def privmsg (w : World) (target text : Str) (dcc : Bool) : Option World :=
  if target.head? = some '&' ∨ target.head? = some '#' then
    match w.chans.getChannel target with
    | none => some w
    | some c =>
      if (w.chans.conv c).isSome then some w
      else (w.chans.members c).foldlM (fun w n =>
        if n = userRef then some w else w.channelSend P n text dcc) w
  else
    match w.nicks.getNick target with
    | none => some w
    | some n => nickSend P w n text dcc

/-- `ConvEntity::flush_messages` of a nick. -/
def flush (w : World) (n : NickRef) : Option World :=
  if (w.convs.queue n).isEmpty then some w
  else (w.convs.conversation n).map fun v =>
    { w with convs := { w.convs with
        queue := update w.convs.queue n [], replies := w.convs.replies ++ [(n, v)] } }

/-- `new UnknownBuddy` and `IRC::addNick`; `Nick` asserts a server. -/
def newUnknown (w : World) (v : ConvRef) : Option World :=
  let name := stringtok (w.convs.name v) ['@']
  let nickname := if (w.convs.name v).contains '@' || (w.convs.name v).contains ' ' then
      nickize (P.translit name.1) name.1
    else nickize (P.translit (w.convs.name v)) (w.convs.name v)
  (w.nicks.servers.find? (w.data.servername (w.convs.account v))).map fun s =>
    let n := w.nicks.next
    let N := w.nicks.newNick .unknownBuddy s (w.nicks.freeNickname nickname) name.1
      (w.hostOf (w.convs.account v) name.2) 0 0
    { w with nicks := N.addNick n, convs := w.convs.putConversation n (some v) }

/-- `dynamic_cast<irc::Buddy*>(irc->getNick(from))`. -/
def buddyNamed (w : World) (nickname : Str) : Option NickRef :=
  (w.nicks.getNick nickname).filter fun n => w.nicks.kind n = .buddy

/-- The nick that `Conversation::recvMessage` shows a line under, paired with the conversation. -/
def recvNick (w : World) (v : ConvRef) (sender : Str) : Option (World × Option NickRef) :=
  match w.convs.uiNick v with
  | some n => some (w, some n)
  | none =>
    match w.getNickOfConv v with
    | some n => some (w.pairUp n v, some n)
    | none =>
      match w.buddyNamed sender with
      | some n => some (w.pairUp n v, some n)
      | none =>
        if !w.data.acceptNoBuddies then some (w, none)
        else (w.newUnknown P v).map fun w' => (w'.pairUp w.nicks.next v, some w.nicks.next)

/-- `n->sendMessage(irc->getUser(), line, action)` for each line. -/
def showLines (w : World) (n : NickRef) (v : ConvRef) (text : Str) (action : Bool) : World :=
  (stringtokLoop ['\n', '\r'] (text.length + 1) text).foldl (fun w line =>
    let line := if action then str "\x01ACTION " ++ line ++ ['\x01'] else line
    let w := w.tellUser ⟨str "PRIVMSG", w.nicks.entity n, w.nicks.entity userRef, [line]⟩
    { w with convs := { w.convs with shown := w.convs.shown ++ [(n, v)] } }) w

/-- The `ChanUser` of a participant, by the name libpurple knows it under. -/
def chanUserNamed (w : World) (c : ChanRef) (name : Str) : Option ChanUserRef :=
  ((w.chans.cbuddies c).entries.find? fun e =>
    strlower (P.cbName e.1) = strlower name).map Prod.snd

/-- The chat branch of `Conversation::recvMessage`. -/
def recvChat (w : World) (c : ChanRef) (sender text : Str) (action : Bool) : World :=
  let who := match w.chanUserNamed P c sender with
    | some cu => w.nicks.entity (w.chans.cuNick cu)
    | none => .name (w.nicks.freeNickname (nickize (P.translit sender) sender))
  (stringtokLoop ['\n', '\r'] (text.length + 1) text).foldl (fun w line =>
    let line := if action then str "\x01ACTION " ++ line ++ ['\x01'] else line
    w.tellChan c ⟨str "PRIVMSG", who, w.chans.chanEntity c, [line]⟩) w

/-- `Conversation::recvMessage`. -/
def recvMessage (w : World) (v : ConvRef) (sender text : Str) (action : Bool) : Option World :=
  if w.convs.isChat v then
    some (match w.convs.uiChan v with
      | some c => w.recvChat P c sender text action
      | none => w)
  else (w.recvNick P v sender).map fun r =>
    match r.2 with
    | some n => r.1.showLines n v text action
    | none => r.1

/-- `Conversation::normalizeIRCName`. -/
def normalizeIRCName (w : World) (a : AccountRef) (name : Str) : Str :=
  '#' :: (name.map fun c => if c = ' ' then '_' else c) ++ ':' :: w.data.accountId a

/-- `Conversation::createChannel`, for a chat that libpurple has just made. -/
def newChat (w : World) (a : AccountRef) (name : Str) : World :=
  let v := w.convs.next
  let c := w.chans.next
  let upserver := (w.nicks.servers.find? (w.data.servername a)).filter fun s =>
    (w.nicks.account s).isSome
  let channame := Fresh.freshLoop (fun s => (w.chans.getChannel s).isSome) '_'
    (w.chans.table.entries.length + 1) (w.normalizeIRCName a name)
  let V := w.convs.newConv true a name
  let w := { w with
    convs := { V with uiChan := update V.uiChan v (some c) }
    chans := (w.chans.newChan channame (some v) upserver).addChannel c }
  w.join userRef c 0

/-- `new ChatBuddy` and `IRC::addNick`; `Nick` asserts a server. -/
def newChatBuddy (w : World) (c : ChanRef) (cb : CBuddyRef) : Option World :=
  let real := stringtok (P.cbRealName cb) ['@']
  let cname := P.cbName cb
  let base := if cname.contains '@' then (stringtok cname ['@']).1 else cname
  (w.chans.upserver c).map fun s =>
    let N := w.nicks.newNick .chatBuddy s
      (w.nicks.freeNickname (nickize (P.translit base) base)) real.1
      (w.hostOf (P.cbAccount cb) real.2) 0 cb
    { w with nicks := N.addNick w.nicks.next }

def setCBuddy (w : World) (c : ChanRef) (cb : CBuddyRef) (cu : ChanUserRef) : World :=
  { w with chans := { w.chans with
      cbuddies := update w.chans.cbuddies c ((w.chans.cbuddies c).insert cb cu) } }

/-- `ConversationChannel::addBuddy`. -/
def addBuddy (w : World) (c : ChanRef) (cb : CBuddyRef) : Option World :=
  let status := w.data.cbFlags cb
  if w.data.cbMe cb then
    let w := w.join userRef c status
    (w.chans.getChanUser userRef c).map fun cu => w.setCBuddy c cb cu
  else
    match (w.chans.cbuddies c).find? cb with
    | some cu => some (w.setCBuddy c cb cu)
    | none =>
      (w.newChatBuddy P c cb).bind fun w' =>
        let w' := w'.join w.nicks.next c status
        (w'.chans.getChanUser w.nicks.next c).map fun cu => w'.setCBuddy c cb cu

/-- The bit loop of `ConversationChannel::updateBuddy`. -/
def newBits (last now : Status) : Status :=
  (List.range 32).foldl (fun add i =>
    if !last.getLsbD i && now.getLsbD i then add ||| BitVec.twoPow 32 i else add) 0

/-- `ConversationChannel::updateBuddy`, which reads the `ChanUser` without a check. -/
def updateBuddy (w : World) (c : ChanRef) (cb : CBuddyRef) : Option World :=
  ((w.chans.cbuddies c).find? cb).map fun cu =>
    let last := w.chans.cuStatus cu
    let add := newBits last (w.data.cbFlags cb)
    let del := newBits (w.data.cbFlags cb) last
    let w := { w with chans := w.chans.setMode w.nicks c add cu }
    { w with chans := w.chans.delMode w.nicks c del cu }

/-- `ConversationChannel::renameBuddy`, which reads the `ChatBuddy` without a check. -/
def renameBuddy (w : World) (c : ChanRef) (cu : ChanUserRef) (cb : CBuddyRef) : Option World :=
  let n := w.chans.cuNick cu
  if w.nicks.kind n ≠ .chatBuddy then none
  else
    let newNick := w.nicks.freeNickname (nickize (P.translit (P.cbName cb)) (P.cbName cb))
    let old := w.nicks.cbuddy n
    let w := if w.nicks.nickname n = newNick then w
      else
        let w := w.tellUser ⟨str "NICK", w.nicks.entity n, .unset, [newNick]⟩
        { w with nicks := w.nicks.renameNick n newNick }
    let index := ((w.chans.cbuddies c).erase old).insert cb cu
    some { w with
      nicks := { w.nicks with cbuddy := update w.nicks.cbuddy n cb }
      chans := { w.chans with cbuddies := update w.chans.cbuddies c index } }

def topicMessage (w : World) (c : ChanRef) (who : StoredEntity) (newTopic : Str) : Message :=
  ⟨str "TOPIC", who, w.chans.chanEntity c, [newTopic]⟩

/-- `Channel::setTopic`; the topic of a chat itself is libpurple's. -/
def setTopic (w : World) (c : ChanRef) (who : StoredEntity) (topic : Str) : World :=
  let newTopic := topic.takeWhile (· ≠ '\n')
  if w.chans.topic c = newTopic then w
  else
    let w := { w with chans := { w.chans with topic := update w.chans.topic c newTopic } }
    w.tellChan c (w.topicMessage c who newTopic)

/-- `StatusChannel::kick` and the removal of the buddy that follows. -/
def kick (w : World) (channame nick reason : Str) : World :=
  match w.chans.getChannel channame with
  | none => w
  | some c =>
    if (w.chans.conv c).isSome ∨ (w.chans.getChanUser userRef c).isNone then w
    else
      match (w.chans.users c).find? fun cu =>
          strlower (w.nicks.nickname (w.chans.cuNick cu)) = strlower nick with
      | none => w
      | some cu =>
        let n := w.chans.cuNick cu
        if w.nicks.kind n = .buddy ∧ (w.nicks.account (w.nicks.server n)).isSome then
          let text := str "Removed from buddy list" ++
            if reason.isEmpty then [] else str ": " ++ reason
          (w.kicked n c userRef text).removedNode (w.nicks.buddy n)
        else w

/-- `m_kill`. -/
def kill (w : World) (nick reason : Str) : World :=
  match w.nicks.getNick nick with
  | none => w
  | some n =>
    if w.nicks.kind n = .buddy ∧ (w.nicks.account (w.nicks.server n)).isSome then
      let reason := str "Removed from buddy list" ++
        if reason.isEmpty then [] else str ": " ++ reason
      let w := w.quit n (str "Killed by " ++ w.nicks.nickname userRef ++ str " (" ++ reason ++ [')'])
      w.removedNode (w.nicks.buddy n)
    else w

/-- `m_svsnick`. -/
def svsnick (w : World) (nick newnick : Str) : World :=
  match w.nicks.getNick nick with
  | none => w
  | some n =>
    if w.nicks.kind n ≠ .buddy ∨ !isValidNickname newnick ∨
        (w.nicks.getNick newnick).any (· ≠ n) then w
    else
      let w := w.tellUser ⟨str "NICK", w.nicks.entity n, .unset, [newnick]⟩
      let w := { w with nicks := w.nicks.renameNick n newnick }
      w.setAlias P (w.nicks.buddy n) newnick

/-- `createDCCSend`, `createDCCGet`. -/
def addDcc (w : World) (isGet : Bool) (n : Option NickRef) : World :=
  { w with dccs := w.dccs ++ [{ isGet := isGet, peer := n }] }

/-- `deinit` of one entry. -/
def finishDcc (w : World) (i : Nat) : World :=
  { w with dccs := w.dccs.modify i fun d => { d with finished := true } }

/-- The purge of `IRC::updateDCC`. -/
def updateDcc (w : World) : World := { w with dccs := w.dccs.filter fun d => !d.finished }

/-- A live chat with its channel. -/
def chatChan (w : World) (v : ConvRef) : Option ChanRef :=
  if w.convs.alive v && w.convs.isChat v then w.convs.uiChan v else none

/-- The chats that `Account::disconnected` closes: those that libpurple has left. -/
def leaveChats (w : World) (a : AccountRef) (left : List ConvRef) : World :=
  (left.filter fun v => w.convs.alive v && w.convs.isChat v &&
    w.convs.account v == a).foldl destroyChat w

/-- One event of a session whose User is registered; `none` is an assertion that fails or a null
pointer that is read. -/
def runRegistered (w : World) : Op → Option World
  | .connected a => some (w.connected a)
  | .disconnected a left =>
    let w := w.leaveChats a left
    some (w.removeServer (w.data.servername a))
  | .createStatusChannel a => some (w.createStatusChannel P a)
  | .leaveStatusChannel a => some (w.leaveStatusChannel a)
  | .updateNode b => some (w.updateNode P b)
  | .buddyUpdated b => some (w.updated P b)
  | .removedNode b => some (w.removedNode b)
  | .newConversation a name => some { w with convs := (w.convs.imConversation a name).2 }
  | .recvMessage v sender text action =>
    if w.convs.alive v then w.recvMessage P v sender text action else some w
  | .privmsg target text dcc => w.privmsg P target text dcc
  | .flush n => if w.nicks.alive n then w.flush n else some w
  | .deleteConversation v =>
    if !w.convs.alive v then some w
    else if w.convs.isChat v then some (w.destroyChat v)
    else some (w.destroyIm v)
  | .newChat a name => some (w.newChat a name)
  | .addUsers v l =>
    l.foldlM (fun w cb =>
      match w.chatChan v with
      | some c => w.addBuddy P c cb
      | none => some w) w
  | .updateUser v cb =>
    match w.chatChan v with
    | some c => w.updateBuddy c cb
    | none => some w
  | .removeUser v name reason =>
    match w.chatChan v with
    | some c =>
      match w.chanUserNamed P c name with
      | some cu => some (w.part (w.chans.cuNick cu) c reason)
      | none => some w
    | none => some w
  | .renameUser v old cb =>
    match w.chatChan v with
    | some c => (w.chanUserNamed P c (P.cbName old)).bind fun cu => w.renameBuddy P c cu cb
    | none => some w
  | .topicChanged v who topic =>
    match w.chatChan v with
    | some c =>
      let sender := match w.chanUserNamed P c who with
        | some cu => w.nicks.entity (w.chans.cuNick cu)
        | none => w.nicks.ircEntity
      some (w.setTopic c sender topic)
    | none => some w
  | .join channame =>
    if channame.head? ≠ some '&' then some w
    else
      match w.chans.getChannel channame with
      | some c => some (w.join userRef c statusOp)
      | none => some w
  | .part channame reason =>
    match w.chans.getChannel channame with
    | some c => some (w.part userRef c reason)
    | none => some w
  | .kick channame nick reason => some (w.kick channame nick reason)
  | .kill nick reason => some (w.kill nick reason)
  | .svsnick nick newnick => some (w.svsnick P nick newnick)
  | .names channame =>
    match w.chans.getChannel channame with
    | some c => some { w with chans := w.chans.sendNames w.nicks c userRef }
    | none => some w
  | .dccSend b => some (w.addDcc false (b.bind w.nicks.getNickOfBuddy))
  | .dccGet n =>
    if w.nicks.alive n && (w.nicks.kind n == .buddy || w.nicks.kind n == .buddyIcon) then
      some (w.addDcc true (some n))
    else some w
  | .dccFinished i => some (w.finishDcc i)
  | .dccUpdated => some w.updateDcc
  | _ => some w

/-- One event; libpurple calls back only when the User is registered. -/
def run (w : World) : Op → Option World
  | .data D => some { w with data := D }
  | .nick newnick =>
    if w.registered || !isValidNickname newnick then some w
    else some { w with nicks := w.nicks.renameNick userRef newnick }
  | .startUp accounts => if w.started then some w else some (w.startUp P accounts)
  | .welcome => some { w with registered := w.registered || w.started }
  | op => if !w.registered then some w else w.runRegistered P op

/-- `IRC::IRC`: the User, in no channel. -/
def initial : World := { nicks := ({} : Nicks).addNick userRef }

/-- The state a session has reached; it stops where the process does. -/
def runAll : World → List Op → World
  | w, [] => w
  | w, op :: ops =>
    match w.run P op with
    | some w' => runAll w' ops
    | none => w

end World
end Minbif
