import Minbif.Im.Auth
import Minbif.Irc.ReadIO
import Minbif.ServerPoll.Messages
import Minbif.World.Step

/-! The client's side of a session: registration, privileges and the dispatch of commands. -/
namespace Minbif

/-- The sections of the configuration, and what the installation says of itself. -/
structure SessionConf where
  auth : AuthEnv
  /-- `irc/password`; a single space stands for none. -/
  password : Str
  /-- Login and password of each `irc/oper`. -/
  opers : List (Str × Str)
  serverName : Str
  motd : List Str
  version : Str
  /-- What `poll->ipc_send` returns. -/
  ipcUp : Bool

/-- What the rest of minbif and libpurple make of one line. -/
structure Turn where
  /-- The nick table and the channels, when the handler is of no command below. -/
  ops : List Op := []
  replies : List Message := []
  thrown : Option Exn := none
  /-- The accounts that `Purple::inited` finds. -/
  accounts : List AccountRef := []
  /-- The reason of an `IMError` from `im->restore()`. -/
  restore : Option Str := none
  isAway : Bool := false

/-- A handler that ran: its command, the flags of the User then, and how often `quit` had run. -/
structure Ran where
  cmd : Str
  registered : Bool
  oper : Bool
  quits : Nat
deriving DecidableEq, Repr

structure Session where
  world : World := World.initial
  identname : Str := []
  realname : Str := []
  password : Str := []
  oper : Bool := false
  im : Option Str := none
  imAuth : Option Auth := none
  auth : AuthState := {}
  /-- `user->send` -/
  sent : List Message := []
  /-- What `poll->ipc_send` wrote. -/
  ipc : List Message := []
  /-- The reasons given to `IRC::quit`. -/
  quits : List Str := []
  ran : List Ran := []
  /-- The login and password that a successful OPER presented. -/
  operBy : Option (Str × Str) := none
  /-- Nickname and password for which `im_auth` was returned. -/
  authFor : Option (Str × Str) := none

abbrev SessionM := EStateM Exn Session

namespace Session

def nickname (s : Session) : Str := s.world.nicks.nickname userRef

def registered (s : Session) : Bool := s.world.registered

end Session

section Handlers

variable (P : Purple) (C : SessionConf) (T : Turn)

/-- `user->send(Message(cmd).setSender(..).setReceiver(..).addArg(..)..)`. -/
def sendUser (cmd : Str) (sender receiver : StoredEntity) (args : List Str) : SessionM Unit := do
  match Message.addArgs { cmd := cmd, sender := sender, receiver := receiver } args with
  | .ok m => modify fun s => { s with sent := s.sent ++ [m] }
  | .error e => throw e

/-- A reply of the server to the User. -/
def reply (code : Str) (args : List Str) : SessionM Unit := do
  let s ← get
  sendUser code (.entity C.serverName C.serverName) (s.world.nicks.entity userRef) args

def ipcSend (cmd : Str) (args : List Str) : SessionM Bool := do
  match Message.addArgs { cmd := cmd } args with
  | .ok m =>
    if C.ipcUp then modify fun s => { s with ipc := s.ipc ++ [m] }
    return C.ipcUp
  | .error e => throw e

/-- `IRC::quit`; what is sent later goes to no socket. -/
def quit (reason : Str) : SessionM Unit := do
  sendUser (str "ERROR") .unset .unset [str "Closing Link: " ++ reason]
  modify fun s => { s with quits := s.quits ++ [reason] }

def runOp (op : Op) : SessionM Unit := fun s =>
  match s.world.run P op with
  | some w => .ok () { s with world := w }
  | none => .error .assertFailed s

def runAuth {α : Type} (x : AuthM α) : SessionM α := fun s =>
  match x.run s.auth with
  | .ok a t => .ok a { s with auth := t }
  | .error e t => .error e { s with auth := t }

def getArg (m : Message) (n : Nat) : SessionM Str :=
  match m.getArg n with
  | .ok s => pure s
  | .error e => throw e

/-- `Auth::validate` or `Auth::generate`; the one that opens an account runs `Purple::inited`. -/
def openAuth (x : AuthM (Option Auth)) : SessionM (Option Auth) := do
  let before := (← get).auth.purple
  let a ← runAuth x
  if before.isNone && (← get).auth.purple.isSome then runOp P (.startUp T.accounts)
  return a

def motd : SessionM Unit := do
  reply C (str "375") [str "- " ++ C.serverName ++ str " Message Of The Day -"]
  C.motd.forM fun s => reply C (str "372") [str "- " ++ s]
  reply C (str "376") [str "End of /MOTD command."]

/-- The replies 001 to 005. -/
def welcome (nick : Str) : SessionM Unit := do
  reply C (str "001") [str "Welcome to the Minbif IRC gateway, " ++ nick ++ ['!']]
  reply C (str "002") [str "Your host is " ++ C.serverName ++ str ", running " ++ C.version]
  reply C (str "003") [str "This server was created "]
  reply C (str "004") [C.serverName, C.version, str "o", str "qohvb"]
  reply C (str "005") [str "CMDS=MAP", str "CHANTYPES=#&", str "PREFIX=(qohv)~@%+",
    str "STATUSMSG=~@%+", str "are supported by this server"]
  motd C

def setImAuth (a : Option Auth) : SessionM Unit :=
  modify fun s => { s with imAuth := a, authFor := a.map fun _ => (s.nickname, s.password) }

/-- The first half of the `try` of `sendWelcome`: whose password is right; `true` means that it
goes on. -/
def login : SessionM Bool := do
  let s ← get
  let a ← openAuth P T (Auth.validate C.auth s.nickname s.password)
  setImAuth a
  if a.isSome then return true
  if (← runAuth (imExists s.nickname)) then
    quit (str "Incorrect credentials")
    return false
  if C.password ≠ [' '] ∧ s.password ≠ C.password then
    quit (str "This server is protected by a global private password.  Ask administrator.")
    return false
  let a ← openAuth P T (Auth.generate C.auth s.nickname s.password)
  setImAuth a
  if a.isNone then quit (str "Creation of new account failed")
  return true

/-- `im = im_auth->getIM()` -/
def takeIM : SessionM Unit := do
  match (← get).imAuth with
  | none => throw .assertFailed
  | some a => modify fun s => { s with im := a.im }

/-- `im->restore()` -/
def restore : SessionM Unit :=
  match T.restore with
  | some reason => throw (.imError reason)
  | none => pure ()

/-- The second half: the User is registered, and welcomed. -/
def register : SessionM Unit := do
  takeIM
  runOp P .welcome
  let nick := (← get).nickname
  let _ ← ipcSend C (str "USER") [nick]
  welcome C nick
  restore T
  if T.isAway then reply C (str "306") [str "You have been marked as being away"]

/-- The `catch` of `sendWelcome`. -/
def onIMError (e : Exn) : SessionM Unit :=
  match e with
  | .imError reason => quit (str "Unable to initialize IM: " ++ reason)
  | e => throw e

def sendWelcome : SessionM Unit := do
  let s ← get
  if s.registered || s.nickname == ['*'] || s.identname.isEmpty then return
  tryCatch (do if (← login P C T) then register P C T) onIMError

def m_nick (m : Message) : SessionM Unit := do
  match m.args with
  | [] => reply C (str "431") [str "No nickname given"]
  | nick :: _ =>
    if (← get).registered then
      reply C (str "438") [str "The hand of the deity is upon thee, thy nick may not change"]
    else if !isValidNickname nick then
      reply C (str "432") [str "This nick contains invalid characters"]
    else do
      runOp P (.nick nick)
      sendWelcome P C T

def alreadyRegistered : SessionM Unit :=
  reply C (str "462") [str "Please register only once per session"]

def m_user (m : Message) : SessionM Unit := do
  if (← get).registered then alreadyRegistered C
  else do
    let ident ← getArg m 0
    let real ← getArg m 3
    modify fun s => { s with identname := ident, realname := real }
    sendWelcome P C T

def m_pass (m : Message) : SessionM Unit := do
  let password ← getArg m 0
  if (← get).registered then alreadyRegistered C
  else if password.length < 8 then quit (str "Password is too short (at least 8 characters)")
  else if Message.hasSpace password then quit (str "Password may not contain spaces")
  else modify fun s => { s with password := password }

def m_quit (m : Message) : SessionM Unit :=
  quit (str "Quit: " ++ m.args.head?.getD (str "Leaving..."))

def m_oper (m : Message) : SessionM Unit := do
  let s ← get
  if s.oper then reply C (str "381") [str "You are already an IRC Operator"]
  else do
    let login ← getArg m 0
    let password ← getArg m 1
    if C.opers.contains (login, password) then
      modify fun s => { s with oper := true, operBy := some (login, password) }
      sendUser (str "MODE") (s.world.nicks.entity userRef) (s.world.nicks.entity userRef) [str "+o"]
      reply C (str "381") [str "You are now an IRC Operator"]
      let _ ← ipcSend C (str "OPER") [s.nickname]
    else reply C (str "464") [str "Password incorrect"]

def m_wallops (m : Message) : SessionM Unit := do
  let text ← getArg m 0
  let _ ← ipcSend C (str "WALLOPS") [(← get).nickname, text]

def m_rehash : SessionM Unit := reply C (str "382") [str "Rehashing"]

def m_die (m : Message) : SessionM Unit := do
  let text ← getArg m 0
  if !(← ipcSend C (str "DIE") [(← get).nickname, text]) then
    quit (str "Shutdown requested: " ++ text)

/-- A command outside of the registration: it acts on nicks, channels and libpurple. -/
def m_other : SessionM Unit := do
  T.ops.forM (runOp P)
  modify fun s => { s with sent := s.sent ++ T.replies }
  match T.thrown with
  | some e => throw e
  | none => pure ()

/-- Which handler an entry of `IRC::commands` names. -/
inductive Handler
  | nick
  | user
  | pass
  | quit
  | oper
  | wallops
  | rehash
  | die
  | other
deriving DecidableEq, Repr

def Handler.run (m : Message) : Handler → SessionM Unit
  | .nick => m_nick P C T m
  | .user => m_user P C T m
  | .pass => m_pass C m
  | .quit => m_quit m
  | .oper => m_oper C m
  | .wallops => m_wallops C m
  | .rehash => m_rehash C
  | .die => m_die C m
  | .other => m_other P T

/-- `Nick::REGISTERED` and `Nick::OPER`, as the flag that an entry asks for. -/
inductive Flag
  | none
  | registered
  | oper
deriving DecidableEq, Repr

def Session.hasFlag (s : Session) : Flag → Bool
  | .none => true
  | .registered => s.registered
  | .oper => s.oper

structure CommandEntry where
  cmd : Str
  handler : Handler
  minargs : Nat
  flags : Flag
deriving DecidableEq, Repr

/-- An entry of the handlers on nicks, channels and accounts. -/
def otherCommand (cmd : String) (minargs : Nat) : CommandEntry :=
  ⟨str cmd, .other, minargs, .registered⟩

/-- `IRC::commands` -/
def commands : List CommandEntry :=
  [⟨str "NICK", .nick, 0, .none⟩, ⟨str "USER", .user, 4, .none⟩, ⟨str "PASS", .pass, 1, .none⟩,
    ⟨str "QUIT", .quit, 0, .none⟩, otherCommand "CMD" 2, otherCommand "PRIVMSG" 2,
    otherCommand "PING" 0, otherCommand "PONG" 1, otherCommand "VERSION" 0, otherCommand "INFO" 0,
    otherCommand "WHO" 0, otherCommand "WHOIS" 1, otherCommand "WHOWAS" 1, otherCommand "STATS" 0,
    otherCommand "CONNECT" 1, otherCommand "SCONNECT" 1, otherCommand "SQUIT" 1,
    otherCommand "MAP" 0, otherCommand "ADMIN" 0, otherCommand "JOIN" 1, otherCommand "PART" 1,
    otherCommand "NAMES" 1, otherCommand "TOPIC" 1, otherCommand "LIST" 0, otherCommand "MODE" 1,
    otherCommand "ISON" 1, otherCommand "INVITE" 2, otherCommand "KICK" 2, otherCommand "KILL" 1,
    otherCommand "SVSNICK" 2, otherCommand "AWAY" 0, otherCommand "MOTD" 0,
    ⟨str "OPER", .oper, 2, .registered⟩, ⟨str "WALLOPS", .wallops, 1, .oper⟩,
    ⟨str "REHASH", .rehash, 0, .oper⟩, ⟨str "DIE", .die, 1, .oper⟩]

/-- The body of the loop of `IRC::readIO`, for one line. -/
def dispatchLine (line : Str) : SessionM Unit := do
  match Message.parse line with
  | .error e => throw e
  | .ok m =>
    match commands.find? (·.cmd == m.cmd) with
    | none => reply C (str "421") [m.cmd, str "Unknown command"]
    | some c =>
      let s ← get
      if m.args.length < c.minargs then
        reply C (str "461") [m.cmd, str "Not enough parameters"]
      else if !s.hasFlag c.flags then
        if !s.registered then reply C (str "451") [str "Register first"]
        else reply C (str "481") [str "Permission Denied: Insufficient privileges"]
      else do
        modify fun s => { s with ran := s.ran ++ [⟨c.cmd, s.registered, s.oper, s.quits.length⟩] }
        c.handler.run P C T m

end Handlers

/-- The table admits a command with its arguments, under the flags of the User. -/
structure Admits (s : Session) (m : Message) (c : CommandEntry) : Prop where
  entry : commands.find? (·.cmd == m.cmd) = some c
  args : c.minargs ≤ m.args.length
  flag : s.hasFlag c.flags = true

section Dispatch

variable {P : Purple} {C : SessionConf} {T : Turn} {s : Session} {m : Message} {c : CommandEntry}
  {line : Str}

/-- An admitted command is recorded, and its handler runs. -/
theorem dispatchLine_admits (hm : Message.parse line = .ok m) (h : Admits s m c) :
    (dispatchLine P C T line).run s = (c.handler.run P C T m).run
      { s with ran := s.ran ++ [⟨c.cmd, s.registered, s.oper, s.quits.length⟩] } := by
  have hargs : ¬ m.args.length < c.minargs := Nat.not_lt.mpr h.args
  unfold dispatchLine
  rw [hm]
  dsimp only
  rw [h.entry]
  simp only [EStateM.run_bind, EStateM.run_get, if_neg hargs, h.flag, Bool.not_true,
    Bool.false_eq_true, if_false]
  rfl

theorem reply_run (code : Str) {args : List Str} (h : Message.Middle args) (s : Session) :
    ∃ sent, (reply C code args).run s = .ok () { s with sent := sent } := by
  unfold reply sendUser
  rw [EStateM.run_bind, EStateM.run_get]
  dsimp only
  rw [Message.addArgs_eq Message.middle_nil, List.nil_append, if_pos h]
  exact ⟨_, rfl⟩

/-- Any other line is answered. -/
theorem dispatchLine_refuses (hm : Message.parse line = .ok m) (h : ∀ c, ¬ Admits s m c) :
    ∃ sent, (dispatchLine P C T line).run s = .ok () { s with sent := sent } := by
  have hcmd : ∀ a, Message.Middle [m.cmd, a] := fun a => by simp [Message.parse_cmd hm]
  unfold dispatchLine
  rw [hm]
  dsimp only
  cases hc : commands.find? (·.cmd == m.cmd) with
  | none => exact reply_run _ (hcmd _) s
  | some c =>
    dsimp only
    rw [EStateM.run_bind, EStateM.run_get]
    dsimp only
    split
    · exact reply_run _ (hcmd _) s
    · next hargs =>
      split
      · split
        · exact reply_run _ Message.middle_singleton s
        · exact reply_run _ Message.middle_singleton s
      · next hflag =>
        exact (h c ⟨hc, Nat.le_of_not_lt hargs, by simpa using hflag⟩).elim

end Dispatch

/-- The turns of the lines, by how many handlers ran before. -/
abbrev Turns := Nat → Turn

/-- A `SockError` ends in `quit`; any other exception ends the process. -/
def closing (x : SessionM Unit) : SessionM Unit :=
  tryCatch x fun e => match e with
    | .sockError reason => quit reason
    | e => throw e

/-- A line, with what the rest of minbif makes of it. -/
def takeLine (P : Purple) (C : SessionConf) (turns : Turns) (line : Str) : SessionM Unit := do
  dispatchLine P C (turns (← get).ran.length) line

/-- `IRC::readIO` with the string that `sockw->Read()` returned. -/
def Session.readIO (P : Purple) (C : SessionConf) (turns : Turns) (sbuf : Str) : SessionM Unit :=
  closing (Minbif.readIO (takeLine P C turns) sbuf)

end Minbif
