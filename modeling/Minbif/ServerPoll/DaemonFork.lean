import Mathlib.Data.List.Nodup
import Mathlib.Logic.Function.Basic
import Minbif.Irc.Nick
import Minbif.ServerPoll.IpcRead

/-! Daemon-fork mode: the master, its children and the messages between them. -/
namespace Minbif
open Function

/-- What the master wrote a message for. -/
inductive Origin
  /-- It relays message `k` of child `c`. -/
  | relay (c k : Nat)
  /-- Message `k` of child `c` announced a username that the receiver has too. -/
  | location (c k : Nat)
  /-- Its own rehash. -/
  | sighup
deriving DecidableEq, Repr

structure Mail where
  origin : Origin
  msg : Message
deriving DecidableEq, Repr

/-- An entry of `childs`. -/
structure ChildT where
  id : Nat
  username : Str := []
deriving DecidableEq, Repr

/-- What an IPC handler does. -/
inductive IpcAct
  | broadcast (m : Message) (butone : Option Nat)
  /-- `child->username = name`, and the others of that name are sent DIE. -/
  | announce (child : Nat) (name : Str)
  /-- `irc->getUser()->send` of a WALLOPS. -/
  | userWallops (sender text : Str)
  | ircRehash
  | ircQuit (reason : Str)
  | appQuit
deriving DecidableEq, Repr

section Handlers

/- The handlers of both sides: `child` is the sender's entry, null in a child, and `irc` says
whether this process has an `IRC`. -/
variable (child : Option Nat) (irc : Bool) (m : Message)

def arg (n : Nat) : Str := m.args.getD n []

def ipcOper : List IpcAct :=
  match child with
  | some c => [.broadcast m (some c)]
  | none => []

def ipcWallops : List IpcAct :=
  match child with
  | some _ => [.broadcast m none]
  | none => if irc then [.userWallops (arg m 0) (arg m 1)] else []

/-- `rehash` -/
def serverRehash : List IpcAct :=
  if irc then [.ircRehash] else [.broadcast { cmd := str "REHASH" } none]

def ipcDie : List IpcAct :=
  (match child with
    | some _ => [.broadcast m none]
    | none => []) ++
  [if irc then .ircQuit (str "Shutdown requested by " ++ arg m 0) else .appQuit]

def ipcUser : List IpcAct :=
  match child with
  | some c => [.announce c (arg m 0)]
  | none => []

def ipcHandle : IpcCmd → List IpcAct
  | .wallops => ipcWallops child irc m
  | .rehash => serverRehash irc
  | .die => ipcDie child irc m
  | .oper => ipcOper child m
  | .user => ipcUser child m

end Handlers

/-- A child process. -/
structure Child where
  nickname : Str := str "*"
  registered : Bool := false
  oper : Bool := false
  /-- What it wrote to the master and the master has not read. -/
  up : List Message := []
  /-- What the master wrote to it and it has not read. -/
  down : List Mail := []
  /-- What it read, and what it did then. -/
  read : List (Mail × List IpcAct) := []
  /-- What its user had it ask the master for. -/
  issued : List Message := []

/-- A message of a child that the master has read. -/
structure Request where
  src : Nat
  no : Nat
  raw : Message
  received : Except Exn Received
  /-- `childs` when it was read. -/
  childs : List ChildT

structure DaemonFork where
  /-- The number of children forked so far. -/
  forked : Nat := 0
  childs : List ChildT := []
  child : Nat → Child := fun _ => {}
  quitting : Bool := false
  /-- How many messages the master has read from each child. -/
  taken : Nat → Nat := fun _ => 0
  processed : List Request := []

namespace DaemonFork

def attached (d : DaemonFork) (c : Nat) : Bool := (d.childs.map ChildT.id).contains c

def setChild (d : DaemonFork) (c : Nat) (x : Child) : DaemonFork :=
  { d with child := update d.child c x }

/-- `ipc_master_send` -/
def masterSend (d : DaemonFork) (c : Nat) (mail : Mail) : DaemonFork :=
  d.setChild c { d.child c with down := (d.child c).down ++ [mail] }

/-- The loop over `childs` that sends to some of them. -/
def sendSome (d : DaemonFork) (mail : Mail) (p : ChildT → Bool) : DaemonFork :=
  d.childs.foldl (fun d t => if p t then d.masterSend t.id mail else d) d

def masterBroadcast (d : DaemonFork) (mail : Mail) (butone : Option Nat) : DaemonFork :=
  d.sendSome mail fun t => butone != some t.id

def setUsername (d : DaemonFork) (c : Nat) (name : Str) : DaemonFork :=
  { d with childs := d.childs.map fun t => if t.id = c then { t with username := name } else t }

def dieMessage (name : Str) : Message :=
  { cmd := str "DIE", args := [name, str "You are logged from another location."] }

/-- `strcasecmp(a, b) == 0` -/
def sameName (a b : Str) : Bool := strlower a == strlower b

/-- What a handler does in the master, when message `k` of child `c` called it. -/
def masterAct (c k : Nat) (d : DaemonFork) : IpcAct → DaemonFork
  | .broadcast m butone => d.masterBroadcast ⟨.relay c k, m⟩ butone
  | .announce c name =>
    (d.setUsername c name).sendSome ⟨.location c k, dieMessage name⟩ fun t =>
      t.id != c && sameName t.username name
  | .appQuit => { d with quitting := true }
  -- without an `IRC` the other actions do not occur
  | .userWallops _ _ | .ircRehash | .ircQuit _ => d

/-- `ipc_send` of a child. -/
def childSend (d : DaemonFork) (c : Nat) (m : Message) : DaemonFork :=
  d.setChild c { d.child c with
    up := (d.child c).up ++ [m], issued := (d.child c).issued ++ [m] }

/-- `IRC::m_wallops`, `IRC::m_die` and `IRC::m_rehash`. -/
inductive OperCmd
  | wallops (text : Str)
  | die (text : Str)
  | rehash
deriving DecidableEq, Repr

/-- The message that stands for the command. -/
def OperCmd.message (nick : Str) : OperCmd → Message
  | .wallops text => { cmd := str "WALLOPS", args := [nick, text] }
  | .die text => { cmd := str "DIE", args := [nick, text] }
  | .rehash => { cmd := str "REHASH" }

inductive Event
  /-- `new_client_cb` -/
  | fork
  /-- The master's `ipc_read` finds that child `c` is gone. -/
  | leave (c : Nat)
  /-- `sendWelcome` succeeds in child `c`. -/
  | register (c : Nat) (nick : Str)
  /-- `IRC::m_oper` succeeds in child `c`. -/
  | oper (c : Nat)
  | command (c : Nat) (cmd : OperCmd)
  /-- `ipc_read` of the master, for child `c`. -/
  | toMaster (c : Nat)
  /-- `ipc_read` of child `c`. -/
  | toChild (c : Nat)
  /-- The master is asked to rehash by a signal. -/
  | sighup
deriving DecidableEq, Repr

/-- The master reads the first message of child `c`, if a peek holds it. -/
def readUp (d : DaemonFork) (c : Nat) (m : Message) (rest : List Message) : DaemonFork :=
  let k := d.taken c
  let r := ipcDispatch (IpcSocket.line m)
  let d' := { d.setChild c { d.child c with up := rest } with
    taken := update d.taken c (k + 1)
    processed := d.processed ++ [⟨c, k, m, r, d.childs⟩] }
  match r with
  | .ok (.handled f m') => (ipcHandle (some c) false m' f).foldl (masterAct c k) d'
  | _ => d'

/-- What a child does when it reads a message. Its own `childs` is empty: a broadcast of it would
reach nobody. -/
def childActs (m : Message) : List IpcAct :=
  match ipcDispatch (IpcSocket.line m) with
  | .ok (.handled f m') => ipcHandle none true m' f
  | _ => []

/-- Child `c` reads its first message, if a peek holds it. -/
def readDown (d : DaemonFork) (c : Nat) (mail : Mail) (rest : List Mail) : DaemonFork :=
  d.setChild c { d.child c with
    down := rest, read := (d.child c).read ++ [(mail, childActs mail.msg)] }

def step (d : DaemonFork) : Event → Option DaemonFork
  | .fork => some { d with forked := d.forked + 1, childs := d.childs ++ [⟨d.forked, []⟩] }
  | .leave c => if d.attached c then some { d with childs := d.childs.filter (·.id != c) } else none
  | .register c nick =>
    -- `sendWelcome` returns at once when REGISTERED is set
    if d.attached c && !(d.child c).registered && isValidNickname nick then
      some ((d.setChild c { d.child c with nickname := nick, registered := true }).childSend c
        { cmd := str "USER", args := [nick] })
    else none
  | .oper c =>
    if d.attached c && (d.child c).registered && !(d.child c).oper then
      some ((d.setChild c { d.child c with oper := true }).childSend c
        { cmd := str "OPER", args := [(d.child c).nickname] })
    else none
  | .command c cmd =>
    if d.attached c && (d.child c).oper then
      let m := cmd.message (d.child c).nickname
      match cmd with
      -- `poll->rehash()`: this process has an `IRC`, and only that is rehashed
      | .rehash => some (d.setChild c { d.child c with issued := (d.child c).issued ++ [m] })
      | _ => some (d.childSend c m)
    else none
  | .toMaster c =>
    if d.attached c then
      match (d.child c).up with
      | [] => none
      | m :: rest => if m.format.length ≤ IpcSocket.peekMax then some (d.readUp c m rest) else some d
    else none
  | .toChild c =>
    if d.attached c then
      match (d.child c).down with
      | [] => none
      | mail :: rest =>
        if mail.msg.format.length ≤ IpcSocket.peekMax then some (d.readDown c mail rest) else some d
    else none
  | .sighup => some (d.masterBroadcast ⟨.sighup, { cmd := str "REHASH" }⟩ none)

variable {d d' : DaemonFork} {c i k : Nat} {m : Message} {mail : Mail} {p : ChildT → Bool}
  {l : List ChildT} {rest : List Message} {r : Request} {name : Str}

/-- The mail is one more in the queue of each child that the loop meets. -/
structure Sends (d d' : DaemonFork) (mails : Nat → List Mail) : Prop where
  forked : d'.forked = d.forked
  childs : d'.childs = d.childs
  quitting : d'.quitting = d.quitting
  taken : d'.taken = d.taken
  processed : d'.processed = d.processed
  child : ∀ i, d'.child i = { d.child i with down := (d.child i).down ++ mails i }

theorem sends_foldl (hl : (l.map ChildT.id).Nodup) :
    Sends d (l.foldl (fun d t => if p t then d.masterSend t.id mail else d) d)
      fun i => if l.any (fun t => t.id == i && p t) then [mail] else [] := by
  induction l generalizing d with
  | nil => exact ⟨rfl, rfl, rfl, rfl, rfl, fun i => by simp⟩
  | cons t l ih =>
    obtain ⟨ht, hl⟩ := List.nodup_cons.mp hl
    rw [List.foldl_cons]
    by_cases hp : p t = true
    · have h := ih hl (d := d.masterSend t.id mail)
      rw [if_pos hp]
      refine ⟨h.forked, h.childs, h.quitting, h.taken, h.processed, fun i => ?_⟩
      rw [h.child i]
      by_cases hi : t.id = i
      · -- no later entry is of the same child
        subst hi
        have hlater : l.any (fun u => u.id == t.id && p u) = false := by
          rw [List.any_eq_false]
          intro u hu hboth
          apply ht
          simp only [Bool.and_eq_true, beq_iff_eq] at hboth
          exact List.mem_map.mpr ⟨u, hu, hboth.1⟩
        simp [masterSend, setChild, hlater, hp]
      · simp [masterSend, setChild, update_of_ne (Ne.symm hi), hi]
    · have h := ih hl (d := d)
      rw [if_neg hp]
      refine ⟨h.forked, h.childs, h.quitting, h.taken, h.processed, fun i => ?_⟩
      rw [h.child i]
      simp [hp]

theorem sendSome_sends (hl : (d.childs.map ChildT.id).Nodup) (mail : Mail) (p : ChildT → Bool) :
    Sends d (d.sendSome mail p)
      fun i => if d.childs.any (fun t => t.id == i && p t) then [mail] else [] :=
  sends_foldl hl

end DaemonFork

/-- The entry of a child that announces its username. -/
def ChildT.rename (c : Nat) (name : Str) (t : ChildT) : ChildT :=
  if t.id = c then { t with username := name } else t

namespace Request
open DaemonFork

/-- The handler that a message of a child calls in the master. -/
def handled (r : Request) : Option (IpcCmd × Message) :=
  match r.received with
  | .ok (.handled f m) => some (f, m)
  | _ => none

def present (r : Request) (i : Nat) : Bool := r.childs.any (·.id == i)

/-- The username that a message announces. -/
def announces (r : Request) : Option Str :=
  match r.handled with
  | some (.user, m) => some (arg m 0)
  | _ => none

/-- What the master writes to child `i` for a message. -/
def mails (r : Request) (i : Nat) : List Mail :=
  match r.handled with
  | none => []
  | some (.wallops, m) | some (.die, m) => if r.present i then [⟨.relay r.src r.no, m⟩] else []
  | some (.rehash, _) =>
    if r.present i then [⟨.relay r.src r.no, { cmd := str "REHASH" }⟩] else []
  | some (.oper, m) => if r.present i && i != r.src then [⟨.relay r.src r.no, m⟩] else []
  | some (.user, m) =>
    if r.childs.any fun t => t.id == i && (t.id != r.src && sameName t.username (arg m 0)) then
      [⟨.location r.src r.no, dieMessage (arg m 0)⟩]
    else []

/-- `childs` after a message. -/
def childsAfter (r : Request) : List ChildT :=
  match r.announces with
  | some name => r.childs.map (ChildT.rename r.src name)
  | none => r.childs

end Request

namespace DaemonFork

variable {d d' : DaemonFork} {c i k : Nat} {m : Message} {mail : Mail} {l : List ChildT}
  {rest : List Message} {r : Request} {name : Str}

@[simp] theorem rename_id (t : ChildT) : (t.rename c name).id = t.id := by
  unfold ChildT.rename
  split <;> rfl

theorem map_rename_id : (l.map (ChildT.rename c name)).map ChildT.id = l.map ChildT.id := by
  simp [Function.comp_def]

theorem any_rename (name : Str) (p : Str → Bool) :
    (l.map (ChildT.rename c name)).any (fun t => t.id == i && (t.id != c && p t.username)) =
      l.any fun t => t.id == i && (t.id != c && p t.username) := by
  rw [List.any_map]
  congr 1
  funext t
  by_cases h : t.id = c <;> simp [ChildT.rename, h]

/-- What the master does when it reads a message. -/
structure Reads (d d' : DaemonFork) (c : Nat) (rest : List Message) (r : Request) : Prop where
  forked : d'.forked = d.forked
  childs : d'.childs = r.childsAfter
  quitting : d'.quitting = (d.quitting || r.handled.any (·.1 == .die))
  taken : d'.taken = update d.taken c (d.taken c + 1)
  processed : d'.processed = d.processed ++ [r]
  child : ∀ i, d'.child i = { (update d.child c { d.child c with up := rest }) i with
    down := (d.child i).down ++ r.mails i }

theorem any_id (q : Nat → Bool) :
    (l.any fun t => t.id == i && q t.id) = (l.any (·.id == i) && q i) := by
  induction l with
  | nil => rfl
  | cons t l ih =>
    rw [List.any_cons, List.any_cons, ih]
    by_cases h : t.id = i
    · subst h
      cases q t.id <;> simp
    · have hne : (t.id == i) = false := beq_false_of_ne h
      rw [hne, Bool.false_and, Bool.false_or, Bool.false_or]

/-- The state in which the handler of a message starts. -/
def taking (d : DaemonFork) (c : Nat) (rest : List Message) (r : Request) : DaemonFork :=
  { d.setChild c { d.child c with up := rest } with
    taken := update d.taken c (d.taken c + 1)
    processed := d.processed ++ [r] }

theorem readUp_eq : d.readUp c m rest =
    let r : Request := ⟨c, d.taken c, m, ipcDispatch (IpcSocket.line m), d.childs⟩
    match r.handled with
    | some (f, m') =>
      (ipcHandle (some c) false m' f).foldl (masterAct c (d.taken c)) (d.taking c rest r)
    | none => d.taking c rest r := by
  cases hr : ipcDispatch (IpcSocket.line m) with
  | error e => simp [readUp, Request.handled, hr, taking]
  | ok x => cases x <;> simp [readUp, Request.handled, hr, taking]

theorem Sends.taking_child {mails : Nat → List Mail} (h : Sends (d.taking c rest r) d' mails)
    (hmails : mails = r.mails) (i : Nat) :
    d'.child i = { (update d.child c { d.child c with up := rest }) i with
      down := (d.child i).down ++ r.mails i } := by
  rw [h.child i, ← hmails]
  by_cases hi : i = c
  · subst hi
    simp [taking, setChild]
  · simp [taking, setChild, hi]

/-- A handler that only sends. -/
theorem Sends.reads {mails : Nat → List Mail} (h : Sends (d.taking c rest r) d' mails)
    (hchilds : d.childs = r.childsAfter) (hdie : r.handled.any (·.1 == .die) = false)
    (hmails : mails = r.mails) : Reads d d' c rest r := by
  refine ⟨h.forked, h.childs.trans hchilds, ?_, h.taken, h.processed, h.taking_child hmails⟩
  rw [hdie, Bool.or_false]
  exact h.quitting

/-- What a handler writes that leaves out nobody. -/
theorem everyone_mails (hchilds : r.childs = d.childs)
    (hmails : ∀ i, r.mails i = if r.present i then [mail] else []) :
    (fun i => if (d.taking c rest r).childs.any (fun t => t.id == i && none != some t.id) then
      [mail] else []) = r.mails := by
  funext i
  rw [hmails, Request.present, hchilds]
  simp [taking, setChild]

/-- The handler that keeps the username of the child, and ends the others that have it. -/
theorem announced_reads (hl : (d.childs.map ChildT.id).Nodup) (hh : r.handled = some (.user, m))
    (hsrc : r.src = c) (hno : r.no = d.taken c) (hchilds : r.childs = d.childs) :
    Reads d (((d.taking c rest r).setUsername c (arg m 0)).sendSome
      ⟨.location c (d.taken c), dieMessage (arg m 0)⟩
      (fun t => t.id != c && sameName t.username (arg m 0))) c rest r := by
  have hrename : (((d.taking c rest r).setUsername c (arg m 0)).childs.map ChildT.id).Nodup :=
    map_rename_id.symm ▸ hl
  have h := sendSome_sends hrename ⟨.location c (d.taken c), dieMessage (arg m 0)⟩
    (fun t => t.id != c && sameName t.username (arg m 0))
  have hann : r.announces = some (arg m 0) := by
    unfold Request.announces
    rw [hh]
  refine ⟨h.forked, h.childs.trans ?_, h.quitting.trans ?_, h.taken, h.processed, fun i => ?_⟩
  · unfold Request.childsAfter
    rw [hann, hchilds, hsrc]
    rfl
  · rw [hh]
    exact (Bool.or_false _).symm
  · have hany := any_rename (arg m 0) (c := c) (i := i) (l := d.childs)
      (fun u => sameName u (arg m 0))
    have hmails : r.mails i = if ((d.taking c rest r).setUsername c (arg m 0)).childs.any
          (fun t => t.id == i && (t.id != c && sameName t.username (arg m 0))) then
        [⟨.location c (d.taken c), dieMessage (arg m 0)⟩] else [] := by
      unfold Request.mails
      rw [hh]
      simp only [hchilds, hsrc, hno]
      rw [← hany]
      rfl
    have hchild := h.child i
    rw [← hmails] at hchild
    refine hchild.trans ?_
    by_cases hi : i = c
    · subst hi
      simp [taking, setChild, setUsername]
    · simp [taking, setChild, setUsername, hi]

/-- A message that no handler takes. -/
theorem unhandled_reads (hh : r.handled = none) (hchilds : r.childs = d.childs) :
    Reads d (d.taking c rest r) c rest r := by
  refine ⟨rfl, ?_, ?_, rfl, rfl, fun i => ?_⟩
  · unfold Request.childsAfter Request.announces
    rw [hh]
    exact hchilds.symm
  · rw [hh]
    exact (Bool.or_false _).symm
  · by_cases hi : i = c
    · subst hi
      simp [Request.mails, hh, taking, setChild]
    · simp [Request.mails, hh, taking, setChild, hi]

theorem readUp_reads (hl : (d.childs.map ChildT.id).Nodup) :
    Reads d (d.readUp c m rest) c rest
      ⟨c, d.taken c, m, ipcDispatch (IpcSocket.line m), d.childs⟩ := by
  rw [readUp_eq]
  generalize hr : (⟨c, d.taken c, m, ipcDispatch (IpcSocket.line m), d.childs⟩ : Request) = r
  have hsrc : r.src = c := by rw [← hr]
  have hno : r.no = d.taken c := by rw [← hr]
  have hchilds : r.childs = d.childs := by rw [← hr]
  clear hr
  have hsend := fun mail p => sendSome_sends (d := d.taking c rest r) hl mail p
  have hplain : ∀ f m', r.handled = some (f, m') → f ≠ .user → d.childs = r.childsAfter := by
    intro f m' hh hf
    unfold Request.childsAfter Request.announces
    rw [hh]
    cases f <;> first | exact (hf rfl).elim | exact hchilds.symm
  dsimp only
  split
  · next f m' hh =>
    cases f with
    | wallops =>
      apply (hsend ⟨.relay c (d.taken c), m'⟩ (fun t => none != some t.id)).reads
        (hplain _ _ hh nofun) (by rw [hh]; rfl)
      exact everyone_mails hchilds fun i => by rw [Request.mails, hh, hsrc, hno]
    | rehash =>
      apply (hsend ⟨.relay c (d.taken c), { cmd := str "REHASH" }⟩
        (fun t => none != some t.id)).reads (hplain _ _ hh nofun)
          (by rw [hh]; rfl)
      exact everyone_mails hchilds fun i => by rw [Request.mails, hh, hsrc, hno]
    | die =>
      have h := hsend ⟨.relay c (d.taken c), m'⟩ (fun t => none != some t.id)
      refine ⟨h.forked, h.childs.trans (hplain _ _ hh nofun), ?_, h.taken, h.processed,
        h.taking_child (everyone_mails hchilds fun i => by rw [Request.mails, hh, hsrc, hno])⟩
      rw [hh]
      simp [ipcHandle, ipcDie, masterAct]
    | oper =>
      apply (hsend ⟨.relay c (d.taken c), m'⟩ (fun t => some c != some t.id)).reads
        (hplain _ _ hh nofun) (by rw [hh]; rfl)
      funext i
      have hany := any_id (l := d.childs) (i := i) (fun n => some c != some n)
      have hne : (some c != some i) = (i != c) := by simp [bne, eq_comm]
      simp only [Request.mails, hh, Request.present, hchilds, hsrc, hno]
      rw [← hne, ← hany]
      rfl
    | user => exact announced_reads hl hh hsrc hno hchilds
  · next hh => exact unhandled_reads hh hchilds

end DaemonFork
end Minbif
