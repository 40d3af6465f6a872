import Minbif.Irc.Message

/-! Where the files that a session receives are written. -/
namespace Minbif
open Tokens

namespace Message

/-- A quotation mark that closes the argument. -/
def closes (s : Str) : Bool := s.getLast? == some '"'

def unquote (s : Str) : Str := if closes s then s.dropLast else s

/-- The loop of `Message::rebuildWithQuotes`, with the quoted argument that is still open. -/
def rebuildLoop : Option Str → List Str → List Str
  | none, [] => []
  -- the end of the arguments closes the quotation
  | some s, [] => [unquote s]
  | none, a :: args =>
    if a.head? = some '"' ∧ hasSpace a = false then
      if closes a.tail then unquote a.tail :: rebuildLoop none args
      else rebuildLoop (some a.tail) args
    else a :: rebuildLoop none args
  | some s, a :: args =>
    if closes a then unquote (s ++ ' ' :: a) :: rebuildLoop none args
    else rebuildLoop (some (s ++ ' ' :: a)) args

def rebuildWithQuotes (args : List Str) : List Str := rebuildLoop none args

end Message

/-- A DCC SEND request; the three numbers are kept as they are written. -/
structure DccSend where
  filename : Str
  addr : Str
  port : Str
  size : Str

/-- `DCCGet::parseDCCSEND`. -/
def parseDCCSEND (line : Str) : Option DccSend :=
  if line.head? ≠ some '\x01' ∨ line.getLast? ≠ some '\x01' then none
  else
    let line := (line.drop 1).take (line.length - 2)
    match Message.rebuildWithQuotes (stringtokLoop [' '] (line.length + 1) line) with
    | [dcc, send, filename, addr, port, size] =>
      if dcc = str "DCC" ∧ send = str "SEND" then some ⟨filename, addr, port, size⟩ else none
    | _ => none

/-- The calls of `check_write_file` to the system, on a disk in a state of the type. -/
structure Disk (σ : Type) where
  opendir : σ → Str → Bool
  mkdir : σ → Str → Option σ
  /-- Whether what is there is a directory. -/
  stat : σ → Str → Option Bool
  /-- `g_access` for writing. -/
  access : σ → Str → Bool
  /-- `g_path_get_dirname`. -/
  dirname : Str → Str

variable {σ : Type} (D : Disk σ) (s : σ) (enabled : Bool) (userDir : Str)

/-- `check_write_file`: what it returns, and the disk, where the directory may be new. -/
def checkWriteFile (path filename : Str) : Bool × σ :=
  match if D.opendir s path then some s else D.mkdir s path with
  | none => (false, s)
  | some s =>
    let path := path ++ '/' :: filename
    match D.stat s path with
    | none => (D.access s (D.dirname path), s)
    | some isDir => (!isDir, s)

/-- The path that `Buddy::process_dcc_get` opens, in the constructor of `DCCGet`. -/
def processDccGet (text : Str) : Option Str :=
  if !enabled then none
  else
    (parseDCCSEND text).bind fun r =>
      let path := userDir ++ str "/upload/"
      if (checkWriteFile D s path r.filename).1 then some (path ++ '/' :: r.filename) else none

/-- The path that `BuddyIcon::send` opens; it does not ask whether transfers are enabled. -/
def sendBuddyIcon (text : Str) : Option Str :=
  (parseDCCSEND text).bind fun r =>
    let path := userDir ++ str "/buddy_icon/"
    if (checkWriteFile D s path r.filename).1 then some (path ++ '/' :: r.filename) else none

/-- The path that `Request::request_file` hands to libpurple, when it is asked where to save. -/
def requestFile (filename : Str) : Option Str :=
  if !enabled then none
  else
    let path := userDir ++ str "/downloads/"
    if (checkWriteFile D s path filename).1 then some (path ++ filename) else none

/-- A file that comes in: from the client by DCC, or from a contact. -/
inductive Incoming
  | upload (text : Str)
  | icon (text : Str)
  | download (filename : Str)

namespace Incoming

/-- Where the file is to be put. -/
def directory : Incoming → Str
  | upload _ => userDir ++ str "/upload/"
  | icon _ => userDir ++ str "/buddy_icon/"
  | download _ => userDir ++ str "/downloads/"

def path : Incoming → Option Str
  | upload text => processDccGet D s enabled userDir text
  | icon text => sendBuddyIcon D s userDir text
  | download filename => requestFile D s enabled userDir filename

/-- The name it comes with, if it is received at all. -/
def filename : Incoming → Option Str
  | upload text => if enabled then (parseDCCSEND text).map DccSend.filename else none
  | icon text => (parseDCCSEND text).map DccSend.filename
  | download name => if enabled then some name else none

end Incoming

section Paths

/-- The steps that a path takes: `.` and a doubled `/` are none. -/
def steps (path : Str) : List Str := (tokens (· == '/') path).filter (· ≠ ['.'])

/-- The path takes one step from the directory, and not to its parent. -/
def DirectChild (dir path : Str) : Prop := ∃ name, name ≠ str ".." ∧ steps path = steps dir ++ [name]

/-- One step, down. -/
def SingleName (filename : Str) : Prop := ∃ name, name ≠ str ".." ∧ steps filename = [name]

variable {dir filename : Str}

theorem steps_append (h : dir.getLast? = some '/') :
    steps (dir ++ filename) = steps dir ++ steps filename := by
  have hslash : ∀ c ∈ dir.getLast?, (c == '/') = true := by
    rw [h]
    rintro c ⟨⟩
    rfl
  rw [steps, tokens_append hslash, List.filter_append]
  rfl

theorem steps_slash : steps ('/' :: filename) = steps filename := by
  rw [steps, tokens_cons_delim rfl]
  rfl

theorem directChild_iff (h : dir.getLast? = some '/') :
    DirectChild dir (dir ++ filename) ↔ SingleName filename := by
  unfold DirectChild SingleName
  simp only [steps_append h, List.append_cancel_left_eq]

theorem directChild_slash_iff (h : dir.getLast? = some '/') :
    DirectChild dir (dir ++ '/' :: filename) ↔ SingleName filename := by
  rw [directChild_iff h]
  unfold SingleName
  rw [steps_slash]

end Paths

variable {D s enabled userDir} {i : Incoming} {p : Str}

theorem Incoming.directory_slash : (i.directory userDir).getLast? = some '/' := by
  cases i <;> simp [directory, str]

/-- The name in its directory; only `process_dcc_get` and `BuddyIcon::send` double the `/`. -/
def Incoming.join (userDir : Str) (i : Incoming) (name : Str) : Str :=
  match i with
  | upload _ | icon _ => i.directory userDir ++ '/' :: name
  | download _ => i.directory userDir ++ name

/-- The check is all that stands between the name and the disk. -/
theorem Incoming.path_eq : i.path D s enabled userDir = (i.filename enabled).bind fun name =>
    if (checkWriteFile D s (i.directory userDir) name).1 then some (i.join userDir name)
    else none := by
  cases i with
  | upload text =>
    cases enabled with
    | false => rfl
    | true =>
      change ((parseDCCSEND text).bind fun r => _) = ((parseDCCSEND text).map DccSend.filename).bind _
      rw [Option.bind_map]
      rfl
  | icon text =>
    change ((parseDCCSEND text).bind fun r => _) = ((parseDCCSEND text).map DccSend.filename).bind _
    rw [Option.bind_map]
    rfl
  | download name => cases enabled <;> rfl

theorem Incoming.join_child {name : Str} :
    DirectChild (i.directory userDir) (i.join userDir name) ↔ SingleName name := by
  have hdir : (i.directory userDir).getLast? = some '/' := Incoming.directory_slash
  cases i with
  | upload | icon => exact directChild_slash_iff hdir
  | download => exact directChild_iff hdir

/-- The file is put into its directory, and a name that leads elsewhere is refused. -/
structure Inside (D : Disk σ) (s : σ) (enabled : Bool) (userDir : Str) (i : Incoming) : Prop where
  child : ∀ p ∈ i.path D s enabled userDir, DirectChild (i.directory userDir) p
  refused : ∀ name ∈ i.filename enabled, ¬ SingleName name → i.path D s enabled userDir = none

/-- The disk takes a file of that name: there is the directory, or it can be made, and in it
there is a file to write over, or leave to make one. -/
def Disk.Takes (D : Disk σ) (s : σ) (path filename : Str) : Prop :=
  ∃ s', (D.opendir s path = true ∧ s' = s ∨ D.opendir s path = false ∧ D.mkdir s path = some s') ∧
    (D.stat s' (path ++ '/' :: filename) = some false ∨
      D.stat s' (path ++ '/' :: filename) = none ∧
        D.access s' (D.dirname (path ++ '/' :: filename)) = true)

theorem checkWriteFile_iff {path name : Str} :
    (checkWriteFile D s path name).1 = true ↔ D.Takes s path name := by
  have hmade : ∀ s', (if D.opendir s path then some s else D.mkdir s path) = some s' ↔
      (D.opendir s path = true ∧ s' = s ∨ D.opendir s path = false ∧ D.mkdir s path = some s') := by
    intro s'
    cases D.opendir s path with
    | false => simp
    | true => simp [eq_comm]
  simp only [Disk.Takes, ← hmade]
  unfold checkWriteFile
  cases (if D.opendir s path then some s else D.mkdir s path) with
  | none => simp
  | some s' => cases hstat : D.stat s' (path ++ '/' :: name) <;> simp [hstat]

/-- A file stays in its directory if and only if its name is a single one, or the disk does not
take it. -/
theorem received_inside_iff (D : Disk σ) (s : σ) (enabled : Bool) (userDir : Str) (i : Incoming) :
    Inside D s enabled userDir i ↔ ∀ name ∈ i.filename enabled,
      SingleName name ∨ ¬ D.Takes s (i.directory userDir) name := by
  constructor
  · intro h name hname
    by_cases htakes : D.Takes s (i.directory userDir) name
    · left
      have hpath : i.path D s enabled userDir = some (i.join userDir name) := by
        rw [Incoming.path_eq, hname, Option.bind_some, if_pos (checkWriteFile_iff.mpr htakes)]
      exact Incoming.join_child.mp (h.child _ hpath)
    · exact Or.inr htakes
  · intro h
    refine ⟨fun p hp => ?_, fun name hname hsingle => ?_⟩
    · rw [Incoming.path_eq] at hp
      obtain ⟨name, hname, hp⟩ := Option.bind_eq_some_iff.mp hp
      split at hp
      · next hcheck =>
        obtain rfl := Option.some.inj hp
        apply Incoming.join_child.mpr
        exact (h name hname).resolve_right (not_not_intro (checkWriteFile_iff.mp hcheck))
      · cases hp
    · rw [Incoming.path_eq, hname, Option.bind_some, if_neg]
      exact fun hcheck => (h name hname).resolve_left hsingle (checkWriteFile_iff.mp hcheck)

section Runs

/-- The user's directory and the ones in it, and no other file. -/
def userDisk : Disk Unit where
  opendir _ p := p ∈ [str "/u", str "/u/upload/", str "/u/upload//.."]
  mkdir _ _ := some ()
  stat _ p := if p ∈ [str "/u", str "/u/upload/", str "/u/upload//.."] then some true else none
  access _ p := p ∈ [str "/u", str "/u/upload/", str "/u/upload//.."]
  dirname p := (p.reverse.dropWhile (· ≠ '/')).tail.reverse

/-- The client sends a buddy a file that is named after one next to the upload directory. -/
theorem received_outside : ¬ ∀ (D : Disk Unit) (s : Unit) (enabled : Bool) (userDir : Str)
    (i : Incoming), Inside D s enabled userDir i := by
  intro h
  have hin := h userDisk () true (str "/u") (.upload (str "\x01DCC SEND ../x 1 2 3\x01"))
  obtain ⟨name, -, hsteps⟩ := hin.child (str "/u/upload//../x") (by decide)
  have hlen := congrArg List.length hsteps
  have hpath : (steps (str "/u/upload//../x")).length = 4 := by decide
  have hdir : (steps (str "/u" ++ str "/upload/")).length = 2 := by decide
  rw [hpath, List.length_append] at hlen
  change 4 = (steps (str "/u" ++ str "/upload/")).length + 1 at hlen
  rw [hdir] at hlen
  cases hlen

end Runs

end Minbif
