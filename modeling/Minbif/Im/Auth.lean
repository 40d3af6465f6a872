import Mathlib.Logic.Function.Basic
import Minbif.Irc.Message
import Minbif.Lib.Effect

/-! The three authentication mechanisms over one account directory. -/
namespace Minbif
open Effect

inductive Mechanism
  | authConnection
  | authPAM
  | authLocal
deriving DecidableEq, Repr

/-- The configuration, and the answers of TLS, PAM, the file system and libpurple. -/
structure AuthEnv where
  useConnection : Bool
  usePam : Bool
  useLocal : Bool
  clientUsername : Str
  pam : Str → Str → Bool
  pamChauthtok : Bool
  mkdir : Str → Bool
  coreInit : Str → Bool

/-- The object a mechanism keeps for one user; `im` names the account it opened. -/
structure Auth where
  mech : Mechanism
  username : Str
  im : Option Str := none
  pamh : Bool := false
deriving DecidableEq, Repr

structure AuthState where
  /-- The existing user directories, each with its `/minbif/password`. -/
  password : Str → Option Str := fun _ => none
  /-- `Purple::im`, the one instance of the process. -/
  purple : Option Str := none
  notices : List Str := []
  /-- The passwords ever stored for each account, which no code reads. -/
  stored : Str → List Str := fun _ => []

abbrev AuthM := EStateM Exn AuthState

/-- `IM::exists`: the directory can be opened. -/
def imExists (username : Str) : AuthM Bool := return ((← get).password username).isSome

/-- `IM::IM`, before libpurple: a fresh directory holds the default of `minbif_prefs_init`. -/
def openUserDir (env : AuthEnv) (username : Str) : AuthM Unit := do
  if ((← get).password username).isNone then
    if env.mkdir username then
      modify fun s => { s with password := Function.update s.password username (some []) }
    else throw (.imError (str "Unable to create user directory"))

/-- `Purple::init`: the process keeps the instance even when the core does not start. -/
def purpleInit (env : AuthEnv) (username : Str) : AuthM Unit := do
  if (← get).purple.isSome then throw (.imError (str "These is already a purple instance!"))
  else
    modify fun s => { s with purple := some username }
    if !env.coreInit username then
      throw (.imError (str "Initialization of the Purple core failed."))

/-- `new IM(irc, username)`. -/
def newIM (env : AuthEnv) (username : Str) : AuthM Str := do
  openUserDir env username
  purpleInit env username
  return username

def imGetPassword (im : Str) : AuthM Str := return ((← get).password im).getD []

def imSetPassword (im password : Str) : AuthM Unit :=
  modify fun s => { s with
    password := Function.update s.password im (some password)
    stored := Function.update s.stored im (password :: s.stored im) }

/-- What `AuthLocal::setPassword` accepts. -/
def goodPassword (password : Str) : Bool := !(Message.hasSpace password || password.length < 8)

namespace Auth

def authExists (a : Auth) : AuthM Bool :=
  match a.mech with
  | .authConnection => return true
  | .authPAM => return true
  | .authLocal => imExists a.username

/-- `authenticate`: the object with its IM, or nothing. -/
def authenticate (env : AuthEnv) (a : Auth) (password : Str) : AuthM (Option Auth) := do
  match a.mech with
  | .authConnection =>
    if !(← imExists a.username) then return none
    if env.clientUsername = a.username then
      return some { a with im := some (← newIM env a.username) }
    return none
  | .authPAM =>
    if env.pam a.username password then
      return some { a with im := some (← newIM env a.username), pamh := true }
    return none
  | .authLocal =>
    if !(← imExists a.username) then return none
    let im ← newIM env a.username
    if (← imGetPassword im) = password then return some { a with im := some im }
    return none

def setPassword (env : AuthEnv) (a : Auth) (password : Str) : AuthM Bool := do
  match a.mech with
  | .authConnection => return false
  | .authPAM =>
    if !a.pamh then throw (.imError (str "Cannot change password if not authenticated"))
    return env.pamChauthtok
  | .authLocal =>
    if !goodPassword password then
      modify fun s => { s with notices := s.notices ++
        [str "Password must be at least 8 characters, and cannot contain whitespaces."] }
      return false
    match a.im with
    | some im => imSetPassword im password; return true
    | none => throw .assertFailed

/-- `Auth::create`, which every mechanism's own `create` ends in. -/
def createBase (env : AuthEnv) (a : Auth) (password : Str) : AuthM Auth := do
  if (← a.authExists) then throw (.unableToCreate (str "Already exists."))
  let a := { a with im := some (← newIM env a.username) }
  let _ ← a.setPassword env password
  return a

def create (env : AuthEnv) (a : Auth) (password : Str) : AuthM Auth := do
  match a.mech with
  | .authConnection =>
    if env.clientUsername ≠ a.username then
      throw (.imError (str "No connection authentication"))
    a.createBase env password
  | .authPAM =>
    if !env.pam a.username password then
      throw (.imError (str "PAM: Incorrect login/password"))
    { a with pamh := true }.createBase env password
  | .authLocal =>
    if password.isEmpty then
      throw (.unableToCreate (str "Please set a password for this new account"))
    a.createBase env password

def getMechanisms (env : AuthEnv) (username : Str) : List Auth :=
  (if env.useConnection then [⟨.authConnection, username, none, false⟩] else []) ++
  (if env.usePam then [⟨.authPAM, username, none, false⟩] else []) ++
  (if env.useLocal then [⟨.authLocal, username, none, false⟩] else [])

/-- The loop of `Auth::validate`: once a mechanism is chosen the others are deleted. -/
def validateLoop (env : AuthEnv) (password : Str) : List Auth → AuthM (Option Auth)
  | [] => return none
  | m :: ms => do
    if !(← m.authExists) then validateLoop env password ms
    else match (← m.authenticate env password) with
      | some ok => return some ok
      | none => validateLoop env password ms

def validate (env : AuthEnv) (username password : Str) : AuthM (Option Auth) := do
  if (getMechanisms env username).isEmpty then
    throw (.imError (str "Login disabled (please consult your administrator)"))
  validateLoop env password (getMechanisms env username)

/-- The loop of `Auth::generate`, with the last `UnableToCreate` reason. -/
def generateLoop (env : AuthEnv) (password : Str) : List Auth → Str → AuthM (Option Auth × Str)
  | [], err => return (none, err)
  | m :: ms, err => fun s =>
    match (m.create env password).run s with
    | .ok ok s => .ok (some ok, err) s
    | .error (.unableToCreate reason) s => generateLoop env password ms reason s
    | .error e s => .error e s

def generate (env : AuthEnv) (username password : Str) : AuthM (Option Auth) := do
  if (getMechanisms env username).isEmpty then
    throw (.imError (str "Private server: account creation disabled"))
  let (ok, err) ← generateLoop env password (getMechanisms env username) []
  if ok.isNone && !err.isEmpty then
    throw (.imError (str "Unable to create account: " ++ err))
  return ok

end Auth

/-- Stored passwords passed the check, and a directory holds one of them or the default. -/
structure AuthSound (s : AuthState) : Prop where
  cell : ∀ u p, s.password u = some p → p = [] ∨ p ∈ s.stored u
  good : ∀ u, ∀ p ∈ s.stored u, goodPassword p = true

abbrev KeepsSound {α : Type} (x : AuthM α) : Prop := Keeps (Preserves AuthSound) x

variable {env : AuthEnv} {s t : AuthState} {a b : Auth} {u p : Str}

theorem keepsSound_openUserDir (env : AuthEnv) (u : Str) : KeepsSound (openUserDir env u) := by
  refine keeps_bind keeps_get fun s => keeps_ite (keeps_ite (keeps_modify ?_) (keeps_throw _))
    (keeps_pure _)
  intro s h
  refine ⟨fun v p hv => ?_, h.good⟩
  rcases eq_or_ne v u with rfl | hne
  · exact .inl (by simpa using hv.symm)
  · exact h.cell v p (by simpa [hne] using hv)

theorem keepsSound_purpleInit (env : AuthEnv) (u : Str) : KeepsSound (purpleInit env u) := by
  refine keeps_bind keeps_get fun s => keeps_ite (keeps_throw _) (keeps_bind (keeps_modify ?_)
    fun _ => keeps_ite (keeps_throw _) (keeps_pure _))
  exact fun s h => ⟨h.cell, h.good⟩

theorem mem_getMechanisms (h : a ∈ Auth.getMechanisms env u) :
    a.username = u ∧ (a.mech = .authLocal → env.useLocal = true) := by
  simp only [Auth.getMechanisms, List.mem_append, List.mem_ite_nil_right, List.mem_singleton] at h
  rcases h with (⟨_, rfl⟩ | ⟨_, rfl⟩) | ⟨hl, rfl⟩
  · exact ⟨rfl, by simp⟩
  · exact ⟨rfl, by simp⟩
  · exact ⟨rfl, fun _ => hl⟩

section Primitives

variable {R : AuthState → AuthState → Prop} [IsTrans AuthState R]

/-- What is kept by all that the mechanisms do to the account of this user. -/
structure Primitive (R : AuthState → AuthState → Prop) (env : AuthEnv) (u : Str) : Prop where
  openDir : Keeps R (openUserDir env u)
  init : Keeps R (purpleInit env u)
  set : ∀ p, goodPassword p = true → Keeps R (imSetPassword u p)
  notice : ∀ s n, R s { s with notices := n }

theorem newIM_bind {α : Type} (f : Str → AuthM α) : (newIM env u >>= f) =
    openUserDir env u >>= fun _ => purpleInit env u >>= fun _ => f u := by
  simp [newIM]

/-- A computation goes on with the account that it has opened, which is the one of the user. -/
theorem Primitive.newIM {α : Type} (h : Primitive R env u) {f : Str → AuthM α}
    (hf : Keeps R (f u)) : Keeps R (newIM env u >>= f) := by
  rw [newIM_bind]
  exact keeps_bind h.openDir fun _ => keeps_bind h.init fun _ => hf

variable [Std.Refl R]

theorem keeps_setPassword (hset : ∀ im, a.im = some im → goodPassword p = true →
      Keeps R (imSetPassword im p)) (hnotice : ∀ s n, R s { s with notices := n }) :
    Keeps R (a.setPassword env p) := by
  unfold Auth.setPassword
  cases a.mech with
  | authConnection => exact keeps_pure _
  | authPAM => exact keeps_ite (keeps_throw _) (keeps_pure _)
  | authLocal =>
    cases hp : goodPassword p with
    | false => exact keeps_bind (keeps_modify fun s => hnotice s _) fun _ => keeps_pure _
    | true =>
      cases him : a.im with
      | none => exact keeps_throw _
      | some im => exact keeps_bind (hset im him hp) fun _ => keeps_pure _

theorem keeps_authExists (a : Auth) : Keeps R a.authExists := by
  unfold Auth.authExists imExists
  cases a.mech
  · exact keeps_pure _
  · exact keeps_pure _
  · exact keeps_bind keeps_get fun _ => keeps_pure _

theorem Primitive.authenticate (h : Primitive R env a.username) :
    Keeps R (a.authenticate env p) := by
  have hexists : Keeps R (imExists a.username) := keeps_bind keeps_get fun _ => keeps_pure _
  unfold Auth.authenticate
  cases a.mech with
  | authConnection =>
    exact keeps_bind hexists fun _ => keeps_ite (keeps_pure _)
      (keeps_ite (h.newIM (keeps_pure _)) (keeps_pure _))
  | authPAM => exact keeps_ite (h.newIM (keeps_pure _)) (keeps_pure _)
  | authLocal =>
    refine keeps_bind hexists fun _ => keeps_ite (keeps_pure _) (h.newIM (keeps_bind ?_ fun _ => ?_))
    · exact keeps_bind keeps_get fun _ => keeps_pure _
    · exact keeps_ite (keeps_pure _) (keeps_pure _)

theorem Primitive.createBase (h : Primitive R env a.username) : Keeps R (a.createBase env p) := by
  refine keeps_bind (keeps_authExists a) fun _ => keeps_ite (keeps_throw _)
    (h.newIM (keeps_bind (keeps_setPassword (fun im him hp => ?_) h.notice) fun _ => keeps_pure _))
  obtain rfl := Option.some.inj him
  exact h.set p hp

theorem Primitive.create (h : Primitive R env a.username) : Keeps R (a.create env p) := by
  have hbase : ∀ b : Auth, b.username = a.username → Keeps R (b.createBase env p) :=
    fun b hb => (hb ▸ h : Primitive R env b.username).createBase
  unfold Auth.create
  cases a.mech <;> exact keeps_ite (keeps_throw _) (hbase _ rfl)

theorem Primitive.validateLoop (h : Primitive R env u) {ms : List Auth}
    (hms : ∀ m ∈ ms, m.username = u) : Keeps R (Auth.validateLoop env p ms) := by
  induction ms with
  | nil => exact keeps_pure _
  | cons m ms ih =>
    rw [List.forall_mem_cons] at hms
    have hm : Primitive R env m.username := hms.1 ▸ h
    refine keeps_bind (keeps_authExists m) fun _ => keeps_ite (ih hms.2)
      (keeps_bind hm.authenticate fun r => ?_)
    cases r with
    | none => exact ih hms.2
    | some a => exact keeps_pure _

theorem Primitive.validate (h : Primitive R env u) : Keeps R (Auth.validate env u p) :=
  keeps_ite (keeps_throw _) (h.validateLoop fun _ hm => (mem_getMechanisms hm).1)

theorem Primitive.generateLoop (h : Primitive R env u) {ms : List Auth} {err : Str}
    (hms : ∀ m ∈ ms, m.username = u) : Keeps R (Auth.generateLoop env p ms err) := by
  induction ms generalizing err with
  | nil => exact keeps_pure _
  | cons m ms ih =>
    rw [List.forall_mem_cons] at hms
    have hm : Primitive R env m.username := hms.1 ▸ h
    intro s
    have hcreate := hm.create (p := p) s
    simp only [Auth.generateLoop, EStateM.run] at hcreate ⊢
    split
    · simp_all
    · next reason t hr =>
      rw [hr] at hcreate
      exact IsTrans.trans _ _ _ hcreate (ih hms.2 t)
    · simp_all

theorem Primitive.generate (h : Primitive R env u) : Keeps R (Auth.generate env u p) :=
  keeps_ite (keeps_throw _) (keeps_bind (h.generateLoop fun _ hm => (mem_getMechanisms hm).1) fun _ =>
    keeps_ite (keeps_throw _) (keeps_pure _))

end Primitives

theorem keepsSound_imSetPassword (im : Str) (hp : goodPassword p = true) :
    KeepsSound (imSetPassword im p) := by
  refine keeps_modify fun s h => ⟨fun v q hv => ?_, fun v q hv => ?_⟩
  · rcases eq_or_ne v im with rfl | hne
    · exact .inr (by simp_all)
    · simpa [hne] using h.cell v q (by simpa [hne] using hv)
  · rcases eq_or_ne v im with rfl | hne
    · rcases List.mem_cons.mp (by simpa using hv) with rfl | hq
      · exact hp
      · exact h.good v q hq
    · exact h.good v q (by simpa [hne] using hv)

theorem keepsSound_setPassword (env : AuthEnv) (a : Auth) (p : Str) :
    KeepsSound (a.setPassword env p) :=
  keeps_setPassword (fun im _ hp => keepsSound_imSetPassword im hp) fun _ _ h => ⟨h.cell, h.good⟩

theorem soundPrimitive (env : AuthEnv) (u : Str) : Primitive (Preserves AuthSound) env u where
  openDir := keepsSound_openUserDir env u
  init := keepsSound_purpleInit env u
  set := fun _ hp => keepsSound_imSetPassword u hp
  notice := fun _ _ h => ⟨h.cell, h.good⟩

theorem keepsSound_validate (env : AuthEnv) (u p : Str) : KeepsSound (Auth.validate env u p) :=
  (soundPrimitive env u).validate

theorem keepsSound_generate (env : AuthEnv) (u p : Str) : KeepsSound (Auth.generate env u p) :=
  (soundPrimitive env u).generate

/-- What a mechanism returned has opened an account. -/
def Opened (r : Option Auth) (_ : AuthState) : Prop := ∀ a, r = some a → a.im ≠ none

theorem opened_none (s : AuthState) : Opened none s := nofun

theorem authenticate_opened (env : AuthEnv) (a : Auth) (p : Str) :
    Triple (fun _ => True) (a.authenticate env p) Opened fun _ _ => True := by
  have hopen : ∀ f : Str → Auth, (∀ u, (f u).im ≠ none) → Triple (fun _ => True)
      (do let im ← newIM env a.username; return some (f im)) Opened fun _ _ => True := by
    intro f hf
    refine triple_bind triple_true fun im => triple_pure fun s _ b hb => ?_
    obtain rfl := Option.some.inj hb
    exact hf im
  have hnone : Triple (fun _ => True) (pure none : AuthM (Option Auth)) Opened fun _ _ => True :=
    triple_pure fun s _ => opened_none s
  unfold Auth.authenticate
  cases a.mech with
  | authConnection =>
    refine triple_bind triple_true fun _ => triple_ite (fun _ => hnone) fun _ =>
      triple_ite (fun _ => hopen _ ?_) fun _ => hnone
    exact fun u => Option.some_ne_none u
  | authPAM =>
    refine triple_ite (fun _ => hopen _ ?_) fun _ => hnone
    exact fun u => Option.some_ne_none u
  | authLocal =>
    refine triple_bind triple_true fun _ => triple_ite (fun _ => hnone) fun _ =>
      triple_bind triple_true fun im => triple_bind triple_true fun _ =>
        triple_ite (fun _ => triple_pure fun s _ b hb => ?_) fun _ => hnone
    obtain rfl := Option.some.inj hb
    exact Option.some_ne_none im

theorem validateLoop_opened (env : AuthEnv) (p : Str) (ms : List Auth) :
    Triple (fun _ => True) (Auth.validateLoop env p ms) Opened fun _ _ => True := by
  induction ms with
  | nil => exact triple_pure fun s _ => opened_none s
  | cons m ms ih =>
    refine triple_bind triple_true fun _ => triple_ite (fun _ => ih) fun _ =>
      triple_bind (authenticate_opened env m p) fun r => ?_
    cases r with
    | none => exact ih.conseq (fun _ _ => trivial) (fun _ _ => id) fun _ _ => id
    | some a => exact triple_pure fun s h => h

theorem validate_opened (env : AuthEnv) (u p : Str) :
    Triple (fun _ => True) (Auth.validate env u p) Opened fun _ _ => True :=
  triple_ite (fun _ => triple_throw fun _ _ => trivial) fun _ => validateLoop_opened env p _

theorem create_opened (env : AuthEnv) (a : Auth) (p : Str) :
    Triple (fun _ => True) (a.create env p) (fun b _ => b.im ≠ none) fun _ _ => True := by
  have hbase : ∀ a : Auth, Triple (fun _ => True) (a.createBase env p) (fun b _ => b.im ≠ none)
      fun _ _ => True := fun a =>
    triple_bind triple_true fun _ => triple_ite (fun _ => triple_throw fun _ _ => trivial) fun _ =>
      triple_bind triple_true fun im => triple_bind triple_true fun _ =>
        triple_pure fun _ _ => Option.some_ne_none im
  unfold Auth.create
  cases a.mech <;> exact triple_ite (fun _ => triple_throw fun _ _ => trivial) fun _ => hbase _

theorem generateLoop_opened (env : AuthEnv) (p : Str) (ms : List Auth) (err : Str) :
    Triple (fun _ => True) (Auth.generateLoop env p ms err) (fun r => Opened r.1) fun _ _ => True := by
  induction ms generalizing err with
  | nil => exact triple_pure fun s _ => opened_none s
  | cons m ms ih =>
    intro s _
    have hm := create_opened env m p s trivial
    simp only [Auth.generateLoop, EStateM.run] at hm ⊢
    cases hr : m.create env p s with
    | ok a t =>
      simp only [hr] at hm ⊢
      intro b hb
      obtain rfl := Option.some.inj hb
      exact hm
    | error e t =>
      cases e with
      | unableToCreate reason => exact ih reason t trivial
      | _ => trivial

theorem generate_opened (env : AuthEnv) (u p : Str) :
    Triple (fun _ => True) (Auth.generate env u p) Opened fun _ _ => True :=
  triple_ite (fun _ => triple_throw fun _ _ => trivial) fun _ =>
    triple_bind (generateLoop_opened env p _ _) fun _ =>
      triple_ite (fun _ => triple_throw fun _ _ => trivial) fun _ => triple_pure fun _ h => h

end Minbif
