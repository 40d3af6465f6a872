import Minbif.Irc.Session
import Minbif.World.Sound
import Minbif.World.User

/-! The registration gate: what the flags of the User mean, whatever lines the client sent. -/
namespace Minbif
open Effect Function

/-- An authentication as this user with this password returned the object. -/
def Returned (C : SessionConf) (nick password : Str) (a : Auth) : Prop :=
  ∃ s t, (Auth.validate C.auth nick password).run s = .ok (some a) t ∨
    (Auth.generate C.auth nick password).run s = .ok (some a) t

/-- The object was returned last for this nickname and password, and has an account. -/
structure Vouched (C : SessionConf) (authFor : Option (Str × Str)) (nick password : Str)
    (a : Auth) : Prop where
  opened : a.im ≠ none
  asked : authFor = some (nick, password)
  returned : Returned C nick password a

/-- What the User has when it is registered. -/
def Granted (C : SessionConf) (s : Session) : Prop :=
  ∃ a, s.imAuth = some a ∧ s.im = a.im ∧ Vouched C s.authFor s.nickname s.password a

/-- The flags that its table entry asks for were set when the handler ran. -/
def Ran.Allowed (r : Ran) : Prop := ∀ c ∈ commands, c.cmd = r.cmd →
  (c.flags = .registered → r.registered = true) ∧ (c.flags = .oper → r.oper = true)

/-- The gate, with the IPC messages since `l₀`. -/
structure Gate (C : SessionConf) (G : Message → Prop) (l₀ : List Message) (s : Session) : Prop where
  world : s.world.Ok none
  nick : s.registered = false ∧ s.nickname = ['*'] ∨ isValidNickname s.nickname = true
  auth : s.registered = true → Granted C s
  oper : s.oper = true → s.registered = true ∧ ∃ l ∈ C.opers, s.operBy = some l
  ran : ∀ r ∈ s.ran, r.Allowed
  ipc : ∃ l, s.ipc = l₀ ++ l ∧ ∀ m ∈ l, G m

/-- Where the User stands: what it would register as, or is registered as. -/
inductive Standing
  | asks (nick password : Str)
  | registered (nick : Str)

def Stands (s : Session) : Standing → Prop
  | .asks nick password => s.registered = false ∧ s.nickname = nick ∧ s.password = password
  | .registered nick => s.registered = true ∧ s.nickname = nick

/-- The gate, and where the User stands. -/
def At (C : SessionConf) (G : Message → Prop) (l₀ : List Message) (r : Standing)
    (s : Session) : Prop := Gate C G l₀ s ∧ Stands s r

section Handlers

variable {P : Purple} {C : SessionConf} {T : Turn} {G : Message → Prop} {l₀ : List Message}
  {r : Standing} {nick password : Str} {s t : Session} {m : Message} {α : Type}

theorem Gate.at (h : Gate C G l₀ s) : ∃ r, At C G l₀ r s := by
  cases hr : s.registered with
  | false => exact ⟨.asks s.nickname s.password, h, hr, rfl, rfl⟩
  | true => exact ⟨.registered s.nickname, h, hr, rfl⟩

/-- What leaves every User where it stands keeps the gate. -/
theorem gate_triple {x : SessionM α} (h : ∀ r, Holds (At C G l₀ r) x) : Holds (Gate C G l₀) x :=
  (triple_exists fun r => (h r).weaken (fun _ => id) fun _ => And.left).pre fun _ => Gate.at

/-- What the client is told does not matter. -/
def Deaf (I : Session → Prop) : Prop :=
  ∀ s sent quits, I s → I { s with sent := sent, quits := quits }

theorem at_deaf : Deaf (At C G l₀ r) := fun s sent quits h =>
  ⟨⟨h.1.world, h.1.nick, h.1.auth, h.1.oper, h.1.ran, h.1.ipc⟩, by cases r <;> exact h.2⟩

theorem deaf_sendUser {I : Session → Prop} (hI : Deaf I) (cmd : Str)
    (sender receiver : StoredEntity) (args : List Str) :
    Holds I (sendUser cmd sender receiver args) := by
  unfold sendUser
  split
  · exact triple_modify fun s h => hI s _ s.quits h
  · exact triple_throw fun s h => h

theorem deaf_quit {I : Session → Prop} (hI : Deaf I) (reason : Str) :
    Holds I (quit reason) :=
  triple_bind (deaf_sendUser hI _ _ _ _) fun _ => triple_modify fun s h => hI s s.sent _ h

theorem triple_reply (code : Str) (args : List Str) :
    Holds (At C G l₀ r) (reply C code args) := by
  refine triple_get fun s hs => ?_
  exact (deaf_sendUser at_deaf code _ _ args).pre fun t h => h.2

theorem triple_quit (reason : Str) :
    Holds (At C G l₀ r) (quit reason) :=
  deaf_quit at_deaf reason

theorem triple_getArg (n : Nat) :
    Holds (At C G l₀ r) (getArg m n) := by
  unfold getArg
  split
  · exact triple_pure fun s h => h
  · exact triple_throw fun s h => h

theorem triple_ipcSend {cmd : Str} {args : List Str} (hG : G { cmd := cmd, args := args }) :
    Holds (At C G l₀ r) (ipcSend C cmd args) := by
  have hlog : ∀ s, At C G l₀ r s →
      At C G l₀ r { s with ipc := s.ipc ++ [{ cmd := cmd, args := args }] } := by
    intro s h
    obtain ⟨l, hl, hall⟩ := h.1.ipc
    refine ⟨⟨h.1.world, h.1.nick, h.1.auth, h.1.oper, h.1.ran, ?_⟩, by cases r <;> exact h.2⟩
    refine ⟨l ++ [{ cmd := cmd, args := args }], by simp [hl], fun m hm => ?_⟩
    rcases List.mem_append.mp hm with hm | hm
    · exact hall m hm
    · exact List.mem_singleton.mp hm ▸ hG
  unfold ipcSend
  rw [Message.addArgs_eq Message.middle_nil]
  split
  · next m hm =>
    split at hm
    · obtain rfl := Except.ok.inj hm
      exact triple_ite (fun _ => triple_bind (q := fun _ => At C G l₀ r) (triple_modify hlog)
        fun _ => triple_pure fun _ => id) fun _ => triple_pure fun _ => id
    · cases hm
  · exact triple_throw fun s h => h

theorem triple_motd : Holds (At C G l₀ r) (motd C) :=
  triple_bind (triple_reply _ _) fun _ => triple_bind (triple_forM _ fun _ _ => triple_reply _ _)
    fun _ => triple_reply _ _

theorem triple_welcome (nick : Str) :
    Holds (At C G l₀ r) (welcome C nick) :=
  triple_bind (triple_reply _ _) fun _ => triple_bind (triple_reply _ _) fun _ =>
    triple_bind (triple_reply _ _) fun _ => triple_bind (triple_reply _ _) fun _ =>
      triple_bind (triple_reply _ _) fun _ => triple_motd

/-- Nicks and channels may change under the gate, the User as it stands. -/
theorem At.world {w : World} (h : At C G l₀ r s) (hok : w.Ok none)
    (hnick : w.nicks.nickname userRef = s.nickname) (hreg : w.registered = s.registered) :
    At C G l₀ r { s with world := w } := by
  obtain ⟨hgate, hstand⟩ := h
  refine ⟨⟨hok, ?_, fun hr => ?_, fun ho => ?_, hgate.ran, hgate.ipc⟩, ?_⟩
  · simpa only [Session.registered, Session.nickname, hnick, hreg] using hgate.nick
  · obtain ⟨a, ha, him, hv⟩ := hgate.auth (hreg.symm.trans hr)
    exact ⟨a, ha, him, by simpa only [Session.nickname, hnick] using hv⟩
  · obtain ⟨hr, hby⟩ := hgate.oper ho
    exact ⟨hreg.trans hr, hby⟩
  · cases r with
    | asks nick password => exact ⟨hreg.trans hstand.1, hnick.trans hstand.2.1, hstand.2.2⟩
    | registered nick => exact ⟨hreg.trans hstand.1, hnick.trans hstand.2⟩

theorem triple_runOp {op : Op} (h : ∀ s w, At C G l₀ r s → s.world.run P op = some w →
      w.nicks.nickname userRef = s.nickname ∧ w.registered = s.registered) :
    Holds (At C G l₀ r) (runOp P op) := by
  intro s hs
  simp only [runOp, EStateM.run]
  cases hrun : s.world.run P op with
  | none => exact hs
  | some w =>
    obtain ⟨hnick, hreg⟩ := h s w hs hrun
    exact hs.world ((World.run_goes hs.1.world hrun).ok hs.1.world) hnick hreg

/-- Whatever happens once the User is registered. -/
theorem triple_runOp_registered (op : Op) :
    Holds (At C G l₀ (.registered nick)) (runOp P op) := by
  refine triple_runOp fun s w hs hrun => ?_
  have hreg : s.world.registered = true := hs.2.1
  obtain ⟨hnick, hkeep⟩ := World.run_user hs.1.world hrun (.inr hreg)
  exact ⟨hnick, (hkeep hreg).trans hreg.symm⟩

theorem triple_startUp (accounts : List AccountRef) :
    Holds (At C G l₀ r) (runOp P (.startUp accounts)) := by
  refine triple_runOp fun s w hs hrun => ?_
  refine ⟨(World.run_user hs.1.world hrun (.inl nofun)).1, ?_⟩
  simp only [World.run] at hrun
  split at hrun
  · exact Option.some.inj hrun ▸ rfl
  · exact Option.some.inj hrun ▸ World.startUp_registered hs.1.world accounts

theorem At.auth (h : At C G l₀ r s) (a : AuthState) : At C G l₀ r { s with auth := a } :=
  ⟨⟨h.1.world, h.1.nick, h.1.auth, h.1.oper, h.1.ran, h.1.ipc⟩, by cases r <;> exact h.2⟩

theorem triple_runAuth (x : AuthM α) :
    Triple (At C G l₀ r) (runAuth x)
      (fun a s => At C G l₀ r s ∧ ∃ t u, x.run t = .ok a u) fun _ => At C G l₀ r := by
  intro s hs
  simp only [runAuth, EStateM.run]
  cases hx : x s.auth with
  | ok a t => exact ⟨hs.auth t, s.auth, t, hx⟩
  | error e t => exact hs.auth t

theorem triple_openAuth (x : AuthM (Option Auth)) :
    Triple (At C G l₀ r) (openAuth P T x)
      (fun a s => At C G l₀ r s ∧ ∃ t u, x.run t = .ok a u) fun _ => At C G l₀ r := by
  refine triple_get fun s _ => ?_
  refine triple_bind (q := fun a s => At C G l₀ r s ∧ ∃ t u, x.run t = .ok a u)
    ((triple_runAuth x).pre fun _ h => h.2) fun a => ?_
  refine triple_get fun s hs => ?_
  have hret : Triple (At C G l₀ r) (pure a : SessionM (Option Auth))
      (fun a s => At C G l₀ r s ∧ ∃ t u, x.run t = .ok a u) fun _ => At C G l₀ r :=
    triple_pure fun t ht => ⟨ht, hs.2⟩
  refine Triple.conseq (triple_ite (p := At C G l₀ r)
    (fun _ => triple_bind (triple_startUp _) fun _ => hret) fun _ => hret)
    (fun t ht => ht.2.1) (fun _ _ => id) fun _ _ => id

/-- An authentication came back for the User as it stands. -/
def Answered (C : SessionConf) (G : Message → Prop) (l₀ : List Message) (nick password : Str)
    (s : Session) : Prop :=
  At C G l₀ (.asks nick password) s ∧ ∀ a, s.imAuth = some a → Vouched C s.authFor nick password a

theorem triple_setImAuth {a : Option Auth}
    (h : ∀ b, a = some b → b.im ≠ none ∧ Returned C nick password b) :
    Triple (At C G l₀ (.asks nick password)) (setImAuth a)
      (fun _ => Answered C G l₀ nick password) fun _ => At C G l₀ (.asks nick password) := by
  refine triple_modify fun s hs => ?_
  obtain ⟨hgate, hreg, hnick, hpass⟩ := hs
  refine ⟨⟨⟨hgate.world, hgate.nick, fun hr => ?_, hgate.oper, hgate.ran, hgate.ipc⟩,
    hreg, hnick, hpass⟩, fun b hb => ?_⟩
  · cases hreg.symm.trans hr
  · obtain rfl : a = some b := hb
    obtain ⟨hopen, hret⟩ := h b rfl
    exact ⟨hopen, by simp [hnick, hpass], hret⟩

theorem login_open {x : AuthM (Option Auth)}
    (hopen : Triple (fun _ => True) x Opened fun _ _ => True)
    (hret : ∀ a t u, x.run t = .ok (some a) u → Returned C nick password a)
    {f : Option Auth → SessionM Bool} {q : Bool → Session → Prop}
    (hf : ∀ a, Triple (Answered C G l₀ nick password) (f a) q
      fun _ => At C G l₀ (.asks nick password)) :
    Triple (At C G l₀ (.asks nick password)) (do let a ← openAuth P T x; setImAuth a; f a) q
      fun _ => At C G l₀ (.asks nick password) := by
  refine triple_bind (triple_openAuth x) fun a => ?_
  rintro s ⟨hs, t, u, hrun⟩
  refine triple_bind (triple_setImAuth ?_) (fun _ => hf a) s hs
  rintro b rfl
  have hb := hopen t trivial
  rw [hrun] at hb
  exact ⟨hb b rfl, hret b t u hrun⟩

theorem triple_login :
    Triple (At C G l₀ (.asks nick password)) (login P C T)
      (fun b s => At C G l₀ (.asks nick password) s ∧ (b = true → Answered C G l₀ nick password s))
      fun _ => At C G l₀ (.asks nick password) := by
  have hquit : ∀ reason, Triple (At C G l₀ (.asks nick password)) (do quit reason; return false)
      (fun b s => At C G l₀ (.asks nick password) s ∧ (b = true → Answered C G l₀ nick password s))
      fun _ => At C G l₀ (.asks nick password) :=
    fun reason => triple_bind (triple_quit reason) fun _ => triple_pure fun s hs => ⟨hs, nofun⟩
  have hdone : Triple (Answered C G l₀ nick password) (pure true : SessionM Bool)
      (fun b s => At C G l₀ (.asks nick password) s ∧ (b = true → Answered C G l₀ nick password s))
      fun _ => At C G l₀ (.asks nick password) :=
    triple_pure fun s hs => ⟨hs.1, fun _ => hs⟩
  refine triple_get fun s hs => ?_
  obtain ⟨-, -, hnick, hpass⟩ := hs
  rw [hnick, hpass]
  refine Triple.pre ?_ fun t ht => ht.2
  refine login_open (validate_opened _ _ _) (fun a t u h => ⟨t, u, .inl h⟩) fun a => ?_
  refine triple_ite (fun _ => hdone) fun _ => ?_
  refine Triple.pre ?_ fun t ht => ht.1
  refine triple_bind ((triple_runAuth _).conseq (fun _ => id) (fun _ _ => And.left) fun _ _ => id)
    fun b => triple_ite (fun _ => hquit _) fun _ => triple_ite (fun _ => hquit _) fun _ => ?_
  refine login_open (generate_opened _ _ _) (fun a t u h => ⟨t, u, .inr h⟩) fun a => ?_
  refine triple_ite (fun _ => ?_) fun _ => hdone
  have hdeaf : Deaf (Answered C G l₀ nick password) := fun s sent quits h =>
    ⟨at_deaf s sent quits h.1, h.2⟩
  exact triple_bind ((deaf_quit hdeaf _).conseq (fun _ => id) (fun _ _ => id) fun _ _ => And.left)
    fun _ => hdone

/-- The account of the User is there, and its nickname is one that a client may have. -/
theorem triple_welcomed (hvalid : isValidNickname nick = true) :
    Triple (fun s => At C G l₀ (.asks nick password) s ∧ Granted C s) (runOp P .welcome)
      (fun _ s => Gate C G l₀ s ∧ isValidNickname s.nickname = true) fun _ => Gate C G l₀ := by
  rintro s ⟨⟨hgate, hreg, hnick, -⟩, a, ha, him, hv⟩
  have hoper : s.oper = false := by
    cases ho : s.oper with
    | false => rfl
    | true => cases hreg.symm.trans (hgate.oper ho).1
  have hok : World.Ok { s.world with registered := s.world.registered || s.world.started } none :=
    (World.run_goes (P := P) hgate.world
      (show World.run P s.world .welcome = some _ from rfl)).ok hgate.world
  have hname : isValidNickname s.nickname = true := hnick ▸ hvalid
  refine ⟨⟨hok, .inr hname, fun _ => ⟨a, ha, him, hv⟩, fun ho => ?_, hgate.ran, hgate.ipc⟩, hname⟩
  cases hoper.symm.trans ho

theorem triple_takeIM :
    Triple (Answered C G l₀ nick password) takeIM
      (fun _ s => At C G l₀ (.asks nick password) s ∧ Granted C s) fun _ => Gate C G l₀ := by
  refine triple_get fun s hs => ?_
  split
  · exact triple_throw fun t ht => ht.2.1.1
  · next a ha =>
    refine triple_modify fun t ht => ?_
    obtain ⟨rfl, ⟨hgate, hreg, hnick, hpass⟩, hv⟩ := ht
    refine ⟨⟨⟨hgate.world, hgate.nick, fun hr => ?_, hgate.oper, hgate.ran, hgate.ipc⟩, hreg,
      hnick, hpass⟩, a, ha, rfl, ?_⟩
    · cases hreg.symm.trans hr
    · have hva := hv a ha
      rwa [← hnick, ← hpass] at hva

theorem triple_register (hG : ∀ n, isValidNickname n = true → G { cmd := str "USER", args := [n] })
    (hvalid : isValidNickname nick = true) :
    Ends (Answered C G l₀ nick password) (register P C T) (Gate C G l₀) := by
  refine triple_bind triple_takeIM fun _ => triple_bind (triple_welcomed hvalid) fun _ =>
    triple_get fun s hs => ?_
  suffices hrest : Ends (Gate C G l₀) _ (Gate C G l₀) from Triple.pre hrest fun t ht => ht.2.1
  have hrestore : Holds (Gate C G l₀) (restore T) := by
    unfold restore
    split
    · exact triple_throw fun _ => id
    · exact triple_pure fun _ => id
  refine triple_bind (gate_triple fun r => triple_ipcSend (hG _ hs.2)) fun _ =>
    triple_bind (gate_triple fun r => triple_welcome _) fun _ => triple_bind hrestore fun _ => ?_
  exact triple_ite (fun _ => gate_triple fun r => triple_reply _ _) fun _ => triple_pure fun _ => id

theorem triple_sendWelcome
    (hG : ∀ n, isValidNickname n = true → G { cmd := str "USER", args := [n] }) :
    Ends (At C G l₀ (.asks nick password)) (sendWelcome P C T) (Gate C G l₀) := by
  refine triple_get fun s hs => ?_
  refine triple_ite (fun _ => triple_pure fun t ht => ht.2.1) fun hgo => ?_
  have hvalid : isValidNickname nick = true := by
    obtain ⟨hgate, -, rfl, -⟩ := hs
    rcases hgate.nick with ⟨-, hstar⟩ | hvalid
    · simp [hstar] at hgo
    · exact hvalid
  have hcatch : ∀ e, Ends (Gate C G l₀) (onIMError e) (Gate C G l₀) := by
    intro e
    unfold onIMError
    split
    · exact gate_triple fun r => triple_quit _
    · exact triple_throw fun _ => id
  refine triple_tryCatch ?_ hcatch
  refine triple_bind ((triple_login (P := P) (T := T)).conseq (fun t ht => ht.2)
    (fun _ _ => id) fun _ _ => And.left) fun b => ?_
  cases b with
  | false => exact triple_pure fun t ht => ht.1.1
  | true => exact (triple_register hG hvalid).pre fun t ht => ht.2 rfl

/-- The IPC messages that a handler may write. -/
def MaySend (G : Message → Prop) : Handler → Prop
  | .nick | .user => ∀ n, isValidNickname n = true → G { cmd := str "USER", args := [n] }
  | .oper => ∀ n, isValidNickname n = true → G { cmd := str "OPER", args := [n] }
  | .wallops => ∀ n text, isValidNickname n = true → G { cmd := str "WALLOPS", args := [n, text] }
  | .die => ∀ n text, isValidNickname n = true → G { cmd := str "DIE", args := [n, text] }
  | _ => True

/-- The nickname of a registered User is one that a client may have. -/
theorem At.valid (h : At C G l₀ (.registered nick) s) : isValidNickname s.nickname = true := by
  rcases h.1.nick with ⟨hreg, -⟩ | hvalid
  · cases hreg.symm.trans h.2.1
  · exact hvalid

/-- No handler moves a registered User. -/
theorem triple_handler (h : Handler) (hG : MaySend G h) :
    Holds (At C G l₀ (.registered nick)) (h.run P C T m) := by
  have hold : ∀ {x : SessionM Unit} {s : Session}, At C G l₀ (.registered nick) s →
      (isValidNickname s.nickname = true → Holds (At C G l₀ (.registered nick)) x) →
      Ends (fun t => t = s ∧ At C G l₀ (.registered nick) t) x (At C G l₀ (.registered nick)) :=
    fun hs h => (h hs.valid).pre fun t ht => ht.2
  cases h with
  | nick =>
    change Triple _ (m_nick P C T m) _ _
    unfold m_nick
    split
    · exact triple_reply _ _
    · refine triple_get fun s hs => hold hs fun _ => ?_
      exact triple_ite (fun _ => triple_reply _ _) fun hno => (hno hs.2.1).elim
  | user =>
    refine triple_get fun s hs => hold hs fun _ => ?_
    exact triple_ite (fun _ => triple_reply _ _) fun hno => (hno hs.2.1).elim
  | pass =>
    refine triple_bind (triple_getArg 0) fun a => triple_get fun s hs => hold hs fun _ => ?_
    exact triple_ite (fun _ => triple_reply _ _) fun hno => (hno hs.2.1).elim
  | quit => exact triple_quit _
  | oper =>
    refine triple_get fun s hs => hold hs fun hvalid => ?_
    refine triple_ite (fun _ => triple_reply _ _) fun _ => triple_bind (triple_getArg 0) fun a =>
      triple_bind (triple_getArg 1) fun b => triple_ite (fun hmem => ?_) fun _ => triple_reply _ _
    refine triple_bind (q := fun _ => At C G l₀ (.registered nick)) (triple_modify fun t ht => ?_)
      fun _ => triple_bind (deaf_sendUser at_deaf _ _ _ _) fun _ => triple_bind (triple_reply _ _)
        fun _ => triple_bind (triple_ipcSend (hG _ hvalid)) fun _ => triple_pure fun _ => id
    obtain ⟨hgate, hstand⟩ := ht
    have hlogin : (a, b) ∈ C.opers := by simpa using hmem
    exact ⟨⟨hgate.world, hgate.nick, hgate.auth, fun _ => ⟨hstand.1, (a, b), hlogin, rfl⟩,
      hgate.ran, hgate.ipc⟩, hstand⟩
  | wallops =>
    refine triple_bind (triple_getArg 0) fun text => triple_get fun s hs => hold hs fun hvalid => ?_
    exact triple_bind (triple_ipcSend (hG _ text hvalid)) fun _ => triple_pure fun _ => id
  | rehash => exact triple_reply _ _
  | die =>
    refine triple_bind (triple_getArg 0) fun text => triple_get fun s hs => hold hs fun hvalid => ?_
    exact triple_bind (triple_ipcSend (hG _ text hvalid)) fun _ =>
      triple_ite (fun _ => triple_quit _) fun _ => triple_pure fun _ => id
  | other =>
    refine triple_bind (triple_forM _ fun op _ => triple_runOp_registered op) fun _ =>
      triple_bind (q := fun _ => At C G l₀ (.registered nick))
        (triple_modify fun s hs => at_deaf s _ s.quits hs) fun _ => ?_
    split
    · exact triple_throw fun _ => id
    · exact triple_pure fun _ => id

/-- The handlers that run before the registration. -/
def Handler.early : Handler → Bool
  | .nick | .user | .pass | .quit => true
  | _ => false

/-- The NICK of a client that is not registered. -/
theorem triple_nick {newnick : Str} (hvalid : isValidNickname newnick = true) :
    Triple (At C G l₀ (.asks nick password)) (runOp P (.nick newnick))
      (fun _ => At C G l₀ (.asks newnick password)) fun _ => Gate C G l₀ := by
  intro s hs
  simp only [runOp, EStateM.run]
  cases hrun : s.world.run P (.nick newnick) with
  | none => exact hs.1
  | some w =>
    obtain ⟨hgate, hreg, -, hpass⟩ := hs
    obtain ⟨hname, hreg'⟩ := World.run_nick hreg hvalid hrun
    refine ⟨⟨(World.run_goes hgate.world hrun).ok hgate.world, .inr ?_, fun hr => ?_,
      fun ho => ?_, hgate.ran, hgate.ipc⟩, hreg', hname, hpass⟩
    · rwa [Session.nickname, hname]
    · cases hreg'.symm.trans hr
    · cases hreg.symm.trans (hgate.oper ho).1

theorem triple_early (h : Handler) (hearly : h.early = true) (hG : MaySend G h) :
    Ends (At C G l₀ (.asks nick password)) (h.run P C T m) (Gate C G l₀) := by
  have hold : ∀ {x : SessionM Unit}, Holds (At C G l₀ (.asks nick password)) x →
      Ends (At C G l₀ (.asks nick password)) x (Gate C G l₀) :=
    fun h => h.weaken (fun _ => id) fun _ => And.left
  cases h with
  | nick =>
    change Triple _ (m_nick P C T m) _ _
    unfold m_nick
    split
    · exact hold (triple_reply _ _)
    · refine triple_get fun s hs => Triple.pre ?_ fun t ht => ht.2
      refine triple_ite (fun _ => hold (triple_reply _ _)) fun hreg => triple_ite
        (fun _ => hold (triple_reply _ _)) fun hvalid => ?_
      exact triple_bind (triple_nick (by simpa using hvalid)) fun _ => triple_sendWelcome hG
  | user =>
    have hgate : ∀ s, At C G l₀ (.asks nick password) s → Gate C G l₀ s := fun s => And.left
    refine triple_get fun s hs => Triple.pre ?_ fun t ht => ht.2
    refine triple_ite (fun _ => hold (triple_reply _ _)) fun _ => ?_
    refine triple_bind ((triple_getArg 0).conseq (fun _ => id) (fun _ _ => id) fun _ => hgate) fun ident =>
      triple_bind ((triple_getArg 3).conseq (fun _ => id) (fun _ _ => id) fun _ => hgate) fun real =>
        triple_bind (q := fun _ => At C G l₀ (.asks nick password))
          (triple_modify fun t ht => ?_) fun _ => triple_sendWelcome hG
    exact ⟨⟨ht.1.world, ht.1.nick, ht.1.auth, ht.1.oper, ht.1.ran, ht.1.ipc⟩, ht.2⟩
  | pass =>
    have hgate : ∀ s, At C G l₀ (.asks nick password) s → Gate C G l₀ s := fun s => And.left
    refine triple_bind ((triple_getArg 0).conseq (fun _ => id) (fun _ _ => id) fun _ => hgate) fun pass =>
      triple_get fun s hs => Triple.pre ?_ fun t ht => ht.2
    refine triple_ite (fun _ => hold (triple_reply _ _)) fun _ => triple_ite
      (fun _ => hold (triple_quit _)) fun _ => triple_ite (fun _ => hold (triple_quit _)) fun _ =>
        triple_modify fun t ht => ?_
    obtain ⟨ht, hreg, -, -⟩ := ht
    refine ⟨ht.world, ht.nick, fun hr => ?_, ht.oper, ht.ran, ht.ipc⟩
    cases hreg.symm.trans hr
  | quit => exact hold (triple_quit _)
  | _ => cases hearly

end Handlers

section Dispatch

variable {P : Purple} {C : SessionConf} {T : Turn} {G : Message → Prop} {l₀ : List Message}
  {nick : Str} {s t : Session} {m : Message} {c : CommandEntry} {line : Str}

theorem commands_nodup : (commands.map (·.cmd)).Nodup := by decide

theorem commands_early : ∀ c ∈ commands, c.flags = .none → c.handler.early = true := by decide

theorem cmd_inj {c' : CommandEntry} (hc : c ∈ commands) (hc' : c' ∈ commands)
    (h : c'.cmd = c.cmd) : c' = c := List.inj_on_of_nodup_map commands_nodup hc' hc h

/-- A handler is recorded with the flags that the table asked for. -/
theorem allowed_new (hc : c ∈ commands) (hflag : s.hasFlag c.flags = true) (n : Nat) :
    Ran.Allowed ⟨c.cmd, s.registered, s.oper, n⟩ := by
  intro c' hc' hcmd
  obtain rfl := cmd_inj hc hc' hcmd
  constructor
  · intro hf
    simpa [Session.hasFlag, hf] using hflag
  · intro hf
    simpa [Session.hasFlag, hf] using hflag

/-- The handler that a line reaches may send what it does. -/
def LineMaySend (G : Message → Prop) (line : Str) : Prop :=
  ∀ m c, Message.parse line = .ok m → commands.find? (·.cmd == m.cmd) = some c →
    MaySend G c.handler

theorem triple_dispatchLine {r : Standing} {q : Session → Prop} (hG : LineMaySend G line)
    (hq : ∀ s, At C G l₀ r s → q s)
    (hrun : ∀ m (c : CommandEntry), c ∈ commands → MaySend G c.handler →
      ∀ s, At C G l₀ r s → s.hasFlag c.flags = true →
        Ends (At C G l₀ r) (c.handler.run P C T m) q) :
    Ends (At C G l₀ r) (dispatchLine P C T line) q := by
  have hreply : ∀ code args, Ends (At C G l₀ r) (reply C code args) q :=
    fun code args => (triple_reply code args).weaken (fun _ => id) hq
  unfold dispatchLine
  split
  · exact triple_throw hq
  · next m hm =>
    split
    · exact hreply _ _
    · next c hc =>
      have hmem := List.mem_of_find?_eq_some hc
      refine triple_get fun s hs => ?_
      have htell : ∀ code args, Ends (fun t => t = s ∧ At C G l₀ r t) (reply C code args) q :=
        fun code args => (hreply code args).pre fun t ht => ht.2
      refine triple_ite (fun _ => htell _ _) fun _ => triple_ite (fun _ => triple_ite
        (fun _ => htell _ _) fun _ => htell _ _) fun hflag => ?_
      rw [Bool.not_eq_true, Bool.not_eq_false'] at hflag
      refine triple_bind (q := fun _ => At C G l₀ r) (triple_modify fun t ht => ?_) fun _ =>
        hrun m c hmem (hG m c hm hc) s hs hflag
      obtain ⟨rfl, ht, hstand⟩ := ht
      refine ⟨⟨ht.world, ht.nick, ht.auth, ht.oper, fun x hx => ?_, ht.ipc⟩, by
        cases r <;> exact hstand⟩
      rcases List.mem_append.mp hx with hx | hx
      · exact ht.ran x hx
      · exact List.mem_singleton.mp hx ▸ allowed_new hmem hflag _

/-- A registered User stays what it is, under its nickname. -/
theorem triple_line_registered (hG : LineMaySend G line) :
    Holds (At C G l₀ (.registered nick)) (dispatchLine P C T line) :=
  triple_dispatchLine hG (fun _ => id) fun _ c _ hsend _ _ _ => triple_handler c.handler hsend

/-- Every line keeps the gate, whatever it is and whoever sends it. -/
theorem triple_line (hG : LineMaySend G line) :
    Holds (Gate C G l₀) (dispatchLine P C T line) := by
  refine (triple_exists fun r => ?_).pre fun s => Gate.at
  cases r with
  | registered nick =>
    exact (triple_line_registered hG).weaken (fun _ => id) fun _ => And.left
  | asks nick password =>
    refine triple_dispatchLine hG (fun _ => And.left) fun m c hc hsend s hs hflag => ?_
    refine triple_early c.handler (commands_early c hc ?_) hsend
    cases hf : c.flags with
    | none => rfl
    | registered =>
      rw [hf] at hflag
      cases hs.2.1.symm.trans hflag
    | oper =>
      rw [hf] at hflag
      cases hs.2.1.symm.trans (hs.1.oper hflag).1

end Dispatch

section Runs

/-- What happens to a session: a line, a callback of libpurple, or a reason to close it. -/
inductive SessionEvent
  | line (T : Turn) (line : Str)
  | im (op : Op)
  | close (reason : Str)

/-- Libpurple knows nothing of the registration. -/
def Op.ofPurple : Op → Bool
  | .nick _ | .startUp _ | .welcome => false
  | _ => true

def SessionEvent.act (P : Purple) (C : SessionConf) : SessionEvent → SessionM Unit
  | .line T l => closing (dispatchLine P C T l)
  | .im op => if op.ofPurple then runOp P op else pure ()
  | .close reason => quit reason

def Session.step (P : Purple) (C : SessionConf) (s : Session) (e : SessionEvent) : Option Session :=
  match (e.act P C).run s with
  | .ok _ t => some t
  | .error _ _ => none

/-- A session as `IRC::IRC` starts it, over the accounts that exist. -/
def Session.initial (accounts : AuthState) : Session := { auth := accounts }

variable {P : Purple} {C : SessionConf} {es fs : List SessionEvent} {s t : Session}
  {accounts : AuthState}

theorem initial_gate (accounts : AuthState) :
    Gate C FromChild [] (Session.initial accounts) where
  world := World.initial_ok
  nick := .inl ⟨rfl, rfl⟩
  auth := nofun
  oper := nofun
  ran := nofun
  ipc := ⟨[], rfl, nofun⟩

/-- A session writes what a child may write. -/
theorem lineMaySend (line : Str) : LineMaySend FromChild line := by
  intro m c _ _
  cases c.handler with
  | nick => exact fun n h => .user h
  | user => exact fun n h => .user h
  | oper => exact fun n h => .oper h
  | wallops => exact fun n text h => .wallops h text
  | die => exact fun n text h => .die h text
  | _ => trivial

theorem triple_closing {I : Session → Prop} (hI : Deaf I) {x : SessionM Unit}
    (h : Holds I x) : Holds I (closing x) := by
  refine triple_tryCatch h fun e => ?_
  split
  · exact deaf_quit hI _
  · exact triple_throw fun _ => id

theorem gate_deaf {C : SessionConf} {G : Message → Prop} {l₀ : List Message} :
    Deaf (Gate C G l₀) := fun s sent quits h =>
  have ⟨_, hr⟩ := h.at
  (at_deaf s sent quits hr).1

/-- An event from libpurple leaves the User as it stands. -/
theorem triple_im {G : Message → Prop} {l₀ : List Message} {r : Standing} {op : Op}
    (hop : op.ofPurple = true) :
    Holds (At C G l₀ r) (runOp P op) := by
  refine triple_runOp fun s w hs hrun => ?_
  have hnick : ∀ nick, op ≠ .nick nick := by
    rintro nick rfl
    cases hop
  obtain ⟨hname, hkeep⟩ := World.run_user hs.1.world hrun (.inl hnick)
  refine ⟨hname, ?_⟩
  change w.registered = s.world.registered
  cases hreg : s.world.registered with
  | true => exact hkeep hreg
  | false =>
    cases op with
    | nick nick => cases hop
    | startUp accounts => cases hop
    | welcome => cases hop
    | data D => exact Option.some.inj hrun ▸ hreg
    | _ =>
      simp only [World.run, hreg, Bool.not_false, if_true, Option.some.injEq] at hrun
      exact hrun ▸ hreg

/-- Every event keeps the gate, and a registered User as it stands. -/
theorem gate_event (e : SessionEvent) :
    Holds (Gate C FromChild []) (e.act P C) ∧
      ∀ nick, Holds (At C FromChild [] (.registered nick)) (e.act P C) := by
  cases e with
  | line T l =>
    exact ⟨triple_closing gate_deaf (triple_line (lineMaySend l)), fun nick =>
      triple_closing at_deaf (triple_line_registered (lineMaySend l))⟩
  | im op =>
    have hact : (SessionEvent.im op).act P C = if op.ofPurple then runOp P op else pure () := rfl
    rw [hact]
    split
    · next hop => exact ⟨gate_triple fun r => triple_im hop, fun nick => triple_im hop⟩
    · exact ⟨triple_pure fun _ => id, fun nick => triple_pure fun _ => id⟩
  | close reason =>
    exact ⟨gate_triple fun r => triple_quit reason, fun nick => triple_quit reason⟩

theorem step_triple {I : Session → Prop} {e : SessionEvent}
    (h : Holds I (e.act P C)) (hs : I s) (hstep : s.step P C e = some t) : I t := by
  have ht := h s hs
  unfold Session.step at hstep
  cases hr : (e.act P C).run s with
  | ok a u =>
    rw [hr] at ht hstep
    exact Option.some.inj hstep ▸ ht
  | error err u =>
    rw [hr] at hstep
    cases hstep

theorem run_gate (h : Runs.run (Session.step P C) (Session.initial accounts) es = some s) :
    Gate C FromChild [] s :=
  Runs.run_invariant (I := fun _ => Gate C FromChild [])
    (fun _ _ e _ hs hstep => step_triple (gate_event e).1 hs hstep) (initial_gate accounts) h

/-- A server that opens accounts for everyone, with one operator. -/
def openConf : SessionConf where
  auth := { useConnection := false, usePam := false, useLocal := true, clientUsername := [],
            pam := fun _ _ => false, pamChauthtok := false, mkdir := fun _ => true,
            coreInit := fun _ => true }
  password := [' ']
  opers := [(str "root", str "toor")]
  serverName := str "localhost"
  motd := []
  version := str "minbif"
  ipcUp := true

/-- A client that registers and becomes an operator. -/
def aliceLines : List SessionEvent :=
  [str "PASS sesame4alice", str "NICK alice", str "USER alice * * :Alice",
    str "OPER root toor"].map fun l => .line {} l

end Runs

end Minbif
