import Minbif.Im.AuthHistory
import Minbif.Irc.Registration

/-! What the rest of a buffer does after a line that closes the session. -/
namespace Minbif
open Effect Message

/-- The credentials give no session: they are refused, or the account cannot be opened. -/
def Refused (C : SessionConf) (T : Turn) (auth : AuthState) (nick password : Str) : Prop :=
  match (Auth.validate C.auth nick password).run auth with
  | .error (.imError _) _ => True
  | .error _ _ => False
  | .ok (some _) _ => T.restore.isSome = true
  | .ok none t =>
    (t.password nick).isSome = true ∨ (C.password ≠ [' '] ∧ password ≠ C.password) ∨
      match (Auth.generate C.auth nick password).run t with
      | .error (.imError _) _ => True
      | .ok (some _) _ => T.restore.isSome = true
      | _ => False

/-- The commands that close the session, in the state they come in. -/
def Closes (C : SessionConf) (T : Turn) (s : Session) (m : Message) : Handler → Prop
  | .quit => True
  | .pass => ∃ password, m.args.head? = some password ∧ s.registered = false ∧
      (password.length < 8 ∨ hasSpace password = true)
  | .die => m.args ≠ [] ∧ C.ipcUp = false
  | .nick => ∃ nick, m.args.head? = some nick ∧ s.registered = false ∧
      isValidNickname nick = true ∧ s.identname ≠ [] ∧ Refused C T s.auth nick s.password
  | .user => s.registered = false ∧ s.nickname ≠ ['*'] ∧
      (∃ ident, m.args.head? = some ident ∧ ident ≠ []) ∧ Refused C T s.auth s.nickname s.password
  | _ => False

section Quits

variable {P : Purple} {C : SessionConf} {T : Turn} {s t u : Session} {m : Message} {α : Type}
  {l : List Str}

/-- Nothing is closed, and no exception is an `IMError`. -/
abbrev Calm (l : List Str) (x : SessionM α) : Prop :=
  Triple (fun s => s.quits = l) x (fun _ s => s.quits = l) fun e s =>
    s.quits = l ∧ ∀ reason, e ≠ .imError reason

theorem calm_sendUser (cmd : Str) (sender receiver : StoredEntity) (args : List Str) :
    Calm l (sendUser cmd sender receiver args) := by
  unfold sendUser
  rw [addArgs_eq middle_nil]
  split
  · exact triple_modify fun s hs => hs
  · next e he =>
    split at he
    · cases he
    · obtain rfl := Except.error.inj he
      exact triple_throw fun s hs => ⟨hs, nofun⟩

theorem calm_reply (code : Str) (args : List Str) : Calm l (reply C code args) :=
  triple_get fun _ _ => (calm_sendUser code _ _ args).pre fun _ ht => ht.2

theorem calm_ipcSend (cmd : Str) (args : List Str) : Calm l (ipcSend C cmd args) := by
  unfold ipcSend
  rw [addArgs_eq middle_nil]
  split
  · refine triple_ite (fun _ => triple_bind (q := fun _ s => s.quits = l)
      (triple_modify fun s hs => hs) fun _ => triple_pure fun s hs => hs) fun _ => ?_
    exact triple_pure fun s hs => hs
  · next e he =>
    split at he
    · cases he
    · obtain rfl := Except.error.inj he
      exact triple_throw fun s hs => ⟨hs, nofun⟩

theorem calm_runOp (op : Op) : Calm l (runOp P op) := by
  intro s hs
  simp only [runOp, EStateM.run]
  cases s.world.run P op with
  | none =>
    refine ⟨hs, ?_⟩
    intro reason h
    cases h
  | some w => exact hs

theorem calm_getArg (n : Nat) : Calm l (getArg m n) := by
  unfold getArg Message.getArg
  cases m.args[n]? with
  | none => exact triple_throw fun s hs => ⟨hs, nofun⟩
  | some a => exact triple_pure fun s hs => hs

theorem calm_welcome (nick : Str) : Calm l (welcome C nick) := by
  have hmotd : Calm l (motd C) := by
    refine triple_bind (calm_reply _ _) fun _ => triple_bind ?_ fun _ => calm_reply _ _
    have hall : ∀ l' : List Str, Calm l (l'.forM fun a => reply C (str "372") [str "- " ++ a]) := by
      intro l'
      induction l' with
      | nil => exact triple_pure fun s hs => hs
      | cons a l' ih => exact triple_bind (calm_reply _ _) fun _ => ih
    exact hall C.motd
  exact triple_bind (calm_reply _ _) fun _ => triple_bind (calm_reply _ _) fun _ =>
    triple_bind (calm_reply _ _) fun _ => triple_bind (calm_reply _ _) fun _ =>
      triple_bind (calm_reply _ _) fun _ => hmotd

theorem quit_quits (reason : Str) (s : Session) :
    ∃ sent, (quit reason).run s = .ok () { s with sent := sent, quits := s.quits ++ [reason] } := by
  refine ⟨s.sent ++ [⟨str "ERROR", .unset, .unset, [str "Closing Link: " ++ reason]⟩], ?_⟩
  rfl

/-- The second half of a registration closes nothing itself; its `IMError` is `im->restore()`. -/
theorem register_quits : Triple (fun s => s.quits = l) (register P C T)
    (fun _ s => s.quits = l ∧ T.restore = none)
    fun e s => s.quits = l ∧ ∀ reason, e = .imError reason → T.restore.isSome = true := by
  have hcalm : ∀ {β : Type} {x : SessionM β}, Calm l x → Triple (fun s => s.quits = l) x
      (fun _ s => s.quits = l)
      fun e s => s.quits = l ∧ ∀ reason, e = .imError reason → T.restore.isSome = true :=
    fun h => h.conseq (fun _ => id) (fun _ _ => id) fun e s hs =>
      ⟨hs.1, fun reason he => (hs.2 reason he).elim⟩
  have htake : Calm l takeIM := by
    refine triple_get fun s _ => ?_
    split
    · exact triple_throw fun t ht => ⟨ht.2, nofun⟩
    · exact triple_modify fun t ht => ht.2
  have hrestore : Triple (fun s => s.quits = l) (restore T)
      (fun _ s => s.quits = l ∧ T.restore = none)
      fun e s => s.quits = l ∧ ∀ reason, e = .imError reason → T.restore.isSome = true := by
    unfold restore
    split
    · next reason hr => exact triple_throw fun s hs => ⟨hs, fun _ _ => by rw [hr]; rfl⟩
    · next hr => exact triple_pure fun s hs => ⟨hs, hr⟩
  refine triple_bind (hcalm htake) fun _ => triple_bind (hcalm (calm_runOp _)) fun _ =>
    triple_get fun s _ => Triple.pre ?_ fun t ht => ht.2
  refine triple_bind (hcalm (calm_ipcSend _ _)) fun _ => triple_bind (hcalm (calm_welcome _))
    fun _ => triple_bind hrestore fun _ => triple_ite (fun _ => ?_) fun _ => triple_pure fun _ => id
  by_cases hr : T.restore = none
  · exact (hcalm (calm_reply _ _)).conseq (fun _ => And.left) (fun _ s hs => ⟨hs, hr⟩) fun _ _ => id
  · exact fun s hs => (hr hs.2).elim

theorem runAuth_run (x : AuthM α) (s : Session) : (runAuth x).run s = match x.run s.auth with
    | .ok a t => .ok a { s with auth := t }
    | .error e t => .error e { s with auth := t } := rfl

theorem runOp_run (op : Op) (s : Session) : (runOp P op).run s = match s.world.run P op with
    | some w => .ok () { s with world := w }
    | none => .error .assertFailed s := rfl

/-- An authentication that fails, or one that returns, possibly with a start of libpurple. -/
theorem openAuth_run (x : AuthM (Option Auth)) (s : Session) : match x.run s.auth with
    | .ok a t => ∃ w, (openAuth P T x).run s = .ok a { s with auth := t, world := w }
    | .error e t => (openAuth P T x).run s = .error e { s with auth := t } := by
  unfold openAuth
  simp only [EStateM.run_bind, EStateM.run_get, runAuth_run]
  cases x.run s.auth with
  | error e t => rfl
  | ok a t =>
    dsimp only
    split
    · have hstart : ∃ w, s.world.run P (.startUp T.accounts) = some w := by
        simp only [World.run]
        split
        · exact ⟨_, rfl⟩
        · exact ⟨_, rfl⟩
      obtain ⟨w, hw⟩ := hstart
      refine ⟨w, ?_⟩
      rw [EStateM.run_bind, runOp_run]
      dsimp only
      rw [hw]
      rfl
    · exact ⟨s.world, rfl⟩

theorem setImAuth_run (a : Option Auth) (s : Session) : (setImAuth a).run s =
    .ok () { s with imAuth := a, authFor := a.map fun _ => (s.nickname, s.password) } := rfl

/-- What `login` comes to, by what the mechanisms say. -/
theorem login_run (s : Session) :
    match (Auth.validate C.auth s.nickname s.password).run s.auth with
    | .error e _ => ∃ u, (login P C T).run s = .error e u ∧ u.quits = s.quits
    | .ok (some _) _ => ∃ u, (login P C T).run s = .ok true u ∧ u.quits = s.quits
    | .ok none t =>
      if (t.password s.nickname).isSome = true ∨ (C.password ≠ [' '] ∧ s.password ≠ C.password) then
        ∃ u reason, (login P C T).run s = .ok false u ∧ u.quits = s.quits ++ [reason]
      else match (Auth.generate C.auth s.nickname s.password).run t with
        | .error e _ => ∃ u, (login P C T).run s = .error e u ∧ u.quits = s.quits
        | .ok (some _) _ => ∃ u, (login P C T).run s = .ok true u ∧ u.quits = s.quits
        | .ok none _ => ∃ u, (login P C T).run s = .ok true u ∧ u.imAuth = none := by
  have hopen := openAuth_run (P := P) (T := T) (Auth.validate C.auth s.nickname s.password) s
  unfold login
  simp only [EStateM.run_bind, EStateM.run_get]
  cases hv : (Auth.validate C.auth s.nickname s.password).run s.auth with
  | error e t =>
    rw [hv] at hopen
    rw [hopen]
    exact ⟨_, rfl, rfl⟩
  | ok a t =>
    rw [hv] at hopen
    obtain ⟨w, hopen⟩ := hopen
    rw [hopen]
    simp only [setImAuth_run]
    cases a with
    | some a => exact ⟨_, rfl, rfl⟩
    | none =>
      simp only [Option.isSome_none, Bool.false_eq_true, if_false, EStateM.run_bind, runAuth_run,
        run_imExists]
      generalize hstate : Session.mk w s.identname s.realname s.password s.oper s.im none t s.sent
        s.ipc s.quits s.ran s.operBy _ = v
      have hquit : ∀ reason, ∃ u, (do quit reason; return false : SessionM Bool).run v =
          .ok false u ∧ u.quits = s.quits ++ [reason] := by
        intro reason
        obtain ⟨sent, hq⟩ := quit_quits reason v
        refine ⟨_, by rw [EStateM.run_bind, hq]; rfl, ?_⟩
        rw [← hstate]
      by_cases hex : (t.password s.nickname).isSome = true
      · rw [if_pos (.inl hex), if_pos hex]
        obtain ⟨u, hu⟩ := hquit (str "Incorrect credentials")
        exact ⟨u, _, hu⟩
      · rw [if_neg hex]
        by_cases hglobal : C.password ≠ [' '] ∧ s.password ≠ C.password
        · rw [if_pos (.inr hglobal), if_pos hglobal]
          obtain ⟨u, hu⟩ := hquit
            (str "This server is protected by a global private password.  Ask administrator.")
          exact ⟨u, _, hu⟩
        · rw [if_neg (not_or.mpr ⟨hex, hglobal⟩), if_neg hglobal]
          have hopen := openAuth_run (P := P) (T := T) (Auth.generate C.auth s.nickname s.password) v
          have hauth : v.auth = t := by rw [← hstate]
          have hq : v.quits = s.quits := by rw [← hstate]
          rw [hauth] at hopen
          cases hg : (Auth.generate C.auth s.nickname s.password).run t with
          | error e t' =>
            rw [hg] at hopen
            rw [EStateM.run_bind, hopen]
            exact ⟨_, rfl, hq⟩
          | ok a t' =>
            rw [hg] at hopen
            obtain ⟨w', hopen⟩ := hopen
            rw [EStateM.run_bind, hopen]
            simp only [EStateM.run_bind, setImAuth_run]
            cases a with
            | some a => exact ⟨_, rfl, hq⟩
            | none => exact ⟨_, rfl, rfl⟩

/-- The session was closed once, if the condition holds, or else not at all. -/
def ClosedIf (p : Prop) (s u : Session) : Prop :=
  (p ∧ ∃ reason, u.quits = s.quits ++ [reason]) ∨ (¬ p ∧ u.quits = s.quits)

theorem ClosedIf.ne_iff {p : Prop} (h : ClosedIf p s u) : u.quits ≠ s.quits ↔ p := by
  rcases h with ⟨hp, reason, hq⟩ | ⟨hp, hq⟩
  · simp [hq, hp]
  · simp [hq, hp]

theorem ClosedIf.congr {p q : Prop} (h : ClosedIf p s u) (hpq : p ↔ q) : ClosedIf q s u := by
  rwa [ClosedIf, ← hpq]

theorem onIMError_run {e : Exn} (hs : t.quits = s.quits) (h : (onIMError e).run t = .ok () u) :
    (∃ reason, e = .imError reason) ∧ ∃ reason, u.quits = s.quits ++ [reason] := by
  cases e with
  | imError reason =>
    obtain ⟨sent, hq⟩ := quit_quits (str "Unable to initialize IM: " ++ reason) t
    rw [onIMError, hq] at h
    obtain ⟨-, rfl⟩ := (EStateM.Result.ok.injEq _ _ _ _).mp h
    exact ⟨⟨reason, rfl⟩, _, by rw [hs]⟩
  | _ => cases h

/-- What is left to do once `login` returned. -/
theorem welcome_quits {x : SessionM Bool} {b : Bool} (hx : x.run s = .ok b t)
    (h : (tryCatch (do if (← x) then register P C T) onIMError).run s = .ok () u) :
    if b then t.quits = s.quits → ClosedIf (T.restore.isSome = true) s u else u = t := by
  rw [run_tryCatch, EStateM.run_bind, hx] at h
  cases b with
  | false => exact ((EStateM.Result.ok.injEq _ _ _ _).mp h).2.symm
  | true =>
    intro ht
    have hr := register_quits (P := P) (C := C) (T := T) (l := s.quits) t ht
    simp only [if_true] at h
    cases hreg : (register P C T).run t with
    | ok a v =>
      rw [hreg] at h hr
      obtain ⟨-, rfl⟩ := (EStateM.Result.ok.injEq _ _ _ _).mp h
      exact .inr ⟨by simp [hr.2], hr.1⟩
    | error e v =>
      rw [hreg] at h hr
      obtain ⟨⟨reason, he⟩, hq⟩ := onIMError_run hr.1 h
      exact .inl ⟨hr.2 reason he, hq⟩

/-- A User that has its nickname and its ident, and asks to be registered. -/
def Asks (s : Session) : Prop := s.registered = false ∧ s.nickname ≠ ['*'] ∧ s.identname ≠ []

theorem register_null (h : s.imAuth = none) :
    (register P C T).run s = .error .assertFailed s := by
  have htake : takeIM.run s = .error .assertFailed s := by
    unfold takeIM
    rw [EStateM.run_bind, EStateM.run_get]
    dsimp only
    rw [h]
    rfl
  unfold register
  rw [EStateM.run_bind, htake]

theorem sendWelcome_quits (h : (sendWelcome P C T).run s = .ok () u) :
    ClosedIf (Asks s ∧ Refused C T s.auth s.nickname s.password) s u := by
  unfold sendWelcome at h
  rw [EStateM.run_bind, EStateM.run_get] at h
  dsimp only at h
  split at h
  · next hno =>
    obtain ⟨-, rfl⟩ := (EStateM.Result.ok.injEq _ _ _ _).mp h
    refine .inr ⟨fun hask => ?_, rfl⟩
    obtain ⟨⟨hreg, hnick, hident⟩, -⟩ := hask
    simp [hreg, hnick, hident] at hno
  · next hgo =>
    have hask : Asks s := by
      simp only [Bool.or_eq_true, beq_iff_eq, List.isEmpty_iff, not_or, Bool.not_eq_true] at hgo
      exact ⟨hgo.1.1, hgo.1.2, hgo.2⟩
    suffices hclosed : ClosedIf (Refused C T s.auth s.nickname s.password) s u from
      hclosed.congr ⟨fun hr => ⟨hask, hr⟩, And.right⟩
    have hlogin := login_run (P := P) (C := C) (T := T) s
    unfold Refused
    -- an `IMError` of a mechanism
    have hfail : ∀ {e v}, (login P C T).run s = .error e v → v.quits = s.quits →
        (∃ reason, e = .imError reason) ∧ ∃ reason, u.quits = s.quits ++ [reason] := by
      intro e v hx hv
      rw [run_tryCatch, EStateM.run_bind, hx] at h
      exact onIMError_run hv h
    cases hval : (Auth.validate C.auth s.nickname s.password).run s.auth with
    | error e t =>
      rw [hval] at hlogin
      obtain ⟨v, hx, hv⟩ := hlogin
      obtain ⟨⟨reason, rfl⟩, hq⟩ := hfail hx hv
      exact .inl ⟨trivial, hq⟩
    | ok a t =>
      rw [hval] at hlogin
      cases a with
      | some a =>
        obtain ⟨v, hx, hv⟩ := hlogin
        exact welcome_quits hx h hv
      | none =>
        dsimp only at hlogin ⊢
        split at hlogin
        · next hrefused =>
          obtain ⟨v, reason, hx, hv⟩ := hlogin
          obtain rfl := welcome_quits hx h
          exact .inl ⟨or_assoc.mp (.inl hrefused), reason, hv⟩
        · next hopen =>
          have hcond : ∀ p, ((t.password s.nickname).isSome = true ∨
              (C.password ≠ [' '] ∧ s.password ≠ C.password) ∨ p) ↔ p := fun p =>
            ⟨fun hp => (or_assoc.mpr hp).resolve_left hopen, fun hp => .inr (.inr hp)⟩
          refine ClosedIf.congr ?_ (hcond _).symm
          cases hgen : (Auth.generate C.auth s.nickname s.password).run t with
          | error e t' =>
            rw [hgen] at hlogin
            obtain ⟨v, hx, hv⟩ := hlogin
            obtain ⟨⟨reason, rfl⟩, hq⟩ := hfail hx hv
            exact .inl ⟨trivial, hq⟩
          | ok a t' =>
            rw [hgen] at hlogin
            cases a with
            | some a =>
              obtain ⟨v, hx, hv⟩ := hlogin
              exact welcome_quits hx h hv
            | none =>
              -- the null pointer that follows ends the process
              obtain ⟨v, hx, hv⟩ := hlogin
              rw [run_tryCatch, EStateM.run_bind, hx] at h
              simp only [if_true, register_null hv] at h
              cases h

theorem bind_ok {β : Type} {x : SessionM α} {f : α → SessionM β} {b : β}
    (h : (x >>= f).run s = .ok b u) : ∃ a t, x.run s = .ok a t ∧ (f a).run t = .ok b u := by
  rw [EStateM.run_bind] at h
  cases hx : x.run s with
  | ok a t =>
    rw [hx] at h
    exact ⟨a, t, rfl, h⟩
  | error e t =>
    rw [hx] at h
    cases h

theorem getArg_run {n : Nat} {a : Str} (h : (getArg m n).run s = .ok a t) :
    m.args[n]? = some a ∧ s = t := by
  unfold getArg Message.getArg at h
  cases harg : m.args[n]? with
  | none =>
    rw [harg] at h
    cases h
  | some b =>
    rw [harg] at h
    obtain ⟨rfl, rfl⟩ := (EStateM.Result.ok.injEq _ _ _ _).mp h
    exact ⟨rfl, rfl⟩

theorem nick_quits (hrun : (m_nick P C T m).run s = .ok () u) :
    ClosedIf (Closes C T s m .nick) s u := by
  unfold m_nick at hrun
  unfold Closes
  cases hargs : m.args with
  | nil =>
    rw [hargs] at hrun
    refine .inr ⟨?_, (calm_reply _ _).returns rfl hrun⟩
    rintro ⟨n, hn, -⟩
    cases hn
  | cons nick rest =>
    rw [hargs] at hrun
    dsimp only at hrun
    rw [EStateM.run_bind, EStateM.run_get] at hrun
    dsimp only at hrun
    split at hrun
    · next hreg =>
      refine .inr ⟨?_, (calm_reply _ _).returns rfl hrun⟩
      rintro ⟨_, -, hno, -⟩
      cases hno.symm.trans hreg
    · next hreg =>
      rw [Bool.not_eq_true] at hreg
      split at hrun
      · next hbad =>
        refine .inr ⟨?_, (calm_reply _ _).returns rfl hrun⟩
        rintro ⟨n, hn, -, hvalid, -⟩
        obtain rfl := Option.some.inj hn
        simp [hvalid] at hbad
      · next hvalid =>
        have hvalid : isValidNickname nick = true := by simpa using hvalid
        obtain ⟨⟨⟩, v, hop, hwelcome⟩ := bind_ok hrun
        rw [runOp_run] at hop
        cases hw : s.world.run P (.nick nick) with
        | none =>
          rw [hw] at hop
          cases hop
        | some w =>
          rw [hw] at hop
          obtain ⟨-, rfl⟩ := (EStateM.Result.ok.injEq _ _ _ _).mp hop
          obtain ⟨hname, hreg'⟩ := World.run_nick hreg hvalid hw
          have hq := sendWelcome_quits hwelcome
          refine ClosedIf.congr (s := s) hq ?_
          have hstar : nick ≠ ['*'] := by
            rintro rfl
            cases hvalid
          simp only [Asks, Session.nickname, Session.registered, hname, hreg', List.head?_cons,
            Option.some.injEq, exists_eq_left']
          constructor
          · rintro ⟨⟨-, -, hi⟩, hr⟩
            exact ⟨hreg, hvalid, hi, hr⟩
          · rintro ⟨-, -, hi, hr⟩
            exact ⟨⟨trivial, hstar, hi⟩, hr⟩

theorem user_quits (hrun : (m_user P C T m).run s = .ok () u) :
    ClosedIf (Closes C T s m .user) s u := by
  unfold m_user at hrun
  rw [EStateM.run_bind, EStateM.run_get] at hrun
  dsimp only at hrun
  unfold Closes
  split at hrun
  · next hreg =>
    refine .inr ⟨?_, (calm_reply _ _).returns rfl hrun⟩
    rintro ⟨hno, -⟩
    cases hno.symm.trans hreg
  · next hreg =>
    obtain ⟨ident, v, hget, hreal⟩ := bind_ok hrun
    obtain ⟨hident, rfl⟩ := getArg_run hget
    obtain ⟨real, v, hget, hset⟩ := bind_ok hreal
    obtain ⟨-, rfl⟩ := getArg_run hget
    obtain ⟨⟨⟩, v, hmodify, hwelcome⟩ := bind_ok hset
    obtain ⟨-, rfl⟩ := (EStateM.Result.ok.injEq _ _ _ _).mp hmodify
    have hq := sendWelcome_quits hwelcome
    refine ClosedIf.congr (s := s) hq ?_
    have hhead : m.args.head? = some ident := by rw [List.head?_eq_getElem?, hident]
    simp only [Asks, hhead, Option.some.injEq, exists_eq_left']
    exact ⟨fun ⟨⟨hr, hn, hi⟩, hc⟩ => ⟨hr, hn, hi, hc⟩, fun ⟨hr, hn, hi, hc⟩ => ⟨⟨hr, hn, hi⟩, hc⟩⟩

theorem pass_quits (hrun : (m_pass C m).run s = .ok () u) :
    ClosedIf (Closes C T s m .pass) s u := by
  unfold m_pass at hrun
  obtain ⟨password, v, hget, hrest⟩ := bind_ok hrun
  obtain ⟨hpass, rfl⟩ := getArg_run hget
  have hhead : m.args.head? = some password := by rw [List.head?_eq_getElem?, hpass]
  rw [EStateM.run_bind, EStateM.run_get] at hrest
  dsimp only at hrest
  unfold Closes
  simp only [hhead, Option.some.injEq, exists_eq_left']
  have hclosed : ∀ reason, (quit reason).run s = .ok () u → ∃ reason, u.quits = s.quits ++ [reason] := by
    intro reason hquit
    obtain ⟨sent, hq⟩ := quit_quits reason s
    rw [hq] at hquit
    obtain ⟨-, rfl⟩ := (EStateM.Result.ok.injEq _ _ _ _).mp hquit
    exact ⟨reason, rfl⟩
  split at hrest
  · next hreg =>
    refine .inr ⟨?_, (calm_reply _ _).returns rfl hrest⟩
    rintro ⟨hno, -⟩
    cases hno.symm.trans hreg
  · next hreg =>
    rw [Bool.not_eq_true] at hreg
    split at hrest
    · next hshort => exact .inl ⟨⟨hreg, .inl hshort⟩, hclosed _ hrest⟩
    · next hlong =>
      split at hrest
      · next hspace => exact .inl ⟨⟨hreg, .inr hspace⟩, hclosed _ hrest⟩
      · next hspace =>
        obtain ⟨-, rfl⟩ := (EStateM.Result.ok.injEq _ _ _ _).mp hrest
        exact .inr ⟨fun hbad => hbad.2.elim hlong hspace, rfl⟩

theorem ipcSend_up (cmd : Str) (args : List Str) :
    Triple (fun _ => True) (ipcSend C cmd args) (fun up _ => up = C.ipcUp) fun _ _ => True := by
  unfold ipcSend
  split
  · exact triple_ite (fun _ => triple_bind triple_true fun _ => triple_pure fun _ _ => rfl)
      fun _ => triple_pure fun _ _ => rfl
  · exact triple_throw fun _ _ => trivial

theorem die_quits (hrun : (m_die C m).run s = .ok () u) :
    ClosedIf (Closes C T s m .die) s u := by
  unfold m_die at hrun
  obtain ⟨text, v, hget, hrest⟩ := bind_ok hrun
  obtain ⟨htext, rfl⟩ := getArg_run hget
  have hargs : m.args ≠ [] := by
    intro hnil
    simp [hnil] at htext
  rw [EStateM.run_bind, EStateM.run_get] at hrest
  dsimp only at hrest
  obtain ⟨up, v, hsend, hlast⟩ := bind_ok hrest
  have hq := (calm_ipcSend _ _).returns rfl hsend
  have hup := (ipcSend_up _ _).returns trivial hsend
  unfold Closes
  split at hlast
  · next hdown =>
    obtain ⟨sent, hquit⟩ := quit_quits (str "Shutdown requested: " ++ text) v
    rw [hquit] at hlast
    obtain ⟨-, rfl⟩ := (EStateM.Result.ok.injEq _ _ _ _).mp hlast
    exact .inl ⟨⟨hargs, by simpa [hup] using hdown⟩, _, by rw [hq]⟩
  · next hdown =>
    obtain ⟨-, rfl⟩ := (EStateM.Result.ok.injEq _ _ _ _).mp hlast
    refine .inr ⟨fun hbad => ?_, hq⟩
    simp [hup, hbad.2] at hdown

theorem oper_calm : Calm l (m_oper C m) := by
  refine triple_get fun s _ => Triple.pre ?_ fun t ht => ht.2
  refine triple_ite (fun _ => calm_reply _ _) fun _ => triple_bind (calm_getArg 0) fun a =>
    triple_bind (calm_getArg 1) fun b => triple_ite (fun _ => ?_) fun _ => calm_reply _ _
  exact triple_bind (q := fun _ s => s.quits = l) (triple_modify fun s hs => hs) fun _ =>
    triple_bind (calm_sendUser _ _ _ _) fun _ => triple_bind (calm_reply _ _) fun _ =>
      triple_bind (calm_ipcSend _ _) fun _ => triple_pure fun _ => id

theorem other_quits : Triple (fun s => s.quits = l) (m_other P T) (fun _ s => s.quits = l)
    fun _ _ => True := by
  have hops : ∀ ops : List Op, Calm l (ops.forM (runOp P)) := by
    intro ops
    induction ops with
    | nil => exact triple_pure fun _ => id
    | cons op ops ih => exact triple_bind (calm_runOp op) fun _ => ih
  refine triple_bind ((hops T.ops).conseq (fun _ => id) (fun _ _ => id) fun _ _ _ => trivial)
    fun _ => triple_bind (q := fun _ s => s.quits = l) (triple_modify fun s hs => hs) fun _ => ?_
  split
  · exact triple_throw fun _ _ => trivial
  · exact triple_pure fun _ => id

/-- A handler that returns has closed the session exactly when its command closes it. -/
theorem handler_quits (h : Handler) (hrun : (h.run P C T m).run s = .ok () u) :
    ClosedIf (Closes C T s m h) s u := by
  cases h with
  | nick => exact nick_quits hrun
  | user => exact user_quits hrun
  | pass => exact pass_quits hrun
  | quit =>
    obtain ⟨sent, hq⟩ := quit_quits (str "Quit: " ++ m.args.head?.getD (str "Leaving...")) s
    rw [Handler.run, m_quit, hq] at hrun
    obtain ⟨-, rfl⟩ := (EStateM.Result.ok.injEq _ _ _ _).mp hrun
    exact .inl ⟨trivial, _, rfl⟩
  | oper => exact .inr ⟨nofun, (oper_calm (l := s.quits)).returns rfl hrun⟩
  | wallops =>
    have hcalm : Calm s.quits (m_wallops C m) := triple_bind (calm_getArg 0) fun _ =>
      triple_get fun t _ => triple_bind ((calm_ipcSend _ _).pre fun _ => And.right) fun _ =>
        triple_pure fun _ => id
    exact .inr ⟨nofun, hcalm.returns rfl hrun⟩
  | rehash => exact .inr ⟨nofun, (calm_reply _ _).returns rfl hrun⟩
  | die => exact die_quits hrun
  | other => exact .inr ⟨nofun, (other_quits (l := s.quits)).returns rfl hrun⟩

end Quits

section Rest

variable {P : Purple} {C : SessionConf} {T : Turn} {turns : Turns} {s t u : Session} {m : Message}
  {c : CommandEntry} {line : Str} {lines : List Str} {α : Type}

/-- No handler is recorded. -/
def SameRan (s t : Session) : Prop := t.ran = s.ran

instance : Std.Refl SameRan := ⟨fun _ => rfl⟩

instance : IsTrans Session SameRan := ⟨fun _ _ _ h₁ h₂ => Eq.trans h₂ h₁⟩

theorem sendUser_ran (cmd : Str) (sender receiver : StoredEntity) (args : List Str) :
    Keeps SameRan (sendUser cmd sender receiver args) := by
  unfold sendUser
  split
  · exact keeps_modify fun _ => rfl
  · exact keeps_throw _

theorem reply_ran (code : Str) (args : List Str) : Keeps SameRan (reply C code args) :=
  keeps_bind keeps_get fun _ => sendUser_ran _ _ _ _

theorem quit_ran (reason : Str) : Keeps SameRan (quit reason) :=
  keeps_bind (sendUser_ran _ _ _ _) fun _ => keeps_modify fun _ => rfl

theorem ipcSend_ran (cmd : Str) (args : List Str) : Keeps SameRan (ipcSend C cmd args) := by
  unfold ipcSend
  split
  · exact keeps_ite (keeps_bind (keeps_modify fun _ => rfl) fun _ => keeps_pure _) (keeps_pure _)
  · exact keeps_throw _

theorem runOp_ran (op : Op) : Keeps SameRan (runOp P op) := by
  intro s
  rw [runOp_run]
  split <;> rfl

theorem runAuth_ran (x : AuthM α) : Keeps SameRan (runAuth x) := by
  intro s
  rw [runAuth_run]
  split <;> rfl

theorem getArg_ran (n : Nat) : Keeps SameRan (getArg m n) := by
  unfold getArg
  split
  · exact keeps_pure _
  · exact keeps_throw _

theorem openAuth_ran (x : AuthM (Option Auth)) : Keeps SameRan (openAuth P T x) :=
  keeps_bind keeps_get fun _ => keeps_bind (runAuth_ran x) fun _ => keeps_bind keeps_get fun _ =>
    keeps_ite (keeps_bind (runOp_ran _) fun _ => keeps_pure _) (keeps_pure _)

theorem login_ran : Keeps SameRan (login P C T) := by
  have hset : ∀ a, Keeps SameRan (setImAuth a) := fun a => keeps_modify fun _ => rfl
  have hquit : ∀ reason b, Keeps SameRan (do quit reason; return b : SessionM Bool) :=
    fun reason b => keeps_bind (quit_ran reason) fun _ => keeps_pure _
  refine keeps_bind keeps_get fun s => keeps_bind (openAuth_ran _) fun a => keeps_bind (hset a)
    fun _ => keeps_ite (keeps_pure _) (keeps_bind (runAuth_ran _) fun _ => keeps_ite (hquit _ _)
      (keeps_ite (hquit _ _) (keeps_bind (openAuth_ran _) fun a => keeps_bind (hset a) fun _ =>
        keeps_ite (hquit _ _) (keeps_pure _))))

theorem register_ran : Keeps SameRan (register P C T) := by
  have htake : Keeps SameRan takeIM := by
    refine keeps_bind keeps_get fun s => ?_
    split
    · exact keeps_throw _
    · exact keeps_modify fun _ => rfl
  have hmotd : Keeps SameRan (motd C) := keeps_bind (reply_ran _ _) fun _ =>
    keeps_bind (keeps_forM _ fun _ _ => reply_ran _ _) fun _ => reply_ran _ _
  have hwelcome : ∀ nick, Keeps SameRan (welcome C nick) := fun nick =>
    keeps_bind (reply_ran _ _) fun _ => keeps_bind (reply_ran _ _) fun _ =>
      keeps_bind (reply_ran _ _) fun _ => keeps_bind (reply_ran _ _) fun _ =>
        keeps_bind (reply_ran _ _) fun _ => hmotd
  have hrestore : Keeps SameRan (restore T) := by
    unfold restore
    split
    · exact keeps_throw _
    · exact keeps_pure _
  exact keeps_bind htake fun _ => keeps_bind (runOp_ran _) fun _ => keeps_bind keeps_get fun _ =>
    keeps_bind (ipcSend_ran _ _) fun _ => keeps_bind (hwelcome _) fun _ => keeps_bind hrestore
      fun _ => keeps_ite (reply_ran _ _) (keeps_pure _)

theorem sendWelcome_ran : Keeps SameRan (sendWelcome P C T) := by
  refine keeps_bind keeps_get fun s => keeps_ite (keeps_pure _) (keeps_tryCatch
    (keeps_bind login_ran fun _ => keeps_ite register_ran (keeps_pure _)) fun e => ?_)
  unfold onIMError
  split
  · exact quit_ran _
  · exact keeps_throw _

/-- Only the dispatch records handlers. -/
theorem handler_ran (h : Handler) : Keeps SameRan (h.run P C T m) := by
  cases h with
  | nick =>
    change Keeps SameRan (m_nick P C T m)
    unfold m_nick
    split
    · exact reply_ran _ _
    · exact keeps_bind keeps_get fun _ => keeps_ite (reply_ran _ _) (keeps_ite (reply_ran _ _)
        (keeps_bind (runOp_ran _) fun _ => sendWelcome_ran))
  | user =>
    exact keeps_bind keeps_get fun _ => keeps_ite (reply_ran _ _) (keeps_bind (getArg_ran _)
      fun _ => keeps_bind (getArg_ran _) fun _ => keeps_bind (keeps_modify fun _ => rfl)
        fun _ => sendWelcome_ran)
  | pass =>
    exact keeps_bind (getArg_ran _) fun _ => keeps_bind keeps_get fun _ => keeps_ite (reply_ran _ _)
      (keeps_ite (quit_ran _) (keeps_ite (quit_ran _) (keeps_modify fun _ => rfl)))
  | quit => exact quit_ran _
  | oper =>
    exact keeps_bind keeps_get fun _ => keeps_ite (reply_ran _ _) (keeps_bind (getArg_ran _)
      fun _ => keeps_bind (getArg_ran _) fun _ => keeps_ite (keeps_bind (keeps_modify fun _ => rfl)
        fun _ => keeps_bind (sendUser_ran _ _ _ _) fun _ => keeps_bind (reply_ran _ _) fun _ =>
          keeps_bind (ipcSend_ran _ _) fun _ => keeps_pure _) (reply_ran _ _))
  | wallops =>
    exact keeps_bind (getArg_ran _) fun _ => keeps_bind keeps_get fun _ =>
      keeps_bind (ipcSend_ran _ _) fun _ => keeps_pure _
  | rehash => exact reply_ran _ _
  | die =>
    exact keeps_bind (getArg_ran _) fun _ => keeps_bind keeps_get fun _ =>
      keeps_bind (ipcSend_ran _ _) fun _ => keeps_ite (quit_ran _) (keeps_pure _)
  | other =>
    refine keeps_bind (keeps_forM _ fun _ _ => runOp_ran _) fun _ =>
      keeps_bind (keeps_modify fun _ => rfl) fun _ => ?_
    split
    · exact keeps_throw _
    · exact keeps_pure _

/-- The loop of `readIO` over the lines of its buffer. -/
def takeLines (P : Purple) (C : SessionConf) (turns : Turns) (lines : List Str) : SessionM Unit :=
  forM lines (takeLine P C turns)

theorem readIO_lines (sbuf : Str) : Session.readIO P C turns sbuf =
    closing (takeLines P C turns (Tokens.tokens lineEnd.contains sbuf)) := by
  rw [Session.readIO, readIO_eq, takeLines]

/-- After a line that closes the session the others of the buffer are only answered. -/
def SilentAfterQuit (P : Purple) (C : SessionConf) (turns : Turns) (s : Session)
    (lines : List Str) : Prop :=
  ∀ pre line post t u, lines = pre ++ line :: post → (takeLines P C turns pre).run s = .ok () t →
    (takeLine P C turns line).run t = .ok () u → u.quits ≠ t.quits →
      ∃ sent, (takeLines P C turns post).run u = .ok () { u with sent := sent }

/-- The table admits none of the lines. -/
def Inert (s : Session) (lines : List Str) : Prop :=
  ∀ l ∈ lines, ∀ m c, parse l = .ok m → ¬ Admits s m c

/-- A command that closes the session comes after every other command of the buffer. -/
def ClosesLast (P : Purple) (C : SessionConf) (turns : Turns) (s : Session)
    (lines : List Str) : Prop :=
  ∀ pre line post t u m c, lines = pre ++ line :: post →
    (takeLines P C turns pre).run s = .ok () t → (takeLine P C turns line).run t = .ok () u →
      parse line = .ok m → Admits t m c → Closes C (turns t.ran.length) t m c.handler → Inert u post

theorem Admits.sent (h : Admits s m c) (sent : List Message) :
    Admits { s with sent := sent } m c := by
  have hflag : ∀ f, ({ s with sent := sent } : Session).hasFlag f = s.hasFlag f := by
    intro f
    cases f <;> rfl
  exact ⟨h.entry, h.args, (hflag c.flags).trans h.flag⟩

theorem Inert.sent (h : Inert s lines) (sent : List Message) : Inert { s with sent := sent } lines :=
  fun l hl m c hm hc => h l hl m c hm (hc.sent s.sent)

theorem takeLine_run (line : Str) (s : Session) : (takeLine P C turns line).run s =
    (dispatchLine P C (turns s.ran.length) line).run s := by
  rw [takeLine, EStateM.run_bind, EStateM.run_get]

/-- A line that reaches a handler leaves a record. -/
theorem takeLine_admits (turns : Turns) (hm : parse line = .ok m) (hc : Admits s m c) :
    ∃ r, (final ((takeLine P C turns line).run s)).ran = s.ran ++ [r] := by
  rw [takeLine_run, dispatchLine_admits hm hc]
  exact ⟨_, handler_ran c.handler _⟩

theorem takeLine_refuses (turns : Turns) (hm : parse line = .ok m) (h : ∀ c, ¬ Admits s m c) :
    ∃ sent, (takeLine P C turns line).run s = .ok () { s with sent := sent } := by
  rw [takeLine_run]
  exact dispatchLine_refuses hm h

theorem takeLine_grows (line : Str) :
    s.ran.length ≤ (final ((takeLine P C turns line).run s)).ran.length := by
  obtain ⟨m, hm, -⟩ := parse_ok line
  by_cases h : ∃ c, Admits s m c
  · obtain ⟨c, hc⟩ := h
    obtain ⟨r, hr⟩ := takeLine_admits (P := P) (C := C) turns hm hc
    simp [hr]
  · obtain ⟨sent, hr⟩ := takeLine_refuses (P := P) (C := C) turns hm (not_exists.mp h)
    simp [hr]

theorem takeLines_inert (h : Inert s lines) :
    ∃ sent, (takeLines P C turns lines).run s = .ok () { s with sent := sent } := by
  induction lines generalizing s with
  | nil => exact ⟨s.sent, rfl⟩
  | cons l lines ih =>
    obtain ⟨m, hm, -⟩ := parse_ok l
    obtain ⟨sent, hl⟩ := takeLine_refuses (P := P) (C := C) turns hm
      fun c => h l (by simp) m c hm
    have hrest : Inert s lines := fun l' hl' => h l' (List.mem_cons_of_mem l hl')
    obtain ⟨sent', hr⟩ := ih (hrest.sent sent)
    refine ⟨sent', ?_⟩
    rw [takeLines, List.forM_cons, EStateM.run_bind, hl]
    exact hr

theorem inert_of_ran (h : (final ((takeLines P C turns lines).run s)).ran = s.ran) :
    Inert s lines := by
  induction lines generalizing s with
  | nil => nofun
  | cons l lines ih =>
    obtain ⟨m, hm, -⟩ := parse_ok l
    rw [takeLines, List.forM_cons, EStateM.run_bind] at h
    by_cases hc : ∃ c, Admits s m c
    · -- its record would stay
      obtain ⟨c, hc⟩ := hc
      obtain ⟨r, hr⟩ := takeLine_admits (P := P) (C := C) turns hm hc
      exfalso
      cases hl : (takeLine P C turns l).run s with
      | error e t =>
        rw [hl] at h hr
        simp only [final_error] at h hr
        rw [h] at hr
        simpa using congrArg List.length hr
      | ok a t =>
        rw [hl] at h hr
        have hgrow : Keeps (fun s t : Session => s.ran.length ≤ t.ran.length)
            (takeLines P C turns lines) := by
          have : Std.Refl fun s t : Session => s.ran.length ≤ t.ran.length := ⟨fun _ => le_rfl⟩
          have : IsTrans Session fun s t => s.ran.length ≤ t.ran.length :=
            ⟨fun _ _ _ => Nat.le_trans⟩
          exact keeps_forM _ fun l _ s => takeLine_grows l
        have hlen : t.ran.length ≤ (final ((takeLines P C turns lines).run t)).ran.length := hgrow t
        simp only [final_ok] at hr
        change (final ((takeLines P C turns lines).run t)).ran = s.ran at h
        rw [h, hr, List.length_append, List.length_singleton] at hlen
        omega
    · obtain ⟨sent, hl⟩ := takeLine_refuses (P := P) (C := C) turns hm (not_exists.mp hc)
      rw [hl] at h
      have hrest := (ih h).sent s.sent
      intro l' hl' m' c' hm' hc'
      rcases List.mem_cons.mp hl' with rfl | hl'
      · obtain rfl := Except.ok.inj (hm.symm.trans hm')
        exact hc ⟨c', hc'⟩
      · exact hrest l' hl' m' c' hm' hc'

theorem closes_ran (C : SessionConf) (T : Turn) (s : Session) (ran : List Ran) (m : Message)
    (h : Handler) : Closes C T { s with ran := ran } m h = Closes C T s m h := by
  cases h <;> rfl

/-- A line closes the session exactly when the table admits it and its command closes. -/
theorem takeLine_quits (hm : parse line = .ok m) (hrun : (takeLine P C turns line).run t = .ok () u) :
    u.quits ≠ t.quits ↔ ∃ c, Admits t m c ∧ Closes C (turns t.ran.length) t m c.handler := by
  by_cases h : ∃ c, Admits t m c
  · obtain ⟨c, hc⟩ := h
    rw [takeLine_run, dispatchLine_admits hm hc] at hrun
    have hclosed := (handler_quits c.handler hrun).ne_iff
    rw [closes_ran] at hclosed
    constructor
    · exact fun hne => ⟨c, hc, hclosed.mp hne⟩
    · rintro ⟨c', hc', hcloses⟩
      obtain rfl := Option.some.inj (hc'.entry.symm.trans hc.entry)
      exact hclosed.mpr hcloses
  · obtain ⟨sent, hr⟩ := takeLine_refuses (P := P) (C := C) turns hm (not_exists.mp h)
    rw [hr] at hrun
    obtain ⟨-, rfl⟩ := (EStateM.Result.ok.injEq _ _ _ _).mp hrun
    exact ⟨fun hne => (hne rfl).elim, fun ⟨c, hc, _⟩ => (h ⟨c, hc⟩).elim⟩

/-- A rejected PASS, and a registration in the same buffer. -/
def secondTry : Str :=
  str "PASS short\r\nPASS sesame4alice\r\nNICK alice\r\nUSER alice * * :Alice\r\n"

end Rest

end Minbif
