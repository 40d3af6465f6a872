import Minbif.Im.Auth

/-! Soundness of `Auth::validate` over histories of sessions sharing the account directory. -/
namespace Minbif
open Effect

/-- What sessions do with the mechanisms, one process after another. -/
inductive AuthEvent
  | process
  | validate (env : AuthEnv) (username password : Str)
  | generate (env : AuthEnv) (username password : Str)
  | setPassword (env : AuthEnv) (password : Str)

/-- The account directory and the `im_auth` of the running session. -/
structure AuthRun where
  state : AuthState := {}
  auth : Option Auth := none

namespace AuthRun

/-- `im_auth = ...`: an exception leaves it as it was. -/
def assign (r : AuthRun) (x : AuthM (Option Auth)) : AuthRun :=
  match x.run r.state with
  | .ok a s => ⟨s, a⟩
  | .error _ s => ⟨s, r.auth⟩

def step (r : AuthRun) : AuthEvent → AuthRun
  | .process => ⟨{ r.state with purple := none }, none⟩
  | .validate env u p => r.assign (Auth.validate env u p)
  | .generate env u p => r.assign (Auth.generate env u p)
  | .setPassword env p =>
    match r.auth with
    | some a => ⟨final ((a.setPassword env p).run r.state), r.auth⟩
    | none => r

def run (h : List AuthEvent) : AuthRun := h.foldl step {}

variable {r : AuthRun} {s t : AuthState} {env : AuthEnv} {a m : Auth} {u p : Str}

theorem assign_sound {x : AuthM (Option Auth)} (hx : KeepsSound x) (h : AuthSound r.state) :
    AuthSound (r.assign x).state := by
  have := hx r.state h
  unfold assign
  cases hr : x.run r.state <;> simpa [hr] using this

theorem step_sound (h : AuthSound r.state) (e : AuthEvent) : AuthSound (r.step e).state := by
  cases e with
  | process => exact ⟨h.cell, h.good⟩
  | validate env u p => exact assign_sound (keepsSound_validate env u p) h
  | generate env u p => exact assign_sound (keepsSound_generate env u p) h
  | setPassword env p =>
    unfold step
    cases r.auth with
    | none => exact h
    | some a => exact keepsSound_setPassword env a p r.state h

theorem run_sound (h : List AuthEvent) : AuthSound (run h).state := by
  unfold run
  have hi : AuthSound ({} : AuthRun).state := ⟨by simp, by simp⟩
  generalize ({} : AuthRun) = r at hi ⊢
  induction h generalizing r with
  | nil => exact hi
  | cons e h ih => exact ih _ (step_sound hi e)

end AuthRun

variable {s t : AuthState} {env : AuthEnv} {a m : Auth} {u p : Str}

/-- Why a mechanism returns its user, in the state it is asked in. -/
def Accepts (env : AuthEnv) (s : AuthState) (m : Auth) (p : Str) : Prop :=
  match m.mech with
  | .authConnection => env.clientUsername = m.username
  | .authPAM => env.pam m.username p = true
  | .authLocal =>
    s.password m.username = some p ∧ s.purple = none ∧ env.coreInit m.username = true

theorem run_imExists : (imExists u).run s = .ok (s.password u).isSome s := rfl

/-- Opening an account whose directory is there. -/
theorem run_newIM (env : AuthEnv) (h : s.password u ≠ none) :
    (newIM env u).run s =
      if s.purple.isSome then .error (.imError (str "These is already a purple instance!")) s
      else if env.coreInit u then .ok u { s with purple := some u }
      else .error (.imError (str "Initialization of the Purple core failed."))
        { s with purple := some u } := by
  have hdir : (s.password u).isNone = false := by simpa [Option.isSome_iff_ne_none] using h
  simp only [newIM, openUserDir, purpleInit, EStateM.run_bind, EStateM.run_get, hdir]
  cases hp : s.purple <;> cases hc : env.coreInit u <;> simp [hp]

theorem run_imGetPassword :
    (imGetPassword u).run s = .ok ((s.password u).getD []) s := rfl

/-- The local mechanism on an account that is there and can be opened. -/
theorem run_authenticate_local (p : Str) (hm : m.mech = .authLocal) {q : Str}
    (hd : s.password m.username = some q) (hp : s.purple = none)
    (hc : env.coreInit m.username = true) :
    (m.authenticate env p).run s =
      .ok (if q = p then some { m with im := some m.username } else none)
        { s with purple := some m.username } := by
  have hopen := run_newIM (s := s) (u := m.username) env (by simp [hd])
  simp only [hp, hc, Option.isSome_none, Bool.false_eq_true, if_false, if_true] at hopen
  simp only [Auth.authenticate, hm, EStateM.run_bind, run_imExists, hd, Option.isSome_some,
    Bool.not_true, Bool.false_eq_true, if_false, hopen, run_imGetPassword, Option.getD_some]
  split <;> rfl

theorem local_opened (hm : m.mech = .authLocal) {r : Option Auth}
    (h : (m.authenticate env p).run s = .ok r t) (hd : s.password m.username ≠ none) :
    s.purple = none ∧ env.coreInit m.username = true := by
  have hopen := run_newIM (s := s) (u := m.username) env hd
  have hsome : (s.password m.username).isSome = true := by
    simpa [Option.isSome_iff_ne_none] using hd
  simp only [Auth.authenticate, hm, EStateM.run_bind, run_imExists, hsome, Bool.not_true,
    Bool.false_eq_true, if_false, hopen] at h
  cases hp : s.purple with
  | some v => simp [hp] at h
  | none =>
    cases hc : env.coreInit m.username with
    | true => exact ⟨rfl, rfl⟩
    | false => simp [hp, hc] at h

theorem authenticate_some (h : (m.authenticate env p).run s = .ok (some a) t) :
    Accepts env s m p := by
  unfold Accepts
  cases hm : m.mech with
  | authConnection =>
    simp only [Auth.authenticate, hm, EStateM.run_bind, run_imExists] at h
    by_cases hc : env.clientUsername = m.username
    · exact hc
    · cases hd : s.password m.username <;> simp [hc, hd] at h
  | authPAM =>
    simp only [Auth.authenticate, hm] at h
    by_cases hp : env.pam m.username p
    · exact hp
    · simp [hp] at h
  | authLocal =>
    cases hd : s.password m.username with
    | none => simp [Auth.authenticate, hm, run_imExists, hd] at h
    | some q =>
      obtain ⟨hp, hc⟩ := local_opened hm h (by simp [hd])
      rw [run_authenticate_local _ hm hd hp hc] at h
      by_cases hq : q = p
      · exact ⟨by rw [hq], hp, hc⟩
      · simp [hq] at h

theorem opened_ne_none {f : Str → Auth} :
    (do let im ← newIM env u; return some (f im)).run s ≠ .ok none t := by
  rw [EStateM.run_bind]
  cases (newIM env u).run s <;> simp

/-- A mechanism that declines leaves the directory alone, and at most an open instance. -/
theorem authenticate_none (h : (m.authenticate env p).run s = .ok none t) :
    t = s ∨ (t.password = s.password ∧ t.purple ≠ none) := by
  cases hm : m.mech with
  | authConnection =>
    simp only [Auth.authenticate, hm, EStateM.run_bind, run_imExists] at h
    cases hd : s.password m.username with
    | none => exact .inl (by simpa [hd, eq_comm] using h)
    | some q =>
      by_cases hc : env.clientUsername = m.username
      · simp only [hd, Option.isSome_some, Bool.not_true, Bool.false_eq_true, if_false,
          if_pos hc] at h
        exact (opened_ne_none h).elim
      · exact .inl (by simpa [hd, hc, eq_comm] using h)
  | authPAM =>
    simp only [Auth.authenticate, hm] at h
    by_cases hp : env.pam m.username p
    · rw [if_pos hp] at h
      exact (opened_ne_none h).elim
    · exact .inl (by simpa [hp, eq_comm] using h)
  | authLocal =>
    cases hd : s.password m.username with
    | none =>
      simp only [Auth.authenticate, hm, EStateM.run_bind, run_imExists, hd] at h
      exact .inl (by simpa [eq_comm] using h)
    | some q =>
      obtain ⟨hp, hc⟩ := local_opened hm h (by simp [hd])
      rw [run_authenticate_local _ hm hd hp hc] at h
      obtain ⟨_, rfl⟩ := (EStateM.Result.ok.injEq _ _ _ _).mp h
      exact .inr ⟨rfl, by simp⟩

theorem run_authExists : ∃ b, m.authExists.run s = .ok b s := by
  unfold Auth.authExists
  cases m.mech
  · exact ⟨true, rfl⟩
  · exact ⟨true, rfl⟩
  · exact ⟨_, run_imExists⟩

/-- What is returned was accepted by an enabled mechanism in the state of the call. -/
theorem validateLoop_some {ms : List Auth}
    (h : (Auth.validateLoop env p ms).run s = .ok (some a) t) : ∃ m ∈ ms, Accepts env s m p := by
  induction ms generalizing s with
  | nil => simp [Auth.validateLoop] at h
  | cons m ms ih =>
    obtain ⟨b, hb⟩ := run_authExists (m := m) (s := s)
    rw [Auth.validateLoop, EStateM.run_bind, hb] at h
    cases b with
    | false =>
      obtain ⟨m', hm', ha⟩ := ih h
      exact ⟨m', List.mem_cons_of_mem _ hm', ha⟩
    | true =>
      simp only [Bool.not_true, Bool.false_eq_true, if_false, EStateM.run_bind] at h
      cases hr : (m.authenticate env p).run s with
      | error e t => simp [hr] at h
      | ok r u =>
        cases r with
        | some a' => exact ⟨m, by simp, authenticate_some hr⟩
        | none =>
          rw [hr] at h
          obtain ⟨m', hm', ha⟩ := ih h
          refine ⟨m', List.mem_cons_of_mem _ hm', ?_⟩
          -- an open instance would stop every later mechanism but the two that need none
          rcases authenticate_none hr with rfl | ⟨hpw, hpu⟩
          · exact ha
          · unfold Accepts at ha ⊢
            cases hmech : m'.mech <;> simp_all

theorem validate_some (h : (Auth.validate env u p).run s = .ok (some a) t) :
    ∃ m ∈ Auth.getMechanisms env u, Accepts env s m p := by
  unfold Auth.validate at h
  split at h
  · simp at h
  · exact validateLoop_some h

/-- An account directory whose password was never set, and nothing else vouching for the user. -/
def Unset (env : AuthEnv) (s : AuthState) (u p : Str) : Prop :=
  env.useLocal = true ∧ s.password u = some [] ∧ p = [] ∧ env.clientUsername ≠ u ∧
    env.pam u p = false ∧ s.purple = none ∧ env.coreInit u = true

/-- The default password opens the account. -/
theorem validate_unset (h : Unset env s u p) :
    ∃ a t, (Auth.validate env u p).run s = .ok (some a) t := by
  obtain ⟨hl, hd, rfl, hc, hp, hpu, ho⟩ := h
  have hconn : (Auth.authenticate env ⟨.authConnection, u, none, false⟩ []).run s = .ok none s := by
    simp only [Auth.authenticate, EStateM.run_bind, run_imExists, hd]
    simp [hc]
  have hpam : (Auth.authenticate env ⟨.authPAM, u, none, false⟩ []).run s = .ok none s := by
    simp [Auth.authenticate, hp]
  have hlocal := run_authenticate_local (m := ⟨.authLocal, u, none, false⟩) [] rfl hd hpu ho
  have hex : ∀ m : Auth, m.username = u → m.authExists.run s = .ok true s := by
    rintro ⟨mech, v, im, pamh⟩ rfl
    cases mech
    · rfl
    · rfl
    · simp [Auth.authExists, run_imExists, hd]
  refine ⟨⟨.authLocal, u, some u, false⟩, { s with purple := some u }, ?_⟩
  simp only [Auth.validate, Auth.getMechanisms, hl, if_true]
  cases env.useConnection <;> cases env.usePam <;>
    simp [Auth.validateLoop, hex, hconn, hpam, hlocal]

/-- After any history, `validate` returns a mechanism only to the certificate's user, to whom
PAM accepts or for a stored password, exactly when it is not the unset default that matches. -/
theorem validate_sound_iff (h : List AuthEvent) (env : AuthEnv) (u p : Str) :
    (∀ a t, (Auth.validate env u p).run (AuthRun.run h).state = .ok (some a) t →
      env.clientUsername = u ∨ env.pam u p = true ∨
        (p ∈ (AuthRun.run h).state.stored u ∧ 8 ≤ p.length ∧ ' ' ∉ p)) ↔
    ¬ Unset env (AuthRun.run h).state u p := by
  have hs := AuthRun.run_sound h
  generalize (AuthRun.run h).state = s at hs ⊢
  have hgood : ∀ q ∈ s.stored u, 8 ≤ q.length ∧ ' ' ∉ q := by
    intro q hq
    have := hs.good u q hq
    simp only [goodPassword, Message.hasSpace] at this
    simp_all
  constructor
  · intro hv hu
    obtain ⟨a, t, hr⟩ := validate_unset hu
    obtain ⟨-, -, rfl, hc, hp, -⟩ := hu
    rcases hv a t hr with h | h | h
    · exact hc h
    · simp [hp] at h
    · simp at h
  · intro hu a t hr
    obtain ⟨m, hm, ha⟩ := validate_some hr
    obtain ⟨rfl, hl⟩ := mem_getMechanisms hm
    unfold Accepts at ha
    cases hmech : m.mech with
    | authConnection => exact .inl (by simpa [hmech] using ha)
    | authPAM => exact .inr (.inl (by simpa [hmech] using ha))
    | authLocal =>
      obtain ⟨hd, hp, ho⟩ : s.password m.username = some p ∧ s.purple = none ∧
        env.coreInit m.username = true := by simpa [hmech] using ha
      rcases hs.cell _ _ hd with rfl | hst
      · by_contra hno
        simp only [not_or] at hno
        exact hu ⟨hl hmech, hd, rfl, hno.1, by simpa using hno.2.1, hp, ho⟩
      · exact .inr (.inr ⟨hst, hgood p hst⟩)

/-- A server with PAM and the local database, where PAM knows one password of one user. -/
def pamEnv : AuthEnv where
  useConnection := false
  usePam := true
  useLocal := true
  clientUsername := []
  pam u p := u == str "bob" && p == str "sesame"
  pamChauthtok := true
  mkdir _ := true
  coreInit _ := true

/-- A user who once logged in through PAM is let in without any password. -/
theorem validate_unsound : ¬ ∀ (h : List AuthEvent) (env : AuthEnv) (u p : Str) (a : Auth)
    (t : AuthState), (Auth.validate env u p).run (AuthRun.run h).state = .ok (some a) t →
      env.clientUsername = u ∨ env.pam u p = true ∨
        (p ∈ (AuthRun.run h).state.stored u ∧ 8 ≤ p.length ∧ ' ' ∉ p) := by
  intro h
  have hbob := h [.process, .validate pamEnv (str "bob") (str "sesame"), .process] pamEnv
    (str "bob") [] ⟨.authLocal, str "bob", some (str "bob"), false⟩ _ rfl
  revert hbob
  decide

end Minbif
