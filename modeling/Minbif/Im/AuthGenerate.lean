import Minbif.Im.AuthHistory

/-! Which mechanism `Auth::generate` creates an account with. -/
namespace Minbif
open Effect

variable {env : AuthEnv} {s t : AuthState} {a m : Auth} {u p err : Str} {ms : List Auth} {e' : Str}

/-- The mechanisms of the configuration, in the order they are tried. -/
def AuthEnv.enabled (env : AuthEnv) : List Mechanism :=
  (if env.useConnection then [.authConnection] else []) ++
  (if env.usePam then [.authPAM] else []) ++ (if env.useLocal then [.authLocal] else [])

/-- The credentials that the mechanism can create an account for. -/
def AuthEnv.accepts (env : AuthEnv) (u p : Str) : Mechanism → Bool
  | .authConnection => env.clientUsername = u
  | .authPAM => env.pam u p
  | .authLocal => !p.isEmpty

/-- The first mechanism that accepts the credentials creates the account, and without one there is an
`IMError`. -/
def FallsThrough (env : AuthEnv) (s : AuthState) (u p : Str) : Prop :=
  match env.enabled.find? (env.accepts u p) with
  | some m => ∃ a t, (Auth.generate env u p).run s = .ok (some a) t ∧ a.mech = m ∧ a.im = some u ∧
      (t.password u).isSome = true
  | none => ∃ reason t, (Auth.generate env u p).run s = .error (.imError reason) t

theorem getMechanisms_eq :
    Auth.getMechanisms env u = env.enabled.map fun mech => ⟨mech, u, none, false⟩ := by
  unfold Auth.getMechanisms AuthEnv.enabled
  cases env.useConnection <;> cases env.usePam <;> cases env.useLocal <;> rfl

/-- A connection or PAM creates nothing: it throws, or finds that the account exists. -/
theorem create_refused (hm : m.mech ≠ .authLocal) (s : AuthState) :
    (m.create env p).run s = .error (if env.accepts m.username p m.mech then
      .unableToCreate (str "Already exists.") else .imError (match m.mech with
        | .authConnection => str "No connection authentication"
        | _ => str "PAM: Incorrect login/password")) s := by
  cases hmech : m.mech with
  | authConnection =>
    by_cases hc : env.clientUsername = m.username
    · simp [Auth.create, Auth.createBase, Auth.authExists, AuthEnv.accepts, hmech, hc]
    · simp [Auth.create, AuthEnv.accepts, hmech, hc]
  | authPAM =>
    by_cases hp : env.pam m.username p = true
    · simp [Auth.create, Auth.createBase, Auth.authExists, AuthEnv.accepts, hmech, hp]
    · simp [Auth.create, AuthEnv.accepts, hmech, hp]
  | authLocal => exact absurd hmech hm

/-- The local mechanism asks for a password. -/
theorem create_local_empty (hm : m.mech = .authLocal) (s : AuthState) :
    (m.create env []).run s =
      .error (.unableToCreate (str "Please set a password for this new account")) s := by
  simp [Auth.create, hm]

/-- What the local mechanism needs of the system to open a new account. -/
def AuthEnv.Opens (env : AuthEnv) (s : AuthState) (u : Str) : Prop :=
  env.mkdir u = true ∧ s.purple = none ∧ env.coreInit u = true

/-- A new directory is made, and then opened like one that was there. -/
theorem run_newIM_new (env : AuthEnv) (hnew : s.password u = none) :
    (newIM env u).run s =
      if env.mkdir u then
        (newIM env u).run { s with password := Function.update s.password u (some []) }
      else .error (.imError (str "Unable to create user directory")) s := by
  cases hdir : env.mkdir u with
  | false => simp [newIM, openUserDir, hnew, hdir]
  | true =>
    simp only [newIM, openUserDir, EStateM.run_bind, EStateM.run_get, hnew, hdir, Function.update_self,
      Option.isNone_none, Option.isNone_some, if_true, Bool.false_eq_true, if_false]
    rfl

theorem newIM_new_iff (hnew : s.password u = none) :
    (∃ im t, (newIM env u).run s = .ok im t) ↔ env.Opens s u := by
  rw [run_newIM_new env hnew, AuthEnv.Opens]
  cases hdir : env.mkdir u with
  | false => simp
  | true =>
    rw [if_pos rfl, run_newIM env (by simp)]
    cases s.purple <;> cases env.coreInit u <;> simp

theorem newIM_new_ok (hnew : s.password u = none) (ho : env.Opens s u) :
    (newIM env u).run s =
      .ok u { s with password := Function.update s.password u (some []), purple := some u } := by
  obtain ⟨hdir, hpurple, hinit⟩ := ho
  rw [run_newIM_new env hnew, if_pos hdir, run_newIM env (by simp)]
  simp [hpurple, hinit]

/-- With a password the local mechanism opens the account, and may then leave the password unset. -/
theorem create_local (hm : m.mech = .authLocal) (hp : p ≠ []) (hnew : s.password m.username = none) :
    (m.create env p).run s = (do
      let im ← newIM env m.username
      let _ ← { m with im := some im }.setPassword env p
      return { m with im := some im }).run s := by
  have hexists : m.authExists.run s = .ok false s := by
    simp only [Auth.authExists, hm]
    rw [run_imExists, hnew]
    rfl
  simp only [Auth.create, hm, List.isEmpty_iff, hp, if_false, Auth.createBase]
  rw [EStateM.run_bind, hexists]
  rfl

theorem run_setPassword_local (hm : m.mech = .authLocal) (him : m.im = some u)
    (hd : (s.password u).isSome = true) :
    ∃ b t, (m.setPassword env p).run s = .ok b t ∧ (t.password u).isSome = true := by
  simp only [Auth.setPassword, hm, him]
  cases hgood : goodPassword p with
  | false => exact ⟨false, _, rfl, hd⟩
  | true => exact ⟨true, _, rfl, by simp⟩

theorem create_local_ok (hm : m.mech = .authLocal) (hp : p ≠ []) (hnew : s.password m.username = none)
    (ho : env.Opens s m.username) : ∃ t, (m.create env p).run s = .ok { m with im := some m.username } t ∧
      (t.password m.username).isSome = true := by
  rw [create_local hm hp hnew, EStateM.run_bind, newIM_new_ok hnew ho]
  have hset : ∃ b t, (Auth.setPassword env { m with im := some m.username } p).run
      { s with password := Function.update s.password m.username (some []),
               purple := some m.username } = .ok b t ∧ (t.password m.username).isSome = true :=
    run_setPassword_local hm rfl (by simp)
  obtain ⟨b, t, hset, hd⟩ := hset
  refine ⟨t, ?_, hd⟩
  simp only [EStateM.run_bind, hset]
  rfl

/-- Nothing but the system keeps the local mechanism from creating the account, with an `IMError`. -/
theorem create_local_error (hm : m.mech = .authLocal) (hp : p ≠ []) (hnew : s.password m.username = none)
    (ho : ¬ env.Opens s m.username) : ∃ reason t, (m.create env p).run s = .error (.imError reason) t := by
  rw [create_local hm hp hnew, EStateM.run_bind]
  cases hr : (newIM env m.username).run s with
  | ok im t => exact absurd ((newIM_new_iff hnew).mp ⟨im, t, hr⟩) ho
  | error e t =>
    rw [run_newIM_new env hnew] at hr
    split at hr
    · rw [run_newIM env (by simp)] at hr
      split at hr
      · cases hr
        exact ⟨_, _, rfl⟩
      split at hr
      · cases hr
      · cases hr
        exact ⟨_, _, rfl⟩
    · cases hr
      exact ⟨_, _, rfl⟩

theorem generateLoop_cons : (Auth.generateLoop env p (m :: ms) err).run s =
    match (m.create env p).run s with
    | .ok ok t => .ok (some ok, err) t
    | .error (.unableToCreate reason) t => (Auth.generateLoop env p ms reason).run t
    | .error e t => .error e t := by
  rw [Auth.generateLoop, EStateM.run]
  rfl

/-- What no mechanism accepts is refused with a reason. -/
theorem generateLoop_refused (h : ∀ m ∈ ms, env.accepts m.username p m.mech = false)
    (herr : ms = [] → err ≠ []) :
    (∃ reason, (Auth.generateLoop env p ms err).run s = .error (.imError reason) s) ∨
      ∃ reason ≠ [], (Auth.generateLoop env p ms err).run s = .ok (none, reason) s := by
  induction ms generalizing err with
  | nil => exact .inr ⟨err, herr rfl, rfl⟩
  | cons m ms ih =>
    rw [List.forall_mem_cons] at h
    rw [generateLoop_cons]
    cases hm : m.mech with
    | authLocal =>
      have hp : p = [] := by simpa [AuthEnv.accepts, hm] using h.1
      subst hp
      rw [create_local_empty hm]
      exact ih h.2 fun _ => by simp [str]
    | authConnection =>
      rw [create_refused (by rw [hm]; nofun), h.1]
      exact .inl ⟨_, rfl⟩
    | authPAM =>
      rw [create_refused (by rw [hm]; nofun), h.1]
      exact .inl ⟨_, rfl⟩

/-- An account is created by the local mechanism alone, after mechanisms that accepted the credentials. -/
theorem generateLoop_some (hnew : s.password u = none) (hms : ∀ m ∈ ms, m.username = u)
    (h : (Auth.generateLoop env p ms err).run s = .ok (some a, e') t) :
    p ≠ [] ∧ env.Opens s u ∧ a.mech = .authLocal ∧
      ∃ pre m post, ms = pre ++ m :: post ∧ m.mech = .authLocal ∧ ∀ m' ∈ pre, env.accepts u p m'.mech = true := by
  induction ms generalizing err with
  | nil => simp [Auth.generateLoop] at h
  | cons m ms ih =>
    rw [List.forall_mem_cons] at hms
    obtain ⟨rfl, hms⟩ := hms
    rw [generateLoop_cons] at h
    by_cases hm : m.mech = .authLocal
    · by_cases hp : p = []
      · subst hp
        rw [create_local_empty hm] at h
        exact absurd rfl (ih hms h).1
      by_cases ho : env.Opens s m.username
      · obtain ⟨t', hok, -⟩ := create_local_ok hm hp hnew ho
        rw [hok] at h
        obtain ⟨⟨rfl, -⟩, -⟩ : (_ = a ∧ _) ∧ _ := by simpa using h
        exact ⟨hp, ho, hm, [], m, ms, rfl, hm, List.forall_mem_nil _⟩
      · obtain ⟨reason, t', herr⟩ := create_local_error hm hp hnew ho
        rw [herr] at h
        cases h
    · rw [create_refused hm] at h
      cases hacc : env.accepts m.username p m.mech with
      | false =>
        rw [hacc] at h
        cases h
      | true =>
        rw [hacc] at h
        obtain ⟨hp, ho, ha, pre, m', post, rfl, hm', hpre⟩ := ih hms h
        exact ⟨hp, ho, ha, m :: pre, m', post, rfl, hm', List.forall_mem_cons.mpr ⟨hacc, hpre⟩⟩

theorem generate_nil (h : env.enabled = []) (s : AuthState) : (Auth.generate env u p).run s =
    .error (.imError (str "Private server: account creation disabled")) s := by
  simp [Auth.generate, getMechanisms_eq, h]

theorem generate_run (h : env.enabled ≠ []) (s : AuthState) : (Auth.generate env u p).run s =
    match (Auth.generateLoop env p (Auth.getMechanisms env u) []).run s with
    | .ok (ok, err) t => if ok.isNone && !err.isEmpty then
        .error (.imError (str "Unable to create account: " ++ err)) t else .ok ok t
    | .error e t => .error e t := by
  have hne : (Auth.getMechanisms env u).isEmpty = false := by simpa [getMechanisms_eq] using h
  simp only [Auth.generate, hne, Bool.false_eq_true, if_false, EStateM.run_bind]
  cases (Auth.generateLoop env p (Auth.getMechanisms env u) []).run s with
  | error e t => rfl
  | ok r t =>
    obtain ⟨ok, err⟩ := r
    dsimp only
    split <;> rfl

theorem generate_some (h : env.enabled ≠ []) (hrun : (Auth.generate env u p).run s = .ok (some a) t) :
    ∃ err, (Auth.generateLoop env p (Auth.getMechanisms env u) []).run s = .ok (some a, err) t := by
  rw [generate_run h] at hrun
  split at hrun
  · next ok err t' hloop =>
    split at hrun
    · cases hrun
    · cases hrun
      exact ⟨err, hloop⟩
  · cases hrun

theorem enabled_head (h : env.enabled.head? = some .authLocal) : env.enabled = [.authLocal] := by
  revert h
  unfold AuthEnv.enabled
  cases env.useConnection <;> cases env.usePam <;> cases env.useLocal <;> decide

/-- For a new user the mechanisms are tried as they should be exactly if none accepts the credentials,
or if there is only the local one and the system lets it open the account. -/
theorem generate_falls_through_iff (hnew : s.password u = none) :
    FallsThrough env s u p ↔
      (∀ m ∈ env.enabled, env.accepts u p m = false) ∨ env.enabled = [.authLocal] ∧ env.Opens s u := by
  unfold FallsThrough
  cases hfind : env.enabled.find? (env.accepts u p) with
  | none =>
    have hnone : ∀ m ∈ env.enabled, env.accepts u p m = false := by simpa using List.find?_eq_none.mp hfind
    refine iff_of_true ?_ (.inl hnone)
    by_cases hen : env.enabled = []
    · exact ⟨_, _, generate_nil hen s⟩
    rw [generate_run hen]
    have hms : ∀ m ∈ Auth.getMechanisms env u, env.accepts m.username p m.mech = false := by
      rw [getMechanisms_eq]
      intro m hm
      obtain ⟨mech, hmech, rfl⟩ := List.mem_map.mp hm
      exact hnone mech hmech
    have hsome : Auth.getMechanisms env u = [] → ([] : Str) ≠ [] := fun hnil =>
      absurd hnil (by simpa [getMechanisms_eq] using hen)
    have hloop := fun s : AuthState => generateLoop_refused (s := s) hms hsome
    rcases hloop s with ⟨reason, hr⟩ | ⟨reason, hreason, hr⟩
    · rw [hr]
      exact ⟨_, _, rfl⟩
    · rw [hr]
      refine ⟨_, s, if_pos ?_⟩
      simpa using hreason
  | some first =>
    have hacc := List.find?_some hfind
    have hmem := List.mem_of_find?_eq_some hfind
    have hen : env.enabled ≠ [] := fun hnil => by simp [hnil] at hmem
    dsimp only
    constructor
    · rintro ⟨a, t, hrun, hmech, -, -⟩
      right
      obtain ⟨err, hloop⟩ := generate_some hen hrun
      have hnames : ∀ m ∈ Auth.getMechanisms env u, m.username = u := fun m hm => (mem_getMechanisms hm).1
      obtain ⟨-, ho, ha, pre, m, post, hsplit, hm, hpre⟩ := generateLoop_some hnew hnames hloop
      have hsplit : env.enabled = pre.map Auth.mech ++ .authLocal :: post.map Auth.mech := by
        have hmech := congrArg (List.map Auth.mech) hsplit
        simpa [getMechanisms_eq, Function.comp_def, hm] using hmech
      refine ⟨enabled_head ?_, ho⟩
      -- the first of the list accepts: it is the local mechanism, or the one that was found
      cases pre with
      | nil => rw [hsplit]; rfl
      | cons m' pre =>
        rw [hsplit, List.map_cons, List.cons_append, List.find?_cons_of_pos (hpre m' (by simp))] at hfind
        rw [hsplit, List.map_cons, List.cons_append, List.head?_cons, hfind, ← hmech, ha]
    · rintro (hno | ⟨hlocal, ho⟩)
      · rw [hno first hmem] at hacc
        cases hacc
      · rw [hlocal] at hfind hmem
        obtain rfl := List.mem_singleton.mp hmem
        have hp : p ≠ [] := by simpa [AuthEnv.accepts] using hacc
        have hcreate : ∃ t, ((⟨.authLocal, u, none, false⟩ : Auth).create env p).run s =
            .ok ⟨.authLocal, u, some u, false⟩ t ∧ (t.password u).isSome = true :=
          create_local_ok rfl hp hnew ho
        obtain ⟨t, hok, hd⟩ := hcreate
        refine ⟨⟨.authLocal, u, some u, false⟩, t, ?_, rfl, rfl, hd⟩
        rw [generate_run hen, getMechanisms_eq, hlocal]
        simp only [List.map_cons, List.map_nil]
        rw [generateLoop_cons, hok]
        rfl

/-- Connections and the local database, for a client without a certificate. -/
def connectionEnv : AuthEnv where
  useConnection := true
  usePam := false
  useLocal := true
  clientUsername := []
  pam _ _ := false
  pamChauthtok := false
  mkdir _ := true
  coreInit _ := true

theorem generate_falls_through_local : FallsThrough { connectionEnv with useConnection := false } {} (str "ann")
    (str "longenough") ↔ (∀ m ∈ [Mechanism.authLocal],
      AuthEnv.accepts { connectionEnv with useConnection := false } (str "ann") (str "longenough") m = false) ∨
      [Mechanism.authLocal] = [.authLocal] ∧
        AuthEnv.Opens { connectionEnv with useConnection := false } {} (str "ann") :=
  generate_falls_through_iff rfl

/-- The refusal of the connection ends the search, although the local mechanism would accept. -/
theorem generate_stops : connectionEnv.accepts (str "ann") (str "longenough") .authLocal = true ∧
    (Auth.generate connectionEnv (str "ann") (str "longenough")).run {} =
      .error (.imError (str "No connection authentication")) {} ∧
    ¬ FallsThrough connectionEnv {} (str "ann") (str "longenough") := by
  have hrun : (Auth.generate connectionEnv (str "ann") (str "longenough")).run {} =
      .error (.imError (str "No connection authentication")) {} := rfl
  refine ⟨by decide, hrun, ?_⟩
  have hfind : connectionEnv.enabled.find? (connectionEnv.accepts (str "ann") (str "longenough")) =
      some .authLocal := by decide
  rw [FallsThrough, hfind, hrun]
  rintro ⟨a, t, h, -⟩
  cases h

end Minbif
