import Minbif.Irc.Nickize
import Minbif.Irc.Registration

/-! The directories that the accounts of a session are opened in. -/
namespace Minbif
open Effect

/-- Only this user's directory is opened and only its password set, and no account but its own
becomes the one of the process. -/
structure OpensOnly (u : Str) (s t : AuthState) : Prop where
  purple : t.purple = s.purple ∨ t.purple = some u
  password : ∀ v, v ≠ u → t.password v = s.password v

section Accounts

variable {env : AuthEnv} {u p : Str}

instance : Std.Refl (OpensOnly u) := ⟨fun _ => ⟨.inl rfl, fun _ _ => rfl⟩⟩

instance : IsTrans AuthState (OpensOnly u) := ⟨fun _ _ _ h₁ h₂ =>
  ⟨h₂.purple.elim (fun h => h ▸ h₁.purple) .inr, fun v hv => (h₂.password v hv).trans (h₁.password v hv)⟩⟩

theorem opensOnly_openUserDir (env : AuthEnv) (u : Str) : Keeps (OpensOnly u) (openUserDir env u) := by
  refine keeps_bind keeps_get fun s => keeps_ite (keeps_ite (keeps_modify fun s => ⟨.inl rfl, ?_⟩)
    (keeps_throw _)) (keeps_pure _)
  exact fun v hv => Function.update_of_ne hv _ _

theorem opensOnly_purpleInit (env : AuthEnv) (u : Str) : Keeps (OpensOnly u) (purpleInit env u) := by
  refine keeps_bind keeps_get fun s => keeps_ite (keeps_throw _) (keeps_bind (keeps_modify ?_)
    fun _ => keeps_ite (keeps_throw _) (keeps_pure _))
  exact fun s => ⟨.inr rfl, fun _ _ => rfl⟩

theorem opensOnly_primitive (env : AuthEnv) (u : Str) : Primitive (OpensOnly u) env u where
  openDir := opensOnly_openUserDir env u
  init := opensOnly_purpleInit env u
  set := fun _ _ => keeps_modify fun _ => ⟨.inl rfl, fun _ hv => Function.update_of_ne hv _ _⟩
  notice := fun _ _ => ⟨.inl rfl, fun _ _ => rfl⟩

end Accounts

section Handlers

variable {P : Purple} {C : SessionConf} {T : Turn} {m : Message} {s : Session} {u : Str} {α : Type}

/-- The session's part of the accounts stays as it is. -/
def SameAuth (s t : Session) : Prop := t.auth = s.auth

instance : Std.Refl SameAuth := ⟨fun _ => rfl⟩

instance : IsTrans Session SameAuth := ⟨fun _ _ _ h₁ h₂ => h₂.trans h₁⟩

/-- The session opens no account but that of this user. -/
def UsesOnly (u : Str) (s t : Session) : Prop := OpensOnly u s.auth t.auth

instance : Std.Refl (UsesOnly u) := ⟨fun s => Std.Refl.refl s.auth⟩

instance : IsTrans Session (UsesOnly u) := ⟨fun _ _ _ h₁ h₂ =>
  (IsTrans.trans _ _ _ h₁ h₂ : OpensOnly u _ _)⟩

theorem SameAuth.usesOnly {s t : Session} (h : SameAuth s t) : UsesOnly u s t := by
  rw [UsesOnly, h]
  exact Std.Refl.refl s.auth

theorem sameAuth_sendUser (cmd : Str) (sender receiver : StoredEntity) (args : List Str) :
    Keeps SameAuth (sendUser cmd sender receiver args) := by
  unfold sendUser
  split
  · exact keeps_modify fun _ => rfl
  · exact keeps_throw _

theorem sameAuth_reply (code : Str) (args : List Str) : Keeps SameAuth (reply C code args) :=
  keeps_bind keeps_get fun _ => sameAuth_sendUser _ _ _ _

theorem sameAuth_quit (reason : Str) : Keeps SameAuth (quit reason) :=
  keeps_bind (sameAuth_sendUser _ _ _ _) fun _ => keeps_modify fun _ => rfl

theorem sameAuth_ipcSend (cmd : Str) (args : List Str) : Keeps SameAuth (ipcSend C cmd args) := by
  unfold ipcSend
  split
  · exact keeps_ite (keeps_bind (keeps_modify fun _ => rfl) fun _ => keeps_pure _) (keeps_pure _)
  · exact keeps_throw _

theorem sameAuth_runOp (op : Op) : Keeps SameAuth (runOp P op) := by
  intro s
  simp only [runOp, EStateM.run]
  cases s.world.run P op <;> rfl

theorem sameAuth_getArg (n : Nat) : Keeps SameAuth (getArg m n) := by
  unfold getArg
  split
  · exact keeps_pure _
  · exact keeps_throw _

theorem sameAuth_welcome (nick : Str) : Keeps SameAuth (welcome C nick) := by
  have hmotd : Keeps SameAuth (motd C) := keeps_bind (sameAuth_reply _ _) fun _ =>
    keeps_bind (keeps_forM _ fun _ _ => sameAuth_reply _ _) fun _ => sameAuth_reply _ _
  exact keeps_bind (sameAuth_reply _ _) fun _ => keeps_bind (sameAuth_reply _ _) fun _ =>
    keeps_bind (sameAuth_reply _ _) fun _ => keeps_bind (sameAuth_reply _ _) fun _ =>
      keeps_bind (sameAuth_reply _ _) fun _ => hmotd

theorem sameAuth_register : Keeps SameAuth (register P C T) := by
  have htake : Keeps SameAuth takeIM := by
    refine keeps_bind keeps_get fun s => ?_
    split
    · exact keeps_throw _
    · exact keeps_modify fun _ => rfl
  have hrestore : Keeps SameAuth (restore T) := by
    unfold restore
    split
    · exact keeps_throw _
    · exact keeps_pure _
  refine keeps_bind htake fun _ => keeps_bind (sameAuth_runOp _) fun _ => keeps_bind keeps_get
    fun s => keeps_bind (sameAuth_ipcSend _ _) fun _ => keeps_bind (sameAuth_welcome _) fun _ =>
      keeps_bind hrestore fun _ => ?_
  exact keeps_ite (sameAuth_reply _ _) (keeps_pure _)

theorem keeps_same {x : SessionM α} (h : Keeps SameAuth x) : Keeps (UsesOnly u) x :=
  fun s => (h s).usesOnly

theorem usesOnly_runAuth {x : AuthM α} (h : Keeps (OpensOnly u) x) :
    Keeps (UsesOnly u) (runAuth x) := by
  intro s
  have hx := h s.auth
  simp only [runAuth, EStateM.run] at hx ⊢
  cases hr : x s.auth with
  | ok a t =>
    rw [hr] at hx
    exact hx
  | error e t =>
    rw [hr] at hx
    exact hx

theorem usesOnly_openAuth {x : AuthM (Option Auth)} (h : Keeps (OpensOnly u) x) :
    Keeps (UsesOnly u) (openAuth P T x) :=
  keeps_bind keeps_get fun _ => keeps_bind (usesOnly_runAuth h) fun _ => keeps_bind keeps_get
    fun _ => keeps_ite (keeps_bind (keeps_same (sameAuth_runOp _)) fun _ => keeps_pure _)
      (keeps_pure _)

/-- A relation that is kept, from one state on. -/
theorem keeps_ends {R : Session → Session → Prop} {x : SessionM α} (h : Keeps R x) (s : Session) :
    Ends (fun t => t = s) x (R s) := by
  rintro t rfl
  have ht := h t
  cases hr : x.run t with
  | ok a u =>
    rw [hr] at ht
    exact ht
  | error e u =>
    rw [hr] at ht
    exact ht

theorem login_uses (s : Session) :
    Ends (fun t => t = s) (login P C T) (UsesOnly s.nickname s) := by
  refine triple_get fun s' hs => ?_
  subst hs
  refine (keeps_ends ?_ s').pre fun _ => And.left
  have hset : ∀ a, Keeps (UsesOnly s'.nickname) (setImAuth a) :=
    fun a => keeps_same (keeps_modify fun _ => rfl)
  have hquit : ∀ reason, Keeps (UsesOnly s'.nickname) (do quit reason; return false) :=
    fun reason => keeps_bind (keeps_same (sameAuth_quit reason)) fun _ => keeps_pure _
  have hexists : Keeps (UsesOnly s'.nickname) (runAuth (imExists s'.nickname)) :=
    usesOnly_runAuth (keeps_bind keeps_get fun _ => keeps_pure _)
  refine keeps_bind (usesOnly_openAuth (opensOnly_primitive _ _).validate) fun a =>
    keeps_bind (hset a) fun _ => keeps_ite (keeps_pure _) (keeps_bind hexists fun b =>
      keeps_ite (hquit _) (keeps_ite (hquit _) ?_))
  refine keeps_bind (usesOnly_openAuth (opensOnly_primitive _ _).generate) fun a =>
    keeps_bind (hset a) fun _ => keeps_ite ?_ (keeps_pure _)
  exact keeps_bind (keeps_same (sameAuth_quit _)) fun _ => keeps_pure _

/-- From a state that an earlier part has led to, what keeps the relation keeps it all along. -/
theorem keeps_after {u : Str} {x : SessionM α} (h : Keeps (UsesOnly u) x) (s : Session) :
    Ends (UsesOnly u s) x (UsesOnly u s) := by
  intro t ht
  have hx := h t
  cases hr : x.run t with
  | ok a v =>
    rw [hr] at hx
    exact IsTrans.trans _ _ _ ht hx
  | error e v =>
    rw [hr] at hx
    exact IsTrans.trans _ _ _ ht hx

/-- Only the account under the nickname is opened, and none before there is a nickname. -/
def OpensNick (s t : Session) : Prop :=
  SameAuth s t ∨ (s.nickname ≠ ['*'] ∧ UsesOnly s.nickname s t)

theorem sendWelcome_opens (s : Session) :
    Ends (fun t => t = s) (sendWelcome P C T) (OpensNick s) := by
  refine triple_get fun s' hs => ?_
  subst hs
  refine triple_ite (fun _ => triple_pure ?_) fun hgo => ?_
  · rintro t ⟨rfl, -⟩
    exact .inl rfl
  · have hnick : s'.nickname ≠ ['*'] := by
      intro hstar
      simp [hstar] at hgo
    have hcatch : ∀ e, Keeps (UsesOnly s'.nickname) (onIMError e) := by
      intro e
      unfold onIMError
      split
      · exact keeps_same (sameAuth_quit _)
      · exact keeps_throw _
    have hbody : Ends (fun t => t = s') (tryCatch (do if (← login P C T) then register P C T) onIMError)
        (UsesOnly s'.nickname s') := by
      have htry : Ends (fun t => t = s') (do if (← login P C T) then register P C T)
          (UsesOnly s'.nickname s') := by
        refine triple_bind (login_uses s') fun b => ?_
        cases b with
        | false => exact triple_pure fun _ => id
        | true => exact keeps_after (keeps_same sameAuth_register) s'
      exact triple_tryCatch htry fun e => keeps_after (hcatch e) s'
    exact hbody.weaken (fun _ => And.left) fun t ht => .inr ⟨hnick, ht⟩

/-- The accounts stay as they are, or one is opened under a name that is a nickname. -/
def OpensValid (s t : Session) : Prop :=
  SameAuth s t ∨ ∃ u, isValidNickname u = true ∧ UsesOnly u s t

theorem ends_same {x : SessionM Unit} (h : Keeps SameAuth x) (s : Session) :
    Ends (fun t => t = s) x (OpensValid s) :=
  (keeps_ends h s).weaken (fun _ => id) fun _ => .inl

theorem m_nick_opens (s : Session) : Ends (fun t => t = s) (m_nick P C T m) (OpensValid s) := by
  unfold m_nick
  split
  · exact ends_same (sameAuth_reply _ _) s
  · next nick rest hargs =>
    refine triple_get fun s' hs => ?_
    subst hs
    refine (Triple.pre ?_ fun _ => And.left : Ends (fun t => t = s' ∧ t = s') _ _)
    refine triple_ite (fun _ => ends_same (sameAuth_reply _ _) s') fun hreg => ?_
    refine triple_ite (fun _ => ends_same (sameAuth_reply _ _) s') fun hvalid => ?_
    have hvalid : isValidNickname nick = true := by simpa using hvalid
    have hreg : s'.registered = false := by simpa using hreg
    have hrename : Triple (fun t => t = s') (runOp P (.nick nick))
        (fun _ t => SameAuth s' t ∧ t.nickname = nick) fun _ => OpensValid s' := by
      rintro t rfl
      have hsame := sameAuth_runOp (P := P) (.nick nick) t
      simp only [runOp, EStateM.run] at hsame ⊢
      cases hrun : t.world.run P (.nick nick) with
      | none => exact .inl rfl
      | some w => exact ⟨rfl, (World.run_nick hreg hvalid hrun).1⟩
    refine triple_bind hrename fun _ => ?_
    rintro t ⟨hsame, hname⟩
    have hstep : ∀ v, OpensNick t v → OpensValid s' v := by
      rintro v (hv | ⟨-, hv⟩)
      · exact .inl (IsTrans.trans _ _ _ hsame hv)
      · exact .inr ⟨nick, hvalid, IsTrans.trans _ _ _ hsame.usesOnly (hname ▸ hv)⟩
    exact (sendWelcome_opens t).weaken (fun _ => id) hstep t rfl

theorem m_user_opens (s : Session)
    (hnick : s.registered = false ∧ s.nickname = ['*'] ∨ isValidNickname s.nickname = true) :
    Ends (fun t => t = s) (m_user P C T m) (OpensValid s) := by
  refine triple_get fun s' hs => ?_
  subst hs
  refine (Triple.pre ?_ fun _ => And.left : Ends (fun t => t = s' ∧ t = s') _ _)
  refine triple_ite (fun _ => ends_same (sameAuth_reply _ _) s') fun _ => ?_
  have hread : ∀ n, Triple (fun t => t = s') (getArg m n) (fun _ t => t = s') fun _ => OpensValid s' := by
    intro n
    unfold getArg
    split
    · exact triple_pure fun _ => id
    · exact triple_throw fun t ht => .inl (ht ▸ rfl)
  refine triple_bind (hread 0) fun ident => triple_bind (hread 3) fun real => ?_
  refine triple_bind (q := fun _ t => SameAuth s' t ∧ t.nickname = s'.nickname)
    (triple_modify fun t ht => ht ▸ ⟨rfl, rfl⟩) fun _ => ?_
  rintro t ⟨hsame, hname⟩
  have hstep : ∀ v, OpensNick t v → OpensValid s' v := by
    rintro v (hv | ⟨hstar, hv⟩)
    · exact .inl (IsTrans.trans _ _ _ hsame hv)
    · rw [hname] at hstar hv
      rcases hnick with ⟨-, heq⟩ | hvalid
      · exact absurd heq hstar
      · exact .inr ⟨_, hvalid, IsTrans.trans _ _ _ hsame.usesOnly hv⟩
  exact (sendWelcome_opens t).weaken (fun _ => id) hstep t rfl

/-- No other handler touches the accounts. -/
theorem handler_same (h : Handler) (hnick : h ≠ .nick) (huser : h ≠ .user) :
    Keeps SameAuth (h.run P C T m) := by
  cases h with
  | nick => exact absurd rfl hnick
  | user => exact absurd rfl huser
  | pass =>
    exact keeps_bind (sameAuth_getArg 0) fun _ => keeps_bind keeps_get fun _ =>
      keeps_ite (sameAuth_reply _ _) (keeps_ite (sameAuth_quit _) (keeps_ite (sameAuth_quit _)
        (keeps_modify fun _ => rfl)))
  | quit => exact sameAuth_quit _
  | oper =>
    refine keeps_bind keeps_get fun s => keeps_ite (sameAuth_reply _ _)
      (keeps_bind (sameAuth_getArg 0) fun a => keeps_bind (sameAuth_getArg 1) fun b =>
        keeps_ite ?_ (sameAuth_reply _ _))
    exact keeps_bind (keeps_modify fun _ => rfl) fun _ => keeps_bind (sameAuth_sendUser _ _ _ _)
      fun _ => keeps_bind (sameAuth_reply _ _) fun _ => keeps_bind (sameAuth_ipcSend _ _)
        fun _ => keeps_pure _
  | wallops =>
    exact keeps_bind (sameAuth_getArg 0) fun _ => keeps_bind keeps_get fun _ =>
      keeps_bind (sameAuth_ipcSend _ _) fun _ => keeps_pure _
  | rehash => exact sameAuth_reply _ _
  | die =>
    exact keeps_bind (sameAuth_getArg 0) fun _ => keeps_bind keeps_get fun _ =>
      keeps_bind (sameAuth_ipcSend _ _) fun _ => keeps_ite (sameAuth_quit _) (keeps_pure _)
  | other =>
    refine keeps_bind (keeps_forM _ fun op _ => sameAuth_runOp op) fun _ =>
      keeps_bind (keeps_modify fun _ => rfl) fun _ => ?_
    split
    · exact keeps_throw _
    · exact keeps_pure _

theorem handler_opens (h : Handler) (s : Session)
    (hnick : s.registered = false ∧ s.nickname = ['*'] ∨ isValidNickname s.nickname = true) :
    Ends (fun t => t = s) (h.run P C T m) (OpensValid s) := by
  by_cases h1 : h = .nick
  · subst h1
    exact m_nick_opens s
  by_cases h2 : h = .user
  · subst h2
    exact m_user_opens s hnick
  exact ends_same (handler_same h h1 h2) s

theorem dispatchLine_opens (line : Str) (s : Session)
    (hnick : s.registered = false ∧ s.nickname = ['*'] ∨ isValidNickname s.nickname = true) :
    Ends (fun t => t = s) (dispatchLine P C T line) (OpensValid s) := by
  unfold dispatchLine
  split
  · exact ends_same (keeps_throw _) s
  · next m hm =>
    split
    · exact ends_same (sameAuth_reply _ _) s
    · next c hc =>
      refine triple_get fun s' hs => ?_
      subst hs
      refine (Triple.pre ?_ fun _ => And.left : Ends (fun t => t = s' ∧ t = s') _ _)
      refine triple_ite (fun _ => ends_same (sameAuth_reply _ _) s') fun _ => triple_ite (fun _ =>
        triple_ite (fun _ => ends_same (sameAuth_reply _ _) s') fun _ =>
          ends_same (sameAuth_reply _ _) s') fun _ => ?_
      -- what is recorded of the handler concerns neither the nickname nor the accounts
      refine triple_bind (q := fun _ t => t = { s' with ran := t.ran })
        (triple_modify fun t ht => ht ▸ rfl) fun _ => ?_
      intro t ht
      have hgo := handler_opens (P := P) (C := C) (T := T) (m := m) c.handler t (by rw [ht]; exact hnick)
      refine hgo.weaken (fun _ => id) (fun v hv => ?_) t rfl
      rw [ht] at hv
      exact hv

/-- Whatever happens to a session, an account that it opens is under a nickname. -/
theorem event_opens (e : SessionEvent) (s : Session)
    (hnick : s.registered = false ∧ s.nickname = ['*'] ∨ isValidNickname s.nickname = true) :
    Ends (fun t => t = s) (e.act P C) (OpensValid s) := by
  cases e with
  | line T l =>
    refine triple_tryCatch (dispatchLine_opens l s hnick) fun e => ?_
    split
    · next reason =>
      intro t ht
      have hsame := sameAuth_quit reason t
      have hafter : OpensValid s (final ((quit reason).run t)) := by
        rcases ht with ht | ⟨u, hu, ht⟩
        · exact .inl (IsTrans.trans _ _ _ ht hsame)
        · exact .inr ⟨u, hu, IsTrans.trans _ _ _ ht hsame.usesOnly⟩
      cases hr : (quit reason).run t with
      | ok a v => rwa [hr] at hafter
      | error e v => rwa [hr] at hafter
    · exact triple_throw fun _ => id
  | im op =>
    have hact : (SessionEvent.im op).act P C = if op.ofPurple then runOp P op else pure () := rfl
    rw [hact]
    exact ends_same (keeps_ite (sameAuth_runOp op) (keeps_pure _)) s
  | close reason => exact ends_same (sameAuth_quit reason) s

end Handlers

section Runs

variable {P : Purple} {C : SessionConf} {accounts : AuthState} {es : List SessionEvent} {s : Session}

/-- The account of the process, and each whose password is no longer what it was, is under a
nickname. -/
structure UnderNicks (accounts : AuthState) (s : Session) : Prop where
  purple : ∀ u, s.auth.purple = some u → isValidNickname u = true
  password : ∀ u, s.auth.password u ≠ accounts.password u → isValidNickname u = true

theorem UnderNicks.step {t : Session} (h : UnderNicks accounts s) (hst : OpensValid s t) :
    UnderNicks accounts t := by
  rcases hst with hsame | ⟨u, hu, hopens⟩
  · rw [SameAuth] at hsame
    exact ⟨fun v hv => h.purple v (hsame ▸ hv), fun v hv => h.password v (hsame ▸ hv)⟩
  · refine ⟨fun v hv => ?_, fun v hv => ?_⟩
    · rcases hopens.purple with heq | heq
      · exact h.purple v (heq ▸ hv)
      · obtain rfl : u = v := Option.some.inj (heq.symm.trans hv)
        exact hu
    · by_cases hvu : v = u
      · exact hvu ▸ hu
      · rw [hopens.password v hvu] at hv
        exact h.password v hv

theorem run_underNicks (hnew : accounts.purple = none)
    (h : Runs.run (Session.step P C) (Session.initial accounts) es = some s) :
    UnderNicks accounts s := by
  have hstart : UnderNicks accounts (Session.initial accounts) := by
    refine ⟨fun u hu => ?_, fun u hu => absurd rfl hu⟩
    rw [Session.initial, hnew] at hu
    cases hu
  refine (Runs.run_invariant (I := fun _ s => Gate C FromChild [] s ∧ UnderNicks accounts s) ?_
    ⟨initial_gate accounts, hstart⟩ h).2
  rintro past s e t ⟨hgate, hunder⟩ hstep
  refine ⟨step_triple (gate_event e).1 hgate hstep, hunder.step ?_⟩
  have hopens := event_opens (P := P) (C := C) e s hgate.nick s rfl
  unfold Session.step at hstep
  cases hr : (e.act P C).run s with
  | ok a v =>
    rw [hr] at hopens hstep
    exact Option.some.inj hstep ▸ hopens
  | error err v =>
    rw [hr] at hstep
    cases hstep

/-- `nickize` makes nicknames of all strings, whatever their transliteration; a nickname is the name
of a file; and the accounts of a process are opened under nicknames, which are C strings. -/
theorem nicknames_name_files :
    (∀ translit n, CString.isValidNickname (nickize translit n) = true) ∧
    (∀ name, CString.isValidNickname name = true → name ≠ [] ∧ '/' ∉ name ∧ '.' ∉ name ∧
      ∀ dir, DirectChild dir (dir ++ '/' :: name)) ∧
    ∀ (P : Purple) (C : SessionConf) (accounts : AuthState) (es : List SessionEvent) (s : Session)
      (u : Str), accounts.purple = none →
      Runs.run (Session.step P C) (Session.initial accounts) es = some s →
      s.auth.purple = some u ∨ s.auth.password u ≠ accounts.password u →
        CString.isValidNickname u = true ∧ '\x00' ∉ u ∧ ∀ dir, DirectChild dir (dir ++ '/' :: u) := by
  have hchild : ∀ name, CString.isValidNickname name = true → name ≠ [] ∧ '/' ∉ name ∧ '.' ∉ name ∧
      ∀ dir, DirectChild dir (dir ++ '/' :: name) := by
    intro name h
    have hne := (CString.isValidNickname_iff.mp h).1.ne_nil
    have hslash : '/' ∉ name := CString.not_mem_valid h (by decide) (by decide)
    have hdot : '.' ∉ name := CString.not_mem_valid h (by decide) (by decide)
    exact ⟨hne, hslash, hdot, fun dir => directChild_name hne hslash hdot⟩
  have hexact : ∀ nick, isValidNickname nick = true →
      CString.isValidNickname nick = true ∧ '\x00' ∉ nick := by
    intro nick h
    have hnul : '\x00' ∉ nick := (ProperNick.of_valid h).not_mem (by decide)
    exact ⟨(CString.isValidNickname_eq hnul).trans h, hnul⟩
  refine ⟨fun translit n => (hexact _ (nickize_valid translit n)).1, hchild, ?_⟩
  intro P C accounts es s u hnew hrun hu
  have hunder := run_underNicks hnew hrun
  obtain ⟨hvalid, hnul⟩ := hexact u (hu.elim (hunder.purple u) (hunder.password u))
  exact ⟨hvalid, hnul, (hchild u hvalid).2.2.2⟩

/-- A name that is all dots and slashes, and one whose transliteration failed; the client that
registers as alice. -/
theorem nicknames_name_files_alice :
    CString.isValidNickname (nickize (some (str "../..")) (str "../..")) = true ∧
    CString.isValidNickname (nickize none (str "1 2")) = true ∧
    DirectChild (str "/users") (str "/users/alice") ∧
    ∃ s, Runs.run (Session.step World.noPurple openConf) (Session.initial {}) aliceLines = some s ∧
      '\x00' ∉ str "alice" ∧ s.auth.purple = some (str "alice") := by
  obtain ⟨hnickize, hchild, hopened⟩ := nicknames_name_files
  have hrun : (Runs.run (Session.step World.noPurple openConf) (Session.initial {}) aliceLines).map
      (fun s => s.auth.purple) = some (some (str "alice")) := by decide +kernel
  obtain ⟨s, hs, hpurple⟩ := Option.map_eq_some_iff.mp hrun
  have halice := hopened World.noPurple openConf {} aliceLines s _ rfl hs (.inl hpurple)
  exact ⟨hnickize _ _, hnickize _ _, (hchild _ halice.1).2.2.2 (str "/users"), s, hs, halice.2.1,
    hpurple⟩

end Runs
end Minbif
