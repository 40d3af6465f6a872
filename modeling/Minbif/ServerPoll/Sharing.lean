import Minbif.ServerPoll.Descriptors

/-! Which processes have which ends open, in every run. -/
namespace Minbif
open Function

variable {served : List Outcome} {i k fd fd' new f0 f1 s : Nat} {x y : Desc} {fds : List (Nat × Desc)}
  {childs : List Nat} {p : Process} {pair : Option (Nat × Nat)}

namespace Forking

/-- What holds between the events. -/
structure Sound (d : Forking) : Prop where
  table : ∀ i, Wired d.served i (d.procs i).fds (d.procs i).childs
  dead : ∀ i, (d.procs i).alive = false → d.procs i = {}
  beyond : ∀ i, (d.procs i).alive = true → i ≤ d.served.length
  accepts : ∀ i, (d.procs i).alive = true → ((d.procs i).accepts = true ↔ i = 0)
  master : (d.procs 0).alive = true → ∃ s, (d.procs 0).sock = some s ∧ (s, .listening) ∈ (d.procs 0).fds
  attached : (d.procs 0).alive = true → ∀ k, d.served[k]? = some (.forked true) →
    (d.procs (k + 1)).alive = true → ∃ fd, (fd, .upper k) ∈ (d.procs 0).fds
  session : ∀ k, (d.procs (k + 1)).alive = true →
    (∃ s, d.served[k]? = some (.forked true) ∧ (d.procs (k + 1)).childs = [] ∧
      (d.procs (k + 1)).sock = some s ∧ (s, .lower k) ∈ (d.procs (k + 1)).fds) ∨
    (d.procs (k + 1)).sock = none ∧ (d.served[k]? = some (.forked false) ∨
      d.served[k]? = some (.forked true) ∧ (d.procs (k + 1)).childs = [] ∧
        ∀ i fd, (fd, .upper k) ∉ (d.procs i).fds)

variable {d d' : Forking} {e : Event}

theorem Sound.held_iff (h : d.Sound) : d.held x = true ↔ ∃ i fd, (fd, x) ∈ (d.procs i).fds := by
  simp only [held, List.any_eq_true, List.mem_range, Bool.and_eq_true, decide_eq_true_eq, Prod.exists]
  constructor
  · rintro ⟨i, -, -, fd, y, hy, rfl⟩
    exact ⟨i, fd, hy⟩
  · rintro ⟨i, fd, hx⟩
    have halive : (d.procs i).alive = true := by
      by_contra hdead
      rw [h.dead i (by simpa using hdead)] at hx
      cases hx
    exact ⟨i, by have := h.beyond i halive; omega, halive, fd, x, hx, rfl⟩

/-- The end of a live session is open, while the master has the other one. -/
theorem Sound.lower (h : d.Sound) (hk : d.served[k]? = some (.forked true))
    (halive : (d.procs (k + 1)).alive = true) (hfd : (fd, .upper k) ∈ (d.procs i).fds) :
    d.held (.lower k) = true := by
  rcases h.session k halive with ⟨s, -, -, -, hs⟩ | ⟨-, hnone | ⟨-, -, hno⟩⟩
  · exact h.held_iff.mpr ⟨k + 1, s, hs⟩
  · rw [hk] at hnone
    cases hnone
  · exact absurd hfd (hno i fd)

/-- An entry of the master hangs up exactly when its session has gone. -/
theorem Sound.hangup_iff (h : d.Sound) (hk : d.served[k]? = some (.forked true))
    (hfd : (fd, .upper k) ∈ (d.procs i).fds) :
    d.hangup (d.procs i) fd = true ↔ (d.procs (k + 1)).alive = false := by
  rw [hangup, (h.table i).lookup hfd]
  simp only [Bool.not_eq_true', ← Bool.not_eq_true]
  refine not_congr ⟨fun hheld => ?_, fun halive => h.lower hk halive hfd⟩
  obtain ⟨j, fd', hl⟩ := h.held_iff.mp hheld
  by_contra hdead
  rcases (h.table j).allowed _ _ hl with hno | ⟨-, rfl⟩
  · rw [hk] at hno
    cases hno
  · rw [h.dead _ (by simpa using hdead)] at hl
    cases hl

theorem start_sound (maxcon fd : Nat) : (start maxcon fd).Sound := by
  have hproc : ∀ i, i ≠ 0 → (start maxcon fd).procs i = {} := by
    intro i hi
    simp [start, hi]
  have hzero : (start maxcon fd).procs 0 =
      { alive := true, fds := [(fd, .listening)], sock := some fd, accepts := true } := by
    simp [start]
  have halive : ∀ i, ((start maxcon fd).procs i).alive = true → i = 0 := by
    intro i hi
    by_contra hne
    rw [hproc i hne] at hi
    cases hi
  refine ⟨fun i => ?_, fun i hi => ?_, fun i hi => Nat.le_of_eq (halive i hi), fun i hi => ?_, fun _ => ?_,
    fun _ k hk => ?_, fun k hk => ?_⟩
  · by_cases hi : i = 0
    · subst hi
      rw [hzero]
      exact (Wired.empty _ _).cons nofun nofun rfl
    · rw [hproc i hi]
      exact .empty _ _
  · by_cases hi' : i = 0
    · subst hi'
      rw [hzero] at hi
      cases hi
    · exact hproc i hi'
  · rw [halive i hi, hzero]
    simp
  · exact ⟨fd, by rw [hzero], by rw [hzero]; simp⟩
  · cases hk
  · cases halive _ hk

/-- A process closes ends, and with them entries, that nobody counts on. -/
theorem Sound.loses (h : d.Sound) {p : Process} (halive : p.alive = true → (d.procs i).alive = true)
    (hdead : p.alive = false → p = {}) (htable : Wired d.served i p.fds p.childs)
    (hsub : ∀ y ∈ p.fds, y ∈ (d.procs i).fds)
    (haccepts : p.alive = true → p.accepts = (d.procs i).accepts)
    (hmaster : i = 0 → p.alive = true → p.sock = (d.procs 0).sock ∧
      (∀ s, (s, .listening) ∈ (d.procs 0).fds → (s, .listening) ∈ p.fds) ∧
      ∀ k, d.served[k]? = some (.forked true) → (d.procs (k + 1)).alive = true →
        ∀ fd, (fd, .upper k) ∈ (d.procs 0).fds → (fd, .upper k) ∈ p.fds)
    (hsession : ∀ k, i = k + 1 → p.alive = true →
      (∃ s, d.served[k]? = some (.forked true) ∧ p.childs = [] ∧ p.sock = some s ∧ (s, .lower k) ∈ p.fds) ∨
      p.sock = none ∧ (d.served[k]? = some (.forked false) ∨ d.served[k]? = some (.forked true) ∧
        p.childs = [] ∧ ∀ j fd, (fd, .upper k) ∉ (d.procs j).fds)) :
    (d.setProc i p).Sound := by
  have hself : (d.setProc i p).procs i = p := update_self _ _ _
  have hother : ∀ j, j ≠ i → (d.setProc i p).procs j = d.procs j := fun j hj => update_of_ne hj _ _
  have hfds : ∀ j, ∀ y ∈ ((d.setProc i p).procs j).fds, y ∈ (d.procs j).fds := by
    intro j y hy
    by_cases hj : j = i
    · subst hj
      rw [hself] at hy
      exact hsub y hy
    · rwa [hother j hj] at hy
  have hlives : ∀ j, ((d.setProc i p).procs j).alive = true → (d.procs j).alive = true := by
    intro j hj
    by_cases hji : j = i
    · subst hji
      rw [hself] at hj
      exact halive hj
    · rwa [hother j hji] at hj
  refine ⟨fun j => ?_, fun j hj => ?_, fun j hj => h.beyond j (hlives j hj), fun j hj => ?_, fun h0 => ?_,
    fun h0 k hk hl => ?_, fun k hk => ?_⟩
  · by_cases hj : j = i
    · subst hj
      rw [hself]
      exact htable
    · rw [hother j hj]
      exact h.table j
  · by_cases hji : j = i
    · subst hji
      rw [hself] at hj ⊢
      exact hdead hj
    · rw [hother j hji] at hj ⊢
      exact h.dead j hj
  · rw [← h.accepts j (hlives j hj)]
    by_cases hji : j = i
    · subst hji
      rw [hself] at hj ⊢
      rw [haccepts hj]
    · rw [hother j hji]
  · obtain ⟨s, hs, hlisten⟩ := h.master (hlives 0 h0)
    by_cases hi : 0 = i
    · subst hi
      rw [hself] at h0 ⊢
      obtain ⟨hsock, hkeep, -⟩ := hmaster rfl h0
      exact ⟨s, hsock.trans hs, hkeep s hlisten⟩
    · rw [hother 0 hi]
      exact ⟨s, hs, hlisten⟩
  · obtain ⟨fd, hfd⟩ := h.attached (hlives 0 h0) k hk (hlives _ hl)
    by_cases hi : 0 = i
    · subst hi
      rw [hself] at h0 ⊢
      exact ⟨fd, (hmaster rfl h0).2.2 k hk (hlives _ hl) fd hfd⟩
    · rw [hother 0 hi]
      exact ⟨fd, hfd⟩
  · have hno : ∀ {k}, (∀ j fd, (fd, Desc.upper k) ∉ (d.procs j).fds) →
        ∀ j fd, (fd, .upper k) ∉ ((d.setProc i p).procs j).fds :=
      fun hno j fd hfd => hno j fd (hfds j _ hfd)
    by_cases hi : k + 1 = i
    · rw [hi, hself] at hk ⊢
      rcases hsession k hi.symm hk with hopen | ⟨hsock, hnone | ⟨hk, hchilds, hupper⟩⟩
      · exact .inl hopen
      · exact .inr ⟨hsock, .inl hnone⟩
      · exact .inr ⟨hsock, .inr ⟨hk, hchilds, hno hupper⟩⟩
    · rw [hother _ hi] at hk ⊢
      rcases h.session k hk with hopen | ⟨hsock, hnone | ⟨hk, hchilds, hupper⟩⟩
      · exact .inl hopen
      · exact .inr ⟨hsock, .inl hnone⟩
      · exact .inr ⟨hsock, .inr ⟨hk, hchilds, hno hupper⟩⟩

theorem Sound.exit (h : d.Sound) (i : Nat) : (d.setProc i {}).Sound :=
  h.loses nofun (fun _ => rfl) (.empty _ _) nofun nofun (fun _ => nofun) fun _ _ => nofun

/-- The master forgets a session that has gone. -/
theorem Sound.childLeft (h : d.Sound) (halive : (d.procs i).alive = true)
    (hfd : fd ∈ (d.procs i).childs) (hgone : d.hangup (d.procs i) fd = true) :
    (d.setProc i ({ d.procs i with
      childs := (d.procs i).childs.filter (· ≠ fd) }.close fd)).Sound := by
  obtain ⟨k, hupper, hk⟩ := (h.table i).entries fd hfd
  refine h.loses (fun _ => halive) (fun hdead => ?_) ((h.table i).forget fd)
    (fun y hy => (List.mem_filter.mp hy).1) (fun _ => rfl) ?_ ?_
  · exact absurd hdead (by simp [Process.close, halive])
  · rintro rfl _
    refine ⟨rfl, fun s hs => List.mem_filter.mpr ⟨hs, decide_eq_true ?_⟩, fun j hj hlive fd' hfd' =>
      List.mem_filter.mpr ⟨hfd', decide_eq_true ?_⟩⟩
    · rintro rfl
      cases (h.table 0).unique hs hupper
    · rintro rfl
      obtain rfl := Desc.upper.inj ((h.table 0).unique hfd' hupper)
      have hdead := (h.hangup_iff hk hupper).mp hgone
      rw [hlive] at hdead
      cases hdead
  · rintro j rfl _
    have hne : (d.procs (j + 1)).childs ≠ [] := List.ne_nil_of_mem hfd
    rcases h.session j halive with ⟨s, -, hnil, -⟩ | ⟨hsock, hnone | ⟨-, hnil, -⟩⟩
    · exact absurd hnil hne
    · exact .inr ⟨hsock, .inl hnone⟩
    · exact absurd hnil hne

/-- A session gives its end up once nobody has the other one. -/
theorem Sound.masterLeft (h : d.Sound) (halive : (d.procs i).alive = true)
    (haccepts : (d.procs i).accepts = false) (hsock : (d.procs i).sock = some s)
    (hgone : d.hangup (d.procs i) s = true) :
    (d.setProc i ({ d.procs i with sock := none }.close s)).Sound := by
  obtain ⟨k, rfl⟩ : ∃ k, i = k + 1 := by
    refine Nat.exists_eq_succ_of_ne_zero fun h0 => ?_
    rw [(h.accepts i halive).mpr h0] at haccepts
    cases haccepts
  obtain ⟨hk, hchilds, hlower⟩ : d.served[k]? = some (.forked true) ∧ (d.procs (k + 1)).childs = [] ∧
      (s, .lower k) ∈ (d.procs (k + 1)).fds := by
    rcases h.session k halive with ⟨s', hk, hchilds, hs', hlower⟩ | ⟨hnone, -⟩
    · obtain rfl := Option.some.inj (hs'.symm.trans hsock)
      exact ⟨hk, hchilds, hlower⟩
    · rw [hsock] at hnone
      cases hnone
  have hno : ∀ j fd, (fd, .upper k) ∉ (d.procs j).fds := by
    intro j fd hfd
    rw [hangup, (h.table (k + 1)).lookup hlower] at hgone
    simp only [Bool.not_eq_true', ← Bool.not_eq_true] at hgone
    exact hgone (h.held_iff.mpr ⟨j, fd, hfd⟩)
  refine h.loses (fun _ => halive) (fun hdead => ?_) ?_ (fun y hy => (List.mem_filter.mp hy).1)
    (fun _ => rfl) nofun ?_
  · exact absurd hdead (by simp [Process.close, halive])
  · refine (h.table (k + 1)).sub (q := fun y => decide (y ≠ s)) (fun y => ?_) ?_
    · simp [Process.close, hchilds]
    · simp [Process.close, hchilds]
  · rintro j hj _
    obtain rfl := Nat.succ.inj hj
    exact .inr ⟨rfl, .inr ⟨hk, hchilds, hno⟩⟩

/-- The master after a connection has come. -/
structure Hosts (d : Forking) (o : Outcome) (p : Process) : Prop where
  alive : p.alive = true
  sock : p.sock = (d.procs 0).sock
  accepts : p.accepts = (d.procs 0).accepts
  table : Wired (d.served ++ [o]) 0 p.fds p.childs
  keeps : ∀ y ∈ (d.procs 0).fds, y ∈ p.fds
  fresh : ∀ j fd, (fd, .upper j) ∈ p.fds → (fd, .upper j) ∈ (d.procs 0).fds ∨ j = d.served.length
  entry : o = .forked true → ∃ fd, (fd, .upper d.served.length) ∈ p.fds

/-- The process that was forked for it, if any. -/
structure Serves (d : Forking) (o : Outcome) (q : Process) : Prop where
  dead : q.alive = false → q = {}
  accepts : q.accepts = false
  table : Wired (d.served ++ [o]) (d.served.length + 1) q.fds q.childs
  fresh : ∀ j fd, (fd, .upper j) ∈ q.fds → (fd, .upper j) ∈ (d.procs 0).fds
  session : q.alive = true →
    (∃ s, o = .forked true ∧ q.childs = [] ∧ q.sock = some s ∧ (s, .lower d.served.length) ∈ q.fds) ∨
    q.sock = none ∧ o = .forked false

theorem Serves.none (d : Forking) (o : Outcome) : d.Serves o {} :=
  ⟨fun _ => rfl, rfl, .empty _ _, nofun, nofun⟩

theorem Sound.grows (h : d.Sound) {o : Outcome} {p q : Process} (hp : d.Hosts o p) (hq : d.Serves o q)
    (hd' : d'.procs = Function.update (Function.update d.procs 0 p) (d.served.length + 1) q)
    (hserved : d'.served = d.served ++ [o]) (halive : (d.procs 0).alive = true) : d'.Sound := by
  have hzero : d'.procs 0 = p := by
    rw [hd', update_of_ne (by omega), update_self]
  have hnew : d'.procs (d.served.length + 1) = q := by
    rw [hd', update_self]
  have hother : ∀ j, j ≠ 0 → j ≠ d.served.length + 1 → d'.procs j = d.procs j := by
    intro j h0 hj
    rw [hd', update_of_ne hj, update_of_ne h0]
  have hlast : d'.served[d.served.length]? = some o := by
    rw [hserved, List.getElem?_concat_length]
  have hold : ∀ j, j ≠ d.served.length → d'.served[j]? = d.served[j]? := by
    intro j hj
    rw [hserved, List.getElem?_append]
    split
    · rfl
    · rw [List.getElem?_eq_none (by simp; omega), List.getElem?_eq_none (by omega)]
  have hlow : ∀ j, (d.procs (j + 1)).alive = true → j ≠ d.served.length := by
    rintro j hj rfl
    have := h.beyond _ hj
    omega
  have hno : ∀ j, j ≠ d.served.length → (∀ i fd, (fd, Desc.upper j) ∉ (d.procs i).fds) →
      ∀ i fd, (fd, .upper j) ∉ (d'.procs i).fds := by
    intro j hj hno i fd hfd
    by_cases h0 : i = 0
    · subst h0
      rw [hzero] at hfd
      exact (hp.fresh j fd hfd).elim (hno 0 fd) hj
    · by_cases hi : i = d.served.length + 1
      · subst hi
        rw [hnew] at hfd
        exact hno 0 fd (hq.fresh j fd hfd)
      · rw [hother i h0 hi] at hfd
        exact hno i fd hfd
  refine ⟨fun i => ?_, fun i hi => ?_, fun i hi => ?_, fun i hi => ?_, fun _ => ?_, fun _ k hk hl => ?_,
    fun k hk => ?_⟩
  · rw [hserved]
    by_cases h0 : i = 0
    · subst h0
      rw [hzero]
      exact hp.table
    · by_cases hi : i = d.served.length + 1
      · subst hi
        rw [hnew]
        exact hq.table
      · rw [hother i h0 hi]
        exact (h.table i).mono o
  · by_cases h0 : i = 0
    · subst h0
      rw [hzero, hp.alive] at hi
      cases hi
    · by_cases hi' : i = d.served.length + 1
      · subst hi'
        rw [hnew] at hi ⊢
        exact hq.dead hi
      · rw [hother i h0 hi'] at hi ⊢
        exact h.dead i hi
  · rw [hserved, List.length_append, List.length_singleton]
    by_cases h0 : i = 0
    · omega
    · by_cases hi' : i = d.served.length + 1
      · omega
      · rw [hother i h0 hi'] at hi
        have := h.beyond i hi
        omega
  · by_cases h0 : i = 0
    · subst h0
      rw [hzero, hp.accepts]
      exact h.accepts 0 halive
    · by_cases hi' : i = d.served.length + 1
      · subst hi'
        rw [hnew, hq.accepts]
        simp
      · rw [hother i h0 hi'] at hi ⊢
        exact h.accepts i hi
  · obtain ⟨s, hs, hlisten⟩ := h.master halive
    rw [hzero]
    exact ⟨s, hp.sock.trans hs, hp.keeps _ hlisten⟩
  · rw [hzero]
    by_cases hk' : k = d.served.length
    · subst hk'
      exact hp.entry (Option.some.inj (hlast.symm.trans hk))
    · rw [hold k hk'] at hk
      rw [hother _ (by omega) (by omega)] at hl
      obtain ⟨fd, hfd⟩ := h.attached halive k hk hl
      exact ⟨fd, hp.keeps _ hfd⟩
  · by_cases hk' : k = d.served.length
    · subst hk'
      rw [hnew] at hk ⊢
      rw [hlast]
      rcases hq.session hk with ⟨s, rfl, hchilds, hs, hlower⟩ | ⟨hs, rfl⟩
      · exact .inl ⟨s, rfl, hchilds, hs, hlower⟩
      · exact .inr ⟨hs, .inl rfl⟩
    · rw [hother _ (by omega) (by omega)] at hk ⊢
      rw [hold k hk']
      rcases h.session k hk with hopen | ⟨hsock, hnone | ⟨hk, hchilds, hupper⟩⟩
      · exact .inl hopen
      · exact .inr ⟨hsock, .inl hnone⟩
      · exact .inr ⟨hsock, .inr ⟨hk, hchilds, hno k hk' hupper⟩⟩

/-- Nobody has an end of a pair that is still to come. -/
theorem Sound.unseen (h : d.Sound) (i fd : Nat) : (fd, .upper d.served.length) ∉ (d.procs i).fds ∧
    (fd, .lower d.served.length) ∉ (d.procs i).fds := by
  constructor <;> intro hfd <;> have hall := (h.table i).allowed _ _ hfd <;>
    simp [Desc.Allowed] at hall

/-- Nothing stays in the master. -/
theorem Sound.keeps (h : d.Sound) (halive : (d.procs 0).alive = true) {o : Outcome} (ho : o ≠ .forked true) :
    d.Hosts o (d.procs 0) :=
  ⟨halive, rfl, rfl, (h.table 0).mono o, fun _ hy => hy, fun _ _ => .inl, fun heq => absurd heq ho⟩

/-- Both ends of a pair stay in the master when it could not fork. -/
theorem Sound.leaks (h : d.Sound) (halive : (d.procs 0).alive = true)
    (hunused : Unused (d.procs 0) new (some (f0, f1))) :
    d.Hosts (.unforked true) ((d.procs 0).paired d.served.length (some (f0, f1))) := by
  obtain ⟨-, h0, h1, -, -, hne⟩ := hunused
  have hlast : (d.served ++ [.unforked true])[d.served.length]? = some (.unforked true) :=
    List.getElem?_concat_length
  refine ⟨halive, rfl, rfl, ?_, fun y hy => by simp [Process.paired, hy], fun j fd hfd => ?_, nofun⟩
  · refine (((h.table 0).mono _).cons (Process.free_iff.mp h0) (fun fd => (h.unseen 0 fd).1)
      (.inl hlast)).cons ?_ ?_ (.inl hlast)
    · rintro x hx
      rcases List.mem_cons.mp hx with heq | hx
      · exact hne (Prod.mk.inj heq).1.symm
      · exact Process.free_iff.mp h1 x hx
    · intro fd hx
      rcases List.mem_cons.mp hx with heq | hx
      · cases heq
      · exact (h.unseen 0 fd).2 hx
  · simp only [Process.paired, Process.opened_fds, List.mem_cons, Prod.mk.injEq] at hfd
    rcases hfd with ⟨-, hno⟩ | ⟨-, heq⟩ | hfd
    · cases hno
    · exact .inr (Desc.upper.inj heq)
    · exact .inl hfd

theorem Sound.adds (h : d.Sound) (halive : (d.procs 0).alive = true) (h0 : (d.procs 0).free f0 = true) :
    d.Hosts (.forked true) { d.procs 0 with
      fds := (f0, .upper d.served.length) :: (d.procs 0).fds
      childs := (d.procs 0).childs ++ [f0] } := by
  refine ⟨halive, rfl, rfl, ?_, fun y hy => List.mem_cons_of_mem _ hy, fun j fd hfd => ?_,
    fun _ => ⟨f0, List.mem_cons_self⟩⟩
  · exact ((h.table 0).mono _).entry (Process.free_iff.mp h0) (fun fd => (h.unseen 0 fd).1)
      List.getElem?_concat_length
  · rcases List.mem_cons.mp hfd with heq | hfd
    · exact .inr (Desc.upper.inj (Prod.mk.inj heq).2)
    · exact .inl hfd

/-- A session without a pair has the entries of the master. -/
theorem Sound.serves_bare (h : d.Sound) (halive : (d.procs 0).alive = true)
    (hlisten : (s, .listening) ∈ (d.procs 0).fds) (hnew : (d.procs 0).free new = true) :
    d.Serves (.forked false)
      { alive := (d.procs 0).alive
        fds := (new, .client d.served.length) :: (d.procs 0).fds.filter (·.1 ≠ s)
        childs := (d.procs 0).childs } := by
  have hclosed := ((h.table 0).mono (.forked false)).forked hlisten (d.served.length + 1)
  refine ⟨fun hdead => ?_, rfl, hclosed.cons ?_ ?_ rfl, fun j fd hfd => ?_, fun _ => .inr ⟨rfl, rfl⟩⟩
  · exact absurd (halive.symm.trans hdead) (by decide)
  · exact fun x hx => Process.free_iff.mp hnew x (List.mem_filter.mp hx).1
  · exact fun fd hx => nomatch (h.table 0).allowed _ _ (List.mem_filter.mp hx).1
  · rcases List.mem_cons.mp hfd with heq | hfd
    · cases heq
    · exact (List.mem_filter.mp hfd).1

theorem Sound.serves_pair (h : d.Sound) (halive : (d.procs 0).alive = true)
    (hlisten : (s, .listening) ∈ (d.procs 0).fds) (hunused : Unused (d.procs 0) new (some (f0, f1))) :
    d.Serves (.forked true)
      { alive := (d.procs 0).alive
        fds := (f1, .lower d.served.length) :: (new, .client d.served.length) ::
          ((d.procs 0).fds.filter (·.1 ≠ s)).filter fun y => decide (y.1 ∉ (d.procs 0).childs)
        sock := some f1 } := by
  obtain ⟨hnew, -, h1, -, hne, -⟩ := hunused
  have hclosed := ((h.table 0).mono (.forked true)).forked hlisten (d.served.length + 1)
  have hcleaned := hclosed.sub (q := fun y => decide (y ∉ (d.procs 0).childs)) (l := [])
    (fun fd => by simp) .nil
  have hmem : ∀ {y}, y ∈ ((d.procs 0).fds.filter (·.1 ≠ s)).filter
      (fun y => decide (y.1 ∉ (d.procs 0).childs)) → y ∈ (d.procs 0).fds :=
    fun hy => (List.mem_filter.mp (List.mem_filter.mp hy).1).1
  have hclient : Wired (d.served ++ [.forked true]) (d.served.length + 1)
      ((new, .client d.served.length) :: ((d.procs 0).fds.filter (·.1 ≠ s)).filter
        fun y => decide (y.1 ∉ (d.procs 0).childs)) [] :=
    hcleaned.cons (fun x hx => Process.free_iff.mp hnew x (hmem hx))
      (fun fd hx => nomatch (h.table 0).allowed _ _ (hmem hx)) rfl
  refine ⟨fun hdead => ?_, rfl, hclient.cons ?_ ?_ (.inr ⟨List.getElem?_concat_length, rfl⟩),
    fun j fd hfd => ?_, fun _ => .inl ⟨f1, rfl, rfl, rfl, List.mem_cons_self⟩⟩
  · exact absurd (halive.symm.trans hdead) (by decide)
  · rintro x hx
    rcases List.mem_cons.mp hx with heq | hx
    · exact hne (Prod.mk.inj heq).1
    · exact Process.free_iff.mp h1 x (hmem hx)
  · intro fd hx
    rcases List.mem_cons.mp hx with heq | hx
    · cases heq
    · exact (h.unseen 0 fd).2 (hmem hx)
  · simp only [List.mem_cons, Prod.mk.injEq] at hfd
    rcases hfd with ⟨-, hno⟩ | ⟨-, hno⟩ | hfd
    · cases hno
    · cases hno
    · exact hmem hfd

theorem Sound.newClient (h : d.Sound) (halive : (d.procs 0).alive = true)
    (hunused : Unused (d.procs 0) new pair) (forks : Bool) : (d.newClient new pair forks).Sound := by
  have hnext : d.procs (d.served.length + 1) = {} := by
    refine h.dead _ ?_
    by_contra hlive
    have := h.beyond _ (by simpa using hlive)
    omega
  have hnone : ∀ p, update d.procs 0 p = update (update d.procs 0 p) (d.served.length + 1) {} := by
    intro p
    rw [← hnext, eq_comm, update_eq_self_iff, update_of_ne (by omega)]
  have hnew : (d.procs 0).free new = true := by
    cases pair with
    | none => exact hunused
    | some f => exact hunused.1
  obtain ⟨s, hs, hlisten⟩ := h.master halive
  have hbusy : ∀ {fd x}, (fd, x) ∈ (d.procs 0).fds → (d.procs 0).free fd = false := by
    intro fd x hx
    by_contra hfree
    exact Process.free_iff.mp (by simpa using hfree) x hx
  have hentries : ∀ fd ∈ (d.procs 0).childs, (d.procs 0).free fd = false := by
    intro fd hfd
    obtain ⟨j, hj, -⟩ := (h.table 0).entries fd hfd
    exact hbusy hj
  unfold Forking.newClient
  dsimp only
  split
  · refine h.grows (h.keeps halive (o := .refused) nofun) (.none d _) ?_ rfl halive
    rw [Process.refused_eq hnew]
    exact hnone _
  · split
    · rw [Process.parent_eq hunused]
      cases pair with
      | none =>
        rw [Process.session_none hnew hs (hbusy hlisten)]
        exact h.grows (h.keeps halive (o := .forked false) nofun) (h.serves_bare halive hlisten hnew) rfl rfl halive
      | some f =>
        rw [Process.session_some hunused hs (hbusy hlisten) hentries]
        exact h.grows (h.adds halive hunused.2.1) (h.serves_pair halive hlisten hunused) rfl rfl halive
    · rw [Process.unforked_eq hunused]
      cases pair with
      | none =>
        exact h.grows (h.keeps halive (o := .unforked false) nofun) (.none d _) (hnone _) rfl halive
      | some f => exact h.grows (h.leaks halive hunused) (.none d _) (hnone _) rfl halive

theorem Sound.step (h : d.Sound) (hs : d.step e = some d') : d'.Sound := by
  cases e with
  | newClient new pair forks =>
    simp only [Forking.step] at hs
    split at hs
    · next hok =>
      obtain rfl := Option.some.inj hs
      exact h.newClient hok.1 hok.2 forks
    · cases hs
  | childLeft i fd =>
    simp only [Forking.step] at hs
    split at hs
    · next hok =>
      obtain rfl := Option.some.inj hs
      exact h.childLeft hok.1 hok.2.1 hok.2.2
    · cases hs
  | masterLeft i =>
    simp only [Forking.step] at hs
    split at hs
    · next fd hsock =>
      split at hs
      · next hok =>
        obtain rfl := Option.some.inj hs
        exact h.masterLeft hok.1 (by simpa using hok.2.1) hsock hok.2.2
      · cases hs
    · cases hs
  | exit i =>
    simp only [Forking.step] at hs
    split at hs
    · obtain rfl := Option.some.inj hs
      exact h.exit i
    · cases hs

theorem run_sound {maxcon : Nat} {es : List Event} (hrun : Runs.run step (start maxcon fd) es = some d) :
    d.Sound :=
  Runs.run_invariant (I := fun _ d => Sound d) (fun _ _ _ _ h hs => h.step hs) (start_sound maxcon fd) hrun

end Forking

end Minbif
