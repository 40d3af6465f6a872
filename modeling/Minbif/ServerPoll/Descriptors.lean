import Mathlib.Data.List.Nodup
import Mathlib.Logic.Function.Basic
import Minbif.Lib.Runs

/-! The processes of daemon-fork mode and the descriptors they share. -/
namespace Minbif
open Function

/-- What a descriptor is open on; the connections and their pairs of sockets are numbered. -/
inductive Desc
  | listening
  | client (k : Nat)
  /-- `fds[0]` of the pair, for the master. -/
  | upper (k : Nat)
  /-- `fds[1]` of the pair, for the session. -/
  | lower (k : Nat)
deriving DecidableEq, Repr

/-- A process, with its table of descriptors and its `DaemonForkServerPoll`. -/
structure Process where
  alive : Bool := false
  fds : List (Nat × Desc) := []
  sock : Option Nat := none
  /-- Whether `read_cb` calls `new_client_cb`. -/
  accepts : Bool := false
  /-- The descriptors of `childs`. -/
  childs : List Nat := []
deriving DecidableEq, Repr

/-- What became of a connection, and whether there was a pair of sockets for it. -/
inductive Outcome
  | refused
  | unforked (paired : Bool)
  | forked (paired : Bool)
deriving DecidableEq, Repr

/-- Process 0 is the master, and `k + 1` the session that was forked for connection `k`. -/
structure Forking where
  maxcon : Nat
  procs : Nat → Process
  served : List Outcome := []

namespace Process

def free (p : Process) (fd : Nat) : Bool := !(p.fds.map Prod.fst).contains fd

def opened (p : Process) (fd : Nat) (x : Desc) : Process := { p with fds := (fd, x) :: p.fds }

def close (p : Process) (fd : Nat) : Process := { p with fds := p.fds.filter (·.1 ≠ fd) }

/-- `socketpair` -/
def paired (p : Process) (k : Nat) : Option (Nat × Nat) → Process
  | some (f0, f1) => (p.opened f0 (.upper k)).opened f1 (.lower k)
  | none => p

/-- The parent after the fork. -/
def parent (p : Process) (new : Nat) (pair : Option (Nat × Nat)) : Process :=
  let p := p.close new
  match pair with
  | some (f0, f1) => { p with childs := p.childs ++ [f0] }.close f1
  | none => p

/-- The child after the fork; it cleans up `childs` only when it has a pair. -/
def session (p : Process) (pair : Option (Nat × Nat)) : Process :=
  let p := { p.sock.elim p p.close with sock := none, accepts := false }
  match pair with
  | some (f0, f1) =>
    let p := { p with sock := some f1 }.close f0
    { p.childs.foldl close p with childs := [] }
  | none => p

end Process

namespace Forking

/-- A process is left that has the end open. -/
def held (d : Forking) (x : Desc) : Bool :=
  (List.range (d.served.length + 1)).any fun i =>
    (d.procs i).alive && (d.procs i).fds.any (·.2 = x)

/-- `recv` returns 0: no process has the other end of the pair open. -/
def hangup (d : Forking) (p : Process) (fd : Nat) : Bool :=
  match p.fds.lookup fd with
  | some (.upper k) => !d.held (.lower k)
  | some (.lower k) => !d.held (.upper k)
  | _ => false

/-- `maxcon > 0 && childs.size() >= (unsigned)maxcon` -/
def Full (d : Forking) : Prop := 0 < d.maxcon ∧ d.maxcon ≤ (d.procs 0).childs.length

instance (d : Forking) : Decidable d.Full := inferInstanceAs (Decidable (_ ∧ _))

/-- `new_client_cb`, once `accept` has returned a descriptor; `pair` is what `socketpair` makes, and
`forks` whether `fork` succeeds. -/
def newClient (d : Forking) (new : Nat) (pair : Option (Nat × Nat)) (forks : Bool) : Forking :=
  let k := d.served.length
  if d.Full then
    { d with
      procs := update d.procs 0 (((d.procs 0).opened new (.client k)).close new)
      served := d.served ++ [.refused] }
  else
    let p := ((d.procs 0).opened new (.client k)).paired k pair
    if forks then
      { d with
        procs := update (update d.procs 0 (p.parent new pair)) (k + 1) (p.session pair)
        served := d.served ++ [.forked pair.isSome] }
    else
      -- the pair is not closed
      { d with
        procs := update d.procs 0 (p.close new)
        served := d.served ++ [.unforked pair.isSome] }

inductive Event
  | newClient (new : Nat) (pair : Option (Nat × Nat)) (forks : Bool)
  /-- `ipc_read` of an entry of `childs` whose other end is closed. -/
  | childLeft (i fd : Nat)
  /-- `ipc_read` of the end that a session keeps in `sock`. -/
  | masterLeft (i : Nat)
  | exit (i : Nat)
deriving DecidableEq, Repr

def setProc (d : Forking) (i : Nat) (p : Process) : Forking := { d with procs := update d.procs i p }

/-- The kernel gives descriptors that are not open. -/
def Unused (p : Process) (new : Nat) : Option (Nat × Nat) → Prop
  | some (f0, f1) => p.free new ∧ p.free f0 ∧ p.free f1 ∧ f0 ≠ new ∧ f1 ≠ new ∧ f0 ≠ f1
  | none => p.free new

instance (p : Process) (new : Nat) : DecidablePred (Unused p new)
  | some (_, _) => inferInstanceAs (Decidable (_ ∧ _))
  | none => inferInstanceAs (Decidable (_ = true))

def step (d : Forking) : Event → Option Forking
  | .newClient new pair forks =>
    if (d.procs 0).alive ∧ Unused (d.procs 0) new pair then some (d.newClient new pair forks) else none
  | .childLeft i fd =>
    let p := d.procs i
    if p.alive ∧ fd ∈ p.childs ∧ d.hangup p fd then
      some (d.setProc i ({ p with childs := p.childs.filter (· ≠ fd) }.close fd))
    else none
  | .masterLeft i =>
    let p := d.procs i
    match p.sock with
    | some fd =>
      if p.alive ∧ ¬ p.accepts ∧ d.hangup p fd then some (d.setProc i ({ p with sock := none }.close fd))
      else none
    | none => none
  | .exit i => if (d.procs i).alive then some (d.setProc i {}) else none

/-- The master listens on a descriptor. -/
def start (maxcon fd : Nat) : Forking where
  maxcon := maxcon
  procs := update (fun _ => {}) 0
    { alive := true, fds := [(fd, .listening)], sock := some fd, accepts := true }

end Forking

variable {served : List Outcome} {i k fd fd' new f0 f1 s : Nat} {x y : Desc} {fds : List (Nat × Desc)}
  {childs : List Nat} {p : Process} {pair : Option (Nat × Nat)}

namespace Process

theorem free_iff : p.free fd = true ↔ ∀ x, (fd, x) ∉ p.fds := by
  simp [free]

@[simp] theorem opened_fds (p : Process) (fd : Nat) (x : Desc) : (p.opened fd x).fds = (fd, x) :: p.fds :=
  rfl

@[simp] theorem close_fds (p : Process) (fd : Nat) : (p.close fd).fds = p.fds.filter (·.1 ≠ fd) := rfl

theorem free_ne (h : p.free fd = true) : ∀ a x, (a, x) ∈ p.fds → a ≠ fd := by
  rintro a x hx rfl
  exact free_iff.mp h x hx

theorem close_free (h : p.free fd = true) : p.fds.filter (·.1 ≠ fd) = p.fds := by
  rw [List.filter_eq_self]
  exact fun y hy => decide_eq_true (free_ne h y.1 y.2 hy)

theorem foldl_close (l : List Nat) (p : Process) :
    l.foldl close p = { p with fds := p.fds.filter (·.1 ∉ l) } := by
  induction l generalizing p with
  | nil => simp
  | cons fd l ih =>
    rw [List.foldl_cons, ih]
    simp only [close, List.filter_filter, List.mem_cons, not_or, Bool.decide_and, Bool.and_comm]

/-- The connection that a process accepts and closes again leaves nothing. -/
theorem refused_eq (h : p.free new = true) (x : Desc) : (p.opened new x).close new = p := by
  unfold opened close
  dsimp only
  rw [List.filter_cons_of_neg (by simp), close_free h]

theorem unforked_eq (h : Forking.Unused p new pair) (k : Nat) :
    ((p.opened new (.client k)).paired k pair).close new = p.paired k pair := by
  cases pair with
  | none => exact refused_eq h _
  | some f =>
    obtain ⟨hnew, -, -, h0, h1, -⟩ := h
    simpa [paired, opened, close, h0, h1] using free_ne hnew

theorem parent_eq (h : Forking.Unused p new pair) (k : Nat) :
    ((p.opened new (.client k)).paired k pair).parent new pair =
      match pair with
      | some (f0, _) => { p with fds := (f0, .upper k) :: p.fds, childs := p.childs ++ [f0] }
      | none => p := by
  cases pair with
  | none => exact refused_eq h _
  | some f =>
    obtain ⟨hnew, -, hfree, h0, h1, hne⟩ := h
    simp only [parent, paired, opened, close, ne_eq, decide_not, List.filter_cons, h0, h1, hne,
      decide_false, decide_true, Bool.not_false, Bool.not_true, if_true]
    simpa using fun a x hx => ⟨free_ne hfree a x hx, free_ne hnew a x hx⟩

/-- The session that has a pair. -/
theorem session_some (h : Forking.Unused p new (some (f0, f1))) (hs : p.sock = some s)
    (hsock : p.free s = false) (hchilds : ∀ fd ∈ p.childs, p.free fd = false) (k : Nat) :
    ((p.opened new (.client k)).paired k (some (f0, f1))).session (some (f0, f1)) =
      { alive := p.alive
        fds := (f1, .lower k) :: (new, .client k) ::
          (p.fds.filter (·.1 ≠ s)).filter fun y => decide (y.1 ∉ p.childs)
        sock := some f1 } := by
  obtain ⟨hnew, hf0, hf1, h0, h1, hne⟩ := h
  have hbusy : ∀ {a fd}, p.free a = false → p.free fd = true → a ≠ fd := by
    rintro a fd ha hfd rfl
    rw [ha] at hfd
    cases hfd
  have hout : ∀ {fd}, p.free fd = true → fd ∉ p.childs := fun hfd hmem =>
    hbusy (hchilds _ hmem) hfd rfl
  simp only [session, paired, opened, close, hs, Option.elim_some, foldl_close, ne_eq, decide_not,
    List.filter_cons, (hbusy hsock hnew).symm, (hbusy hsock hf0).symm, (hbusy hsock hf1).symm, h0.symm,
    hne.symm, hout hf1, hout hnew, decide_false, decide_true, Bool.not_false, Bool.not_true, if_true,
    Bool.false_eq_true, if_false, List.filter_filter]
  congr 3
  refine List.filter_congr fun y hy => ?_
  have := free_ne hf0 y.1 y.2 hy
  simp [this]

/-- The session that has none keeps the entries of the master. -/
theorem session_none (hnew : p.free new = true) (hs : p.sock = some s) (hsock : p.free s = false)
    (k : Nat) : ((p.opened new (.client k)).paired k none).session none =
      { alive := p.alive
        fds := (new, .client k) :: p.fds.filter (·.1 ≠ s)
        childs := p.childs } := by
  have hne : new ≠ s := by
    rintro rfl
    rw [hsock] at hnew
    cases hnew
  simp [session, paired, opened, close, hs, hne]

end Process

/-- What a process may have open, with the entries of its `childs`. -/
def Desc.Allowed (served : List Outcome) (i : Nat) (childs : List Nat) (fd : Nat) : Desc → Prop
  | .listening => i = 0
  | .client k => i = k + 1
  | .upper k => served[k]? = some (.unforked true) ∨ served[k]? = some (.forked true) ∧ fd ∈ childs
  | .lower k => served[k]? = some (.unforked true) ∨ served[k]? = some (.forked true) ∧ i = k + 1

/-- The table of a process, and its `childs`. -/
structure Wired (served : List Outcome) (i : Nat) (fds : List (Nat × Desc)) (childs : List Nat) : Prop where
  keys : (fds.map Prod.fst).Nodup
  ends : (fds.map Prod.snd).Nodup
  allowed : ∀ fd x, (fd, x) ∈ fds → x.Allowed served i childs fd
  entries : ∀ fd ∈ childs, ∃ k, (fd, .upper k) ∈ fds ∧ served[k]? = some (.forked true)
  nodup : childs.Nodup

namespace Wired

theorem empty (served : List Outcome) (i : Nat) : Wired served i [] [] :=
  ⟨.nil, .nil, nofun, nofun, .nil⟩

theorem unique (h : Wired served i fds childs) (hx : (fd, x) ∈ fds) (hy : (fd, y) ∈ fds) : x = y :=
  (Prod.mk.inj (List.inj_on_of_nodup_map h.keys hx hy rfl)).2

theorem same (h : Wired served i fds childs) (hx : (fd, x) ∈ fds) (hy : (fd', x) ∈ fds) : fd = fd' :=
  (Prod.mk.inj (List.inj_on_of_nodup_map h.ends hx hy rfl)).1

theorem lookup (h : Wired served i fds childs) (hx : (fd, x) ∈ fds) : fds.lookup fd = some x := by
  cases hl : fds.lookup fd with
  | none =>
    have := List.lookup_eq_none_iff.mp hl (fd, x) hx
    simp at this
  | some y =>
    obtain ⟨l₁, l₂, rfl, -⟩ := List.lookup_eq_some_iff.mp hl
    exact congrArg some (h.unique (by simp) hx)

theorem grows (h : x.Allowed served i childs fd) (o : Outcome) :
    x.Allowed (served ++ [o]) i childs fd := by
  have hget : ∀ {k : Nat} {r : Outcome}, served[k]? = some r → (served ++ [o])[k]? = some r := by
    intro k r hk
    rw [List.getElem?_append_left (List.getElem?_eq_some_iff.mp hk).1, hk]
  cases x with
  | listening | client => exact h
  | upper k | lower k => exact h.imp hget fun h => ⟨hget h.1, h.2⟩

/-- Another connection comes. -/
theorem mono (h : Wired served i fds childs) (o : Outcome) : Wired (served ++ [o]) i fds childs := by
  refine ⟨h.keys, h.ends, fun fd x hx => grows (h.allowed fd x hx) o, fun fd hfd => ?_, h.nodup⟩
  obtain ⟨k, hk, hserved⟩ := h.entries fd hfd
  refine ⟨k, hk, ?_⟩
  rw [List.getElem?_append_left (List.getElem?_eq_some_iff.mp hserved).1, hserved]

/-- Some descriptors are closed, and with them the entries. -/
theorem sub (h : Wired served i fds childs) {q : Nat → Bool} {l : List Nat}
    (hl : ∀ fd, fd ∈ l ↔ fd ∈ childs ∧ q fd = true) (hnodup : l.Nodup) :
    Wired served i (fds.filter fun y => q y.1) l := by
  have hsub : (fds.filter fun y => q y.1).Sublist fds := List.filter_sublist
  refine ⟨h.keys.sublist (hsub.map _), h.ends.sublist (hsub.map _), fun fd x hx => ?_, fun fd hfd => ?_,
    hnodup⟩
  · obtain ⟨hx, hq⟩ := List.mem_filter.mp hx
    have hall := h.allowed fd x hx
    cases x with
    | listening | client | lower => exact hall
    | upper k => exact hall.imp id fun hall => ⟨hall.1, (hl fd).mpr ⟨hall.2, hq⟩⟩
  · obtain ⟨hfd, hq⟩ := (hl fd).mp hfd
    obtain ⟨k, hk, hserved⟩ := h.entries fd hfd
    exact ⟨k, List.mem_filter.mpr ⟨hk, hq⟩, hserved⟩

theorem forget (h : Wired served i fds childs) (fd : Nat) :
    Wired served i (fds.filter (·.1 ≠ fd)) (childs.filter (· ≠ fd)) :=
  h.sub (q := fun y => decide (y ≠ fd)) (fun _ => List.mem_filter) (h.nodup.filter _)

/-- One more descriptor. -/
theorem cons (h : Wired served i fds childs) (hfd : ∀ x, (fd, x) ∉ fds) (hx : ∀ fd', (fd', x) ∉ fds)
    (hall : x.Allowed served i childs fd) : Wired served i ((fd, x) :: fds) childs := by
  refine ⟨?_, ?_, ?_, fun fd' hfd' => ?_, h.nodup⟩
  · rw [List.map_cons, List.nodup_cons]
    exact ⟨by simpa using hfd, h.keys⟩
  · rw [List.map_cons, List.nodup_cons]
    exact ⟨by simpa using hx, h.ends⟩
  · rintro fd' y hy
    rcases List.mem_cons.mp hy with heq | hy
    · obtain ⟨rfl, rfl⟩ := Prod.mk.inj heq
      exact hall
    · exact h.allowed fd' y hy
  · obtain ⟨k, hk, hserved⟩ := h.entries fd' hfd'
    exact ⟨k, List.mem_cons_of_mem _ hk, hserved⟩

/-- One more entry. -/
theorem entry (h : Wired served i fds childs) (hfd : ∀ x, (fd, x) ∉ fds) (hx : ∀ fd', (fd', .upper k) ∉ fds)
    (hk : served[k]? = some (.forked true)) : Wired served i ((fd, .upper k) :: fds) (childs ++ [fd]) := by
  have hnot : fd ∉ childs := fun hmem => by
    obtain ⟨j, hj, -⟩ := h.entries fd hmem
    exact hfd _ hj
  refine ⟨?_, ?_, ?_, ?_, ?_⟩
  · rw [List.map_cons, List.nodup_cons]
    exact ⟨by simpa using hfd, h.keys⟩
  · rw [List.map_cons, List.nodup_cons]
    exact ⟨by simpa using hx, h.ends⟩
  · intro fd' y hy
    rcases List.mem_cons.mp hy with heq | hy
    · obtain ⟨rfl, rfl⟩ := Prod.mk.inj heq
      exact .inr ⟨hk, by simp⟩
    · have hall := h.allowed fd' y hy
      cases y with
      | listening | client | lower => exact hall
      | upper j => exact hall.imp id fun hall => ⟨hall.1, List.mem_append_left _ hall.2⟩
  · intro fd' hfd'
    rcases List.mem_append.mp hfd' with hfd' | hfd'
    · obtain ⟨j, hj, hserved⟩ := h.entries fd' hfd'
      exact ⟨j, List.mem_cons_of_mem _ hj, hserved⟩
    · obtain rfl := List.mem_singleton.mp hfd'
      exact ⟨k, List.mem_cons_self, hk⟩
  · rw [List.nodup_append]
    exact ⟨h.nodup, List.nodup_singleton _, fun a ha b hb => by
      rw [List.mem_singleton.mp hb]
      rintro rfl
      exact hnot ha⟩

/-- What the master has open when it forks, without the listening socket. -/
theorem forked (h : Wired served 0 fds childs) (hs : (s, .listening) ∈ fds) (i : Nat) :
    Wired served i (fds.filter (·.1 ≠ s)) childs := by
  have hchild : ∀ fd ∈ childs, fd ≠ s := by
    rintro fd hfd rfl
    obtain ⟨k, hk, -⟩ := h.entries fd hfd
    cases h.unique hk hs
  have hclosed := h.sub (q := fun y => decide (y ≠ s)) (l := childs)
    (fun fd => ⟨fun hfd => ⟨hfd, decide_eq_true (hchild fd hfd)⟩, And.left⟩) h.nodup
  refine ⟨hclosed.keys, hclosed.ends, fun fd x hx => ?_, hclosed.entries, hclosed.nodup⟩
  have hall := hclosed.allowed fd x hx
  cases x with
  | listening =>
    obtain ⟨hx, hne⟩ := List.mem_filter.mp hx
    exact absurd (h.same hx hs) (of_decide_eq_true hne)
  | client k => cases hall
  | upper k => exact hall
  | lower k => exact hall.imp id fun hall => nomatch hall.2

end Wired

end Minbif
