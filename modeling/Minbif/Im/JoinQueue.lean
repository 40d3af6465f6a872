import Mathlib.Data.List.Basic
import Mathlib.Data.List.Induction
import Minbif.Irc.Message
import Minbif.Lib.Runs

/-! The channels that an account joins once it is connected. -/
namespace Minbif
open Runs Tokens

/-- `Message(ERR_NOSUCHCHANNEL)` for the User. -/
def noSuchChannel (irc user : StoredEntity) (channame : Str) : Except Exn Message :=
  Message.addArgs { cmd := str "403", sender := irc, receiver := user } [channame, str "No such channel"]

/-- An account with its `join_queue`, and what is done with the names taken from it. -/
structure JoinQueue where
  irc : StoredEntity
  user : StoredEntity
  id : Str
  connected : Bool := false
  queue : Str := []
  /-- The calls of `joinChat`: name and parameters. -/
  joined : List (Str × Str) := []
  sent : List Message := []

namespace JoinQueue

def enqueueChannelJoin (a : JoinQueue) (c : Str) : JoinQueue :=
  { a with queue := (if a.queue.isEmpty then [] else a.queue ++ [',']) ++ c }

def flushChannelJoins (a : JoinQueue) : JoinQueue :=
  { a with
    joined := a.joined ++ (stringtokLoop [','] (a.queue.length + 1) a.queue).map fun cname => (cname, [])
    queue := [] }

/-- The messages that are sent before one cannot be made. -/
def abortLoop (a : JoinQueue) : List Str → Except Exn Unit × List Message
  | [] => (.ok (), [])
  | cname :: l =>
    match noSuchChannel a.irc a.user ('#' :: cname ++ ':' :: a.id) with
    | .error e => (.error e, [])
    | .ok m => ((abortLoop a l).1, m :: (abortLoop a l).2)

/-- An exception leaves the queue as it was. -/
def abortChannelJoins (a : JoinQueue) : JoinQueue :=
  if a.connected then
    let r := a.abortLoop (stringtokLoop [','] (a.queue.length + 1) a.queue)
    match r.1 with
    | .ok () => { a with sent := a.sent ++ r.2, queue := [] }
    | .error _ => { a with sent := a.sent ++ r.2 }
  else { a with queue := [] }

end JoinQueue

/-- What a queue of names is for. -/
structure PendingJoins where
  pending : List Str := []
  connected : Bool := false
  joined : List Str := []
  aborted : List Str := []

inductive JoinEvent
  | enqueue (name : Str) (nonempty : name ≠ [])
  | flush
  | abort
  | connected (value : Bool)

def JoinQueue.step (a : JoinQueue) : JoinEvent → JoinQueue
  | .enqueue name _ => a.enqueueChannelJoin name
  | .flush => a.flushChannelJoins
  | .abort => a.abortChannelJoins
  | .connected value => { a with connected := value }

def PendingJoins.step (q : PendingJoins) : JoinEvent → PendingJoins
  | .enqueue name _ => { q with pending := q.pending ++ [name] }
  | .flush => { q with joined := q.joined ++ q.pending, pending := [] }
  | .abort => { q with aborted := q.aborted ++ if q.connected then q.pending else [], pending := [] }
  | .connected value => { q with connected := value }

/-- The account beside the queue of names that it stands for. -/
structure Joins where
  account : JoinQueue
  names : PendingJoins

namespace Joins

def step (s : Joins) (e : JoinEvent) : Option Joins := some ⟨s.account.step e, s.names.step e⟩

/-- What the User is told of a name. -/
def refusal (a : JoinQueue) (name : Str) : Message where
  cmd := str "403"
  sender := a.irc
  receiver := a.user
  args := ['#' :: name ++ ':' :: a.id, str "No such channel"]

/-- The names are joined and refused one by one, and none is left over. -/
structure Faithful (s : Joins) : Prop where
  joined : s.account.joined = s.names.joined.map fun name => (name, [])
  sent : s.account.sent = s.names.aborted.map (refusal s.account)
  empty : s.account.queue = [] ↔ s.names.pending = []

/-- The names can be told apart in the queue. -/
def Separable (names : List Str) : Prop := ∀ name ∈ names, ',' ∉ name

/-- What the names that are taken from the queue have to be like. -/
def Fits (s : Joins) : JoinEvent → Prop
  | .flush => Separable s.names.pending
  | .abort => s.names.connected = true → Separable s.names.pending ∧
      ∀ name ∈ s.names.pending, ' ' ∉ name ∧ ' ' ∉ s.account.id
  | _ => True

/-- The queue as `enqueueChannelJoin` makes it. -/
def serial (names : List Str) : Str :=
  names.foldl (fun queue c => (if queue.isEmpty then [] else queue ++ [',']) ++ c) []

structure Linked (s : Joins) : Prop where
  queue : s.account.queue = serial s.names.pending
  connected : s.account.connected = s.names.connected
  nonempty : ∀ name ∈ s.names.pending, name ≠ []

variable {s t : Joins} {e : JoinEvent} {names : List Str} {name : Str}

theorem serial_concat : serial (names ++ [name]) =
    (if (serial names).isEmpty then [] else serial names ++ [',']) ++ name := by
  rw [serial, List.foldl_append]
  rfl

theorem serial_eq_nil (h : ∀ name ∈ names, name ≠ []) : serial names = [] ↔ names = [] := by
  rcases List.eq_nil_or_concat names with rfl | ⟨init, name, rfl⟩
  · simp [serial]
  · rw [List.concat_eq_append] at *
    have hname := h name (by simp)
    simp [serial_concat, hname]

theorem tokens_serial (names : List Str) :
    tokens [','].contains (serial names) = names.flatMap (tokens [','].contains) := by
  induction names using List.reverseRecOn with
  | nil => rfl
  | append_singleton names name ih =>
    rw [serial_concat, List.flatMap_append, ← ih, List.flatMap_singleton]
    split
    · next hnil => rw [List.isEmpty_iff.mp hnil, tokens_nil, List.nil_append, List.nil_append]
    · rw [List.append_assoc, List.singleton_append, tokens_append_cons (by decide)]

/-- The names come back exactly if none has a comma. -/
theorem names_back (h : ∀ name ∈ names, name ≠ []) :
    stringtokLoop [','] ((serial names).length + 1) (serial names) = names ↔ Separable names := by
  rw [stringtokLoop_eq (Nat.lt_succ_self _), tokens_serial, flatMap_tokens_eq h]
  refine forall₂_congr fun name _ => ?_
  simp only [List.contains_eq_mem, List.mem_singleton, decide_eq_false_iff_not]
  exact ⟨fun h hc => h ',' hc rfl, fun h x hx hc => h (hc ▸ hx)⟩

theorem noSuchChannel_eq (irc user : StoredEntity) (channame : Str) :
    noSuchChannel irc user channame = if Message.hasSpace channame then .error .malformedMessage
      else .ok { cmd := str "403", sender := irc, receiver := user
                 args := [channame, str "No such channel"] } := by
  rw [noSuchChannel, Message.addArgs_eq Message.middle_nil]
  simp only [List.nil_append, Message.middle_cons_cons, Message.middle_singleton, and_true]
  cases Message.hasSpace channame <;> rfl

theorem refusal_injective (a : JoinQueue) : Function.Injective (refusal a) := by
  intro name name' h
  have hargs := congrArg Message.args h
  simpa [refusal] using hargs

/-- The names are refused one by one, up to the first that makes no message. -/
theorem abortLoop_spec (a : JoinQueue) (names : List Str) :
    ((a.abortLoop names).1 = .ok () ↔ ∀ name ∈ names, ' ' ∉ name ∧ ' ' ∉ a.id) ∧
      ((a.abortLoop names).1 = .ok () → (a.abortLoop names).2 = names.map (refusal a)) := by
  induction names with
  | nil => exact ⟨iff_of_true rfl (List.forall_mem_nil _), fun _ => rfl⟩
  | cons name names ih =>
    have hspace : Message.hasSpace ('#' :: name ++ ':' :: a.id) = false ↔ ' ' ∉ name ∧ ' ' ∉ a.id := by
      simp [Message.hasSpace]
    rw [JoinQueue.abortLoop, noSuchChannel_eq, List.forall_mem_cons, ← hspace, ← ih.1]
    cases hs : Message.hasSpace ('#' :: name ++ ':' :: a.id) with
    | true =>
      refine ⟨iff_of_false ?_ ?_, ?_⟩
      · intro h
        cases h
      · rintro ⟨h, -⟩
        cases h
      · intro h
        cases h
    | false =>
      refine ⟨(and_iff_right rfl).symm, fun h => ?_⟩
      exact congrArg (refusal a name :: ·) (ih.2 h)

/-- A flush or an abort empties both queues, if it is faithful. -/
theorem linked_empty (hq : t.account.queue = [] ↔ t.names.pending = []) (hp : t.names.pending = [])
    (hc : t.account.connected = t.names.connected) : Linked t := by
  refine ⟨?_, hc, ?_⟩
  · rw [hq.mpr hp, hp]
    rfl
  · rw [hp]
    nofun

theorem flush_faithful (hl : Linked s) (hf : Faithful s) :
    Faithful ⟨s.account.flushChannelJoins, s.names.step .flush⟩ ↔ Separable s.names.pending := by
  rw [← names_back hl.nonempty, ← hl.queue]
  constructor
  · intro h
    have hjoined := h.joined
    change s.account.joined ++ _ = List.map _ (s.names.joined ++ s.names.pending) at hjoined
    rw [hf.joined, List.map_append, List.append_cancel_left_eq] at hjoined
    exact List.map_injective_iff.mpr (fun _ _ h => congrArg Prod.fst h) hjoined
  · intro h
    refine ⟨?_, hf.sent, iff_of_true rfl rfl⟩
    change s.account.joined ++ _ = List.map _ (s.names.joined ++ s.names.pending)
    rw [hf.joined, List.map_append, h]

theorem abort_faithful (hl : Linked s) (hf : Faithful s) :
    Faithful ⟨s.account.abortChannelJoins, s.names.step .abort⟩ ↔ s.Fits .abort := by
  obtain ⟨hok, hsent⟩ := abortLoop_spec s.account
    (stringtokLoop [','] (s.account.queue.length + 1) s.account.queue)
  have hback := names_back hl.nonempty
  rw [← hl.queue] at hback
  have hrun : s.account.abortChannelJoins = if s.account.connected then
      (match (s.account.abortLoop (stringtokLoop [','] (s.account.queue.length + 1) s.account.queue)).1 with
      | .ok () => { s.account with
          sent := s.account.sent ++
            (s.account.abortLoop (stringtokLoop [','] (s.account.queue.length + 1) s.account.queue)).2
          queue := [] }
      | .error _ => { s.account with
          sent := s.account.sent ++
            (s.account.abortLoop (stringtokLoop [','] (s.account.queue.length + 1) s.account.queue)).2 })
      else { s.account with queue := [] } := rfl
  rw [hrun, Fits, PendingJoins.step, hl.connected]
  generalize stringtokLoop [','] (s.account.queue.length + 1) s.account.queue = names at hok hsent hback ⊢
  cases hc : s.names.connected with
  | false =>
    refine iff_of_true ⟨hf.joined, ?_, iff_of_true rfl rfl⟩ nofun
    change s.account.sent = List.map (refusal s.account) (s.names.aborted ++ [])
    rw [List.append_nil]
    exact hf.sent
  | true =>
    rw [if_pos rfl, if_pos rfl]
    constructor
    · intro h _
      cases hr : (s.account.abortLoop names).1 with
      | error e =>
        -- the queue is left over, so there were no names, and nothing fails
        rw [hr] at h
        have hnil : s.names.pending = [] := by
          rw [← serial_eq_nil hl.nonempty, ← hl.queue]
          exact h.empty.mpr rfl
        rw [hnil]
        exact ⟨nofun, nofun⟩
      | ok u =>
        rw [hr] at h
        have heq := h.sent
        change s.account.sent ++ _ = List.map (refusal s.account) (s.names.aborted ++ s.names.pending) at heq
        rw [hsent hr, hf.sent, List.map_append, List.append_cancel_left_eq] at heq
        have hnames := (List.map_injective_iff.mpr (refusal_injective s.account)) heq
        exact ⟨hback.mp hnames, hnames ▸ hok.mp hr⟩
    · intro h
      obtain ⟨hsep, hspace⟩ := h rfl
      have hnames := hback.mpr hsep
      rw [hnames] at hok hsent ⊢
      rw [hok.mpr hspace]
      refine ⟨hf.joined, ?_, iff_of_true rfl rfl⟩
      change s.account.sent ++ _ = List.map (refusal s.account) (s.names.aborted ++ s.names.pending)
      rw [hsent (hok.mpr hspace), hf.sent, List.map_append]

theorem step_faithful (hl : Linked s) (hf : Faithful s) (ht : s.step e = some t) :
    (Faithful t → Linked t) ∧ (Faithful t ↔ s.Fits e) := by
  obtain rfl := Option.some.inj ht
  cases e with
  | enqueue name hname =>
    have hqueue : serial (s.names.pending ++ [name]) = (s.account.enqueueChannelJoin name).queue := by
      rw [serial_concat, ← hl.queue]
      rfl
    have hne : ∀ name' ∈ s.names.pending ++ [name], name' ≠ [] := by
      intro name' h
      rcases List.mem_append.mp h with h | h
      · exact hl.nonempty name' h
      · exact List.mem_singleton.mp h ▸ hname
    refine ⟨fun _ => ⟨hqueue.symm, hl.connected, hne⟩, iff_of_true ⟨hf.joined, hf.sent, ?_⟩ trivial⟩
    change (s.account.enqueueChannelJoin name).queue = [] ↔ s.names.pending ++ [name] = []
    rw [← hqueue, serial_eq_nil hne]
  | flush => exact ⟨fun h => linked_empty h.empty rfl hl.connected, flush_faithful hl hf⟩
  | abort =>
    refine ⟨fun h => linked_empty h.empty rfl ?_, abort_faithful hl hf⟩
    have hconn : ∀ a : JoinQueue, a.abortChannelJoins.connected = a.connected := by
      intro a
      unfold JoinQueue.abortChannelJoins
      split
      · dsimp only
        split <;> rfl
      · rfl
    exact (hconn s.account).trans hl.connected
  | connected value => exact ⟨fun _ => ⟨hl.queue, rfl, hl.nonempty⟩, iff_of_true ⟨hf.joined, hf.sent, hf.empty⟩ trivial⟩

def start (irc user : StoredEntity) (id : Str) : Joins := ⟨{ irc := irc, user := user, id := id }, {}⟩

/-- Along any run the account joins, or refuses, the names that were put in its queue, exactly if the
names that are taken from it have no commas, and no spaces in those that are refused. -/
theorem join_queue_iff (irc user : StoredEntity) (id : Str) (es : List JoinEvent) :
    Throughout Joins.step Faithful (start irc user id) es ↔
      Along Joins.step Fits (start irc user id) es := by
  have hstep : ∀ (s : Joins) (e : JoinEvent), True → ∃ t, Joins.step s e = some t ∧ True :=
    fun s e _ => ⟨_, rfl, trivial⟩
  have htotal : ∃ t, run Joins.step (start irc user id) es = some t ∧ True :=
    run_total hstep trivial
  obtain ⟨t, ht, -⟩ := htotal
  exact throughout_iff_inv (fun s e t hl hf ht => step_faithful hl hf ht) ⟨rfl, rfl, nofun⟩
    ⟨rfl, rfl, iff_of_true rfl rfl⟩ ht

/-- The name of one channel is joined as two. -/
theorem join_queue_comma : ¬ ∀ es : List JoinEvent,
    Throughout Joins.step Faithful (start .unset .unset (str "acc")) es := by
  intro h
  have hflush := (h [.enqueue (str "a,b") (by simp [str]), .flush]).2 _ rfl
  have hlast := (hflush.2 _ rfl).joined
  revert hlast
  decide

end Joins
end Minbif
