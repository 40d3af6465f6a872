import Mathlib.Data.List.Induction

/-! `IRC::ping`: when a session is closed because its client is silent. -/
namespace Minbif

/-- What `IRC::ping` reads and writes of the User, and whether it has called `quit`. -/
structure Keepalive where
  /-- `User::last_read`, which no constructor sets. -/
  lastRead : Int
  registered : Bool := false
  /-- The PING flag. -/
  pinging : Bool := false
  pings : Nat := 0
  closed : Bool := false

namespace Keepalive

/-- A line of the client, as far as it matters here; a PONG has its argument. -/
inductive Line
  | pong
  | registers
  | other
deriving DecidableEq

/-- A line that `IRC::readIO` dispatches, or the timer of `IRC::ping`, at a time. -/
inductive Event
  | line (now : Int) (l : Line)
  | tick (now : Int)
deriving DecidableEq

/-- The handlers of a line; PONG needs the REGISTERED flag. -/
def dispatch (k : Keepalive) : Line → Keepalive
  | .pong => if k.registered then { k with pinging := false } else k
  | .registers => { k with registered := true }
  | .other => k

/-- `IRC::ping`. -/
def ping (freq : Int) (k : Keepalive) (now : Int) : Keepalive :=
  if now < k.lastRead + freq then k
  else if !k.registered || k.pinging then { k with closed := true }
  else { k with pinging := true, pings := k.pings + 1 }

/-- One event; a closed session has neither its socket nor its timer. -/
def step (freq : Int) (k : Keepalive) (e : Event) : Keepalive :=
  if k.closed then k
  else
    match e with
    | .line now l => dispatch { k with lastRead := now } l
    | .tick now => ping freq k now

def run (freq start : Int) (es : List Event) : Keepalive := es.foldl (step freq) { lastRead := start }

/-- When the last line was read. -/
def lastLine (start : Int) (past : List Event) : Int :=
  past.foldl (fun t e => match e with
    | .line now _ => now
    | .tick _ => t) start

def Registered (past : List Event) : Prop := ∃ now, .line now .registers ∈ past

/-- Nothing was read in the last period. -/
def Silent (freq start : Int) (past : List Event) (now : Int) : Prop := lastLine start past + freq ≤ now

/-- A PING was sent, and no PONG has come. -/
def Unanswered (freq start : Int) (past : List Event) : Prop :=
  ∃ before now since, past = before ++ .tick now :: since ∧ Registered before ∧
    Silent freq start before now ∧ ∀ t, .line t .pong ∉ since

/-- At some tick the client is silent, and it is not registered or has not answered. -/
def TimedOut (freq start : Int) (es : List Event) : Prop :=
  ∃ past now rest, es = past ++ .tick now :: rest ∧ Silent freq start past now ∧
    (¬ Registered past ∨ Unanswered freq start past)

variable {freq start now : Int} {past es : List Event} {e x : Event} {k : Keepalive} {l : Line}

theorem concat_eq_append_cons {before since : List Event} :
    past ++ [e] = before ++ x :: since ↔
      (since = [] ∧ past = before ∧ e = x) ∨ ∃ s, since = s ++ [e] ∧ past = before ++ x :: s := by
  rcases List.eq_nil_or_concat since with rfl | ⟨s, y, rfl⟩
  · simp
  · rw [List.concat_eq_append, ← List.cons_append, ← List.append_assoc, List.append_singleton_inj]
    constructor
    · rintro ⟨hpast, rfl⟩
      exact .inr ⟨s, rfl, hpast⟩
    · rintro (⟨hnil, -⟩ | ⟨s', hs, hpast⟩)
      · simp at hnil
      · obtain ⟨rfl, rfl⟩ := List.append_singleton_inj.mp hs
        exact ⟨hpast, rfl⟩

section Past

theorem lastLine_concat (start : Int) (past : List Event) (e : Event) :
    lastLine start (past ++ [e]) = match e with
      | .line now _ => now
      | .tick _ => lastLine start past := by
  rw [lastLine, List.foldl_append]
  rfl

theorem registered_concat : Registered (past ++ [e]) ↔
    Registered past ∨ ∃ now, e = .line now .registers := by
  simp only [Registered, List.mem_append, List.mem_singleton, exists_or, eq_comm]

theorem Unanswered.registered (h : Unanswered freq start past) : Registered past := by
  obtain ⟨before, now, since, rfl, ⟨t, ht⟩, -, -⟩ := h
  exact ⟨t, List.mem_append_left _ ht⟩

theorem unanswered_line : Unanswered freq start (past ++ [.line now l]) ↔
    Unanswered freq start past ∧ l ≠ .pong := by
  constructor
  · rintro ⟨before, t, since, hsplit, hreg, hsilent, hpong⟩
    rcases concat_eq_append_cons.mp hsplit with ⟨-, -, he⟩ | ⟨s, rfl, hpast⟩
    · cases he
    · refine ⟨⟨before, t, s, hpast, hreg, hsilent, fun u hu => ?_⟩, ?_⟩
      · exact hpong u (List.mem_append_left _ hu)
      · rintro rfl
        exact hpong now (by simp)
  · rintro ⟨⟨before, t, since, rfl, hreg, hsilent, hpong⟩, hl⟩
    refine ⟨before, t, since ++ [.line now l], by simp, hreg, hsilent, fun u hu => ?_⟩
    rcases List.mem_append.mp hu with hu | hu
    · exact hpong u hu
    · rw [List.mem_singleton, Event.line.injEq] at hu
      exact hl hu.2.symm

theorem unanswered_tick : Unanswered freq start (past ++ [.tick now]) ↔
    Unanswered freq start past ∨ Registered past ∧ Silent freq start past now := by
  constructor
  · rintro ⟨before, t, since, hsplit, hreg, hsilent, hpong⟩
    rcases concat_eq_append_cons.mp hsplit with ⟨-, rfl, he⟩ | ⟨s, rfl, hpast⟩
    · cases he
      exact .inr ⟨hreg, hsilent⟩
    · exact .inl ⟨before, t, s, hpast, hreg, hsilent, fun u hu => hpong u (List.mem_append_left _ hu)⟩
  · rintro (⟨before, t, since, rfl, hreg, hsilent, hpong⟩ | ⟨hreg, hsilent⟩)
    · refine ⟨before, t, since ++ [.tick now], by simp, hreg, hsilent, fun u hu => ?_⟩
      rcases List.mem_append.mp hu with hu | hu
      · exact hpong u hu
      · cases List.mem_singleton.mp hu
    · exact ⟨past, now, [], rfl, hreg, hsilent, by simp⟩

theorem timedOut_concat : TimedOut freq start (past ++ [e]) ↔ TimedOut freq start past ∨
    ∃ now, e = .tick now ∧ Silent freq start past now ∧
      (¬ Registered past ∨ Unanswered freq start past) := by
  constructor
  · rintro ⟨before, t, rest, hsplit, hsilent, hout⟩
    rcases concat_eq_append_cons.mp hsplit with ⟨-, rfl, he⟩ | ⟨s, rfl, hpast⟩
    · exact .inr ⟨t, he, hsilent, hout⟩
    · exact .inl ⟨before, t, s, hpast, hsilent, hout⟩
  · rintro (⟨before, t, rest, rfl, hsilent, hout⟩ | ⟨t, rfl, hsilent, hout⟩)
    · exact ⟨before, t, rest ++ [e], by simp, hsilent, hout⟩
    · exact ⟨past, t, [], rfl, hsilent, hout⟩

end Past

/-- What an open session knows of its past. -/
structure Knows (freq start : Int) (past : List Event) (k : Keepalive) : Prop where
  lastRead : k.lastRead = lastLine start past
  registered : k.registered = true ↔ Registered past
  pinging : k.pinging = true ↔ Unanswered freq start past

theorem knows_nil : Knows freq start [] { lastRead := start } where
  lastRead := rfl
  registered := by simp [Registered]
  pinging := by simp [Unanswered]

theorem Knows.line (h : Knows freq start past k) (now : Int) (l : Line) :
    Knows freq start (past ++ [.line now l]) (dispatch { k with lastRead := now } l) := by
  have hlast : lastLine start (past ++ [.line now l]) = now := by rw [lastLine_concat]
  have hkeep : l ≠ .registers → (k.registered = true ↔ Registered (past ++ [.line now l])) := by
    intro hl
    rw [registered_concat, h.registered]
    simp [hl]
  cases l with
  | pong =>
    have hnone : ¬ Unanswered freq start (past ++ [.line now .pong]) := by
      rw [unanswered_line]
      exact fun hu => hu.2 rfl
    by_cases hreg : k.registered = true
    · refine ⟨?_, ?_, ?_⟩ <;> simp only [dispatch, hreg, if_true]
      · exact hlast.symm
      · exact iff_of_true trivial ((hkeep nofun).mp hreg)
      · exact iff_of_false Bool.false_ne_true hnone
    · -- without the flag nothing was asked
      refine ⟨?_, ?_, ?_⟩ <;> simp only [dispatch, hreg, if_false, Bool.false_eq_true]
      · exact hlast.symm
      · rw [← hkeep nofun]
        simp [hreg]
      · refine iff_of_false (fun hp => hreg ?_) hnone
        exact h.registered.mpr (h.pinging.mp hp).registered
  | registers =>
    refine ⟨hlast.symm, ?_, ?_⟩
    · rw [registered_concat]
      exact iff_of_true rfl (.inr ⟨now, rfl⟩)
    · rw [unanswered_line, ← h.pinging]
      simp [dispatch]
  | other =>
    refine ⟨hlast.symm, hkeep nofun, ?_⟩
    rw [unanswered_line, ← h.pinging]
    simp [dispatch]

theorem Knows.tick (h : Knows freq start past k) (hopen : (ping freq k now).closed = false) :
    Knows freq start (past ++ [.tick now]) (ping freq k now) := by
  have hreg : Registered (past ++ [.tick now]) ↔ k.registered = true := by
    rw [registered_concat, h.registered]
    simp
  unfold ping at hopen ⊢
  split
  · next hlt =>
    refine ⟨by rw [lastLine_concat]; exact h.lastRead, hreg.symm, ?_⟩
    rw [unanswered_tick, ← h.pinging, Silent, ← h.lastRead]
    have : ¬ k.lastRead + freq ≤ now := Int.not_le.mpr hlt
    simp [this]
  · next hge =>
    rw [if_neg hge] at hopen
    split at hopen
    · cases hopen
    · next hflags =>
      rw [if_neg hflags]
      simp only [Bool.or_eq_true, Bool.not_eq_true', not_or, Bool.not_eq_false] at hflags
      refine ⟨by rw [lastLine_concat]; exact h.lastRead, hreg.symm, ?_⟩
      rw [unanswered_tick]
      exact iff_of_true rfl (.inr ⟨h.registered.mp hflags.1,
        by rw [Silent, ← h.lastRead]; exact Int.not_lt.mp hge⟩)

/-- A tick closes the session exactly if the client is silent and has not answered. -/
theorem Knows.closes_iff (h : Knows freq start past k) (hk : k.closed = false) :
    (ping freq k now).closed = true ↔ Silent freq start past now ∧
      (¬ Registered past ∨ Unanswered freq start past) := by
  rw [Silent, ← h.lastRead, ← h.registered, ← h.pinging]
  unfold ping
  split
  · next hlt => simp [hk, Int.not_le.mpr hlt]
  · next hge =>
    have hle := Int.not_lt.mp hge
    split
    · next hflags => simpa [hle] using hflags
    · next hflags => simpa [hle, hk] using hflags

theorem run_concat (freq start : Int) (past : List Event) (e : Event) :
    run freq start (past ++ [e]) = step freq (run freq start past) e := by
  rw [run, List.foldl_append]
  rfl

theorem run_knows (freq start : Int) (es : List Event) :
    ((run freq start es).closed = true ↔ TimedOut freq start es) ∧
      ((run freq start es).closed = false → Knows freq start es (run freq start es)) := by
  induction es using List.reverseRecOn with
  | nil => exact ⟨by simp [run, TimedOut], fun _ => knows_nil⟩
  | append_singleton past e ih =>
    obtain ⟨hiff, hknows⟩ := ih
    rw [run_concat, timedOut_concat, ← hiff]
    generalize run freq start past = k at hknows
    cases hk : k.closed with
    | true => simp [step, hk]
    | false =>
      have h := hknows hk
      cases e with
      | line now l =>
        have hd : (dispatch { k with lastRead := now } l).closed = false := by
          cases l with
          | pong =>
            simp only [dispatch]
            split <;> exact hk
          | registers => exact hk
          | other => exact hk
        rw [step, if_neg (by simp [hk])]
        exact ⟨by simp only [hd]; simp, fun _ => h.line now l⟩
      | tick now =>
        rw [step, if_neg (by simp [hk])]
        refine ⟨?_, h.tick⟩
        rw [h.closes_iff hk]
        simp

/-- The session is closed for its silence exactly if at some tick nothing was read for a period, and the
client is not registered or owes the answer to a PING. -/
theorem closed_iff_timedOut (freq start : Int) (es : List Event) :
    (run freq start es).closed = true ↔ TimedOut freq start es := (run_knows freq start es).1

/-- A registered client that answers each PING is not closed. -/
theorem answering_open {pre : List Event} (hpre : (run freq start pre).closed = false)
    (hreg : Registered pre) (h : ∀ past now rest, es = past ++ .tick now :: rest →
      Silent freq start (pre ++ past) now → ¬ Unanswered freq start (pre ++ past)) :
    (run freq start (pre ++ es)).closed = false := by
  rw [← Bool.not_eq_true, closed_iff_timedOut]
  rintro ⟨past, now, rest, hsplit, hsilent, hout⟩
  rcases List.append_eq_append_iff.mp hsplit with ⟨as, rfl, hes⟩ | ⟨bs, rfl, hrest⟩
  · have hreg' : Registered (pre ++ as) := by
      obtain ⟨t, ht⟩ := hreg
      exact ⟨t, List.mem_append_left _ ht⟩
    rcases hout with hout | hout
    · exact hout hreg'
    · exact h as now rest hes hsilent hout
  · cases bs with
    | nil =>
      rw [List.nil_append] at hrest
      rcases hout with hout | hout
      · exact hout (by simpa using hreg)
      · exact h [] now rest hrest.symm (by simpa using hsilent) (by simpa using hout)
    | cons b bs =>
      rw [List.cons_append, List.cons.injEq] at hrest
      obtain ⟨rfl, -⟩ := hrest
      rw [← Bool.not_eq_true, closed_iff_timedOut] at hpre
      exact hpre ⟨past, now, bs, rfl, hsilent, hout⟩

/-- Once the client is gone, the second tick that finds it silent closes the session. -/
theorem gone_closed (ts ts' : List Int) {t t' : Int} (ht : Silent freq start past t)
    (ht' : Silent freq start past t') :
    (run freq start (past ++ (ts ++ t :: (ts' ++ [t'])).map .tick)).closed = true := by
  have hquiet : ∀ (l : List Int) (past : List Event),
      lastLine start (past ++ l.map .tick) = lastLine start past := by
    intro l
    induction l with
    | nil => simp
    | cons t l ih =>
      intro past
      rw [List.map_cons, List.append_cons, ih, lastLine_concat]
  rw [closed_iff_timedOut]
  by_cases hreg : Registered past
  · refine ⟨past ++ (ts ++ t :: ts').map .tick, t', [], by simp, ?_, .inr ?_⟩
    · rw [Silent, hquiet]
      exact ht'
    · refine ⟨past ++ ts.map .tick, t, ts'.map .tick, by simp, ?_, ?_, by simp⟩
      · obtain ⟨u, hu⟩ := hreg
        exact ⟨u, List.mem_append_left _ hu⟩
      · rw [Silent, hquiet]
        exact ht
  · refine ⟨past ++ ts.map .tick, t, (ts' ++ [t']).map .tick, by simp, ?_, .inl ?_⟩
    · rw [Silent, hquiet]
      exact ht
    · rintro ⟨u, hu⟩
      rcases List.mem_append.mp hu with hu | hu
      · exact hreg ⟨u, hu⟩
      · simp at hu

end Keepalive
end Minbif
