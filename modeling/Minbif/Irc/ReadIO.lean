import Minbif.Irc.Message

/-! Client framing: `IRC::readIO` over the strings that the socket returns. -/
namespace Minbif
open Tokens

def lineEnd : Str := ['\r', '\n']

/-- `SockWrapperPlain::Read`: the received bytes as a C string. -/
def socketRead (block : Str) : Str := block.takeWhile (· != '\x00')

section Loop

variable {m : Type → Type} [Monad m]

/-- The loop of `IRC::readIO`; `dispatch` is its body. -/
def readLoop (dispatch : Str → m Unit) : Nat → Str → m Unit
  | 0, _ => pure ()
  | fuel + 1, sbuf =>
    let line := (stringtok sbuf lineEnd).1
    if line.isEmpty then pure ()
    else do
      dispatch line
      readLoop dispatch fuel (stringtok sbuf lineEnd).2

def readIO (dispatch : Str → m Unit) (sbuf : Str) : m Unit :=
  readLoop dispatch (sbuf.length + 1) sbuf

theorem readLoop_eq {dispatch : Str → m Unit} {fuel : Nat} {sbuf : Str} (h : sbuf.length < fuel) :
    readLoop dispatch fuel sbuf = forM (tokens lineEnd.contains sbuf) dispatch := by
  rw [← stringtokLoop_eq h]
  clear h
  induction fuel generalizing sbuf with
  | zero => rfl
  | succ fuel ih =>
    rw [readLoop, stringtokLoop]
    split <;> simp [ih]

/-- One invocation hands over the runs of its own buffer, and nothing else. -/
theorem readIO_eq (dispatch : Str → m Unit) (sbuf : Str) :
    readIO dispatch sbuf = forM (tokens lineEnd.contains sbuf) dispatch :=
  readLoop_eq (Nat.lt_succ_self _)

end Loop

/-- A line as a client sends it. -/
structure Line where
  content : Str
  crlf : Bool
  plain : ∀ c ∈ content, c ≠ '\r' ∧ c ≠ '\n' ∧ c ≠ '\x00'

namespace Line

def bytes (l : Line) : Str := l.content ++ (if l.crlf then ['\r', '\n'] else ['\n'])

end Line

/-- A stream of lines, and the blocks in which the socket delivers it. -/
structure Transmission where
  lines : List Line
  blocks : List Str
  whole : blocks.flatten = lines.flatMap Line.bytes

/-- The lines whose terminator is among the first `n` bytes. -/
def complete : List Line → Nat → List Line
  | [], _ => []
  | l :: ls, n =>
    if l.bytes.length ≤ n then l :: complete ls (n - l.bytes.length) else []

/-- What the first `n` bytes hold of the line after the last complete one. -/
def pending : List Line → Nat → Str
  | [], _ => []
  | l :: ls, n =>
    if l.bytes.length ≤ n then pending ls (n - l.bytes.length) else l.bytes.take n

namespace Transmission

/-- The bytes that the first `k` reads delivered. -/
def received (T : Transmission) (k : Nat) : Nat := (T.blocks.take k).flatten.length

/-- The complete non-empty lines delivered by the first `k` reads. -/
def arrived (T : Transmission) (k : Nat) : List Str :=
  ((complete T.lines (T.received k)).map Line.content).filter fun c => !c.isEmpty

end Transmission

section Framing

variable {σ : Type}

/-- The loop body, with a record of the messages it hands to the handlers. -/
def recordDispatch (handler : σ → Message → σ) (line : Str) :
    EStateM Exn (σ × List Message) Unit := do
  let m ← MonadExcept.ofExcept (Message.parse line)
  modify fun s => (handler s.1 m, s.2 ++ [m])

/-- The messages dispatched over all the invocations of `readIO`, one for each block. -/
def dispatched (handler : σ → Message → σ) (s : σ) (blocks : List Str) : List Message :=
  match (forM blocks fun b => readIO (recordDispatch handler) (socketRead b)).run (s, []) with
  | .ok _ s | .error _ s => s.2

variable {handler : σ → Message → σ} {T : Transmission}
  {ls : List Line} {l : Line} {n k : Nat}

theorem recordDispatch_ok (handler : σ → Message → σ) (s : σ × List Message) (line : Str) : ∃ m, Message.parse line = .ok m ∧
    (recordDispatch handler line).run s = .ok () (handler s.1 m, s.2 ++ [m]) := by
  obtain ⟨m, hm, _⟩ := Message.parse_ok line
  exact ⟨m, hm, by simp [recordDispatch, hm, MonadExcept.ofExcept, EStateM.run]; rfl⟩

theorem recordDispatch_forM (handler : σ → Message → σ) (s : σ × List Message)
    (lines : List Str) :
    ∃ s', (forM lines (recordDispatch handler)).run s = .ok () s' ∧
      s'.2.map Except.ok = s.2.map Except.ok ++ lines.map Message.parse := by
  induction lines generalizing s with
  | nil => exact ⟨s, rfl, by simp⟩
  | cons line lines ih =>
    obtain ⟨m, hm, hd⟩ := recordDispatch_ok handler s line
    obtain ⟨s', hs, hl⟩ := ih (handler s.1 m, s.2 ++ [m])
    refine ⟨s', ?_, by simpa [hm] using hl⟩
    rw [List.forM_cons]
    simp only [EStateM.run, bind, EStateM.bind] at *
    rw [hd]
    exact hs

/-- The runs of each string read, parsed one by one. -/
theorem dispatched_eq (s : σ) (blocks : List Str) :
    (dispatched handler s blocks).map Except.ok =
      (blocks.flatMap fun b => tokens lineEnd.contains (socketRead b)).map Message.parse := by
  have hblocks : (forM blocks fun b => readIO (recordDispatch handler) (socketRead b)) =
      forM (blocks.flatMap fun b => tokens lineEnd.contains (socketRead b))
        (recordDispatch handler) := by
    simp only [readIO_eq]
    induction blocks with
    | nil => rfl
    | cons b bs ih => rw [List.forM_cons, ih, List.flatMap_cons, List.forM_append]
  obtain ⟨s', hs, hl⟩ := recordDispatch_forM handler (s, [])
    (blocks.flatMap fun b => tokens lineEnd.contains (socketRead b))
  rw [dispatched, hblocks, hs]
  simpa using hl

theorem take_received (T : Transmission) (k : Nat) :
    (T.lines.flatMap Line.bytes).take (T.received k) = (T.blocks.take k).flatten := by
  have hsplit : T.blocks.flatten = (T.blocks.take k).flatten ++ (T.blocks.drop k).flatten := by
    rw [← List.flatten_append, List.take_append_drop]
  rw [← T.whole, hsplit, Transmission.received, List.take_left]

theorem Line.bytes_eq (l : Line) : ∃ e, l.bytes = l.content ++ e ++ ['\n'] ∧
    ∀ c ∈ e, c = '\r' := by
  unfold Line.bytes
  cases l.crlf with
  | true => exact ⟨['\r'], by simp, by simp⟩
  | false => exact ⟨[], by simp, by simp⟩

theorem Line.content_no_delim (l : Line) : ∀ c ∈ l.content, lineEnd.contains c = false := by
  intro c hc
  have := l.plain c hc
  simp [lineEnd, this.1, this.2.1]

theorem Line.bytes_last (l : Line) : ∀ c ∈ l.bytes.getLast?, lineEnd.contains c = true := by
  obtain ⟨e, he, _⟩ := l.bytes_eq
  simp [he, lineEnd]

theorem Line.tokens_bytes (l : Line) :
    tokens lineEnd.contains l.bytes = [l.content].filter fun c => !c.isEmpty := by
  obtain ⟨e, he, hcr⟩ := l.bytes_eq
  have hdelim : ∀ c ∈ e ++ ['\n'], lineEnd.contains c = true := by
    intro c hc
    rcases List.mem_append.mp hc with hc | hc
    · simp [hcr c hc, lineEnd]
    · simp [List.mem_singleton.mp hc, lineEnd]
  rw [he, List.append_assoc]
  by_cases hc : l.content = []
  · simp [hc, tokens_delims hdelim]
  · obtain ⟨a, r, hr⟩ := List.exists_cons_of_ne_nil (l := e ++ ['\n']) (by simp)
    rw [hr] at hdelim ⊢
    rw [tokens_run_cons l.content_no_delim hc (hdelim a (by simp)),
      tokens_delims fun c hc => hdelim c (by simp [hc])]
    simp [hc]

/-- The first bytes of a stream: its complete lines, and the beginning of the next. -/
theorem tokens_take (ls : List Line) (n : Nat) :
    tokens lineEnd.contains ((ls.flatMap Line.bytes).take n) =
      (((complete ls n).map Line.content).filter fun c => !c.isEmpty) ++
        tokens lineEnd.contains (pending ls n) := by
  induction ls generalizing n with
  | nil => simp [complete, pending]
  | cons l ls ih =>
    rw [complete, pending, List.flatMap_cons]
    by_cases hn : l.bytes.length ≤ n
    · rw [if_pos hn, if_pos hn, List.take_append, List.take_of_length_le hn,
        tokens_append l.bytes_last, l.tokens_bytes, ih, List.map_cons, ← List.append_assoc,
        ← List.filter_append, List.singleton_append]
    · rw [if_neg hn, if_neg hn, List.take_append_of_le_length (by omega)]
      simp

/-- No content byte is pending: the bytes so far end with a delimiter. -/
theorem take_last (h : ∀ c ∈ pending ls n, c = '\r') :
    ∀ c ∈ ((ls.flatMap Line.bytes).take n).getLast?, lineEnd.contains c = true := by
  induction ls generalizing n with
  | nil => simp
  | cons l ls ih =>
    rw [pending] at h
    rw [List.flatMap_cons, List.take_append]
    by_cases hn : l.bytes.length ≤ n
    · rw [if_pos hn] at h
      rw [List.take_of_length_le hn, List.getLast?_append]
      intro c hc
      cases hl : ((ls.flatMap Line.bytes).take (n - l.bytes.length)).getLast? with
      | none => exact l.bytes_last c (by simpa [hl] using hc)
      | some d => exact ih h c (by simpa [hl] using hc)
    · rw [if_neg hn] at h
      rw [Nat.sub_eq_zero_of_le (by omega), List.take_zero, List.append_nil]
      intro c hc
      simp [h c (List.mem_of_getLast? hc), lineEnd]

theorem pending_no_lf (ls : List Line) (n : Nat) : '\n' ∉ pending ls n := by
  induction ls generalizing n with
  | nil => simp [pending]
  | cons l ls ih =>
    rw [pending]
    split
    · exact ih _
    · next hn =>
      obtain ⟨e, he, hcr⟩ := l.bytes_eq
      rw [he, List.length_append, List.length_singleton] at hn
      rw [he, List.take_append_of_le_length (by omega)]
      intro hmem
      rcases List.mem_append.mp (List.mem_of_mem_take hmem) with hmem | hmem
      · exact (l.plain _ hmem).2.1 rfl
      · simpa using hcr _ hmem

/-- The next read, when no content byte is pending before it. -/
theorem arrived_succ (hk : k < T.blocks.length)
    (h : ∀ c ∈ pending T.lines (T.received k), c = '\r') :
    T.arrived k ++ tokens lineEnd.contains T.blocks[k] =
      T.arrived (k + 1) ++ tokens lineEnd.contains (pending T.lines (T.received (k + 1))) := by
  have hnil : tokens lineEnd.contains (pending T.lines (T.received k)) = [] :=
    tokens_delims fun c hc => by simp [h c hc, lineEnd]
  have hk0 := tokens_take T.lines (T.received k)
  have hk1 := tokens_take T.lines (T.received (k + 1))
  have hlast := take_last h
  rw [hnil, List.append_nil, take_received] at hk0
  rw [take_received] at hk1 hlast
  rw [List.take_succ_eq_append_getElem hk, List.flatten_append, tokens_append hlast, hk0] at hk1
  simpa [Transmission.arrived] using hk1

theorem socketRead_block (T : Transmission) {b : Str} (hb : b ∈ T.blocks) : socketRead b = b := by
  apply List.takeWhile_eq_self_iff.mpr
  intro c hc
  have hmem : c ∈ T.lines.flatMap Line.bytes := T.whole ▸ List.mem_flatten.mpr ⟨b, hb, hc⟩
  obtain ⟨l, _, hl⟩ := List.mem_flatMap.mp hmem
  obtain ⟨e, he, hcr⟩ := l.bytes_eq
  simp only [he, List.mem_append, List.mem_singleton] at hl
  rcases hl with (hl | hl) | hl
  · simpa using (l.plain c hl).2.2
  · simp [hcr c hl]
  · simp [hl]

/-- The runs handed over by the first `k` reads. -/
def runs (T : Transmission) (k : Nat) : List Str :=
  (T.blocks.take k).flatMap fun b => tokens lineEnd.contains (socketRead b)

theorem runs_succ (T : Transmission) (hk : k < T.blocks.length) :
    runs T (k + 1) = runs T k ++ tokens lineEnd.contains T.blocks[k] := by
  rw [runs, List.take_succ_eq_append_getElem hk, List.flatMap_append, List.flatMap_singleton,
    socketRead_block T (List.getElem_mem hk), runs]

theorem runs_eq (h : ∀ j < k, ∀ c ∈ pending T.lines (T.received j), c = '\r')
    (hk : k ≤ T.blocks.length)
    (hp : ∀ c ∈ pending T.lines (T.received k), c = '\r') : runs T k = T.arrived k := by
  induction k with
  | zero =>
    cases hl : T.lines with
    | nil => simp [runs, Transmission.arrived, hl, complete]
    | cons l ls =>
      obtain ⟨e, he, _⟩ := l.bytes_eq
      simp [runs, Transmission.arrived, Transmission.received, hl, complete, he]
  | succ k ih =>
    have hpk := h k (Nat.lt_succ_self k)
    have hnil : tokens lineEnd.contains (pending T.lines (T.received (k + 1))) = [] :=
      tokens_delims fun c hc => by simp [hp c hc, lineEnd]
    rw [runs_succ T hk, ih (fun j hj => h j (by omega)) (by omega) hpk, arrived_succ hk hpk,
      hnil, List.append_nil]

/-- As many runs as complete lines so far means that no content byte is pending. -/
theorem pending_of_runs_length (h : ∀ k, (runs T k).length = (T.arrived k).length)
    (hk : k ≤ T.blocks.length) : ∀ c ∈ pending T.lines (T.received k), c = '\r' := by
  induction k with
  | zero =>
    cases hl : T.lines with
    | nil => simp [pending]
    | cons l ls =>
      obtain ⟨e, he, _⟩ := l.bytes_eq
      simp [pending, Transmission.received, he]
  | succ k ih =>
    have hlen := congrArg List.length (arrived_succ hk (ih (by omega)))
    have hruns := congrArg List.length (runs_succ T hk)
    have hk0 := h k
    have hk1 := h (k + 1)
    simp only [List.length_append] at hlen hruns
    have hnil := List.eq_nil_of_length_eq_zero
      (l := tokens lineEnd.contains (pending T.lines (T.received (k + 1)))) (by omega)
    intro c hc
    have hd := tokens_eq_nil_iff.mp hnil c hc
    have hlf : c ≠ '\n' := by rintro rfl; exact pending_no_lf _ _ hc
    simpa [lineEnd, hlf] using hd

theorem received_ge (hk : T.blocks.length ≤ k) : T.received k = T.received T.blocks.length := by
  simp [Transmission.received, List.take_of_length_le hk]

/-- One line in two blocks. -/
def splitLine : Transmission where
  lines := [⟨str "PRIVMSG bob :hi", true, by simp [str]⟩]
  blocks := [str "PRIV", str "MSG bob :hi\r\n"]
  whole := rfl

end Framing

end Minbif
