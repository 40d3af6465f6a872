import Mathlib.Data.List.TakeDrop
import Minbif.Irc.ReadIO
import Minbif.Lib.Effect
import Minbif.Lib.Lossless

/-! The socket wrappers, and what they do with each answer of the transport. -/
namespace Minbif
open Runs Lossless Effect

def connectionReset : Exn := .sockError (str "Connection reset by peer...")

theorem socketRead_eq_iff {block : Str} : socketRead block = block ↔ '\x00' ∉ block := by
  rw [socketRead, List.takeWhile_eq_self_iff]
  simp only [bne_iff_ne, ne_eq]
  exact ⟨fun h hm => h _ hm rfl, fun h c hc he => h (he ▸ hc)⟩

theorem socketRead_length (block : Str) : (socketRead block).length ≤ block.length :=
  (List.takeWhile_prefix _).length_le

inductive Errno
  | eintr
  | einprogress
  | eagain
  | other (strerror : Str)
deriving DecidableEq, Repr

namespace Errno

def sockerrAgain : Errno → Bool
  | einprogress | eintr => true
  | _ => false

def strerror : Errno → Str
  | eintr => str "Interrupted system call"
  | einprogress => str "Operation now in progress"
  | eagain => str "Resource temporarily unavailable"
  | other s => s

end Errno

/-- A wrapper without TLS. -/
structure SockWrapperPlain where
  sockOk : Bool := true
  /-- The bytes that `write` took. -/
  transmitted : Str := []
  /-- The strings that `Read` returned, one after the other. -/
  returned : Str := []
deriving DecidableEq, Repr

namespace SockWrapperPlain

/-- A call, with what `write` or `read` answers to it. -/
inductive Call
  | write (s : Str) (r : Except Errno Nat)
  | read (r : Except Errno Str)

def write (s : Str) (r : Except Errno Nat) : EStateM Exn SockWrapperPlain Unit := do
  if !(← get).sockOk then return
  match r with
  | .ok 0 =>
    modify fun w => { w with sockOk := false }
    throw connectionReset
  | .ok n => modify fun w => { w with transmitted := w.transmitted ++ s.take n }
  | .error errno =>
    if !errno.sockerrAgain then
      modify fun w => { w with sockOk := false }
      throw (.sockError (str "Read error: " ++ errno.strerror))

def read (r : Except Errno Str) : EStateM Exn SockWrapperPlain Str := do
  if !(← get).sockOk then return []
  match r with
  | .ok [] => throw connectionReset
  | .ok buf => return socketRead buf
  | .error errno =>
    if !errno.sockerrAgain then throw (.sockError (str "Read error: " ++ errno.strerror))
    return []

def call : Call → EStateM Exn SockWrapperPlain Unit
  | .write s r => write s r
  | .read r => do
    let s ← read r
    modify fun w => { w with returned := w.returned ++ s }

/-- The wrapper after a call that did not throw. -/
def step (w : SockWrapperPlain) (c : Call) : Option SockWrapperPlain :=
  match (call c).run w with
  | .ok _ w => some w
  | .error _ _ => none

def written : Call → Str
  | .write s _ => s
  | .read _ => []

def received : Call → Str
  | .read (.ok buf) => buf
  | _ => []

/-- No call threw, the wrapper still works, and both directions are complete. -/
def Lossless (calls : List Call) : Prop :=
  ∃ w, run step {} calls = some w ∧ w.sockOk = true ∧
    w.transmitted = calls.flatMap written ∧ w.returned = calls.flatMap received

/-- What a connection may go through: a part of the string, or an interruption. -/
def Call.Transient : Call → Prop
  | .write s (.ok n) => n ≤ s.length ∧ (n = 0 → s = [])
  | .read (.ok buf) => buf ≠ []
  | .write _ (.error errno) | .read (.error errno) => errno.sockerrAgain = true

/-- `write` takes the string as a whole, and a block that is read holds no NUL. -/
def Call.Whole : Call → Prop
  | .write s (.ok n) => 0 < n ∧ s.length ≤ n
  | .write s (.error errno) => errno.sockerrAgain = true ∧ s = []
  | .read (.ok buf) => buf ≠ [] ∧ '\x00' ∉ buf
  | .read (.error errno) => errno.sockerrAgain = true

/-- What a call leaves of a wrapper that works, when it throws nothing. -/
def deliver (w : SockWrapperPlain) : Call → SockWrapperPlain
  | .write s (.ok n) => { w with transmitted := w.transmitted ++ s.take n }
  | .read (.ok buf) => { w with returned := w.returned ++ socketRead buf }
  | _ => w

/-- The calls that leave a wrapper working. -/
def Call.fine : Call → Bool
  | .write _ (.ok n) => n ≠ 0
  | .read (.ok buf) => buf ≠ []
  | .write _ (.error errno) | .read (.error errno) => errno.sockerrAgain

def took : Call → Str
  | .write s (.ok n) => s.take n
  | _ => []

def gave : Call → Str
  | .read (.ok buf) => socketRead buf
  | _ => []

variable {w t : SockWrapperPlain} {c : Call} {calls : List Call}

/-- Every call but the fine ones throws, as long as the wrapper works. -/
theorem step_eq (w : SockWrapperPlain) (c : Call) : step w c =
    if w.sockOk then (if c.fine then some (deliver w c) else none) else some w := by
  obtain ⟨ok, transmitted, returned⟩ := w
  cases ok with
  | false =>
    cases c with
    | write s r => rfl
    | read r => simp [step, call, read]
  | true =>
    cases c with
    | write s r =>
      rcases r with errno | _ | n
      · cases errno <;> rfl
      · rfl
      · rfl
    | read r =>
      rcases r with errno | _ | _
      · cases errno <;> simp [step, call, read, Call.fine, Errno.sockerrAgain, deliver]
      · rfl
      · rfl

theorem deliver_sockOk (w : SockWrapperPlain) (c : Call) : (deliver w c).sockOk = w.sockOk := by
  unfold deliver
  split <;> rfl

theorem delivers : Delivers step (·.sockOk = true) (·.fine = true) deliver := by
  apply Delivers.intro
  · intro w c hw hc
    rw [step_eq, if_pos hw, if_pos hc]
    exact ⟨rfl, (deliver_sockOk w c).trans hw⟩
  · intro w c t hstep ht
    rw [step_eq] at hstep
    by_cases hw : w.sockOk = true
    · refine ⟨hw, ?_⟩
      by_contra hc
      simp [hw, hc] at hstep
    · rw [if_neg hw] at hstep
      obtain rfl := Option.some.inj hstep
      exact (hw ht).elim

theorem whole_iff (c : Call) :
    c.Whole ↔ c.fine = true ∧ took c = written c ∧ gave c = received c := by
  rcases c with ⟨s, errno | n⟩ | ⟨errno | buf⟩
  · simp [Call.Whole, Call.fine, took, written, gave, received, @eq_comm Str []]
  · simp [Call.Whole, Call.fine, took, written, gave, received, Nat.pos_iff_ne_zero,
      List.take_eq_self_iff]
  · simp [Call.Whole, Call.fine, took, written, gave, received]
  · simp [Call.Whole, Call.fine, took, written, gave, received, socketRead_eq_iff]

/-- A wrapper without TLS is lossless exactly if it was given whole answers. -/
theorem lossless_iff (calls : List Call) : Lossless calls ↔ ∀ c ∈ calls, c.Whole := by
  simp only [whole_iff]
  refine run_complete_iff delivers rfl ?_ rfl ?_ rfl ?_ ?_
  · intro w c
    unfold deliver took
    split <;> simp
  · intro w c
    unfold deliver gave
    split <;> simp
  · intro c
    unfold took written
    split
    · rw [List.length_take]
      exact Nat.min_le_right ..
    · simp
  · intro c
    unfold gave received
    split <;> simp [socketRead_length]

end SockWrapperPlain

inductive Retry
  | again
  | interrupted
deriving DecidableEq, Repr

/-- An answer of `gnutls_record_send` that ends its loop. -/
inductive SendAnswer
  | count (n : Nat)
  | fatal (strerror : Str)
  | nonFatal
deriving DecidableEq, Repr

/-- An answer of `gnutls_record_recv` that ends its loop. -/
inductive RecvAnswer
  | data (c : Char) (buf : Str)
  | closed
  | fatal (strerror : Str)
  /-- With how often `gnutls_handshake` has to be called again, and how it ends. -/
  | rehandshake (waits : Nat) (success : Bool)
  | nonFatal
deriving DecidableEq, Repr

structure SockWrapperTLS where
  sockOk : Bool := true
  tlsOk : Bool := true
  tlsHandshake : Bool := true
  transmitted : Str := []
  returned : Str := []
deriving DecidableEq, Repr

def tlsError (reason : Str) : Exn := .sockError (str "[TLS] " ++ reason)

namespace SockWrapperTLS

/-- A call, with the codes that make it try again and the answer that ends it. -/
inductive Call
  | write (s : Str) (retries : List Retry) (r : SendAnswer)
  | read (retries : List Retry) (r : RecvAnswer)

def usable (w : SockWrapperTLS) : Bool := w.sockOk && w.tlsOk && w.tlsHandshake

def handshakeLoop (success : Bool) : Nat → EStateM Exn SockWrapperTLS Unit
  | 0 => if success then pure () else throw (tlsError (str "TLS initialization failed"))
  | waits + 1 => handshakeLoop success waits

def processTLSHandshake (waits : Nat) (success : Bool) : EStateM Exn SockWrapperTLS Unit := do
  modify fun w => { w with tlsHandshake := false }
  handshakeLoop success waits
  modify fun w => { w with tlsHandshake := true }

/-- `sock_ok = false`, which every answer that is not positive starts with. -/
def sockFailed : EStateM Exn SockWrapperTLS Unit := modify fun w => { w with sockOk := false }

/-- The answer 0, to either call. -/
def reset : EStateM Exn SockWrapperTLS Unit := do
  modify fun w => { w with tlsOk := false }
  throw connectionReset

def writeLoop (s : Str) (r : SendAnswer) : List Retry → EStateM Exn SockWrapperTLS Unit
  | _ :: retries => do
    sockFailed
    writeLoop s r retries
  | [] => match r with
    | .count 0 => do
      sockFailed
      reset
    | .count n => modify fun w => { w with transmitted := w.transmitted ++ s.take n }
    | .fatal strerror => do
      sockFailed
      throw (tlsError strerror)
    | .nonFatal => sockFailed

def write (s : Str) (retries : List Retry) (r : SendAnswer) : EStateM Exn SockWrapperTLS Unit := do
  if !(← get).usable then return
  writeLoop s r retries

def readLoop (r : RecvAnswer) : List Retry → EStateM Exn SockWrapperTLS Str
  | _ :: retries => do
    sockFailed
    readLoop r retries
  | [] => match r with
    | .data c buf => pure (socketRead (c :: buf))
    | .closed => do
      sockFailed
      reset
      return []
    | .fatal strerror => do
      sockFailed
      throw (tlsError strerror)
    | .rehandshake waits success => do
      sockFailed
      processTLSHandshake waits success
      return []
    | .nonFatal => do
      sockFailed
      return []

def read (retries : List Retry) (r : RecvAnswer) : EStateM Exn SockWrapperTLS Str := do
  if !(← get).usable then return []
  readLoop r retries

def call : Call → EStateM Exn SockWrapperTLS Unit
  | .write s retries r => write s retries r
  | .read retries r => do
    let s ← read retries r
    modify fun w => { w with returned := w.returned ++ s }

def step (w : SockWrapperTLS) (c : Call) : Option SockWrapperTLS :=
  match (call c).run w with
  | .ok _ w => some w
  | .error _ _ => none

def written : Call → Str
  | .write s _ _ => s
  | .read _ _ => []

def received : Call → Str
  | .read _ (.data c buf) => c :: buf
  | _ => []

def Lossless (calls : List Call) : Prop :=
  ∃ w, run step {} calls = some w ∧ w.usable = true ∧
    w.transmitted = calls.flatMap written ∧ w.returned = calls.flatMap received

/-- What a connection may go through: parts, codes to try again, and new handshakes. -/
def Call.Transient : Call → Prop
  | .write s _ (.count n) => n ≤ s.length ∧ (n = 0 → s = [])
  | .read _ (.data _ _) | .read _ (.rehandshake _ true) => True
  | _ => False

/-- No answer asks for another call, and nothing is cut off. -/
def Call.Whole : Call → Prop
  | .write s retries (.count n) => retries = [] ∧ 0 < n ∧ s.length ≤ n
  | .read retries (.data c buf) => retries = [] ∧ '\x00' ∉ c :: buf
  | _ => False

def deliver (w : SockWrapperTLS) : Call → SockWrapperTLS
  | .write s _ (.count n) => { w with transmitted := w.transmitted ++ s.take n }
  | .read _ (.data c buf) => { w with returned := w.returned ++ socketRead (c :: buf) }
  | _ => w

def Call.fine : Call → Bool
  | .write _ retries (.count n) => retries = [] ∧ n ≠ 0
  | .read retries (.data _ _) => retries = []
  | _ => false

def took : Call → Str
  | .write s _ (.count n) => s.take n
  | _ => []

def gave : Call → Str
  | .read _ (.data c buf) => socketRead (c :: buf)
  | _ => []

variable {w t : SockWrapperTLS} {c : Call} {calls : List Call} {s : Str} {retries : List Retry}
  {α : Type} {x : EStateM Exn SockWrapperTLS α}

/-- Once off, `sock_ok` stays off. -/
abbrev StaysOff (x : EStateM Exn SockWrapperTLS α) : Prop := Holds (·.sockOk = false) x

theorem ends_sockFailed : Ends (fun _ => True) sockFailed (·.sockOk = false) :=
  triple_modify fun _ _ => rfl

theorem staysOff_reset : StaysOff reset :=
  triple_bind (triple_modify fun _ => id) fun _ => triple_throw fun _ => id

theorem staysOff_handshakeLoop (success : Bool) (waits : Nat) :
    StaysOff (handshakeLoop success waits) := by
  induction waits with
  | zero =>
    unfold handshakeLoop
    split
    · exact triple_pure fun _ => id
    · exact triple_throw fun _ => id
  | succ waits ih => exact ih

theorem staysOff_processTLSHandshake (waits : Nat) (success : Bool) :
    StaysOff (processTLSHandshake waits success) :=
  triple_bind (triple_modify fun _ => id) fun _ =>
    triple_bind (staysOff_handshakeLoop success waits) fun _ => triple_modify fun _ => id

theorem staysOff_writeLoop (s : Str) (r : SendAnswer) (retries : List Retry) :
    StaysOff (writeLoop s r retries) := by
  have hfail : StaysOff sockFailed := ends_sockFailed.weaken (fun _ _ => trivial) fun _ => id
  induction retries with
  | nil =>
    cases r with
    | count n =>
      cases n with
      | zero => exact triple_bind hfail fun _ => staysOff_reset
      | succ n => exact triple_modify fun _ => id
    | fatal strerror => exact triple_bind hfail fun _ => triple_throw fun _ => id
    | nonFatal => exact hfail
  | cons retry retries ih => exact triple_bind hfail fun _ => ih

theorem staysOff_readLoop (r : RecvAnswer) (retries : List Retry) :
    StaysOff (readLoop r retries) := by
  have hfail : StaysOff sockFailed := ends_sockFailed.weaken (fun _ _ => trivial) fun _ => id
  induction retries with
  | nil =>
    cases r with
    | data c buf => exact triple_pure fun _ => id
    | closed =>
      exact triple_bind hfail fun _ => triple_bind staysOff_reset fun _ => triple_pure fun _ => id
    | fatal strerror => exact triple_bind hfail fun _ => triple_throw fun _ => id
    | rehandshake waits success =>
      exact triple_bind hfail fun _ =>
        triple_bind (staysOff_processTLSHandshake waits success) fun _ => triple_pure fun _ => id
    | nonFatal => exact triple_bind hfail fun _ => triple_pure fun _ => id
  | cons retry retries ih => exact triple_bind hfail fun _ => ih

/-- Every loop but that of a fine call switches `sock_ok` off at its first answer. -/
theorem ends_writeLoop {r : SendAnswer} (h : Call.fine (.write s retries r) = false) :
    Ends (fun _ => True) (writeLoop s r retries) (·.sockOk = false) := by
  cases retries with
  | cons retry retries => exact triple_bind ends_sockFailed fun _ => staysOff_writeLoop s r retries
  | nil =>
    cases r with
    | count n =>
      cases n with
      | zero => exact triple_bind ends_sockFailed fun _ => staysOff_reset
      | succ n => simp [Call.fine] at h
    | fatal strerror => exact triple_bind ends_sockFailed fun _ => triple_throw fun _ => id
    | nonFatal => exact ends_sockFailed

theorem ends_readLoop {r : RecvAnswer} (h : Call.fine (.read retries r) = false) :
    Ends (fun _ => True) (readLoop r retries) (·.sockOk = false) := by
  cases retries with
  | cons retry retries => exact triple_bind ends_sockFailed fun _ => staysOff_readLoop r retries
  | nil =>
    cases r with
    | data c buf => simp [Call.fine] at h
    | closed =>
      exact triple_bind ends_sockFailed fun _ =>
        triple_bind staysOff_reset fun _ => triple_pure fun _ => id
    | fatal strerror => exact triple_bind ends_sockFailed fun _ => triple_throw fun _ => id
    | rehandshake waits success =>
      exact triple_bind ends_sockFailed fun _ =>
        triple_bind (staysOff_processTLSHandshake waits success) fun _ => triple_pure fun _ => id
    | nonFatal => exact triple_bind ends_sockFailed fun _ => triple_pure fun _ => id

theorem step_disabled (hw : w.usable = false) : step w c = some w := by
  cases c with
  | write s retries r => simp [step, call, write, hw]
  | read retries r => simp [step, call, read, hw]

theorem step_fine (hw : w.usable = true) (hc : c.fine = true) : step w c = some (deliver w c) := by
  cases c with
  | write s retries r =>
    cases r with
    | count n =>
      obtain ⟨rfl, hn⟩ : retries = [] ∧ n ≠ 0 := by simpa [Call.fine] using hc
      obtain ⟨n, rfl⟩ := Nat.exists_eq_succ_of_ne_zero hn
      simp [step, call, write, hw, writeLoop, deliver]
    | fatal strerror => cases hc
    | nonFatal => cases hc
  | read retries r =>
    cases r with
    | data c buf =>
      obtain rfl : retries = [] := by simpa [Call.fine] using hc
      simp [step, call, read, hw, readLoop, deliver]
    | closed => cases hc
    | fatal strerror => cases hc
    | rehandshake waits success => cases hc
    | nonFatal => cases hc

theorem call_run (hw : w.usable = true) : (call c).run w = match c with
    | .write s retries r => (writeLoop s r retries).run w
    | .read retries r => (readLoop r retries >>= fun s =>
        modify fun w => { w with returned := w.returned ++ s }).run w := by
  cases c <;> simp [call, write, read, hw]

/-- A call that is not fine throws, or leaves the wrapper disabled. -/
theorem step_notFine (hw : w.usable = true) (hc : c.fine = false) (h : step w c = some t) :
    t.usable = false := by
  have hoff : t.sockOk = false := by
    rw [step, call_run hw] at h
    cases c with
    | write s retries r =>
      dsimp only at h
      split at h
      · next hr =>
        obtain rfl := Option.some.inj h
        exact (ends_writeLoop hc).returns trivial hr
      · cases h
    | read retries r =>
      have hends : Ends (fun _ => True) (readLoop r retries >>= fun s =>
          modify fun w => { w with returned := w.returned ++ s }) (·.sockOk = false) :=
        triple_bind (ends_readLoop hc) fun _ => triple_modify fun _ => id
      dsimp only at h
      split at h
      · next hr =>
        obtain rfl := Option.some.inj h
        exact hends.returns trivial hr
      · cases h
  simp [usable, hoff]

theorem deliver_usable (w : SockWrapperTLS) (c : Call) : (deliver w c).usable = w.usable := by
  unfold deliver
  split <;> rfl

theorem delivers : Delivers step (·.usable = true) (·.fine = true) deliver := by
  apply Delivers.intro
  · intro w c hw hc
    exact ⟨step_fine hw hc, (deliver_usable w c).trans hw⟩
  · intro w c t hstep ht
    cases hw : w.usable with
    | false =>
      rw [step_disabled hw] at hstep
      obtain rfl := Option.some.inj hstep
      exact absurd ht (by simp [hw])
    | true =>
      refine ⟨rfl, ?_⟩
      by_contra hc
      have := step_notFine hw (by simpa using hc) hstep
      simp [this] at ht

theorem whole_iff (c : Call) :
    c.Whole ↔ c.fine = true ∧ took c = written c ∧ gave c = received c := by
  rcases c with ⟨s, retries, r⟩ | ⟨retries, r⟩
  · cases r with
    | count n =>
      simp [Call.Whole, Call.fine, took, written, gave, received, Nat.pos_iff_ne_zero, and_assoc]
    | fatal strerror => simp [Call.Whole, Call.fine]
    | nonFatal => simp [Call.Whole, Call.fine]
  · cases r with
    | data c buf =>
      simp [Call.Whole, Call.fine, took, written, gave, received, socketRead_eq_iff]
    | closed => simp [Call.Whole, Call.fine]
    | fatal strerror => simp [Call.Whole, Call.fine]
    | rehandshake waits success => simp [Call.Whole, Call.fine]
    | nonFatal => simp [Call.Whole, Call.fine]

/-- A wrapper with TLS is lossless exactly if no call was told to try again, and none was cut. -/
theorem lossless_iff (calls : List Call) : Lossless calls ↔ ∀ c ∈ calls, c.Whole := by
  simp only [whole_iff]
  refine run_complete_iff delivers rfl ?_ rfl ?_ rfl ?_ ?_
  · intro w c
    unfold deliver took
    split <;> simp
  · intro w c
    unfold deliver gave
    split <;> simp
  · intro c
    unfold took written
    split
    · rw [List.length_take]
      exact Nat.min_le_right ..
    · simp
  · intro c
    unfold gave received
    split
    · exact socketRead_length _
    · simp

end SockWrapperTLS

/-- For both wrappers: no answer is fatal and nothing is lost exactly if every answer is whole. -/
theorem sockets_lossless_iff (plain : List SockWrapperPlain.Call)
    (tls : List SockWrapperTLS.Call) :
    (SockWrapperPlain.Lossless plain ↔ ∀ c ∈ plain, c.Whole) ∧
      (SockWrapperTLS.Lossless tls ↔ ∀ c ∈ tls, c.Whole) :=
  ⟨SockWrapperPlain.lossless_iff plain, SockWrapperTLS.lossless_iff tls⟩

/-- Half of a string is never sent again, and after a code to try again the next string is not
sent at all. -/
theorem sockets_lossy :
    ((∀ c ∈ [SockWrapperPlain.Call.write ['a', 'b'] (.ok 1)], c.Transient) ∧
      ¬ SockWrapperPlain.Lossless [.write ['a', 'b'] (.ok 1)]) ∧
    (∀ c ∈ [SockWrapperTLS.Call.write ['a'] [.again] (.count 1), .write ['b'] [] (.count 1)],
      c.Transient) ∧
    ¬ SockWrapperTLS.Lossless [.write ['a'] [.again] (.count 1), .write ['b'] [] (.count 1)] := by
  refine ⟨⟨by simp [SockWrapperPlain.Call.Transient], ?_⟩,
    by simp [SockWrapperTLS.Call.Transient], ?_⟩
  · rintro ⟨w, hr, -, hw, -⟩
    obtain rfl : ⟨true, ['a'], []⟩ = w := Option.some.inj hr
    cases hw
  · rintro ⟨w, hr, -, hw, -⟩
    obtain rfl : ⟨false, true, true, ['a'], []⟩ = w := Option.some.inj hr
    cases hw

end Minbif
