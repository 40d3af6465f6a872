import Minbif.Irc.Message
import Minbif.Lib.Effect
import Minbif.Lib.Runs

/-! The two calls that write the arguments of a message, and what they keep of them. -/
namespace Minbif
open Effect Runs

/-- The arguments of a message, through calls that may throw. -/
abbrev ArgsM := EStateM Exn (List Str)

/-- A call on a `Message`. -/
inductive ArgCall
  | addArg (s : Str)
  | setArg (i : Nat) (s : Str)
deriving DecidableEq, Repr

namespace ArgCall
open Message

/-- `args.back().find(' ') != string::npos`. -/
def backHasSpace (args : List Str) : Bool := args.getLast?.any hasSpace

def pushArg (s : Str) : ArgsM Unit := do
  if backHasSpace (← get) then throw .malformedMessage
  modify (· ++ [s])

def putArg (i : Nat) (s : Str) : ArgsM Unit := do
  let args ← get
  if i = args.length then pushArg s
  else
    if args.length ≤ i then throw .assertFailed
    if i + 1 < args.length && backHasSpace args then throw .malformedMessage
    modify (·.set i s)

def call : ArgCall → ArgsM Unit
  | addArg s => pushArg s
  | setArg i s => putArg i s

/-- The arguments that the call writes where nothing is thrown. -/
def performed (args : List Str) : ArgCall → List Str
  | addArg s => args ++ [s]
  | setArg i s => if i = args.length then args ++ [s] else args.set i s

/-- The call throws `MalformedMessage`. -/
def Throws (args : List Str) (c : ArgCall) : Prop :=
  ∃ t, c.call.run args = .error .malformedMessage t

/-- The arguments after a call that returns or throws `MalformedMessage`; a failed assertion ends
the program. -/
def step (args : List Str) (c : ArgCall) : Option (List Str) :=
  match c.call.run args with
  | .ok _ args => some args
  | .error .malformedMessage args => some args
  | .error _ _ => none

/-- Spaces stay in the last argument; what throws changes nothing, and had to throw. -/
def Guarded (args : List Str) (c : ArgCall) (args' : List Str) : Prop :=
  Middle args' ∧ (Throws args c → args' = args ∧ ¬ Middle (performed args c))

/-- An argument that is written before the last one has a space exactly when the last one has. -/
def Fits (args : List Str) : ArgCall → Prop
  | addArg _ => True
  | setArg i s => i + 1 < args.length → hasSpace s = backHasSpace args

instance (args : List Str) : ∀ c, Decidable (Fits args c)
  | addArg _ => inferInstanceAs (Decidable True)
  | setArg i s =>
    inferInstanceAs (Decidable (i + 1 < args.length → hasSpace s = backHasSpace args))

variable {args args' : List Str} {c : ArgCall} {i : Nat} {s : Str}

theorem run_pushArg :
    (pushArg s).run args = if backHasSpace args then .error .malformedMessage args
      else .ok () (args ++ [s]) := by
  cases h : backHasSpace args with
  | false => simp [pushArg, EStateM.run_bind, h]
  | true => simp [pushArg, EStateM.run_bind, h]

theorem run_putArg :
    (putArg i s).run args = if i = args.length then (pushArg s).run args
      else if args.length ≤ i then .error .assertFailed args
      else if i + 1 < args.length && backHasSpace args then .error .malformedMessage args
      else .ok () (args.set i s) := by
  unfold putArg
  rw [EStateM.run_bind]
  by_cases hi : i = args.length
  · simp [hi]
  · by_cases hout : args.length ≤ i
    · simp [hi, hout, EStateM.run_bind]
    · by_cases hback : (i + 1 < args.length && backHasSpace args) = true
      · simp [hi, hout, hback, EStateM.run_bind]
      · simp [hi, hout, hback]

theorem middle_push (h : Middle args) : Middle (args ++ [s]) ↔ backHasSpace args = false := by
  rw [middle_append_singleton]
  refine ⟨fun hall => ?_, fun hback => middle_last h hback⟩
  cases hb : args.getLast? with
  | none => simp [backHasSpace, hb]
  | some b => simpa [backHasSpace, hb] using hall b (List.mem_of_getLast? hb)

theorem middle_set_last (h : Middle args) (hi : i + 1 = args.length) : Middle (args.set i s) := by
  rcases List.eq_nil_or_concat args with rfl | ⟨init, b, rfl⟩
  · cases hi
  · rw [List.concat_eq_append] at *
    have hinit : i = init.length := by simpa using hi
    rw [List.set_append_right _ _ (by omega), hinit, Nat.sub_self, List.set_cons_zero]
    exact middle_append_singleton.mpr (middle_append_singleton.mp h)

theorem middle_set (h : Middle args) (hi : i + 1 < args.length) :
    Middle (args.set i s) ↔ hasSpace s = false := by
  rcases List.eq_nil_or_concat args with rfl | ⟨init, b, rfl⟩
  · cases hi
  · rw [List.concat_eq_append] at *
    have hlt : i < init.length := by simpa using hi
    rw [List.set_append_left _ _ hlt, middle_append_singleton]
    constructor
    · exact fun hall => hall s (List.mem_set hlt s)
    · intro hs a ha
      rcases List.mem_or_eq_of_mem_set ha with ha | rfl
      · exact middle_append_singleton.mp h a ha
      · exact hs

section Agreement

variable {m : Message}

/-- What `addArg` and `setArg` of a whole message do is what they do to its arguments. -/
theorem addArg_eq_run : m.addArg s = match (pushArg s).run m.args with
    | .ok _ args => .ok { m with args := args }
    | .error e _ => .error e := by
  rw [run_pushArg, Message.addArg, backHasSpace]
  split <;> rfl

theorem setArg_eq_run : m.setArg i s = match (putArg i s).run m.args with
    | .ok _ args => .ok { m with args := args }
    | .error e _ => .error e := by
  rw [run_putArg, Message.setArg, addArg_eq_run]
  split
  · rfl
  split
  · rfl
  rw [backHasSpace]
  split <;> rfl

end Agreement

theorem step_addArg : step args (addArg s) =
    some (if backHasSpace args then args else args ++ [s]) := by
  simp only [step, call, run_pushArg]
  cases backHasSpace args <;> rfl

theorem throws_addArg : Throws args (addArg s) ↔ backHasSpace args = true := by
  simp only [Throws, call, run_pushArg]
  cases backHasSpace args <;> simp

/-- A call that appends is guarded by what it would break. -/
theorem guarded_addArg (h : Middle args) (ht : step args (addArg s) = some args') :
    Guarded args (addArg s) args' := by
  rw [step_addArg, Option.some_inj] at ht
  subst ht
  rw [Guarded, throws_addArg, performed, middle_push h]
  cases hback : backHasSpace args with
  | false => simpa using (middle_push h).mpr hback
  | true => simpa using h

theorem step_setArg (hi : i < args.length) : step args (setArg i s) =
    some (if i + 1 < args.length ∧ backHasSpace args = true then args else args.set i s) := by
  simp only [step, call, run_putArg, if_neg (Nat.ne_of_lt hi), if_neg (Nat.not_le.mpr hi)]
  by_cases hthrow : i + 1 < args.length ∧ backHasSpace args = true
  · simp [hthrow]
  · have hgo : (decide (i + 1 < args.length) && backHasSpace args) = false := by simpa using hthrow
    simp [hgo, hthrow]

theorem throws_setArg (hi : i < args.length) :
    Throws args (setArg i s) ↔ i + 1 < args.length ∧ backHasSpace args = true := by
  simp only [Throws, call, run_putArg, if_neg (Nat.ne_of_lt hi), if_neg (Nat.not_le.mpr hi)]
  by_cases hthrow : i + 1 < args.length ∧ backHasSpace args = true
  · simp [hthrow]
  · have hgo : (decide (i + 1 < args.length) && backHasSpace args) = false := by simpa using hthrow
    simp [hgo, hthrow]

theorem guarded_setArg_last (h : Middle args) (hi : i + 1 = args.length)
    (ht : step args (setArg i s) = some args') : Guarded args (setArg i s) args' := by
  have hnot : ¬ (i + 1 < args.length ∧ backHasSpace args = true) := by omega
  rw [step_setArg (by omega), if_neg hnot, Option.some_inj] at ht
  subst ht
  refine ⟨middle_set_last h hi, fun hthrows => ?_⟩
  exact absurd ((throws_setArg (by omega)).mp hthrows) hnot

/-- A call that writes before the last argument looks at that one, and not at what it writes. -/
theorem guarded_setArg_middle (h : Middle args) (hi : i + 1 < args.length)
    (ht : step args (setArg i s) = some args') :
    Guarded args (setArg i s) args' ↔ hasSpace s = backHasSpace args := by
  have hlt : i < args.length := by omega
  rw [step_setArg hlt, Option.some_inj] at ht
  subst ht
  rw [Guarded, throws_setArg hlt, performed, if_neg (Nat.ne_of_lt hlt), middle_set h hi]
  cases hback : backHasSpace args with
  | false => simp [hi, middle_set h hi]
  | true => simp [hi, h]

theorem guarded_iff (h : Middle args) (ht : step args c = some args') :
    Guarded args c args' ↔ Fits args c := by
  cases c with
  | addArg s => exact iff_of_true (guarded_addArg h ht) trivial
  | setArg i s =>
    rcases Nat.lt_trichotomy i args.length with hi | rfl | hi
    · rcases Nat.lt_or_eq_of_le hi with hi | hi
      · rw [guarded_setArg_middle h hi ht, Fits]
        exact ⟨fun heq _ => heq, fun heq => heq hi⟩
      · refine iff_of_true (guarded_setArg_last h hi ht) fun hlt => ?_
        omega
    · have happend : step args (setArg args.length s) = step args (addArg s) := by
        simp only [step, call, run_putArg, if_pos]
      have hthrows : Throws args (setArg args.length s) ↔ Throws args (addArg s) := by
        simp only [Throws, call, run_putArg, if_pos]
      have hperf : performed args (setArg args.length s) = performed args (addArg s) := by
        simp only [performed, if_pos]
      rw [happend] at ht
      have hguard := guarded_addArg h ht
      rw [Guarded, ← hthrows, ← hperf] at hguard
      refine iff_of_true hguard fun hlt => ?_
      omega
    · have hout : step args (setArg i s) = none := by
        simp only [step, call, run_putArg, if_neg (Nat.ne_of_gt hi), if_pos (Nat.le_of_lt hi)]
      rw [hout] at ht
      cases ht

/-- Calls in any order guard the arguments exactly if what is written before the last one has a space
when, and only when, the last one has. -/
theorem calls_guarded_iff (cs : List ArgCall) (h : Middle args) :
    Stepwise step Guarded args cs ↔ Along step Fits args cs := by
  refine stepwise_iff_stops (I := Middle) (fun args c args' h ht => ?_) (fun args c h hnone => ?_) h
  · exact ⟨guarded_iff h ht, fun hguard => hguard.1⟩
  · cases c with
    | addArg s =>
      rw [step_addArg] at hnone
      cases hnone
    | setArg i s =>
      intro hi
      rw [step_setArg (by omega)] at hnone
      cases hnone

/-- As the modes of a user in a channel are put together. -/
theorem calls_guarded_modes : Stepwise step Guarded []
    [addArg (str "+"), addArg (str "nick"), addArg (str "nick"), setArg 0 (str "+ov")] :=
  (calls_guarded_iff _ middle_nil).mpr (by decide)

/-- An argument with a space before the last one is accepted, and one without a space refused. -/
theorem calls_not_guarded :
    ¬ Stepwise step Guarded [] [addArg (str "a"), addArg (str "b"), setArg 0 (str "x y")] ∧
    ¬ Stepwise step Guarded [] [addArg (str "a"), addArg (str "x y"), setArg 0 (str "z")] := by
  constructor
  · intro h
    have hlast := (h.2 _ rfl).2 _ rfl |>.1 [str "x y", str "b"] (by decide)
    exact absurd hlast.1 (by decide)
  · intro h
    have hlast := (h.2 _ rfl).2 _ rfl |>.1 [str "a", str "x y"] (by decide)
    exact (hlast.2 ⟨_, rfl⟩).2 (by decide)

end ArgCall
end Minbif
