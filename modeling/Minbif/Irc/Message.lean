import Minbif.Core.Util

/-! Protocol messages: arguments, the wire format and the parser. -/
namespace Minbif

/-- What a handler can throw, a failed assertion included. -/
inductive Exn
  | malformedMessage
  | assertFailed
  | sockError (reason : Str)
  | imError (reason : Str)
  | unableToCreate (reason : Str)
deriving DecidableEq, Repr

/-- An entity's two names, or a bare name. -/
inductive StoredEntity
  | unset
  | entity (name longName : Str)
  | name (n : Str)
deriving DecidableEq, Repr, Inhabited

namespace StoredEntity

def isSet : StoredEntity → Bool
  | unset => false
  | entity _ _ => true
  | name n => !n.isEmpty

def getName : StoredEntity → Str
  | unset => []
  | entity n _ => n
  | name n => n

def getLongName : StoredEntity → Str
  | unset => []
  | entity _ l => l
  | name n => n

end StoredEntity

structure Message where
  cmd : Str := []
  sender : StoredEntity := .unset
  receiver : StoredEntity := .unset
  args : List Str := []
deriving DecidableEq, Repr, Inhabited

namespace Message

/-- An argument that can only stand last. -/
def hasSpace (s : Str) : Bool := s.contains ' '

def addArg (m : Message) (s : Str) : Except Exn Message :=
  if m.args.getLast?.any hasSpace then .error .malformedMessage
  else .ok { m with args := m.args ++ [s] }

def addArgs (m : Message) : List Str → Except Exn Message
  | [] => .ok m
  | s :: l => do addArgs (← m.addArg s) l

def setArg (m : Message) (i : Nat) (s : Str) : Except Exn Message :=
  if i = m.args.length then m.addArg s
  else if m.args.length ≤ i then .error .assertFailed
  else if i + 1 < m.args.length && m.args.getLast?.any hasSpace then .error .malformedMessage
  else .ok { m with args := m.args.set i s }

def getArg (m : Message) (n : Nat) : Except Exn Str :=
  match m.args[n]? with
  | some s => .ok s
  | none => .error .assertFailed

def formatArg (s : Str) : Str :=
  ' ' :: (if hasSpace s || s.head? == some ':' then ':' :: s else s)

def format (m : Message) : Str :=
  (if m.sender.isSet then ':' :: (m.sender.getLongName ++ [' ']) else []) ++ m.cmd ++
    (if m.receiver.isSet then ' ' :: m.receiver.getName else []) ++
    m.args.flatMap formatArg ++ ['\r', '\n']

def parseLoop : Nat → Str → Message → Except Exn Message
  | 0, _, m => .ok m
  | fuel + 1, line, m =>
    let s := (stringtok line [' ']).1
    let line := (stringtok line [' ']).2
    if s.isEmpty then .ok m
    else if m.cmd.isEmpty then parseLoop fuel line { m with cmd := strupper s }
    else if s.head? = some ':' then
      m.addArg (s.tail ++ if line.isEmpty then [] else ' ' :: line)
    else do parseLoop fuel line (← m.addArg s)

def parse (line : Str) : Except Exn Message := parseLoop (line.length + 1) line {}

/-- Only the last argument has spaces. -/
def Middle (l : List Str) : Prop := ∀ a ∈ l.dropLast, hasSpace a = false

instance (l : List Str) : Decidable (Middle l) := by unfold Middle; infer_instance

variable {m m' : Message} {s a b : Str} {l : List Str} {fuel : Nat}

@[simp] theorem middle_nil : Middle [] := by simp [Middle]

@[simp] theorem middle_singleton : Middle [a] := by simp [Middle]

@[simp] theorem middle_cons_cons :
    Middle (a :: b :: l) ↔ hasSpace a = false ∧ Middle (b :: l) := by
  simp [Middle]

theorem middle_append_singleton : Middle (l ++ [s]) ↔ ∀ a ∈ l, hasSpace a = false := by
  simp [Middle]

theorem middle_last (h : Middle l) (hl : l.getLast?.any hasSpace = false) :
    ∀ a ∈ l, hasSpace a = false := by
  rcases List.eq_nil_or_concat l with rfl | ⟨i, b, rfl⟩
  · simp
  · rw [List.concat_eq_append] at *
    intro a ha
    rcases List.mem_append.mp ha with ha | ha
    · exact middle_append_singleton.mp h a ha
    · simpa [List.mem_singleton.mp ha] using hl

theorem addArg_eq (hm : Middle m.args) :
    m.addArg s = if Middle (m.args ++ [s]) then .ok { m with args := m.args ++ [s] }
      else .error .malformedMessage := by
  cases hl : m.args.getLast?.any hasSpace with
  | false => simp [addArg, hl, middle_append_singleton.mpr (middle_last hm hl)]
  | true =>
    have hbad : ¬ Middle (m.args ++ [s]) := by
      rw [middle_append_singleton]
      intro h
      cases hb : m.args.getLast? with
      | none => simp [hb] at hl
      | some b => simp [hb, h b (List.mem_of_getLast? hb)] at hl
    simp [addArg, hl, hbad]

theorem not_middle_append (h : ¬ Middle (l ++ [a])) (r : List Str) :
    ¬ Middle (l ++ [a] ++ b :: r) := by
  intro hm
  apply h
  rw [middle_append_singleton]
  intro c hc
  apply hm
  rw [List.dropLast_append_of_ne_nil (by simp)]
  simp [hc]

/-- A chain of `addArg` throws exactly when a spaced argument is followed by another. -/
theorem addArgs_eq (hm : Middle m.args) :
    m.addArgs l = if Middle (m.args ++ l) then .ok { m with args := m.args ++ l }
      else .error .malformedMessage := by
  induction l generalizing m with
  | nil => simp [addArgs, hm]
  | cons s l ih =>
    rw [addArgs, addArg_eq hm]
    by_cases hs : Middle (m.args ++ [s])
    · rw [if_pos hs]
      simpa [bind, Except.bind] using ih (m := { m with args := m.args ++ [s] }) hs
    · rw [if_neg hs]
      have : ¬ Middle (m.args ++ s :: l) := by
        cases l with
        | nil => exact hs
        | cons b r => simpa using not_middle_append hs r
      simp [this, bind, Except.bind]

theorem stringtok_no_space {line : Str} : hasSpace (stringtok line [' ']).1 = false := by
  simp only [hasSpace, stringtok, List.contains_eq_mem, decide_eq_false_iff_not]
  intro h
  simpa using List.mem_takeWhile_imp h

theorem parseLoop_ok {line : Str} (h : ∀ a ∈ m.args, hasSpace a = false) :
    ∃ m', parseLoop fuel line m = .ok m' ∧ Middle m'.args := by
  induction fuel generalizing line m with
  | zero => exact ⟨m, rfl, fun a ha => h a (List.dropLast_subset _ ha)⟩
  | succ fuel ih =>
    have hm : Middle m.args := fun a ha => h a (List.dropLast_subset _ ha)
    have hadd := fun s => if_pos (middle_append_singleton (s := s) |>.mpr h) ▸ addArg_eq (s := s) hm
    simp only [parseLoop]
    split
    · exact ⟨m, rfl, hm⟩
    split
    · exact ih h
    split
    · exact ⟨_, hadd _, middle_append_singleton.mpr h⟩
    · rw [hadd]
      apply ih
      intro a ha
      rcases List.mem_append.mp ha with ha | ha
      · exact h a ha
      · exact List.mem_singleton.mp ha ▸ stringtok_no_space

/-- A received line always parses, and only its last argument can have spaces. -/
theorem parse_ok (line : Str) : ∃ m, parse line = .ok m ∧ Middle m.args :=
  parseLoop_ok (by simp)

theorem addArg_args (h : m.addArg s = .ok m') : m'.args = m.args ++ [s] := by
  unfold addArg at h
  split at h
  · cases h
  · exact Except.ok.inj h ▸ rfl

/-- The parser makes no characters but spaces. -/
theorem parseLoop_chars {p : Char → Prop} {line : Str} (hsp : p ' ') (hl : ∀ c ∈ line, p c)
    (hm : ∀ a ∈ m.args, ∀ c ∈ a, p c) (h : parseLoop fuel line m = .ok m') :
    ∀ a ∈ m'.args, ∀ c ∈ a, p c := by
  induction fuel generalizing line m with
  | zero => exact Except.ok.inj h ▸ hm
  | succ fuel ih =>
    have htok : ∀ c ∈ (stringtok line [' ']).1, p c := fun c hc =>
      hl c (List.dropWhile_subset _ (List.takeWhile_subset _ hc))
    have hrest : ∀ c ∈ (stringtok line [' ']).2, p c := fun c hc =>
      hl c (List.dropWhile_subset _ (List.dropWhile_subset _ (List.mem_of_mem_tail hc)))
    have hadd : ∀ {s m₁}, m.addArg s = .ok m₁ → (∀ c ∈ s, p c) → ∀ a ∈ m₁.args, ∀ c ∈ a, p c := by
      intro s m₁ hs hc a ha
      rw [addArg_args hs] at ha
      rcases List.mem_append.mp ha with ha | ha
      · exact hm a ha
      · exact List.mem_singleton.mp ha ▸ hc
    simp only [parseLoop] at h
    split at h
    · exact Except.ok.inj h ▸ hm
    split at h
    · exact ih hrest (by exact hm) h
    split at h
    · refine hadd h fun c hc => ?_
      rcases List.mem_append.mp hc with hc | hc
      · exact htok c (List.mem_of_mem_tail hc)
      · split at hc
        · cases hc
        · rcases List.mem_cons.mp hc with rfl | hc
          · exact hsp
          · exact hrest c hc
    · cases hs : m.addArg (stringtok line [' ']).1 with
      | error e =>
        rw [hs] at h
        cases h
      | ok m₁ =>
        rw [hs] at h
        exact ih hrest (hadd hs htok) h

theorem parse_chars {p : Char → Prop} {line : Str} (hsp : p ' ') (hl : ∀ c ∈ line, p c)
    (h : parse line = .ok m) : ∀ a ∈ m.args, ∀ c ∈ a, p c :=
  parseLoop_chars hsp hl (by simp) h

theorem toUpper_space {c : Char} (h : c.toUpper = ' ') : c = ' ' := by
  unfold Char.toUpper at h
  split at h
  · next hc =>
    have hv := congrArg Char.toNat h
    simp only [Char.toNat] at hv
    have h1 := hc.1
    have h2 := hc.2
    simp only [UInt32.le_iff_toNat_le] at h1 h2
    simp [UInt32.toNat_add] at hv h1 h2
    omega
  · exact h

theorem hasSpace_strupper (h : hasSpace s = false) : hasSpace (strupper s) = false := by
  simp only [hasSpace, strupper, List.contains_eq_mem, decide_eq_false_iff_not, List.mem_map,
    not_exists, not_and] at h ⊢
  intro c hc hu
  exact h (toUpper_space hu ▸ hc)

/-- A command is one word. -/
theorem parseLoop_cmd {line : Str} (hm : hasSpace m.cmd = false)
    (h : parseLoop fuel line m = .ok m') : hasSpace m'.cmd = false := by
  induction fuel generalizing line m with
  | zero => exact Except.ok.inj h ▸ hm
  | succ fuel ih =>
    have hadd : ∀ {s m₁}, m.addArg s = .ok m₁ → hasSpace m₁.cmd = false := by
      intro s m₁ hs
      unfold addArg at hs
      split at hs
      · cases hs
      · exact Except.ok.inj hs ▸ hm
    simp only [parseLoop] at h
    split at h
    · exact Except.ok.inj h ▸ hm
    split at h
    · refine ih ?_ h
      exact hasSpace_strupper stringtok_no_space
    split at h
    · exact hadd h
    · cases hs : m.addArg (stringtok line [' ']).1 with
      | error e =>
        rw [hs] at h
        cases h
      | ok m₁ =>
        rw [hs] at h
        exact ih (hadd hs) h

theorem parse_cmd {line : Str} (h : parse line = .ok m) : hasSpace m.cmd = false :=
  parseLoop_cmd rfl h

end Message
end Minbif
