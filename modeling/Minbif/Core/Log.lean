import Mathlib.Data.List.Basic
import Minbif.Core.Util

/-! The flags of the log, and how the log level is written. -/
namespace Minbif

/-- An entry of `all_flags`, of the flag `1 << bit`. -/
structure LogFlag where
  bit : Nat
  s : Str
  sysLog : Bool
  propagateToUser : Bool
deriving DecidableEq, Repr

def allFlags : List LogFlag :=
  [⟨7, [], false, true⟩, ⟨0, str "DEBUG", false, true⟩, ⟨1, str "PARSE", false, true⟩,
    ⟨2, str "PURPLE", false, true⟩, ⟨3, str "DESYNCH", false, true⟩, ⟨4, str "WARNING", false, true⟩,
    ⟨5, str "ERR", true, true⟩, ⟨6, str "INFO", false, true⟩, ⟨8, str "SOCK", false, false⟩]

/-- `logged_flags & flag`, which is a `uint32_t`. -/
def LogFlag.on (e : LogFlag) (flags : BitVec 32) : Bool := flags.getLsbD e.bit

namespace Log

/-- One turn of the loop of `formatLoggedFlags`. -/
def formatFlag (flags : BitVec 32) (s : Str) (e : LogFlag) : Str :=
  if e.on flags then (if s.isEmpty then [] else s ++ [' ']) ++ e.s else s

def formatLoggedFlags (flags : BitVec 32) : Str := allFlags.reverse.foldl (formatFlag flags) []

/-- One word of `setLoggedFlags`; what is unknown is passed over. -/
def setFlag (flags : BitVec 32) (token : Str) : BitVec 32 :=
  match allFlags.reverse.find? (·.s = token) with
  | some e => flags ||| BitVec.twoPow 32 e.bit
  | none => flags

/-- The words of a level up to `ALL`, which stands for every bit there is. -/
def setTokens (flags : BitVec 32) : List Str → BitVec 32
  | [] => flags
  | token :: l => if token = str "ALL" then BitVec.allOnes 32 else setTokens (setFlag flags token) l

def setLoggedFlags (s : Str) : BitVec 32 := setTokens 0 (stringtokLoop [' '] (s.length + 1) s)

/-- The flags that have a name. -/
def named : List LogFlag := allFlags.filter (!·.s.isEmpty)

/-- All but `W_SNO`, and what has no flag. -/
def namedMask : BitVec 32 := 0x17f#32

variable {flags : BitVec 32} {e : LogFlag} {l : List LogFlag} {s : Str} {i : Nat}

/-- The words of a level, one for each flag with a name. -/
def words (flags : BitVec 32) (l : List LogFlag) : List Str :=
  ((l.filter (LogFlag.on · flags)).map LogFlag.s).filter (!·.isEmpty)

theorem words_cons (flags : BitVec 32) (e : LogFlag) (l : List LogFlag) :
    words flags (e :: l) = (if e.on flags ∧ e.s ≠ [] then [e.s] else []) ++ words flags l := by
  unfold words
  cases ho : e.on flags <;> cases hs : e.s <;> simp [ho, hs]

/-- By induction on the table: the words before are those of the text so far. -/
theorem foldl_words (l : List LogFlag) (s : Str) (hl : ∀ e ∈ l, ' ' ∉ e.s) :
    Tokens.tokens ([' '] : Str).contains (l.foldl (formatFlag flags) s) =
      Tokens.tokens ([' '] : Str).contains s ++ words flags l := by
  induction l generalizing s with
  | nil => simp [words]
  | cons e l ih =>
    rw [List.foldl_cons, ih _ fun e he => hl e (List.mem_cons_of_mem _ he), words_cons,
      ← List.append_assoc]
    congr 1
    have hfree : ∀ c ∈ e.s, ([' '] : Str).contains c = false := by
      intro c hc
      have hne : c ≠ ' ' := fun h => hl e List.mem_cons_self (h ▸ hc)
      simpa using hne
    have hword : Tokens.tokens ([' '] : Str).contains e.s = if e.s = [] then [] else [e.s] := by
      split
      · next h => rw [h, Tokens.tokens_nil]
      · next h => exact Tokens.tokens_run hfree h
    unfold formatFlag
    cases ho : e.on flags with
    | false => simp
    | true =>
      cases s with
      | nil =>
        rw [if_pos rfl, List.isEmpty_nil, if_pos rfl, List.nil_append, hword, Tokens.tokens_nil]
        by_cases h : e.s = [] <;> simp [h]
      | cons c s =>
        rw [if_pos rfl, if_neg (by simp), List.append_assoc, List.singleton_append,
          Tokens.tokens_append_cons (by simp), hword]
        by_cases h : e.s = [] <;> simp [h]

/-- What the words of some flags of the table set. -/
theorem setTokens_words (hl : ∀ e ∈ l, e ∈ allFlags) (acc : BitVec 32) (hi : i < 32) :
    (setTokens acc (words flags l)).getLsbD i =
      (acc.getLsbD i || l.any fun e => decide (e.bit = i) && e.on flags && !e.s.isEmpty) := by
  have hfind : ∀ e ∈ allFlags, e.s ≠ [] → e.s ≠ str "ALL" ∧
      allFlags.reverse.find? (fun x => x.s = e.s) = some e := by
    decide +kernel
  induction l generalizing acc with
  | nil => simp [words, setTokens]
  | cons e l ih =>
    have hrest := ih fun e he => hl e (List.mem_cons_of_mem _ he)
    rw [words_cons]
    by_cases h : e.on flags = true ∧ e.s ≠ []
    · obtain ⟨hno, hfound⟩ := hfind e (hl e List.mem_cons_self) h.2
      rw [if_pos h, List.singleton_append, setTokens, if_neg hno, hrest, setFlag, hfound,
        List.any_cons, h.1]
      have hne : e.s.isEmpty = false := by simpa using h.2
      simp [hne, hi, Bool.or_assoc, eq_comm]
    · rw [if_neg h, List.nil_append, hrest, List.any_cons]
      rw [not_and_or] at h
      rcases h with h | h
      · simp [Bool.not_eq_true _ ▸ h]
      · have hnil : e.s = [] := by simpa using h
        simp [hnil]

/-- Setting a level as it is written keeps the flags that have a name, and no others. -/
theorem setLoggedFlags_format (flags : BitVec 32) :
    setLoggedFlags (formatLoggedFlags flags) = flags &&& namedMask := by
  have hfree : ∀ e ∈ allFlags.reverse, ' ' ∉ e.s := by decide +kernel
  have htokens := @foldl_words flags allFlags.reverse [] hfree
  rw [Tokens.tokens_nil, List.nil_append] at htokens
  rw [setLoggedFlags, stringtokLoop_eq (by omega), formatLoggedFlags, htokens]
  refine BitVec.eq_of_getLsbD_eq fun i hi => ?_
  have hmask : ∀ i < 32, (allFlags.reverse.any fun e => decide (e.bit = i) && !e.s.isEmpty) =
      namedMask.getLsbD i := by
    decide +kernel
  have hflag : ∀ e : LogFlag, (decide (e.bit = i) && e.on flags && !e.s.isEmpty) =
      (flags.getLsbD i && (decide (e.bit = i) && !e.s.isEmpty)) := by
    intro e
    by_cases h : e.bit = i
    · simp [h, LogFlag.on]
    · simp [h]
  have hany : (allFlags.reverse.any fun e => decide (e.bit = i) && e.on flags && !e.s.isEmpty) =
      (flags.getLsbD i && allFlags.reverse.any fun e => decide (e.bit = i) && !e.s.isEmpty) := by
    simp only [hflag]
    cases flags.getLsbD i <;> simp
  rw [setTokens_words (fun e he => List.mem_reverse.mp he) 0 hi, hany, hmask i hi, BitVec.getLsbD_and]
  simp

/-- The words before the one of `W_SNO`, which is empty. -/
def body (flags : BitVec 32) : Str := allFlags.tail.reverse.foldl (formatFlag flags) []

theorem formatLoggedFlags_body (flags : BitVec 32) : formatLoggedFlags flags =
    if flags.getLsbD 7 then (if (body flags).isEmpty then [] else body flags ++ [' ']) else body flags := by
  have hlast : allFlags.reverse = allFlags.tail.reverse ++ [⟨7, [], false, true⟩] := rfl
  rw [formatLoggedFlags, hlast, List.foldl_append]
  simp [formatFlag, LogFlag.on, body]

theorem body_mask (flags : BitVec 32) : body (flags &&& namedMask) = body flags := by
  have hon : ∀ e ∈ allFlags.tail.reverse, namedMask.getLsbD e.bit = true := by decide +kernel
  unfold body
  generalize ([] : Str) = acc
  revert hon
  generalize allFlags.tail.reverse = l
  intro hon
  induction l generalizing acc with
  | nil => rfl
  | cons e l ih =>
    have he : e.on (flags &&& namedMask) = e.on flags := by
      simp [LogFlag.on, BitVec.getLsbD_and, hon e List.mem_cons_self]
    rw [List.foldl_cons, List.foldl_cons, ih _ fun e he => hon e (List.mem_cons_of_mem _ he)]
    simp [formatFlag, he]

/-- A level is written as that of its named flags unless there is `W_SNO` beside these. -/
theorem format_mask_iff (flags : BitVec 32) :
    formatLoggedFlags (flags &&& namedMask) = formatLoggedFlags flags ↔
      flags.getLsbD 7 = false ∨ flags &&& namedMask = 0 := by
  have hmask : (flags &&& namedMask).getLsbD 7 = false := by
    have hbit : namedMask.getLsbD 7 = false := by decide
    rw [BitVec.getLsbD_and, hbit, Bool.and_false]
  have hshort : formatLoggedFlags (flags &&& namedMask) = body flags := by
    rw [formatLoggedFlags_body, hmask, body_mask]
    rfl
  have hnil : body flags = [] ↔ flags &&& namedMask = 0 := by
    constructor
    · intro h
      have hset := setLoggedFlags_format (flags &&& namedMask)
      rw [hshort, h, BitVec.and_assoc, BitVec.and_self] at hset
      exact hset.symm
    · intro h
      rw [← body_mask, h]
      decide +kernel
  rw [hshort, formatLoggedFlags_body, ← hnil]
  cases flags.getLsbD 7 with
  | false => simp
  | true =>
    cases body flags with
    | nil => simp
    | cons c s => simp

/-- A space at the end does not matter. -/
theorem setLoggedFlags_space (s : Str) : setLoggedFlags (s ++ [' ']) = setLoggedFlags s := by
  rw [setLoggedFlags, setLoggedFlags, stringtokLoop_eq (by omega), stringtokLoop_eq (by omega),
    Tokens.tokens_append_cons (by simp), Tokens.tokens_nil, List.append_nil]

end Log
end Minbif
