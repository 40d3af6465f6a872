import Mathlib.Data.Finset.Basic
import Mathlib.Data.Finset.Lattice.Lemmas
import Minbif.Irc.Sending

/-! The channels as a client pictures them from the messages it is sent. -/
namespace Minbif
open Function

/-- The nicknames on a channel, each with its mode letters. -/
abbrev Roster := List (Str × Finset Char)

/-- The rosters of the channels a client is on, by their names. -/
abbrev View := Str → Option Roster

def modeSet (status : Status) : Finset Char := (modeLetters status).toFinset

/-- The mode letter that a prefix of a NAMES reply stands for. -/
def letterOf (p : Char) : Option Char := (m2c.find? fun e => e.2.2 = p).map fun e => e.2.1

/-- What `ChanUser::m2c` makes of a prefix of a nickname. -/
def prefixSet (p : Str) : Finset Char := (p.filterMap letterOf).toFinset

namespace Roster

def without (nick : Str) (r : Roster) : Roster := r.filter fun e => e.1 ≠ nick

def renamed (old new : Str) (r : Roster) : Roster :=
  r.map fun e => (if e.1 = old then new else e.1, e.2)

/-- One mode letter of a MODE message and the nickname it is for. -/
def moded (add : Bool) (r : Roster) (x : Char × Str) : Roster :=
  r.map fun e =>
    (e.1, if e.1 = x.2 then (if add then Insert.insert x.1 e.2 else e.2.erase x.1) else e.2)

/-- `+` or `-`, the letters, and then the nicknames. -/
def modes (args : List Str) (r : Roster) : Roster :=
  match args with
  | (sign :: letters) :: nicks => (letters.zip nicks).foldl (moded (sign = '+')) r
  | _ => r

end Roster

/-- The messages a client rebuilds its channels from, besides NAMES. -/
def viewCmds : List Str :=
  [str "JOIN", str "PART", str "KICK", str "QUIT", str "NICK", str "MODE"]

def Sent.Quiet : Sent → Prop
  | .msg m => m.cmd ∉ viewCmds
  | .names _ _ => False

namespace View

def alter (W : View) (chan : Str) (f : Roster → Roster) : View := update W chan ((W chan).map f)

/-- A nick leaves a channel; the client itself drops the channel then. -/
def gone (W : View) (me chan nick : Str) : View :=
  if nick = me then update W chan none else W.alter chan (Roster.without nick)

/-- A client with the nickname `me` gets a message. -/
def see (me : Str) (W : View) : Sent → View
  | .names chan entries => W.alter chan fun _ => entries.map fun e => (e.2, prefixSet e.1)
  | .msg m =>
    let chan := m.receiver.getName
    let nick := m.sender.getName
    if m.cmd = str "JOIN" then
      if nick = me then update W chan (some []) else W.alter chan fun r => r ++ [(nick, ∅)]
    else if m.cmd = str "PART" then W.gone me chan nick
    else if m.cmd = str "KICK" then W.gone me chan (m.args.headD [])
    else if m.cmd = str "QUIT" then fun s => (W s).map (Roster.without nick)
    else if m.cmd = str "NICK" then fun s => (W s).map (Roster.renamed nick (m.args.headD []))
    else if m.cmd = str "MODE" then W.alter chan (Roster.modes m.args)
    else W

def replay (me : Str) (sent : List Sent) : View := sent.foldl (see me) fun _ => none

end View

/-- The roster that the server has. -/
def Chans.picture (N : Nicks) (C : Chans) (c : ChanRef) : Roster :=
  (C.users c).map fun cu => (N.nickname (C.cuNick cu), modeSet (C.cuStatus cu))

namespace Chans

variable {N N' : Nicks} {C C' : Chans} {c c' : ChanRef} {cu : ChanUserRef} {n : NickRef}
  {S : ChanUserRef → Bool} {nick : Str}

theorem Unlinked.mem_members (h : Unlinked C C' S) (c : ChanRef) (n : NickRef) :
    n ∈ C'.members c ↔ ∃ cu ∈ C.users c, C.cuNick cu = n ∧ S cu = false := by
  rw [Chans.mem_members, h.users, h.cuNick]
  constructor
  · rintro ⟨cu, hcu, he⟩
    obtain ⟨hcu, hS⟩ := List.mem_filter.mp hcu
    exact ⟨cu, hcu, he, by simpa using hS⟩
  · rintro ⟨cu, hcu, he, hS⟩
    exact ⟨cu, List.mem_filter.mpr ⟨hcu, by simpa using hS⟩, he⟩

/-- The members of `S` on the channel are those of that name. -/
theorem Unlinked.picture (h : Unlinked C C' S)
    (hS : ∀ cu ∈ C.users c, S cu = true ↔ N.nickname (C.cuNick cu) = nick) :
    C'.picture N c = Roster.without nick (C.picture N c) := by
  unfold Chans.picture Roster.without
  rw [h.users, h.cuNick, h.cuStatus, List.filter_map]
  congr 1
  apply List.filter_congr
  intro cu hcu
  have hiff := hS cu hcu
  cases hs : S cu <;> simp_all

theorem Unlinked.picture_eq (h : Unlinked C C' S) (hS : ∀ cu ∈ C.users c, S cu = false) :
    C'.picture N c = C.picture N c := by
  unfold Chans.picture
  rw [h.users, h.cuNick, h.cuStatus]
  congr 1
  apply List.filter_eq_self.mpr
  intro cu hcu
  rw [hS cu hcu]
  rfl

end Chans

section Modes

variable {s t : Status} {x : Char}

theorem mem_modeSet : x ∈ modeSet s ↔ ∃ e ∈ m2c, e.1 &&& s ≠ 0 ∧ e.2.1 = x := by
  simp [modeSet, modeLetters, modesOf, and_assoc]

@[simp] theorem modeSet_zero : modeSet 0 = ∅ := by decide

/-- A mode of `m2c` is a single bit. -/
theorem m2c_bit : ∀ e ∈ m2c, ∃ i, e.1 = BitVec.twoPow 32 i ∧ i < 32 := by
  intro e he
  simp only [m2c, List.mem_cons, List.not_mem_nil, or_false] at he
  rcases he with rfl | rfl | rfl | rfl
  · exact ⟨3, by decide, by decide⟩
  · exact ⟨2, by decide, by decide⟩
  · exact ⟨1, by decide, by decide⟩
  · exact ⟨0, by decide, by decide⟩

theorem twoPow_and_ne_zero {i : Nat} (hi : i < 32) :
    BitVec.twoPow 32 i &&& s ≠ 0 ↔ s.getLsbD i = true := by
  rw [BitVec.twoPow_and]
  cases h : s.getLsbD i with
  | false => simp
  | true =>
    simp only [if_true, ne_eq, iff_true]
    intro h0
    have hbit := congrArg (fun b : BitVec 32 => b.getLsbD i) h0
    simp [hi] at hbit

theorem modeSet_or : modeSet (s ||| t) = modeSet s ∪ modeSet t := by
  ext x
  simp only [Finset.mem_union, mem_modeSet, ← exists_or, ← and_or_left, ← or_and_right]
  refine exists_congr fun e => and_congr_right fun he => and_congr_left fun _ => ?_
  obtain ⟨i, hi, hlt⟩ := m2c_bit e he
  rw [hi, twoPow_and_ne_zero hlt, twoPow_and_ne_zero hlt, twoPow_and_ne_zero hlt]
  simp

theorem m2c_letter : ∀ e ∈ m2c, ∀ f ∈ m2c, e.2.1 = f.2.1 → e = f := by decide

theorem modeSet_diff : modeSet (s &&& ~~~t) = modeSet s \ modeSet t := by
  have hbit : ∀ e ∈ m2c, e.1 &&& (s &&& ~~~t) ≠ 0 ↔ e.1 &&& s ≠ 0 ∧ ¬ e.1 &&& t ≠ 0 := by
    intro e he
    obtain ⟨i, hi, hlt⟩ := m2c_bit e he
    rw [hi, twoPow_and_ne_zero hlt, twoPow_and_ne_zero hlt, twoPow_and_ne_zero hlt]
    simp [hlt]
  ext x
  simp only [Finset.mem_sdiff, mem_modeSet]
  constructor
  · rintro ⟨e, he, hst, rfl⟩
    obtain ⟨hs, ht⟩ := (hbit e he).mp hst
    refine ⟨⟨e, he, hs, rfl⟩, ?_⟩
    rintro ⟨f, hf, hft, heq⟩
    exact ht (m2c_letter f hf e he heq ▸ hft)
  · rintro ⟨⟨e, he, hs, rfl⟩, hnot⟩
    exact ⟨e, he, (hbit e he).mpr ⟨hs, fun ht => hnot ⟨e, he, ht, rfl⟩⟩, rfl⟩

/-- The prefixes of NAMES say the same as the letters of MODE. -/
theorem prefixSet_getPrefix (s : Status) : prefixSet (getPrefix s) = modeSet s := by
  have hletter : ∀ e ∈ m2c, letterOf e.2.2 = some e.2.1 := by decide
  have hmap : (getPrefix s).filterMap letterOf = modeLetters s := by
    rw [getPrefix, modeLetters, List.filterMap_map, ← List.filterMap_eq_map]
    apply List.filterMap_congr
    intro e he
    exact hletter e (List.mem_filter.mp he).1
  rw [prefixSet, hmap, modeSet]

end Modes

namespace Roster

variable {r : Roster} {nick old new : Str} {letters : List Char} {add : Bool}

/-- Letters that are all for one nickname. -/
theorem moded_foldl (add : Bool) (letters : List Char) (nick : Str) (r : Roster) :
    (letters.map fun l => (l, nick)).foldl (moded add) r =
      r.map fun e => (e.1, if e.1 = nick then
        (if add then e.2 ∪ letters.toFinset else e.2 \ letters.toFinset) else e.2) := by
  induction letters generalizing r with
  | nil => cases add <;> simp
  | cons l letters ih =>
    rw [List.map_cons, List.foldl_cons, ih, moded, List.map_map]
    apply List.map_congr_left
    intro e _
    by_cases he : e.1 = nick
    · cases add
      · simp only [comp_apply, he, if_true, Bool.false_eq_true, if_false, List.toFinset_cons,
          Prod.mk.injEq, true_and]
        ext y
        simp only [Finset.mem_sdiff, Finset.mem_erase, Finset.mem_insert]
        tauto
      · simp only [comp_apply, he, if_true, List.toFinset_cons, Prod.mk.injEq, true_and]
        ext y
        simp only [Finset.mem_union, Finset.mem_insert]
        tauto
    · simp [he]

/-- A MODE message that `ChanUser::getModeMessage` made. -/
theorem modes_eq (add : Bool) (modes : Status) (nick : Str) (r : Roster) :
    r.modes (((if add then '+' else '-') :: modeLetters modes) ::
        (modeLetters modes).map fun _ => nick) =
      r.map fun e => (e.1, if e.1 = nick then
        (if add then e.2 ∪ modeSet modes else e.2 \ modeSet modes) else e.2) := by
  have hzip : (modeLetters modes).zip ((modeLetters modes).map fun _ => nick) =
      (modeLetters modes).map fun l => (l, nick) := by
    rw [← List.zip_map', List.map_id']
  have hsign : (((if add then '+' else '-') = '+' : Prop) : Bool) = add := by cases add <;> decide
  rw [Roster.modes, hzip, hsign, moded_foldl]
  rfl

end Roster

namespace View

variable {W : View} {me chan chan' nick : Str} {m : Message} {s : Sent} {l l' : List Sent}
  {f : Roster → Roster}

theorem replay_append (me : Str) (l l' : List Sent) :
    replay me (l ++ l') = l'.foldl (see me) (replay me l) := List.foldl_append

@[simp] theorem alter_self : W.alter chan f chan = (W chan).map f := update_self _ _ _

theorem alter_of_ne (h : chan' ≠ chan) : W.alter chan f chan' = W chan' := update_of_ne h _ _

theorem alter_eq_none {k : Str} (h : W k = none) :
    W.alter chan f k = none := by
  rcases eq_or_ne k chan with rfl | hne
  · rw [alter_self, h]
    rfl
  · rw [alter_of_ne hne, h]

theorem alter_isSome {k : Str} :
    (W.alter chan f k).isSome = (W k).isSome := by
  rcases eq_or_ne k chan with rfl | hne
  · rw [alter_self, Option.isSome_map]
  · rw [alter_of_ne hne]

@[simp] theorem gone_self : W.gone me chan me = update W chan none := if_pos rfl

theorem gone_other (h : nick ≠ me) : W.gone me chan nick = W.alter chan (Roster.without nick) :=
  if_neg h

theorem see_quiet (h : s.Quiet) : see me W s = W := by
  cases s with
  | names chan entries => exact h.elim
  | msg m =>
    simp only [Sent.Quiet, viewCmds, List.mem_cons, List.not_mem_nil, or_false, not_or] at h
    obtain ⟨h₁, h₂, h₃, h₄, h₅, h₆⟩ := h
    simp [see, h₁, h₂, h₃, h₄, h₅, h₆]

theorem foldl_quiet (h : ∀ s ∈ l, s.Quiet) : l.foldl (see me) W = W := by
  induction l with
  | nil => rfl
  | cons s l ih =>
    rw [List.foldl_cons, see_quiet (h s (by simp))]
    exact ih fun s hs => h s (by simp [hs])

theorem see_join (h : m.cmd = str "JOIN") : see me W (.msg m) =
    if m.sender.getName = me then update W m.receiver.getName (some [])
    else W.alter m.receiver.getName fun r => r ++ [(m.sender.getName, ∅)] := by
  simp [see, h]

theorem see_part (h : m.cmd = str "PART") : see me W (.msg m) =
    W.gone me m.receiver.getName m.sender.getName := by
  simp [see, h, show str "PART" ≠ str "JOIN" by decide]

theorem see_kick (h : m.cmd = str "KICK") : see me W (.msg m) =
    W.gone me m.receiver.getName (m.args.headD []) := by
  simp [see, h, show str "KICK" ≠ str "JOIN" by decide, show str "KICK" ≠ str "PART" by decide]

theorem see_quit (h : m.cmd = str "QUIT") : see me W (.msg m) =
    fun s => (W s).map (Roster.without m.sender.getName) := by
  simp [see, h, show str "QUIT" ≠ str "JOIN" by decide, show str "QUIT" ≠ str "PART" by decide,
    show str "QUIT" ≠ str "KICK" by decide]

theorem see_nick (h : m.cmd = str "NICK") : see me W (.msg m) =
    fun s => (W s).map (Roster.renamed m.sender.getName (m.args.headD [])) := by
  simp [see, h, show str "NICK" ≠ str "JOIN" by decide, show str "NICK" ≠ str "PART" by decide,
    show str "NICK" ≠ str "KICK" by decide, show str "NICK" ≠ str "QUIT" by decide]

theorem see_mode (h : m.cmd = str "MODE") : see me W (.msg m) =
    W.alter m.receiver.getName (Roster.modes m.args) := by
  simp [see, h, show str "MODE" ≠ str "JOIN" by decide, show str "MODE" ≠ str "PART" by decide,
    show str "MODE" ≠ str "KICK" by decide, show str "MODE" ≠ str "QUIT" by decide,
    show str "MODE" ≠ str "NICK" by decide]

end View
end Minbif
