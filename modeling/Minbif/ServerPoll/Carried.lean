import Minbif.ServerPoll.OneSession

/-! Messages that keep their meaning on every hop between the master and its children. -/
namespace Minbif
open Message

/-- What is read of a message at the other end. -/
def back (m : Message) : Message := { m with args := readBack m.args }

/-- A message that a peek can hold, and that has the arguments of its handler when it is read. -/
inductive Carried : IpcCmd → Message → Prop
  | rehash : Carried .rehash { cmd := IpcCmd.rehash.name }
  | word {f nick} (hf : f.minArgs = 1) (hnick : Word nick)
    (hlen : (Message.format { cmd := f.name, args := [nick] }).length ≤ IpcSocket.peekMax) :
    Carried f { cmd := f.name, args := [nick] }
  | pair {f nick text} (hf : f.minArgs = 2) (hnick : Word nick) (htext : lastBack text ≠ [])
    (hlen : (Message.format { cmd := f.name, args := [nick, text] }).length ≤ IpcSocket.peekMax) :
    Carried f { cmd := f.name, args := [nick, text] }

variable {f : IpcCmd} {m : Message} {a nick text : Str}

theorem lastBack_idem (a : Str) : lastBack (lastBack a) = lastBack a := by
  by_cases h : lastBack a = a
  · rw [h, h]
  · have hspace : ∃ w, ' ' ∉ w ∧ a = w ++ [' '] := by
      by_contra hno
      exact h (lastBack_eq_iff.mpr hno)
    obtain ⟨w, hw, rfl⟩ := hspace
    rw [lastBack_space hw, lastBack_word hw]

theorem formatArg_length_le (a : Str) : (formatArg a).length ≤ a.length + 2 := by
  unfold formatArg
  split <;> simp

/-- An argument does not get longer on its way. -/
theorem formatArg_lastBack (a : Str) : (formatArg (lastBack a)).length ≤ (formatArg a).length := by
  by_cases h : lastBack a = a
  · rw [h]
  · have hspace : ∃ w, ' ' ∉ w ∧ a = w ++ [' '] := by
      by_contra hno
      exact h (lastBack_eq_iff.mpr hno)
    obtain ⟨w, hw, rfl⟩ := hspace
    have hle := formatArg_length_le w
    have hcolon : formatArg (w ++ [' ']) = ' ' :: ':' :: (w ++ [' ']) :=
      formatArg_colon (.inl (by simp only [hasSpace, List.contains_eq_mem]; simp))
    have hlen : (formatArg (w ++ [' '])).length = w.length + 3 := by
      rw [hcolon]
      simp
    rw [lastBack_space hw, hlen]
    omega

theorem format_length (f : IpcCmd) (l : List Str) :
    (Message.format { cmd := f.name, args := l }).length =
      f.name.length + (l.flatMap formatArg).length + 2 := by
  simp [Message.format, StoredEntity.isSet, Nat.add_assoc]

theorem Carried.short (h : Carried f m) : m.format.length ≤ IpcSocket.peekMax := by
  cases h with
  | rehash => decide
  | word _ _ hlen => exact hlen
  | pair _ _ _ hlen => exact hlen

/-- It reaches its handler, on this hop and on the next ones. -/
theorem Carried.dispatch (h : Carried f m) :
    ipcDispatch (IpcSocket.line m) = .ok (.handled f (back m)) ∧ Carried f (back m) ∧
      back (back m) = back m := by
  cases h with
  | rehash =>
    rw [ipcDispatch_line .rehash middle_nil]
    exact ⟨rfl, .rehash, rfl⟩
  | @word f nick hf hnick hlen =>
    have hback : back { cmd := f.name, args := [nick] } = { cmd := f.name, args := [nick] } := by
      simp only [back, readBack_word hnick]
    rw [ipcDispatch_line f middle_singleton, hback, readBack_word hnick, hf]
    exact ⟨rfl, .word hf hnick hlen, hback⟩
  | @pair f nick text hf hnick htext hlen =>
    have hmid : Middle [nick, text] := by
      simp [hasSpace_false, hnick.noSpace]
    have hne : text ≠ [] := by
      rintro rfl
      exact htext rfl
    have hback : back { cmd := f.name, args := [nick, text] } =
        { cmd := f.name, args := [nick, lastBack text] } := by
      simp only [back, readBack_pair hnick hne]
    have hagain : back { cmd := f.name, args := [nick, lastBack text] } =
        { cmd := f.name, args := [nick, lastBack text] } := by
      simp only [back, readBack_pair hnick htext, lastBack_idem]
    rw [ipcDispatch_line f hmid, hback, readBack_pair hnick hne, hf]
    refine ⟨rfl, .pair hf hnick (by rwa [lastBack_idem]) ?_, hagain⟩
    have hle := formatArg_lastBack text
    rw [format_length] at hlen ⊢
    simp only [List.flatMap_cons, List.flatMap_nil, List.length_append, List.length_nil] at hlen ⊢
    omega

/-- A nickname with a command. -/
theorem carried_word (hf : f.minArgs = 1) (h : isValidNickname nick = true) :
    Carried f { cmd := f.name, args := [nick] } := by
  obtain ⟨hword, hlen⟩ := valid_word h
  refine .word hf hword ?_
  have harg := formatArg_length_le nick
  have hname : f.name.length ≤ 7 := by cases f <;> decide
  rw [format_length]
  simp only [List.flatMap_cons, List.flatMap_nil, List.length_append, List.length_nil]
  simp only [nickMaxLength, IpcSocket.peekMax] at hlen ⊢
  omega

/-- What the master sends to those it closes. -/
theorem carried_dieMessage (h : isValidNickname nick = true) :
    Carried .die (DaemonFork.dieMessage nick) := by
  obtain ⟨hword, hlen⟩ := valid_word h
  refine .pair (f := .die) rfl hword (by decide) ?_
  have harg := formatArg_length_le nick
  have htext : (formatArg (str "You are logged from another location.")).length = 39 := by decide
  rw [format_length]
  simp only [List.flatMap_cons, List.flatMap_nil, List.length_append, List.length_nil, htext]
  have hname : IpcCmd.die.name.length = 3 := rfl
  simp only [nickMaxLength, IpcSocket.peekMax] at hlen ⊢
  omega

end Minbif
