import Minbif.Irc.Nick
import Minbif.ServerPoll.IpcRead

/-! The IPC messages, and the handlers that they reach. -/
namespace Minbif
open Message

namespace IpcCmd

/-- `ipc_cmds[i].cmd` -/
def name : IpcCmd → Str
  | .wallops => str "WALLOPS"
  | .rehash => str "REHASH"
  | .die => str "DIE"
  | .oper => str "OPER"
  | .user => str "USER"

/-- `ipc_cmds[i].min_args` -/
def minArgs : IpcCmd → Nat
  | .wallops | .die => 2
  | .rehash => 0
  | .oper | .user => 1

variable {f g : IpcCmd}

theorem find_name (f : IpcCmd) : ipcCmds.find? (f.name == ·.1) = some (f.name, f, f.minArgs) := by
  cases f <;> rfl

theorem name_ne_nil (f : IpcCmd) : f.name ≠ [] := by
  cases f <;> exact List.cons_ne_nil _ _

theorem name_noSpace (f : IpcCmd) : ' ' ∉ f.name := by
  rw [← hasSpace_false]
  cases f <;> rfl

theorem name_upper (f : IpcCmd) : strupper f.name = f.name := by
  cases f <;> rfl

theorem name_inj (h : f.name = g.name) : f = g := by
  have hf := find_name f
  rw [h, find_name g] at hf
  exact (congrArg (fun x => x.2.1) (Option.some.inj hf)).symm

end IpcCmd

/-- What a child writes to the master. -/
inductive FromChild : Message → Prop
  | user {nick} (h : isValidNickname nick = true) :
    FromChild { cmd := IpcCmd.user.name, args := [nick] }
  | oper {nick} (h : isValidNickname nick = true) :
    FromChild { cmd := IpcCmd.oper.name, args := [nick] }
  | wallops {nick} (h : isValidNickname nick = true) (text : Str) :
    FromChild { cmd := IpcCmd.wallops.name, args := [nick, text] }
  | die {nick} (h : isValidNickname nick = true) (text : Str) :
    FromChild { cmd := IpcCmd.die.name, args := [nick, text] }

variable {f : IpcCmd} {l : List Str} {nick text : Str} {m : Message}

/-- A formatted command reaches its own handler, unless arguments got lost on the way. -/
theorem ipcDispatch_line (f : IpcCmd) (hl : Middle l) :
    ipcDispatch (IpcSocket.line { cmd := f.name, args := l }) =
      .ok (if (readBack l).length < f.minArgs then
          .malformed (IpcSocket.line { cmd := f.name, args := l })
        else .handled f { cmd := f.name, args := readBack l }) := by
  have hline : IpcSocket.line { cmd := f.name, args := l } = f.name ++ l.flatMap formatArg := by
    simp [IpcSocket.line, format, StoredEntity.isSet]
  rw [hline, ipcDispatch, parse_line f.name_ne_nil f.name_noSpace f.name_upper hl]
  simp only [bind, Except.bind, f.find_name]
  split <;> rfl

/-- A word that an argument list carries unchanged. -/
structure Word (a : Str) : Prop where
  full : a ≠ []
  noSpace : ' ' ∉ a
  noColon : a.head? ≠ some ':'

theorem isNickChar_word {c : Char} (h : isNickChar c = true) : c ≠ ' ' ∧ c ≠ ':' := by
  constructor
  · rintro rfl
    cases h
  · rintro rfl
    cases h

theorem valid_word (h : isValidNickname nick = true) : Word nick ∧ nick.length ≤ nickMaxLength := by
  simp only [isValidNickname, Bool.and_eq_true, Bool.not_eq_true', Bool.or_eq_false_iff,
    decide_eq_false_iff_not, List.all_eq_true] at h
  obtain ⟨⟨⟨hfull, -⟩, hlen⟩, hall⟩ := h
  refine ⟨⟨by simpa using hfull, fun hs => (isNickChar_word (hall _ hs)).1 rfl, fun hc => ?_⟩,
    Nat.le_of_not_lt hlen⟩
  exact (isNickChar_word (hall ':' (List.mem_of_head? hc))).2 rfl

theorem readBack_word (h : Word nick) : readBack [nick] = [nick] := by
  simp [readBack, h.full, lastBack_word h.noSpace]

theorem readBack_pair (h : Word nick) (ht : text ≠ []) :
    readBack [nick, text] = [nick, lastBack text] := by
  simp [readBack, h.full, h.noColon, ht]

theorem readBack_pair_nil (h : Word nick) : readBack [nick, []] = [nick] := by
  simp [readBack, h.full, h.noColon]

end Minbif
