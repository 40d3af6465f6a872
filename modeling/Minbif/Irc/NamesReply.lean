import Minbif.Irc.Nickize
import Minbif.Irc.View

/-! The text of a NAMES reply, and what a client reads in it. -/
namespace Minbif
open Tokens

/-- The `names` that `Channel::sendNames` puts together from prefixes and nicknames. -/
def namesText (entries : List (Str × Str)) : Str := entries.flatMap fun e => e.1 ++ e.2 ++ [' ']

/-- The RPL_NAMREPLY of `Channel::sendNames`. -/
def Chans.namesReply (N : Nicks) (C : Chans) (c : ChanRef) (n : NickRef) : Message :=
  { cmd := str "353", sender := N.ircEntity, receiver := N.entity n,
    args := [str "=", C.name c,
      namesText ((C.users c).map fun cu => (getPrefix (C.cuStatus cu), N.nickname (C.cuNick cu)))] }

/-- `PREFIX=(qohv)~@%+`, as `IRC::sendWelcome` advertises it. -/
def advertised : List (Char × Char) := (str "qohv").zip (str "~@%+")

def isPrefixChar (c : Char) : Bool := advertised.any fun e => c == e.2

def advertisedLetter (p : Char) : Option Char := (advertised.find? fun e => e.2 = p).map Prod.fst

/-- The characters that an entry begins with are modes, the others the nickname. -/
def decodeEntry (entry : Str) : Str × Finset Char :=
  (entry.dropWhile isPrefixChar,
    ((entry.takeWhile isPrefixChar).filterMap advertisedLetter).toFinset)

def decodeNames (text : Str) : Roster := (tokens [' '].contains text).map decodeEntry

variable {N : Nicks} {C : Chans} {c : ChanRef} {status : Status} {nick : Str} {x : Char}

theorem advertised_m2c : advertised = m2c.map fun e => e.2 := by decide

/-- What is advertised is what `m2c` says. -/
theorem advertisedLetter_eq : advertisedLetter = letterOf := by
  funext p
  rw [advertisedLetter, letterOf, advertised_m2c, List.find?_map, Option.map_map]
  rfl

theorem isPrefixChar_iff : isPrefixChar x = true ↔ x = '~' ∨ x = '@' ∨ x = '%' ∨ x = '+' := by
  have hlist : advertised = [('q', '~'), ('o', '@'), ('h', '%'), ('v', '+')] := by decide
  simp [isPrefixChar, hlist]

theorem getPrefix_chars (status : Status) : ∀ x ∈ getPrefix status, isPrefixChar x = true := by
  intro x hx
  obtain ⟨e, he, rfl⟩ := List.mem_map.mp hx
  have hall : ∀ e ∈ m2c, isPrefixChar e.2.2 = true := by decide
  exact hall e (List.mem_filter.mp he).1

/-- Of the prefixes only `~` can stand in a nickname. -/
theorem prefix_in_nick (h : CString.isValidNickname nick = true) (hx : x ∈ nick)
    (hp : isPrefixChar x = true) : x = '~' := by
  rcases isPrefixChar_iff.mp hp with rfl | rfl | rfl | rfl
  · rfl
  · exact absurd hx (CString.not_mem_valid h (by decide) (by decide))
  · exact absurd hx (CString.not_mem_valid h (by decide) (by decide))
  · exact absurd hx (CString.not_mem_valid h (by decide) (by decide))

theorem decodeEntry_plain (h : CString.isValidNickname nick = true) (hhead : nick.head? ≠ some '~') :
    decodeEntry (getPrefix status ++ nick) = (nick, modeSet status) := by
  have hpre := getPrefix_chars status
  obtain ⟨a, t, rfl⟩ := List.exists_cons_of_ne_nil (CString.isValidNickname_iff.mp h).1.ne_nil
  have ha : ¬ isPrefixChar a = true := by
    intro hp
    rw [prefix_in_nick h List.mem_cons_self hp] at hhead
    exact hhead rfl
  rw [decodeEntry, List.takeWhile_append_of_pos hpre, List.dropWhile_append_of_pos hpre,
    List.takeWhile_cons_of_neg ha, List.dropWhile_cons_of_neg ha, List.append_nil,
    advertisedLetter_eq]
  exact congrArg _ (prefixSet_getPrefix status)

/-- A nickname that begins with `~` is cut. -/
theorem decodeEntry_tilde {t : Str} : decodeEntry (getPrefix status ++ '~' :: t) ≠ ('~' :: t, modeSet status) := by
  intro h
  have hlen := congrArg (fun e => e.1.length) h
  have hcut := (List.dropWhile_suffix (l := t) isPrefixChar).length_le
  dsimp only [decodeEntry] at hlen
  rw [List.dropWhile_append_of_pos (getPrefix_chars status),
    List.dropWhile_cons_of_pos (by decide), List.length_cons] at hlen
  omega

theorem decodeEntry_iff (h : CString.isValidNickname nick = true) :
    decodeEntry (getPrefix status ++ nick) = (nick, modeSet status) ↔ nick.head? ≠ some '~' := by
  refine ⟨fun heq hhead => ?_, decodeEntry_plain h⟩
  obtain ⟨t, rfl⟩ := List.head?_eq_some_iff.mp hhead
  exact decodeEntry_tilde heq

/-- The entries are split where they were put together. -/
theorem tokens_namesText {entries : List (Str × Str)}
    (h : ∀ e ∈ entries, e.1 ++ e.2 ≠ [] ∧ ' ' ∉ e.1 ++ e.2) :
    tokens [' '].contains (namesText entries) = entries.map fun e => e.1 ++ e.2 := by
  induction entries with
  | nil => rfl
  | cons e entries ih =>
    rw [List.forall_mem_cons] at h
    have hfree : ∀ x ∈ e.1 ++ e.2, [' '].contains x = false := by
      intro x hx
      have hne : x ≠ ' ' := fun hspace => h.1.2 (hspace ▸ hx)
      simpa using hne
    have htext : namesText (e :: entries) = e.1 ++ e.2 ++ ' ' :: namesText entries := by
      simp [namesText]
    rw [htext, tokens_run_cons hfree h.1.1 rfl, ih h.2, List.map_cons]

theorem entry_word (h : CString.isValidNickname nick = true) :
    getPrefix status ++ nick ≠ [] ∧ ' ' ∉ getPrefix status ++ nick := by
  refine ⟨?_, fun hmem => ?_⟩
  · exact List.append_ne_nil_of_right_ne_nil _ (CString.isValidNickname_iff.mp h).1.ne_nil
  · rcases List.mem_append.mp hmem with hp | hn
    · exact absurd (getPrefix_chars status ' ' hp) (by decide)
    · exact CString.not_mem_valid h (by decide) (by decide) hn

/-- A client reads the channel as it is exactly if no nickname on it begins with `~`. -/
theorem names_decoded_iff (N : Nicks) (C : Chans) (c : ChanRef) (n : NickRef)
    (h : ∀ cu ∈ C.users c, CString.isValidNickname (N.nickname (C.cuNick cu)) = true) :
    decodeNames ((C.namesReply N c n).args.getD 2 []) = C.picture N c ↔
      ∀ cu ∈ C.users c, (N.nickname (C.cuNick cu)).head? ≠ some '~' := by
  have htokens : tokens [' '].contains ((C.namesReply N c n).args.getD 2 []) =
      (C.users c).map fun cu => getPrefix (C.cuStatus cu) ++ N.nickname (C.cuNick cu) := by
    change tokens [' '].contains (namesText _) = _
    rw [tokens_namesText, List.map_map]
    · rfl
    · intro e he
      obtain ⟨cu, hcu, rfl⟩ := List.mem_map.mp he
      exact entry_word (h cu hcu)
  rw [decodeNames, htokens, Chans.picture, List.map_map, List.map_inj_left]
  exact forall₂_congr fun cu hcu => decodeEntry_iff (h cu hcu)

/-- Two members, one of them an operator with a voice. -/
def twoMembers (first second : Str) : Nicks × Chans :=
  ({ nickname := fun n => if n = 1 then first else second },
    { users := fun _ => [0, 1], cuNick := fun cu => cu + 1
      cuStatus := fun cu => if cu = 0 then statusOp ||| statusVoice else 0 })

theorem names_decoded_plain : decodeNames
      (((twoMembers (str "alice") (str "bob")).2.namesReply
        (twoMembers (str "alice") (str "bob")).1 0 1).args.getD 2 []) =
    [(str "alice", {'o', 'v'}), (str "bob", ∅)] := by
  refine ((names_decoded_iff _ _ 0 1 ?_).mpr ?_).trans (by decide)
  · decide
  · decide

/-- bob takes the nickname `~bob`, and is read as the founder bob. -/
theorem names_not_decoded :
    (∀ cu ∈ (twoMembers (str "alice") (str "~bob")).2.users 0, CString.isValidNickname
      ((twoMembers (str "alice") (str "~bob")).1.nickname
        ((twoMembers (str "alice") (str "~bob")).2.cuNick cu)) = true) ∧
    decodeNames (((twoMembers (str "alice") (str "~bob")).2.namesReply
        (twoMembers (str "alice") (str "~bob")).1 0 1).args.getD 2 []) =
      [(str "alice", {'o', 'v'}), (str "bob", {'q'})] ∧
    (twoMembers (str "alice") (str "~bob")).2.picture (twoMembers (str "alice") (str "~bob")).1 0 =
      [(str "alice", {'o', 'v'}), (str "~bob", ∅)] := by
  refine ⟨?_, ?_, ?_⟩ <;> decide

end Minbif
