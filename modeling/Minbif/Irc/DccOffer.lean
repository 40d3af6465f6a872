import Mathlib.Algebra.Group.Int.Defs
import Mathlib.Algebra.Group.Nat.Defs
import Mathlib.Data.List.Destutter
import Minbif.Im.AccountIds
import Minbif.Irc.FileNames

/-! What a DCC SEND offer says, and what is read from it. -/
namespace Minbif
open Tokens

def isspace (c : Char) : Bool := [' ', '\t', '\n', '\x0b', '\x0c', '\r'].contains c

/-- The sign and the digits that `operator>>` reads. -/
def signedDigits (s : Str) : Bool × Nat :=
  match s.dropWhile isspace with
  | '-' :: s => (true, s2t s)
  | '+' :: s => (false, s2t s)
  | s => (false, s2t s)

/-- `s2t` for an unsigned type of `w` bits: a number that is too large gives the largest one, and
a sign is taken modulo. -/
def s2tUnsigned (w : Nat) (s : Str) : Nat :=
  let (negative, n) := signedDigits s
  if n < 2 ^ w then if negative then (2 ^ w - n) % 2 ^ w else n else 2 ^ w - 1

/-- `s2t` for a signed type of `w` bits. -/
def s2tSigned (w : Nat) (s : Str) : Int :=
  let (negative, n) := signedDigits s
  if negative then max (-2 ^ (w - 1)) (-n) else min (2 ^ (w - 1) - 1) n

/-- The fields of `DCCServer` that its offer is made of. -/
structure DccServer where
  type : Str
  filename : Str
  totalSize : Nat
  sender : Option StoredEntity
  receiver : StoredEntity

/-- Every `"` is replaced with a `'`. -/
def escapeQuotes (filename : Str) : Str := filename.map fun c => if c = '"' then '\'' else c

namespace DccServer

/-- What the constructor of `DCCSend` hands on. -/
def dccSend (filename : Str) (totalSize : Nat) (sender : Option StoredEntity)
    (receiver : StoredEntity) : DccServer where
  type := str "SEND"
  filename := filename
  totalSize := totalSize
  sender := sender
  receiver := receiver

/-- The text; the name it holds is not the one that was escaped. -/
def offer (d : DccServer) (addr port : Nat) : Str :=
  str "\x01DCC " ++ d.type ++ str " \"" ++ d.filename ++ str "\" " ++ t2s addr ++ ' ' :: t2s port ++
    (if d.totalSize = 0 then [] else ' ' :: t2s d.totalSize) ++ ['\x01']

/-- What `listen_cb` sends once the address is known. -/
def listenCb (d : DccServer) (addr port : Nat) : Except Exn Message :=
  Message.addArg
    { cmd := str "PRIVMSG"
      sender := .name (d.sender.elim (str "some.one") StoredEntity.getLongName)
      receiver := d.receiver }
    (d.offer addr port)

end DccServer

/-- The outputs of `parseDCCSEND`, as numbers. -/
def DccSend.values (r : DccSend) : Str × Nat × Nat × Int :=
  (r.filename, s2tUnsigned 32 r.addr, s2tUnsigned 16 r.port, s2tSigned 64 r.size)

/-- The words that `parseDCCSEND` hands to `rebuildWithQuotes`. -/
def dccWords (line : Str) : List Str :=
  let line := (line.drop 1).take (line.length - 2)
  stringtokLoop [' '] (line.length + 1) line

namespace Message

/-- `rebuildWithQuotes` looks at no character before the first one of a string: an argument whose
last character is read has one. -/
def LooksInside : Bool → List Str → Prop
  | _, [] => True
  | false, a :: args =>
    if a.head? = some '"' ∧ hasSpace a = false then
      a.tail ≠ [] ∧ LooksInside (!closes a.tail) args
    else LooksInside false args
  | true, a :: args => a ≠ [] ∧ LooksInside (!closes a) args

end Message

/-- The offer is read as what was offered. -/
def DccServer.Decodes (d : DccServer) (addr port : Nat) : Prop :=
  ∃ m text, d.listenCb addr port = .ok m ∧ m.args = [text] ∧
    Message.LooksInside false (dccWords text) ∧
    (parseDCCSEND text).map DccSend.values = some (escapeQuotes d.filename, addr, port, (d.totalSize : Int))

/-- Not two spaces in a row. -/
def SpacedApart (a b : Char) : Prop := ¬ (a = ' ' ∧ b = ' ')

instance : DecidableRel SpacedApart := fun a b => inferInstanceAs (Decidable (¬ (a = ' ' ∧ b = ' ')))

section Numbers

variable {n w : Nat}

theorem t2s_digits (n : Nat) : ∀ c ∈ t2s n, c.isDigit = true := by
  rw [t2s_nat]
  exact fun c hc => Nat.isDigit_of_mem_toDigits (by omega) (by omega) hc

theorem t2s_ne_nil (n : Nat) : t2s n ≠ [] := by
  rw [t2s_nat]
  exact Nat.toDigits_ne_nil

theorem signedDigits_t2s (n : Nat) : signedDigits (t2s n) = (false, n) := by
  have hnum := s2t_t2s n
  have hdigits := t2s_digits n
  obtain ⟨c, s, hs⟩ := List.exists_cons_of_ne_nil (t2s_ne_nil n)
  rw [hs] at hnum hdigits ⊢
  have hc := hdigits c (by simp)
  have hspace : isspace c = false := by
    by_contra hspace
    simp only [isspace, List.contains_cons, List.contains_nil, Bool.or_false, Bool.not_eq_false,
      Bool.or_eq_true, beq_iff_eq] at hspace
    rcases hspace with rfl | rfl | rfl | rfl | rfl | rfl <;> cases hc
  rw [signedDigits, List.dropWhile_cons_of_neg (by simp [hspace])]
  split
  · next heq =>
    obtain ⟨rfl, -⟩ := List.cons.inj heq
    cases hc
  · next heq =>
    obtain ⟨rfl, -⟩ := List.cons.inj heq
    cases hc
  · rw [hnum]

theorem s2tUnsigned_t2s (h : n < 2 ^ w) : s2tUnsigned w (t2s n) = n := by
  simp [s2tUnsigned, signedDigits_t2s, h]

theorem s2tSigned_t2s (h : n < 2 ^ (w - 1)) : s2tSigned w (t2s n) = n := by
  have hint : (n : Int) < 2 ^ (w - 1) := by exact_mod_cast h
  simp only [s2tSigned, signedDigits_t2s, Bool.false_eq_true, if_false]
  omega

end Numbers

section Names

variable {args rest : List Str} {f s u : Str} {c : Char}

theorem closes_concat : Message.closes (s ++ [c]) = (c == '"') := by
  simp [Message.closes]

theorem closes_quote (s : Str) : Message.closes (s ++ ['"']) = true := closes_concat.trans rfl

theorem unquote_quote (s : Str) : Message.unquote (s ++ ['"']) = s := by
  simp [Message.unquote, Message.closes]

theorem rebuildLoop_closing : Message.rebuildLoop (some s) ((u ++ ['"']) :: args) =
    (s ++ ' ' :: u) :: Message.rebuildLoop none args := by
  have hword : s ++ ' ' :: (u ++ ['"']) = s ++ ' ' :: u ++ ['"'] := by simp
  rw [Message.rebuildLoop, if_pos (closes_quote u), hword, unquote_quote]

theorem rebuildLoop_open (hc : c ≠ '"') : Message.rebuildLoop (some s) ((u ++ [c]) :: args) =
    Message.rebuildLoop (some (s ++ ' ' :: (u ++ [c]))) args := by
  rw [Message.rebuildLoop, if_neg (by simp [closes_concat, hc])]

theorem rebuildLoop_opening (hu : ' ' ∉ u) : Message.rebuildLoop none (('"' :: u) :: args) =
    if Message.closes u then Message.unquote u :: Message.rebuildLoop none args
    else Message.rebuildLoop (some u) args := by
  rw [Message.rebuildLoop, if_pos ⟨rfl, by simpa [Message.hasSpace] using hu⟩, List.tail_cons]

/-- Words that do not start with a quotation mark stay as they are. -/
theorem rebuildLoop_plain (h : ∀ a ∈ args, a.head? ≠ some '"') :
    Message.rebuildLoop none (args ++ rest) = args ++ Message.rebuildLoop none rest := by
  induction args with
  | nil => rfl
  | cons a args ih =>
    rw [List.forall_mem_cons] at h
    rw [List.cons_append, Message.rebuildLoop, if_neg fun hopen => h.1 hopen.1, ih h.2,
      List.cons_append]

theorem contains_space (x : Char) : [' '].contains x = (x == ' ') := by
  rw [List.contains_cons, List.contains_nil, Bool.or_false]

/-- A word, and the words after the space that ends it. -/
theorem tokens_word (hu : ' ' ∉ u) (hne : u ≠ []) :
    tokens [' '].contains (u ++ ' ' :: f) = u :: tokens [' '].contains f := by
  refine tokens_run_cons (fun x hx => ?_) hne rfl
  rw [contains_space, beq_eq_false_iff_ne]
  exact fun hspace => hu (hspace ▸ hx)

theorem tokens_lastWord (hu : ' ' ∉ u) (hne : u ≠ []) : tokens [' '].contains u = [u] := by
  refine tokens_run (fun x hx => ?_) hne
  rw [contains_space, beq_eq_false_iff_ne]
  exact fun hspace => hu (hspace ▸ hx)

/-- What an open quotation goes on with, after a space and within a word: the words are put
together with one space between them. -/
theorem rebuildLoop_quoted (hf : '"' ∉ f) :
    (∀ s, Message.rebuildLoop (some s) (tokens [' '].contains (f ++ ['"']) ++ rest) =
      (s ++ f.destutter' SpacedApart ' ') :: Message.rebuildLoop none rest) ∧
    ∀ s u c, ' ' ∉ u → c ≠ ' ' → c ≠ '"' →
      Message.rebuildLoop (some s) (tokens [' '].contains (u ++ c :: (f ++ ['"'])) ++ rest) =
        (s ++ ' ' :: (u ++ f.destutter' SpacedApart c)) :: Message.rebuildLoop none rest := by
  induction f with
  | nil =>
    refine ⟨fun s => ?_, fun s u c hu hc hq => ?_⟩
    · rw [List.nil_append, tokens_lastWord (by decide) (by simp)]
      exact rebuildLoop_closing (u := [])
    · have hword : u ++ c :: ([] ++ ['"']) = (u ++ [c]) ++ ['"'] := by simp
      rw [hword, tokens_lastWord (by simp [hu, hc.symm]) (by simp)]
      exact rebuildLoop_closing
  | cons d f ih =>
    rw [List.mem_cons, not_or] at hf
    obtain ⟨hspace, hrun⟩ := ih hf.2
    by_cases hd : d = ' '
    · subst hd
      refine ⟨fun s => ?_, fun s u c hu hc hq => ?_⟩
      · rw [List.cons_append, tokens_cons_delim rfl, hspace,
          List.destutter'_cons_neg _ (by simp [SpacedApart])]
      · have hword : u ++ c :: (' ' :: f ++ ['"']) = (u ++ [c]) ++ ' ' :: (f ++ ['"']) := by simp
        rw [hword, tokens_word (by simp [hu, hc.symm]) (by simp), List.cons_append,
          rebuildLoop_open hq, hspace, List.destutter'_cons_pos _ (by simp [SpacedApart, hc])]
        simp
    · refine ⟨fun s => ?_, fun s u c hu hc hq => ?_⟩
      · have hgo := hrun s [] d (by simp) hd (Ne.symm hf.1)
        rw [List.nil_append] at hgo
        rw [List.cons_append, hgo, List.destutter'_cons_pos _ (by simp [SpacedApart, hd])]
        rfl
      · have hgo := hrun s (u ++ [c]) d (by simp [hu, hc.symm]) hd (Ne.symm hf.1)
        have hword : u ++ c :: (d :: f ++ ['"']) = u ++ [c] ++ d :: (f ++ ['"']) := by simp
        rw [hword, hgo, List.destutter'_cons_pos _ (by simp [SpacedApart, hc])]
        simp

/-- The same from the word that opens the quotation. -/
theorem rebuildLoop_first (hf : '"' ∉ f) (hu : ' ' ∉ u) (hc : c ≠ ' ') (hq : c ≠ '"') :
    Message.rebuildLoop none (tokens [' '].contains ('"' :: (u ++ c :: (f ++ ['"']))) ++ rest) =
      (u ++ f.destutter' SpacedApart c) :: Message.rebuildLoop none rest := by
  induction f generalizing u c with
  | nil =>
    have hword : u ++ c :: ([] ++ ['"']) = (u ++ [c]) ++ ['"'] := by simp
    rw [hword, tokens_lastWord (by simp [hu, hc.symm]) (by simp), List.singleton_append,
      rebuildLoop_opening (by simp [hu, hc.symm]), if_pos (closes_quote _), unquote_quote]
    rfl
  | cons d f ih =>
    rw [List.mem_cons, not_or] at hf
    rw [List.destutter'_cons_pos _ (by simp [SpacedApart, hc])]
    by_cases hd : d = ' '
    · subst hd
      have hword : '"' :: (u ++ c :: (' ' :: f ++ ['"'])) =
          '"' :: (u ++ [c]) ++ ' ' :: (f ++ ['"']) := by simp
      rw [hword, tokens_word (by simp [hu, hc.symm]) (by simp), List.cons_append,
        rebuildLoop_opening (by simp [hu, hc.symm]), if_neg (by simp [closes_concat, hq]),
        (rebuildLoop_quoted hf.2).1]
      simp
    · have hgo := ih (u := u ++ [c]) (c := d) hf.2 (by simp [hu, hc.symm]) hd (Ne.symm hf.1)
      have hword : u ++ c :: (d :: f ++ ['"']) = u ++ [c] ++ d :: (f ++ ['"']) := by simp
      rw [hword, hgo]
      simp

/-- The name that is put together from its words has single spaces. -/
theorem rebuildLoop_name (hf : '"' ∉ f) :
    Message.rebuildLoop none (tokens [' '].contains ('"' :: (f ++ ['"'])) ++ rest) =
      f.destutter SpacedApart :: Message.rebuildLoop none rest := by
  cases f with
  | nil => rfl
  | cons c f =>
    rw [List.mem_cons, not_or] at hf
    rw [List.destutter_cons']
    by_cases hc : c = ' '
    · subst hc
      have hword : '"' :: (' ' :: f ++ ['"']) = ['"'] ++ ' ' :: (f ++ ['"']) := by simp
      rw [hword, tokens_word (by decide) (by simp), List.cons_append,
        rebuildLoop_opening (by simp), if_neg (by decide), (rebuildLoop_quoted hf.2).1]
      rfl
    · exact rebuildLoop_first (u := []) hf.2 (by simp) hc (Ne.symm hf.1)

theorem closes_mem (h : Message.closes s = true) : '"' ∈ s := by
  have hlast : s.getLast? = some '"' := by simpa [Message.closes] using h
  exact List.mem_of_getLast? hlast

theorem not_closes (h : '"' ∉ s) : Message.closes s = false :=
  Bool.eq_false_iff.mpr fun hcloses => h (closes_mem hcloses)

/-- An open quotation is closed by the mark at the end of its last word. -/
theorem looksInside_quoted {f : Str} (hf : '"' ∉ f) :
    Message.LooksInside true (tokens [' '].contains (f ++ ['"']) ++ rest) ↔
      Message.LooksInside false rest := by
  by_cases hs : ' ' ∈ f
  · obtain ⟨u, g, rfl, hu⟩ := List.eq_append_cons_of_mem hs
    simp only [List.mem_append, List.mem_cons, not_or] at hf
    have ih := looksInside_quoted hf.2.2
    rw [List.append_assoc, List.cons_append]
    by_cases hne : u = []
    · subst hne
      rwa [List.nil_append, tokens_cons_delim rfl]
    · rw [tokens_word hu hne, List.cons_append, Message.LooksInside, not_closes hf.1]
      exact ⟨fun h => ih.mp h.2, fun h => ⟨hne, ih.mpr h⟩⟩
  · rw [tokens_lastWord (by simp [hs]) (by simp), List.singleton_append, Message.LooksInside,
      closes_quote]
    exact ⟨fun h => h.2, fun h => ⟨by simp, h⟩⟩
termination_by f.length

theorem looksInside_plain (h : ∀ a ∈ args, a.head? ≠ some '"') :
    Message.LooksInside false (args ++ rest) ↔ Message.LooksInside false rest := by
  induction args with
  | nil => rfl
  | cons a args ih =>
    rw [List.forall_mem_cons] at h
    rw [List.cons_append, Message.LooksInside, if_neg fun hopen => h.1 hopen.1, ih h.2]

/-- Only a name that starts with a space leaves the opening mark alone. -/
theorem looksInside_name (hf : '"' ∉ f) :
    Message.LooksInside false (tokens [' '].contains ('"' :: (f ++ ['"'])) ++ rest) ↔
      f.head? ≠ some ' ' ∧ Message.LooksInside false rest := by
  have hopen {u : Str} {l : List Str} (hu : ' ' ∉ u) : Message.LooksInside false (('"' :: u) :: l) ↔
      u ≠ [] ∧ Message.LooksInside (!Message.closes u) l := by
    rw [Message.LooksInside, if_pos ⟨rfl, by simpa [Message.hasSpace] using hu⟩, List.tail_cons]
  by_cases hs : ' ' ∈ f
  · obtain ⟨u, g, rfl, hu⟩ := List.eq_append_cons_of_mem hs
    simp only [List.mem_append, List.mem_cons, not_or] at hf
    have hword : '"' :: (u ++ ' ' :: g ++ ['"']) = '"' :: u ++ ' ' :: (g ++ ['"']) := by simp
    rw [hword, tokens_word (by simp [hu]) (by simp), List.cons_append, hopen hu, not_closes hf.1,
      Bool.not_false, looksInside_quoted hf.2.2]
    cases u with
    | nil => simp
    | cons c u =>
      have hc : c ≠ ' ' := fun hc => hu (hc ▸ List.mem_cons_self)
      simp [hc]
  · have hhead : f.head? ≠ some ' ' := fun h => hs (List.mem_of_head? h)
    rw [tokens_lastWord (by simp [hs]) (by simp), List.singleton_append, hopen (by simp [hs]),
      closes_quote]
    exact ⟨fun h => ⟨hhead, h.2⟩, fun h => ⟨by simp, h.2⟩⟩

theorem count_unquote_le : (Message.unquote s).count c ≤ s.count c := by
  rw [Message.unquote]
  split
  · exact (List.dropLast_sublist s).count_le c
  · exact Nat.le_refl _

/-- Nothing but spaces is added. -/
theorem count_rebuildLoop_le (hc : c ≠ ' ') (o : Option Str) (args : List Str) :
    (Message.rebuildLoop o args).flatten.count c ≤
      (o.getD []).count c + args.flatten.count c := by
  have htail : ∀ a : Str, a.tail.count c ≤ a.count c := fun a => (List.tail_sublist a).count_le c
  have hjoin : ∀ s a : Str, (s ++ ' ' :: a).count c = s.count c + a.count c := by
    intro s a
    rw [List.count_append, List.count_cons_of_ne (Ne.symm hc)]
  fun_induction Message.rebuildLoop o args with
  | case1 => simp
  | case2 s => simpa using count_unquote_le
  | case3 a args hopen hcloses ih =>
    have hword := count_unquote_le (s := a.tail) (c := c)
    have := htail a
    simp only [List.flatten_cons, List.count_append, Option.getD_none, List.count_nil] at ih ⊢
    omega
  | case4 a args hopen hcloses ih =>
    have := htail a
    simp only [List.flatten_cons, List.count_append, Option.getD_none, Option.getD_some,
      List.count_nil] at ih ⊢
    omega
  | case5 a args hopen ih =>
    simp only [List.flatten_cons, List.count_append] at ih ⊢
    omega
  | case6 s a args hcloses ih =>
    have hword := count_unquote_le (s := s ++ ' ' :: a) (c := c)
    rw [hjoin] at hword
    simp only [List.flatten_cons, List.count_append, Option.getD_none, Option.getD_some,
      List.count_nil] at ih ⊢
    omega
  | case7 s a args hcloses ih =>
    simp only [List.flatten_cons, List.count_append, Option.getD_some, hjoin] at ih ⊢
    omega

end Names

section Offers

variable {filename : Str} {size addr port : Nat} {sender : Option StoredEntity}
  {receiver : StoredEntity}

theorem t2s_no_space (n : Nat) : ' ' ∉ t2s n := fun h => by
  cases t2s_digits n ' ' h

/-- The numbers of an offer, as words. -/
def numberWords (size addr port : Nat) : List Str :=
  t2s addr :: t2s port :: if size = 0 then [] else [t2s size]

/-- The text between its two marks. -/
def offerBody (filename : Str) (size addr port : Nat) : Str :=
  str "DCC" ++ ' ' :: (str "SEND" ++ ' ' :: ('"' :: (filename ++ ['"']) ++ ' ' ::
    (t2s addr ++ ' ' :: (t2s port ++ if size = 0 then [] else ' ' :: t2s size))))

theorem offer_eq : (DccServer.dccSend filename size sender receiver).offer addr port =
    '\x01' :: (offerBody filename size addr port ++ ['\x01']) := by
  unfold DccServer.offer
  split
  · next h =>
    have hsize : size = 0 := h
    simp [DccServer.dccSend, offerBody, str, hsize]
  · next h =>
    have hsize : size ≠ 0 := h
    simp [DccServer.dccSend, offerBody, str, hsize]

theorem dccWords_offer : dccWords ((DccServer.dccSend filename size sender receiver).offer
      addr port) =
    str "DCC" :: str "SEND" :: (tokens [' '].contains ('"' :: (filename ++ ['"'])) ++
      numberWords size addr port) := by
  have htail : tokens [' '].contains (t2s addr ++ ' ' :: (t2s port ++
      if size = 0 then [] else ' ' :: t2s size)) = numberWords size addr port := by
    rw [tokens_word (t2s_no_space _) (t2s_ne_nil _), numberWords]
    split
    · rw [List.append_nil, tokens_lastWord (t2s_no_space _) (t2s_ne_nil _)]
    · rw [tokens_word (t2s_no_space _) (t2s_ne_nil _),
        tokens_lastWord (t2s_no_space _) (t2s_ne_nil _)]
  have hcut : ((('\x01' :: (offerBody filename size addr port ++ ['\x01'])).drop 1).take
      (('\x01' :: (offerBody filename size addr port ++ ['\x01'])).length - 2)) =
        offerBody filename size addr port := by
    simp
  rw [offer_eq, dccWords, hcut, stringtokLoop_eq (Nat.lt_succ_self _), offerBody,
    tokens_word (by decide) (by decide), tokens_word (by decide) (by decide),
    tokens_append_cons rfl, htail]

theorem numberWords_plain : ∀ a ∈ numberWords size addr port, a.head? ≠ some '"' := by
  have hnum : ∀ n : Nat, (t2s n).head? ≠ some '"' := fun n h => by
    cases t2s_digits n '"' (List.mem_of_head? h)
  simp only [numberWords, List.mem_cons]
  rintro a (rfl | rfl | ha)
  · exact hnum addr
  · exact hnum port
  · split at ha
    · cases ha
    · exact List.mem_singleton.mp ha ▸ hnum size

/-- The arguments of an offer, when no quotation mark is in the name. -/
theorem offer_args (hf : '"' ∉ filename) :
    Message.rebuildWithQuotes (dccWords
      ((DccServer.dccSend filename size sender receiver).offer addr port)) =
    str "DCC" :: str "SEND" :: filename.destutter SpacedApart :: numberWords size addr port := by
  have hnums : Message.rebuildLoop none (numberWords size addr port ++ []) =
      numberWords size addr port ++ Message.rebuildLoop none [] := rebuildLoop_plain numberWords_plain
  rw [List.append_nil, Message.rebuildLoop, List.append_nil] at hnums
  have hcmd : ∀ rest, Message.rebuildLoop none ([str "DCC", str "SEND"] ++ rest) =
      [str "DCC", str "SEND"] ++ Message.rebuildLoop none rest :=
    fun rest => rebuildLoop_plain (by decide)
  have hname := hcmd (tokens [' '].contains ('"' :: (filename ++ ['"'])) ++
    numberWords size addr port)
  rw [dccWords_offer, Message.rebuildWithQuotes]
  rw [rebuildLoop_name hf, hnums] at hname
  exact hname

theorem offer_looksInside (hf : '"' ∉ filename) :
    Message.LooksInside false (dccWords
      ((DccServer.dccSend filename size sender receiver).offer addr port)) ↔
    filename.head? ≠ some ' ' := by
  have hnums : Message.LooksInside false (numberWords size addr port ++ []) ↔
      Message.LooksInside false [] := looksInside_plain numberWords_plain
  have hcmd : ∀ rest, Message.LooksInside false ([str "DCC", str "SEND"] ++ rest) ↔
      Message.LooksInside false rest := fun rest => looksInside_plain (by decide)
  have hname := hcmd (tokens [' '].contains ('"' :: (filename ++ ['"'])) ++
    numberWords size addr port)
  rw [looksInside_name hf] at hname
  rw [List.append_nil] at hnums
  rw [dccWords_offer]
  exact hname.trans (and_iff_left (hnums.mpr trivial))

/-- The words hold no more apostrophes than the name did. -/
theorem offer_apostrophes {a : Str} (h : a ∈ Message.rebuildWithQuotes (dccWords
      ((DccServer.dccSend filename size sender receiver).offer addr port))) :
    a.count '\'' ≤ filename.count '\'' := by
  have hmem : a.count '\'' ≤ (Message.rebuildWithQuotes (dccWords
      ((DccServer.dccSend filename size sender receiver).offer addr port))).flatten.count '\'' :=
    (List.sublist_flatten_of_mem h).count_le _
  have hle := count_rebuildLoop_le (c := '\'') (by decide) none (dccWords
    ((DccServer.dccSend filename size sender receiver).offer addr port))
  have hnum : ∀ n : Nat, (t2s n).count '\'' = 0 := fun n =>
    List.count_eq_zero.mpr fun h => by cases t2s_digits n '\'' h
  have hnums : (numberWords size addr port).flatten.count '\'' = 0 := by
    rw [numberWords]
    split <;> simp [hnum]
  have hname : (tokens [' '].contains ('"' :: (filename ++ ['"']))).flatten.count '\'' =
      filename.count '\'' := by
    rw [flatten_tokens, List.count_filter rfl]
    simp
  have hcmd : (str "DCC" ++ str "SEND").count '\'' = 0 := by decide
  rw [Message.rebuildWithQuotes] at hmem
  rw [dccWords_offer] at hle hmem
  simp only [List.flatten_cons, List.flatten_append, List.count_append, Option.getD_none,
    List.count_nil] at hle hmem hcmd
  omega

theorem parseDCCSEND_offer :
    parseDCCSEND ((DccServer.dccSend filename size sender receiver).offer addr port) =
      match Message.rebuildWithQuotes
        (dccWords ((DccServer.dccSend filename size sender receiver).offer addr port)) with
      | [dcc, send, filename, addr, port, size] =>
        if dcc = str "DCC" ∧ send = str "SEND" then some ⟨filename, addr, port, size⟩ else none
      | _ => none := by
  have hlast (body : Str) : ('\x01' :: (body ++ ['\x01'])).getLast? = some '\x01' := by
    rw [← List.cons_append, List.getLast?_concat]
  rw [offer_eq, parseDCCSEND, hlast, if_neg (by simp)]
  rfl

theorem decodes_iff {d : DccServer} : d.Decodes addr port ↔
    Message.LooksInside false (dccWords (d.offer addr port)) ∧
      (parseDCCSEND (d.offer addr port)).map DccSend.values =
        some (escapeQuotes d.filename, addr, port, (d.totalSize : Int)) := by
  constructor
  · rintro ⟨m, text, hm, hargs, h⟩
    obtain rfl := Except.ok.inj hm
    have htext : d.offer addr port = text := List.singleton_inj.mp hargs
    rwa [← htext] at h
  · exact fun h => ⟨_, d.offer addr port, rfl, rfl, h⟩

theorem escapeQuotes_eq (h : '"' ∉ filename) : escapeQuotes filename = filename := by
  have hc : ∀ c ∈ filename, (if c = '"' then '\'' else c) = c := by
    intro c hc
    rw [if_neg]
    rintro rfl
    exact h hc
  rw [escapeQuotes, List.map_congr_left hc, List.map_id']

/-- Every mark becomes an apostrophe. -/
theorem count_escapeQuotes (f : Str) :
    (escapeQuotes f).count '\'' = f.count '\'' + f.count '"' := by
  induction f with
  | nil => rfl
  | cons c f ih =>
    have hcons : escapeQuotes (c :: f) = (if c = '"' then '\'' else c) :: escapeQuotes f := rfl
    rw [hcons, List.count_cons, List.count_cons, List.count_cons, ih]
    by_cases hc : c = '"'
    · subst hc
      simp
      omega
    · simp [hc]
      omega

/-- What is read from the offer, when no quotation mark is in the name. -/
theorem offer_values (hf : '"' ∉ filename) (hsize : size ≠ 0) :
    parseDCCSEND ((DccServer.dccSend filename size sender receiver).offer addr port) =
      some ⟨filename.destutter SpacedApart, t2s addr, t2s port, t2s size⟩ := by
  rw [parseDCCSEND_offer, offer_args hf, numberWords, if_neg hsize]
  exact if_pos ⟨rfl, rfl⟩

theorem offer_noSize (hf : '"' ∉ filename) :
    parseDCCSEND ((DccServer.dccSend filename 0 sender receiver).offer addr port) = none := by
  rw [parseDCCSEND_offer, offer_args hf]
  rfl

/-- A name read from the offer is one of its arguments. -/
theorem offer_filename_mem {r : DccSend}
    (h : parseDCCSEND ((DccServer.dccSend filename size sender receiver).offer addr port) = some r) :
    r.filename ∈ Message.rebuildWithQuotes
      (dccWords ((DccServer.dccSend filename size sender receiver).offer addr port)) := by
  rw [parseDCCSEND_offer] at h
  split at h
  · next heq =>
    split at h
    · obtain rfl := Option.some.inj h
      rw [heq]
      simp
    · cases h
  · cases h

theorem offer_no_mark {r : DccSend}
    (h : parseDCCSEND ((DccServer.dccSend filename size sender receiver).offer addr port) = some r)
    (hname : r.filename = escapeQuotes filename) : '"' ∉ filename := by
  have hle := offer_apostrophes (offer_filename_mem h)
  rw [hname, count_escapeQuotes] at hle
  rw [← List.count_eq_zero]
  omega

end Offers

/-- An offer is read as it was made exactly when it has a size, the name holds no quotation mark,
does not start with a space and has no two spaces in a row. -/
theorem offer_decodes_iff (filename : Str) (size addr port : Nat) (sender : Option StoredEntity)
    (receiver : StoredEntity) (haddr : addr < 2 ^ 32) (hport : port < 2 ^ 16) (hsize : size < 2 ^ 63) :
    (DccServer.dccSend filename size sender receiver).Decodes addr port ↔
      size ≠ 0 ∧ '"' ∉ filename ∧ filename.head? ≠ some ' ' ∧ filename.IsChain SpacedApart := by
  rw [decodes_iff]
  by_cases hq : '"' ∈ filename
  · -- the name that was read has as many apostrophes as the escaped one, and the text has fewer
    refine ⟨fun h => ?_, fun h => absurd hq h.2.1⟩
    obtain ⟨r, hr, hvalues⟩ := Option.map_eq_some_iff.mp h.2
    have hname : r.filename = escapeQuotes filename := congrArg Prod.fst hvalues
    exact absurd hq (offer_no_mark hr hname)
  · rw [offer_looksInside hq]
    constructor
    · rintro ⟨hhead, hread⟩
      obtain ⟨r, hr, hvalues⟩ := Option.map_eq_some_iff.mp hread
      have hname : r.filename = escapeQuotes filename := congrArg Prod.fst hvalues
      have hne : size ≠ 0 := by
        rintro rfl
        rw [offer_noSize hq] at hr
        cases hr
      rw [offer_values hq hne] at hr
      obtain rfl := Option.some.inj hr
      rw [escapeQuotes_eq hq] at hname
      exact ⟨hne, hq, hhead, (List.destutter_eq_self_iff SpacedApart _).mp hname⟩
    · rintro ⟨hne, -, hhead, hchain⟩
      refine ⟨hhead, ?_⟩
      have hread : s2tSigned 64 (t2s size) = size := s2tSigned_t2s (w := 64) hsize
      rw [offer_values hq hne, Option.map_some, List.destutter_of_isChain SpacedApart _ hchain]
      simp only [DccSend.values, s2tUnsigned_t2s haddr, s2tUnsigned_t2s hport,
        hread, DccServer.dccSend, escapeQuotes_eq hq]

theorem offer_decodes_note : (DccServer.dccSend (str "my note.txt") 7 none .unset).Decodes 2130706433 1024 :=
  (offer_decodes_iff (str "my note.txt") 7 2130706433 1024 none .unset (by decide) (by decide)
    (by decide)).mpr (by decide)

/-- The name that was escaped is not the one that is sent. -/
theorem offer_keeps_mark : ¬ ∀ (filename : Str) (size addr port : Nat), filename ≠ [] →
    (∀ c ∈ filename, 0x20 ≤ c.toNat) → addr < 2 ^ 32 → 1 ≤ port → port < 2 ^ 16 → size < 2 ^ 63 →
    (DccServer.dccSend filename size none .unset).Decodes addr port := by
  intro h
  have hread := (decodes_iff.mp (h (str "a\"b") 1 2130706433 1024 (by decide)
    (forall_of_all (by decide)) (by decide) (by decide) (by decide) (by decide))).2
  revert hread
  decide

end Minbif
