import Mathlib.Data.List.Nodup
import Mathlib.Data.List.Perm.Subperm
import Mathlib.Data.List.Range
import Minbif.Im.Accounts

/-! The IDs that accounts are given. -/
namespace Minbif
open Function

theorem t2s_nat (n : Nat) : t2s n = Nat.toDigits 10 n := by
  rw [t2s, show toString (n : Int) = toString n from rfl, Nat.toString_eq_repr, Nat.toList_repr]

/-- A number that is written is read back. -/
theorem s2t_t2s (n : Nat) : s2t (t2s n) = n := by
  have hdigits : ∀ c ∈ Nat.toDigits 10 n, c.isDigit = true :=
    fun c hc => Nat.isDigit_of_mem_toDigits (by omega) (by omega) hc
  rw [s2t, t2s_nat, List.takeWhile_eq_self_iff.mpr hdigits]
  exact Nat.ofDigitChars_toDigits (by omega) (by omega)

theorem numbered_injective (id : Str) : Injective (numbered id) := by
  intro i j h
  have hne : ∀ n : Nat, t2s n ≠ [] := fun n => by
    rw [t2s_nat]
    exact Nat.toDigits_ne_nil
  have hsuffix := List.append_cancel_left h
  by_cases hi : i = 0
  · by_cases hj : j = 0
    · rw [hi, hj]
    · rw [if_pos hi, if_neg hj] at hsuffix
      exact absurd hsuffix.symm (hne j)
  · by_cases hj : j = 0
    · rw [if_neg hi, if_pos hj] at hsuffix
      exact absurd hsuffix (hne i)
    · rw [if_neg hi, if_neg hj] at hsuffix
      have hnum := congrArg s2t hsuffix
      rwa [s2t_t2s, s2t_t2s] at hnum

theorem numbered_next {id : Str} {i : Nat} :
    (if i = 0 then 1 else s2t ((numbered id i).drop id.length) + 1) = i + 1 := by
  by_cases hi : i = 0
  · rw [if_pos hi, hi]
  · rw [if_neg hi, numbered, List.drop_left, if_neg hi, s2t_t2s]

/-- A list holds no more different names than it is long. -/
theorem numbered_le {id : Str} {L : List Str} {i : Nat} (h : ∀ j < i, numbered id j ∈ L) :
    i ≤ L.length := by
  have hnodup : ((List.range i).map (numbered id)).Nodup :=
    List.Nodup.map (numbered_injective id) List.nodup_range
  have hsub : (List.range i).map (numbered id) ⊆ L := by
    intro s hs
    obtain ⟨j, hj, rfl⟩ := List.mem_map.mp hs
    exact h j (List.mem_range.mp hj)
  have hlen := (hnodup.subperm hsub).length_le
  rwa [List.length_map, List.length_range] at hlen

/-- The first of the names that is not taken. -/
theorem newNameLoop_spec {taken : Str → Bool} {id : Str} {L : List Str} {fuel i : Nat}
    (hL : ∀ s, taken s = true → s ∈ L) (hpast : ∀ j < i, taken (numbered id j) = true)
    (hfuel : L.length < i + fuel) :
    ∃ k, newNameLoop taken id fuel i = numbered id k ∧ taken (numbered id k) = false ∧
      ∀ j < k, taken (numbered id j) = true := by
  induction fuel generalizing i with
  | zero =>
    have hle := numbered_le fun j hj => hL _ (hpast j hj)
    omega
  | succ fuel ih =>
    rw [newNameLoop]
    split
    · next htaken =>
      rw [numbered_next]
      refine ih (fun j hj => ?_) (by omega)
      rcases Nat.lt_succ_iff_lt_or_eq.mp hj with hj | rfl
      · exact hpast j hj
      · exact htaken
    · next hfree => exact ⟨i, rfl, Bool.not_eq_true _ ▸ hfree, hpast⟩

namespace Accounts

/-- The protocols have names, and the accounts of the list are of these protocols and have IDs. -/
structure Sound (A : Accounts) : Prop where
  protocols : ∀ p ∈ A.protocols, p.getID ≠ []
  known : ∀ a ∈ A.all, (A.protocol a).isSome = true
  id : ∀ a ∈ A.all, A.id a ≠ []
  bound : ∀ a ∈ A.all, a < A.next

/-- No two accounts of the list have the same ID. -/
def Distinct (A : Accounts) : Prop := ∀ a ∈ A.all, ∀ b ∈ A.all, A.id a = A.id b → a = b

/-- No other account of the list has the ID. -/
def Free (A : Accounts) (a : AccountRef) (id : Str) : Prop := ∀ b ∈ A.all, b ≠ a → A.id b ≠ id

/-- The name that the accounts of the protocol leave to this one. -/
def Offered (A : Accounts) (p : Protocol) (a : AccountRef) (id : Str) : Prop :=
  ∃ i, id = numbered p.getID i ∧ A.named p a id = false ∧
    ∀ j < i, A.named p a (numbered p.getID j) = true

variable {A : Accounts} {a : AccountRef} {p : Protocol} {id value name : Str}

theorem named_iff : A.named p a id = true ↔
    ∃ b ∈ A.all, b ≠ a ∧ (A.protocol b).any (fun q => q.purpleId = p.purpleId) = true ∧ A.id b = id := by
  simp [named, and_assoc]

theorem offered (A : Accounts) (p : Protocol) (a : AccountRef) :
    A.Offered p a (A.getNewAccountName p a) := by
  have hL : ∀ s, A.named p a s = true → s ∈ A.all.map A.id := by
    intro s hs
    obtain ⟨b, hb, -, -, rfl⟩ := named_iff.mp hs
    exact List.mem_map_of_mem hb
  have hpast : ∀ j < 0, A.named p a (numbered p.getID j) = true :=
    fun j hj => absurd hj (Nat.not_lt_zero j)
  have hfuel : (A.all.map A.id).length < 0 + (A.all.length + 1) := by simp
  obtain ⟨k, hname, hfree, hpast⟩ := newNameLoop_spec hL hpast hfuel
  have hnew : A.getNewAccountName p a = numbered p.getID k := hname
  exact ⟨k, hnew, by rw [hnew]; exact hfree, hpast⟩

theorem Offered.unique (h : A.Offered p a id) (h' : A.Offered p a name) : id = name := by
  obtain ⟨i, rfl, hfree, hpast⟩ := h
  obtain ⟨j, rfl, hfree', hpast'⟩ := h'
  rcases Nat.lt_trichotomy i j with hij | rfl | hij
  · rw [hpast' i hij] at hfree
    cases hfree
  · rfl
  · rw [hpast j hij] at hfree'
    cases hfree'

theorem numbered_ne_nil {i : Nat} (h : id ≠ []) : numbered id i ≠ [] := by
  simp [numbered, h]

theorem protocol_mem (h : A.protocol a = some p) : p ∈ A.protocols := List.mem_of_find?_eq_some h

/-- A protocol that is there is found by its ID, or another one of that ID is. -/
theorem getProtocol_some (h : p ∈ A.protocols) :
    ∃ q, A.getProtocolByPurpleID p.purpleId = some q ∧ q ∈ A.protocols ∧ q.purpleId = p.purpleId := by
  obtain ⟨q, hq⟩ : ∃ q, A.getProtocolByPurpleID p.purpleId = some q := by
    refine Option.isSome_iff_exists.mp ?_
    rw [getProtocolByPurpleID, List.find?_isSome]
    exact ⟨p, h, by simp⟩
  exact ⟨q, hq, List.mem_of_find?_eq_some hq, by simpa using List.find?_some hq⟩

theorem add_of_mem (h : a ∈ A.all) : A.add a = A := if_pos (List.contains_iff_mem.mpr h)

theorem add_of_not_mem (h : a ∉ A.all) : A.add a = { A with all := A.all ++ [a] } :=
  if_neg fun hc => h (List.contains_iff_mem.mp hc)

theorem newAccount_protocol (A : Accounts) (username protocolId : Str) :
    (A.newAccount username protocolId none).2.protocol A.next = A.getProtocolByPurpleID protocolId :=
  congrArg A.getProtocolByPurpleID (update_self ..)

theorem Sound.newName_ne_nil (h : A.Sound) (ha : A.protocol a = some p) :
    A.getNewAccountName p a ≠ [] := by
  obtain ⟨i, hname, -⟩ := A.offered p a
  rw [hname]
  exact numbered_ne_nil (h.protocols p (protocol_mem ha))

theorem getID_of_ne (h : A.id a ≠ []) : A.getID a = (A.id a, A) := by
  rw [getID, if_neg (by simpa using h)]

/-- To list accounts that have IDs changes nothing. -/
theorem Sound.listed (h : A.Sound) : A.getAccountsList.2 = A := by
  have hgen : ∀ (l : List AccountRef) (m : OrdMap Str AccountRef), (∀ a ∈ l, a ∈ A.all) →
      (l.foldl listAccount (m, A)).2 = A := by
    intro l
    induction l with
    | nil => exact fun m _ => rfl
    | cons a l ih =>
      intro m hl
      rw [List.forall_mem_cons] at hl
      rw [List.foldl_cons, listAccount]
      split
      · exact ih m hl.2
      · rw [getID_of_ne (h.id a hl.1)]
        exact ih _ hl.2
  exact hgen A.all {} fun a ha => ha

/-- The list is indexed by ID. -/
theorem Sound.mem_list (h : A.Sound) {e : Str × AccountRef} (he : e ∈ A.getAccountsList.1.entries) :
    e.2 ∈ A.all ∧ e.1 = A.id e.2 := by
  have hgen : ∀ (l : List AccountRef) (m : OrdMap Str AccountRef), (∀ a ∈ l, a ∈ A.all) →
      (∀ e ∈ m.entries, e.2 ∈ A.all ∧ e.1 = A.id e.2) →
      ∀ e ∈ (l.foldl listAccount (m, A)).1.entries, e.2 ∈ A.all ∧ e.1 = A.id e.2 := by
    intro l
    induction l with
    | nil => exact fun m _ hm => hm
    | cons a l ih =>
      intro m hl hm
      rw [List.forall_mem_cons] at hl
      rw [List.foldl_cons, listAccount]
      split
      · exact ih m hl.2 hm
      · rw [getID_of_ne (h.id a hl.1)]
        refine ih _ hl.2 fun e he => ?_
        rcases OrdMap.mem_insert.mp he with ⟨hk, hv⟩ | ⟨-, he⟩
        · exact ⟨hv ▸ hl.1, by rw [hk, hv]⟩
        · exact hm e he
  exact hgen A.all {} (fun a ha => ha) nofun e he

/-- Every account whose ID no later account has is listed. -/
theorem Sound.listed_of_distinct (h : A.Sound) (hd : A.Distinct) (ha : a ∈ A.all) :
    (A.id a, a) ∈ A.getAccountsList.1.entries := by
  have hgen : ∀ (l : List AccountRef) (m : OrdMap Str AccountRef), (∀ b ∈ l, b ∈ A.all) →
      (a ∈ l ∨ (A.id a, a) ∈ m.entries) → (A.id a, a) ∈ (l.foldl listAccount (m, A)).1.entries := by
    intro l
    induction l with
    | nil => exact fun m _ hm => hm.resolve_left nofun
    | cons b l ih =>
      intro m hl hm
      rw [List.forall_mem_cons] at hl
      rw [List.foldl_cons, listAccount, if_neg (by simpa using Option.isSome_iff_ne_none.mp (h.known b hl.1)),
        getID_of_ne (h.id b hl.1)]
      refine ih _ hl.2 ?_
      by_cases hab : a = b
      · exact .inr (OrdMap.mem_insert.mpr (.inl ⟨by rw [hab], hab⟩))
      · refine hm.imp (fun hm => (List.mem_cons.mp hm).resolve_left hab) fun hm => ?_
        exact OrdMap.mem_insert.mpr (.inr ⟨fun heq => hab (hd a ha b hl.1 heq), hm⟩)
  exact hgen A.all {} (fun b hb => hb) (.inl ha)

/-- `IM::getAccount` finds an account with the ID exactly if there is one. -/
theorem Sound.getAccount (h : A.Sound) : (A.getAccount name).2 = A := h.listed

theorem Sound.getAccount_none (h : A.Sound) (hd : A.Distinct) (hnone : (A.getAccount name).1 = none)
    (ha : a ∈ A.all) : A.id a ≠ name := by
  intro heq
  have hmem : a ∈ A.getAccountsList.1.values := List.mem_map_of_mem (h.listed_of_distinct hd ha)
  have := List.find?_eq_none.mp hnone a hmem
  rw [h.listed] at this
  simp [heq] at this

theorem Sound.getAccount_mem (h : A.Sound) (hsome : (A.getAccount name).1 = some a) : a ∈ A.all := by
  obtain ⟨e, he, rfl⟩ := List.mem_map.mp (List.mem_of_find?_eq_some hsome)
  exact (h.mem_list he).1

/-- The ID that the account has when its options are set. -/
def current (A : Accounts) (p : Protocol) (a : AccountRef) : Str :=
  if A.id a = [] then A.getNewAccountName p a else A.id a

/-- The ID that is asked for is refused. -/
def BadAccid (A : Accounts) (p : Protocol) (a : AccountRef) (value : Str) : Prop :=
  A.current p a ≠ value ∧ (A.connected a = true ∨
    value ≠ [] ∧ ((A.setID a (A.current p a)).getAccount value).1.isSome = true)

instance (A : Accounts) (p : Protocol) (a : AccountRef) (value : Str) : Decidable (A.BadAccid p a value) :=
  inferInstanceAs (Decidable (_ ∧ (_ ∨ _ ∧ _)))

/-- The ID that the account has afterwards. -/
def given (A : Accounts) (p : Protocol) (a : AccountRef) (value : Str) : Str :=
  if A.current p a = value ∨ A.BadAccid p a value then A.current p a
  else if value = [] then A.getNewAccountName p a else value

theorem setID_setID (A : Accounts) (a : AccountRef) (x y : Str) : (A.setID a x).setID a y = A.setID a y := by
  simp [setID]

theorem setID_self (A : Accounts) (a : AccountRef) : A.setID a (A.id a) = A := by
  simp [setID]

/-- The ID of the account itself is not looked at. -/
theorem newName_setID (A : Accounts) (p : Protocol) (a : AccountRef) (x : Str) :
    (A.setID a x).getNewAccountName p a = A.getNewAccountName p a := by
  have hnamed : (A.setID a x).named p a = A.named p a := by
    funext s
    rw [Bool.eq_iff_iff, named_iff, named_iff]
    refine exists_congr fun b => and_congr_right fun _ => and_congr_right fun hb => ?_
    change _ ∧ update A.id a x b = s ↔ _
    rw [update_of_ne hb]
    exact Iff.rfl
  rw [getNewAccountName, hnamed]
  rfl

theorem getID_eq (hp : A.protocol a = some p) : A.getID a = (A.current p a, A.setID a (A.current p a)) := by
  rw [getID, current]
  by_cases h : A.id a = []
  · rw [if_pos (by simpa using h), if_pos h, hp]
  · rw [if_neg (by simpa using h), if_neg h, setID_self]

theorem Sound.current_ne_nil (h : A.Sound) (hp : A.protocol a = some p) : A.current p a ≠ [] := by
  rw [current]
  split
  · exact h.newName_ne_nil hp
  · next hne => exact hne

theorem Sound.setID (h : A.Sound) {x : Str} (hx : x ≠ []) : (A.setID a x).Sound where
  protocols := h.protocols
  known := h.known
  id b hb := by
    change update A.id a x b ≠ []
    rcases eq_or_ne b a with rfl | hne
    · rwa [update_self]
    · rw [update_of_ne hne]
      exact h.id b hb
  bound := h.bound

/-- What the ACCID case of `setOptions` does. -/
theorem Sound.setAccid (h : A.Sound) (hp : A.protocol a = some p) (value : Str) :
    ((A.setAccid a value).1.isSome = true ↔ A.BadAccid p a value) ∧
      (A.setAccid a value).2 = A.setID a (A.given p a value) := by
  have hs := h.setID (a := a) (h.current_ne_nil hp)
  rw [Accounts.setAccid, getID_eq hp, given]
  dsimp only
  by_cases hcur : A.current p a = value
  · simp [BadAccid, hcur]
  rw [if_neg hcur]
  by_cases hconn : A.connected a = true
  · have hconn' : (A.setID a (A.current p a)).connected a = true := hconn
    simp [BadAccid, hconn, hconn', hcur]
  have hconn' : ¬ (A.setID a (A.current p a)).connected a = true := hconn
  rw [if_neg hconn']
  by_cases hv : value = []
  · have hp' : (A.setID a (A.current p a)).protocol a = some p := hp
    have hcur' : A.current p a ≠ [] := h.current_ne_nil hp
    simp [BadAccid, hv, hp', hconn, newName_setID, setID_setID, hcur']
  rw [if_neg (by simpa using hv), hs.getAccount]
  split
  · next hused => simp [BadAccid, hcur, hv, hused]
  · next hfree => simp [BadAccid, hcur, hconn, hv, hfree, setID_setID]

theorem Sound.given_ne_nil (h : A.Sound) (hp : A.protocol a = some p) : A.given p a value ≠ [] := by
  rw [given]
  split
  · exact h.current_ne_nil hp
  split
  · exact h.newName_ne_nil hp
  · next hne => exact hne

/-- The name that is offered to the account is the ID of an account of another protocol. -/
def Taken (A : Accounts) (p : Protocol) (a : AccountRef) : Prop := ∃ id, A.Offered p a id ∧ ¬ A.Free a id

theorem taken_iff : A.Taken p a ↔ ¬ A.Free a (A.getNewAccountName p a) := by
  constructor
  · rintro ⟨id, hid, hfree⟩
    rwa [hid.unique (A.offered p a)] at hfree
  · exact fun h => ⟨_, A.offered p a, h⟩

theorem offered_iff : A.Offered p a id ↔ A.getNewAccountName p a = id :=
  ⟨fun h => (A.offered p a).unique h, fun h => h ▸ A.offered p a⟩

/-- An ID that `IM::getAccount` does not find is free. -/
theorem Sound.free_of_none (h : A.Sound) (hd : A.Distinct) {x : Str} (hx : x ≠ [])
    (hx' : A.id a = x ∨ a ∉ A.all) (hnone : ((A.setID a x).getAccount value).1.isSome = false) :
    A.Free a value := by
  intro b hb hne
  have hids : ∀ c ∈ A.all, (A.setID a x).id c = A.id c := by
    intro c hc
    change update A.id a x c = A.id c
    rcases eq_or_ne c a with rfl | hca
    · rw [update_self]
      exact (hx'.resolve_right (not_not_intro hc)).symm
    · rw [update_of_ne hca]
  have hd' : (A.setID a x).Distinct := fun c hc d hd'' he => hd c hc d hd'' (by rwa [hids c hc, hids d hd''] at he)
  rw [← hids b hb]
  exact (h.setID hx).getAccount_none hd' (by simpa using hnone) hb

/-- The ID that an account of the list is given is free, unless it is an automatic one that is taken. -/
theorem Sound.free_given (h : A.Sound) (hd : A.Distinct) (ha : a ∈ A.all) (hp : A.protocol a = some p) :
    A.Free a (A.given p a value) ↔ ¬ (value = [] ∧ A.connected a = false ∧ A.Taken p a) := by
  have hcur : A.current p a = A.id a := if_neg (h.id a ha)
  have hself : A.Free a (A.id a) := fun b hb hne he => hne (hd b hb a ha he)
  rw [taken_iff, given]
  split
  · next hkeep =>
    rw [hcur]
    refine iff_of_true hself ?_
    rintro ⟨rfl, hconn, -⟩
    rcases hkeep with hkeep | ⟨-, hbad⟩
    · exact h.current_ne_nil hp hkeep
    · simp [hconn] at hbad
  · next hkeep =>
    rw [not_or, BadAccid, not_and] at hkeep
    have hok := hkeep.2 hkeep.1
    rw [not_or, not_and, Bool.not_eq_true, Bool.not_eq_true] at hok
    split
    · next hv => simp [hv, hok.1]
    · next hv =>
      refine iff_of_true ?_ fun hc => hv hc.1
      exact h.free_of_none hd (h.current_ne_nil hp) (.inl hcur.symm) (hok.2 hv)

/-- The same for a new account whose ID is not refused. -/
theorem Sound.free_given_new (h : A.Sound) (hd : A.Distinct) (ha : a ∉ A.all) (hid : A.id a = [])
    (hp : A.protocol a = some p) (hok : ¬ A.BadAccid p a value) :
    A.Free a (A.given p a value) ↔ ¬ ((value = [] ∨ A.Offered p a value) ∧ A.Taken p a) := by
  have hcur : A.current p a = A.getNewAccountName p a := if_pos hid
  rw [taken_iff, offered_iff, given]
  split
  · next hkeep =>
    have hkeep := hkeep.resolve_right hok
    rw [hcur] at hkeep ⊢
    simp [hkeep]
  · next hkeep =>
    rw [not_or, hcur] at hkeep
    split
    · next hv => simp [hv]
    · next hv =>
      refine iff_of_true ?_ fun hc => hc.1.elim hv hkeep.1
      rw [BadAccid, not_and, not_or, not_and, Bool.not_eq_true, Bool.not_eq_true, hcur] at hok
      refine h.free_of_none hd (h.newName_ne_nil hp) (.inr ha) ((hok hkeep.1).2 hv)

theorem Distinct.setID (hd : A.Distinct) (ha : a ∈ A.all) {x : Str} :
    (A.setID a x).Distinct ↔ A.Free a x := by
  have hid : ∀ b, b ≠ a → (A.setID a x).id b = A.id b := fun b hb => update_of_ne hb _ _
  have hself : (A.setID a x).id a = x := update_self _ _ _
  constructor
  · intro h b hb hne he
    exact hne (h b hb a ha (by rw [hid b hne, hself, he]))
  · intro h b hb c hc he
    rcases eq_or_ne b a with rfl | hba
    · rcases eq_or_ne c b with rfl | hcb
      · rfl
      · rw [hself, hid c hcb] at he
        exact absurd he.symm (h c hc hcb)
    · rcases eq_or_ne c a with rfl | hca
      · rw [hself, hid b hba] at he
        exact absurd he (h b hb hba)
      · rw [hid b hba, hid c hca] at he
        exact hd b hb c hc he

end Accounts
end Minbif
