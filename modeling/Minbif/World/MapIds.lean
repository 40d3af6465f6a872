import Minbif.Lib.Runs
import Minbif.World.MapOptions
import Minbif.World.Sound

/-! The IDs of the accounts along a session. -/
namespace Minbif
open Function

namespace Accounts

/-- The same accounts are listed, and have the same IDs. -/
structure SameIds (A B : Accounts) : Prop where
  protocols : B.protocols = A.protocols
  protocolId : B.protocolId = A.protocolId
  all : B.all = A.all
  id : B.id = A.id
  next : B.next = A.next

variable {A B : Accounts} {a : AccountRef} {p : Protocol} {value : Str}

theorem SameIds.refl (A : Accounts) : A.SameIds A := ⟨rfl, rfl, rfl, rfl, rfl⟩

theorem SameIds.trans {C : Accounts} (h : A.SameIds B) (h' : B.SameIds C) : A.SameIds C :=
  ⟨h'.protocols.trans h.protocols, h'.protocolId.trans h.protocolId, h'.all.trans h.all, h'.id.trans h.id,
    h'.next.trans h.next⟩

theorem SameIds.protocol (h : A.SameIds B) (a : AccountRef) : B.protocol a = A.protocol a := by
  rw [Accounts.protocol, Accounts.protocol, getProtocolByPurpleID, getProtocolByPurpleID, h.protocols,
    h.protocolId]

theorem SameIds.sound (h : A.SameIds B) (hA : A.Sound) : B.Sound where
  protocols p hp := hA.protocols p (h.protocols ▸ hp)
  known a ha := by
    rw [h.protocol]
    exact hA.known a (h.all ▸ ha)
  id a ha := by
    rw [h.id]
    exact hA.id a (h.all ▸ ha)
  bound a ha := by
    rw [h.next]
    exact hA.bound a (h.all ▸ ha)

theorem SameIds.distinct (h : A.SameIds B) : B.Distinct ↔ A.Distinct := by
  rw [Distinct, Distinct, h.all, h.id]

/-- Accounts that are removed leave the others as they were. -/
theorem Sound.erased (h : A.Sound) (hB : ({ A with all := A.all.erase a } : Accounts).SameIds B) : B.Sound :=
  hB.sound ⟨h.protocols, fun b hb => h.known b (List.mem_of_mem_erase hb),
    fun b hb => h.id b (List.mem_of_mem_erase hb), fun b hb => h.bound b (List.mem_of_mem_erase hb)⟩

theorem Distinct.erased (h : A.Distinct) (hB : ({ A with all := A.all.erase a } : Accounts).SameIds B) :
    B.Distinct :=
  hB.distinct.mpr fun b hb c hc => h b (List.mem_of_mem_erase hb) c (List.mem_of_mem_erase hc)

section New

/-- On the accounts that are listed the two states agree. -/
structure Agree (A B : Accounts) : Prop where
  protocols : B.protocols = A.protocols
  all : B.all = A.all
  protocolId : ∀ b ∈ A.all, B.protocolId b = A.protocolId b
  id : ∀ b ∈ A.all, B.id b = A.id b

theorem Agree.protocol (h : A.Agree B) {b : AccountRef} (hb : b ∈ A.all) : B.protocol b = A.protocol b := by
  rw [Accounts.protocol, Accounts.protocol, getProtocolByPurpleID, getProtocolByPurpleID, h.protocols,
    h.protocolId b hb]

theorem Agree.sound (h : A.Agree B) (hnext : A.next ≤ B.next) (hA : A.Sound) : B.Sound where
  protocols p hp := hA.protocols p (h.protocols ▸ hp)
  known b hb := by
    rw [h.all] at hb
    rw [h.protocol hb]
    exact hA.known b hb
  id b hb := by
    rw [h.all] at hb
    rw [h.id b hb]
    exact hA.id b hb
  bound b hb := by
    rw [h.all] at hb
    exact Nat.lt_of_lt_of_le (hA.bound b hb) hnext

theorem Agree.distinct (h : A.Agree B) : B.Distinct ↔ A.Distinct := by
  rw [Distinct, Distinct, h.all]
  refine forall₂_congr fun b hb => forall₂_congr fun c hc => ?_
  rw [h.id b hb, h.id c hc]

theorem Agree.free (h : A.Agree B) {id : Str} : B.Free a id ↔ A.Free a id := by
  rw [Free, Free, h.all]
  refine forall₂_congr fun b hb => ?_
  rw [h.id b hb]

theorem Agree.offered (h : A.Agree B) {id : Str} : B.Offered p a id ↔ A.Offered p a id := by
  have hnamed : B.named p a = A.named p a := by
    funext s
    rw [Bool.eq_iff_iff, named_iff, named_iff, h.all]
    refine exists_congr fun b => and_congr_right fun hb => ?_
    rw [h.protocol hb, h.id b hb]
  rw [Offered, Offered, hnamed]

theorem Agree.taken (h : A.Agree B) : B.Taken p a ↔ A.Taken p a := by
  simp only [Taken, h.offered, h.free]

/-- A new account is on no list. -/
theorem Sound.newAccount (h : A.Sound) (username protocolId : Str) :
    A.Agree (A.newAccount username protocolId none).2 ∧ (A.newAccount username protocolId none).2.Sound ∧
      A.next ∉ A.all := by
  have hne : ∀ b ∈ A.all, b ≠ A.next := fun b hb => Nat.ne_of_lt (h.bound b hb)
  have hagree : A.Agree (A.newAccount username protocolId none).2 :=
    ⟨rfl, rfl, fun b hb => update_of_ne (hne b hb) _ _, fun b hb => update_of_ne (hne b hb) _ _⟩
  exact ⟨hagree, hagree.sound (Nat.le_succ _) h, fun hmem => hne _ hmem rfl⟩

/-- An account that is added to the list. -/
theorem Sound.added (h : A.Sound) (hp : (A.protocol a).isSome = true) (hid : A.id a ≠ [])
    (hbound : a < A.next) (hB : ({ A with all := A.all ++ [a] } : Accounts).SameIds B) : B.Sound := by
  refine hB.sound ⟨h.protocols, fun b hb => ?_, fun b hb => ?_, fun b hb => ?_⟩
  · rcases List.mem_append.mp hb with hb | hb
    · exact h.known b hb
    · exact List.mem_singleton.mp hb ▸ hp
  · rcases List.mem_append.mp hb with hb | hb
    · exact h.id b hb
    · exact List.mem_singleton.mp hb ▸ hid
  · rcases List.mem_append.mp hb with hb | hb
    · exact h.bound b hb
    · exact List.mem_singleton.mp hb ▸ hbound

theorem Distinct.added (h : A.Distinct)
    (hB : ({ A with all := A.all ++ [a] } : Accounts).SameIds B) (ha : a ∉ A.all) :
    B.Distinct ↔ A.Free a (A.id a) := by
  rw [hB.distinct]
  constructor
  · intro hd b hb hne he
    exact hne (hd b (List.mem_append_left _ hb) a (List.mem_append_right _ (List.mem_singleton.mpr rfl)) he)
  · intro hfree b hb c hc he
    have hne : ∀ d ∈ A.all, d ≠ a := fun d hd hda => ha (hda ▸ hd)
    rcases List.mem_append.mp hb with hb' | hb' <;> rcases List.mem_append.mp hc with hc' | hc'
    · exact h b hb' c hc' he
    · rw [List.mem_singleton.mp hc'] at he
      exact absurd he (hfree b hb' (hne b hb'))
    · rw [List.mem_singleton.mp hb'] at he
      exact absurd he.symm (hfree c hc' (hne c hc'))
    · rw [List.mem_singleton.mp hb', List.mem_singleton.mp hc']

end New

section Settings

variable {S : Settings}

theorem getAccountsList_settings (A : Accounts) (S : Settings) :
    ({ A with settings := S } : Accounts).getAccountsList =
      (A.getAccountsList.1, { A.getAccountsList.2 with settings := S }) := by
  have hgen : ∀ (l : List AccountRef) (m : OrdMap Str AccountRef) (A : Accounts),
      l.foldl listAccount (m, { A with settings := S }) =
        ((l.foldl listAccount (m, A)).1, { (l.foldl listAccount (m, A)).2 with settings := S }) := by
    intro l
    induction l with
    | nil => exact fun m A => rfl
    | cons a l ih =>
      intro m A
      have hone : listAccount (m, { A with settings := S }) a =
          ((listAccount (m, A) a).1, { (listAccount (m, A) a).2 with settings := S }) := by
        have hproto : ({ A with settings := S } : Accounts).protocol a = A.protocol a := rfl
        have hget : ({ A with settings := S } : Accounts).getID a =
            ((A.getID a).1, { (A.getID a).2 with settings := S }) := by
          rw [getID, getID, hproto]
          split
          · cases A.protocol a <;> rfl
          · rfl
        rw [listAccount, listAccount, hproto, hget]
        split <;> rfl
      rw [List.foldl_cons, List.foldl_cons, hone]
      exact ih _ _
  exact hgen A.all {} A

theorem badAccid_settings :
    ({ A with settings := S } : Accounts).BadAccid p a value ↔ A.BadAccid p a value := by
  have hget : ∀ (A : Accounts) name,
      (({ A with settings := S } : Accounts).getAccount name).1 = (A.getAccount name).1 := by
    intro A name
    rw [getAccount, getAccount, getAccountsList_settings]
    rfl
  rw [BadAccid, BadAccid, ← hget (A.setID a (A.current p a))]
  exact Iff.rfl

theorem given_settings : ({ A with settings := S } : Accounts).given p a value = A.given p a value := by
  rw [given, given]
  simp only [badAccid_settings]
  rfl

end Settings

end Accounts

namespace IM

open Accounts Options

variable {P : Purple} {decode : Str → Str} {s t : IM} {a : AccountRef} {p : Protocol} {options : Options}
  {e : Event}

/-- `setOptions` gives the account the ID that is asked for, and fails exactly if that or the status
channel is refused. -/
theorem setOptions_ids (h : s.accounts.Sound) (hp : s.accounts.protocol a = some p) (ho : Proper options) :
    (s.accounts.setID a (s.accounts.given p a (wanted options "accid"))).SameIds
        (s.setOptions P a options).2.accounts ∧
      ((s.setOptions P a options).1 = none ↔ ¬ s.accounts.BadAccid p a (wanted options "accid") ∧
        ¬ BadChannel s.accounts a (wanted options "status_channel")) := by
  obtain ⟨S, S', S'', hcases⟩ := setOptions_cases (P := P) (s := s) (a := a) ho
  obtain ⟨hbad, hset⟩ := Sound.setAccid (A := (s.withSettings S).accounts) (a := a) (p := p)
    ⟨h.protocols, h.known, h.id, h.bound⟩ hp (wanted options "accid")
  have hbad := hbad.trans (badAccid_settings (A := s.accounts))
  have hset := hset.trans (congrArg _ (given_settings (A := s.accounts)))
  rw [hset] at hcases
  rcases hcases with ⟨reason, hr, he⟩ | ⟨hr, t, rfl, ⟨reason, hchan, he⟩ | ⟨hchan, he⟩⟩
  · rw [hr] at hbad
    rw [he]
    exact ⟨⟨rfl, rfl, rfl, rfl, rfl⟩, iff_of_false nofun fun hok => hok.1 (hbad.mp rfl)⟩
  · rw [he]
    exact ⟨⟨rfl, rfl, rfl, rfl, rfl⟩, iff_of_false nofun fun hok => hok.2 hchan⟩
  · rw [hr] at hbad
    rw [he]
    refine ⟨?_, iff_of_true rfl ⟨fun hb => absurd (hbad.mpr hb) nofun, hchan⟩⟩
    rw [setChannel]
    split
    · exact ⟨rfl, rfl, rfl, rfl, rfl⟩
    · exact ⟨rfl, rfl, rfl, rfl, rfl⟩

section Add

variable {username : Str}

theorem existing_iff {q : Protocol} {found : Option AccountRef} (h : s.existing q found = some a) :
    a ∈ s.accounts.all ∧ s.accounts.alive a = true ∧ s.accounts.protocolId a = q.purpleId := by
  obtain ⟨-, hcond⟩ := Option.filter_eq_some_iff.mp h
  simp only [Bool.and_eq_true, decide_eq_true_eq, List.contains_iff_mem] at hcond
  exact ⟨hcond.1.1, hcond.1.2, hcond.2⟩

theorem readAdd_unique {args : List Str} {q q' : Protocol} {username' : Str} {options' : Options}
    (h : s.readAdd decode args = .ok (q, username, options))
    (h' : s.readAdd decode args = .ok (q', username', options')) :
    q = q' ∧ username = username' ∧ options = options' := by
  simpa using h.symm.trans h'

/-- An account of the list that is added again keeps its place. -/
theorem addAccount_existing (h : s.accounts.Sound) (ha : a ∈ s.accounts.all)
    (hp : s.accounts.protocol a = some p) (ho : Proper options) {q : Protocol} :
    (s.accounts.setID a (s.accounts.given p a (wanted options "accid"))).SameIds
      (s.addAccount P q username options (some a)).accounts := by
  obtain ⟨hids, -⟩ := setOptions_ids (P := P) (s := s.setAccounts P s.accounts) h hp ho
  rcases addAccount_cases (P := P) s q username options (some a) with ⟨reason, -, he⟩ | ⟨-, he⟩
  · rw [he]
    exact hids.trans ⟨rfl, rfl, rfl, rfl, rfl⟩
  · rw [he]
    refine hids.trans ?_
    change Accounts.SameIds _ (Accounts.add _ a)
    rw [add_of_mem]
    · exact .refl _
    · exact hids.all ▸ ha

/-- A new account has the ID that is asked for or else the name that its protocol leaves it, which an
account of another protocol may have. -/
theorem addAccount_new (h : s.accounts.Sound) (ho : Proper options) {q : Protocol}
    (hp : s.accounts.getProtocolByPurpleID q.purpleId = some p) :
    (s.addAccount P q username options none).accounts.Sound ∧ (s.accounts.Distinct →
      ((s.addAccount P q username options none).accounts.Distinct ↔
        ¬ ((wanted options "accid" = [] ∨ s.accounts.Offered p s.accounts.next (wanted options "accid")) ∧
          (wanted options "status_channel" = [] ∨ isStatusName (wanted options "status_channel") = true) ∧
          s.accounts.Taken p s.accounts.next))) := by
  obtain ⟨hagree, hsound, hnew⟩ := h.newAccount username q.purpleId
  have hcases := addAccount_cases (P := P) s q username options none
  have hnext : s.accounts.next < (s.accounts.newAccount username q.purpleId none).2.next := Nat.lt_succ_self _
  have hid : (s.accounts.newAccount username q.purpleId none).2.id s.accounts.next = [] := update_self _ _ _
  have hchan : (s.accounts.newAccount username q.purpleId none).2.channel s.accounts.next = [] :=
    update_self _ _ _
  have hconn : (s.accounts.newAccount username q.purpleId none).2.connected s.accounts.next = false :=
    update_self _ _ _
  have hproto : (s.accounts.newAccount username q.purpleId none).2.protocol s.accounts.next = some p :=
    (newAccount_protocol ..).trans hp
  dsimp only at hcases
  generalize hA : (s.accounts.newAccount username q.purpleId none).2 = A at *
  generalize ha : s.accounts.next = a at *
  have href : (s.accounts.newAccount username q.purpleId none).1 = a := ha
  rw [href] at hcases
  have hnew' : a ∉ A.all := by rwa [hagree.all]
  obtain ⟨hids, hok⟩ := setOptions_ids (P := P) (s := s.setAccounts P A) hsound hproto ho
  set x := A.given p a (wanted options "accid") with hx
  have hset : A.Agree (A.setID a x) :=
    ⟨rfl, rfl, fun _ _ => rfl, fun b hb => update_of_ne (fun hba : b = a => hnew' (hba ▸ hb)) _ _⟩
  have hsetSound : (A.setID a x).Sound := hsound.setID (hsound.given_ne_nil hproto)
  rw [← hagree.distinct, ← hagree.offered, ← hagree.taken]
  rcases hcases with ⟨reason, hr, he⟩ | ⟨hr, he⟩
  · rw [he]
    have hsame : (A.setID a x).SameIds ((setOptions P (s.setAccounts P A) a options).2.accounts.destroy a) :=
      hids.trans ⟨rfl, rfl, rfl, rfl, rfl⟩
    refine ⟨hsame.sound hsetSound, fun hd => iff_of_true (hsame.distinct.mpr (hset.distinct.mpr hd)) ?_⟩
    rintro ⟨hname, hfits, -⟩
    refine absurd (hok.mpr ⟨?_, ?_⟩) (by rw [hr]; exact Option.some_ne_none reason)
    · rintro ⟨hne, hbad⟩
      change A.current p a ≠ _ at hne
      change A.connected a = true ∨ _ at hbad
      rw [current, if_pos hid] at hne
      rw [hconn] at hbad
      have hv := (hbad.resolve_left Bool.false_ne_true).1
      exact hname.elim hv fun hoff => hne (offered_iff.mp hoff)
    · rintro ⟨hne, hbad⟩
      change A.channel a ≠ _ at hne
      rw [hchan] at hne
      rcases hfits with hfits | hfits
      · exact hne hfits.symm
      · rw [hbad] at hfits
        cases hfits
  · rw [he]
    obtain ⟨hgood, hfits⟩ := hok.mp hr
    have hall : (setOptions P (s.setAccounts P A) a options).2.accounts.all = A.all := hids.all
    have hsame : ({ A.setID a x with all := (A.setID a x).all ++ [a] } : Accounts).SameIds
        ((setOptions P (s.setAccounts P A) a options).2.accounts.add a) := by
      rw [add_of_not_mem (hall ▸ hnew')]
      exact ⟨hids.protocols, hids.protocolId, congrArg (· ++ [a]) hids.all, hids.id, hids.next⟩
    have hself : (A.setID a x).id a = x := update_self _ _ _
    refine ⟨hsetSound.added ?_ ?_ hnext hsame, fun hd => ?_⟩
    · exact Option.isSome_iff_exists.mpr ⟨p, hproto⟩
    · rw [hself]
      exact hsound.given_ne_nil hproto
    · refine ((hset.distinct.mpr hd).added hsame hnew').trans ?_
      rw [hself, hset.free, hx, hsound.free_given_new hd hnew' hid hproto hgood]
      refine not_congr (and_congr_right fun _ => (and_iff_right ?_).symm)
      by_contra hc
      rw [not_or, Bool.not_eq_true] at hc
      refine hfits ⟨?_, hc.2⟩
      change A.channel a ≠ _
      rw [hchan]
      exact Ne.symm hc.1

end Add

/-- The event gives an account a name of its protocol that an account of another protocol has. -/
def Clash (decode : Str → Str) (s : IM) : Event → Prop
  | .add args found => ∃ proto username options p,
      s.readAdd decode args = .ok (proto, username, options) ∧
      s.accounts.getProtocolByPurpleID proto.purpleId = some p ∧
      match s.existing proto found with
      | some a => wanted options "accid" = [] ∧ s.accounts.connected a = false ∧ s.accounts.Taken p a
      | none =>
        (wanted options "accid" = [] ∨ s.accounts.Offered p s.accounts.next (wanted options "accid")) ∧
          (wanted options "status_channel" = [] ∨ isStatusName (wanted options "status_channel") = true) ∧
          s.accounts.Taken p s.accounts.next
  | .edit account key value => ∃ a p,
      (s.accounts.getAccount account).1 = some a ∧ s.accounts.protocol a = some p ∧
      key = str "accid" ∧ joinWords value = [] ∧ s.accounts.connected a = false ∧ s.accounts.Taken p a
  | _ => False

/-- A step on the accounts that keeps their IDs apart exactly if the event does not clash. -/
def Keeps (decode : Str → Str) (s : IM) (e : Event) (B : Accounts) : Prop :=
  B.Sound ∧ (B.Distinct ↔ ¬ s.Clash decode e)

theorem keeps_of_sameIds {B : Accounts} (h : s.accounts.Sound) (hB : s.accounts.SameIds B)
    (hno : ¬ s.Clash decode e) : B.Sound ∧ (s.accounts.Distinct → s.Keeps decode e B) :=
  ⟨hB.sound h, fun hd => ⟨hB.sound h, iff_of_true (hB.distinct.mpr hd) hno⟩⟩

theorem mapAdd_keeps (h : s.accounts.Sound) (args : List Str) (found : Option AccountRef) :
    (s.mapAdd P decode args found).accounts.Sound ∧ (s.accounts.Distinct →
      s.Keeps decode (.add args found) (s.mapAdd P decode args found).accounts) := by
  unfold mapAdd
  split
  · next reason hr =>
    refine keeps_of_sameIds h (.refl _) ?_
    rintro ⟨proto, username, options, p, hok, -⟩
    rw [hr] at hok
    cases hok
  · next proto username options hr =>
    obtain ⟨hproto, hproper⟩ := readAdd_ok hr
    obtain ⟨p, hp, -⟩ := getProtocol_some hproto
    -- what is read, and with it the protocol, is the same in both directions
    have hclash : s.Clash decode (.add args found) ↔
        match s.existing proto found with
        | some a => wanted options "accid" = [] ∧ s.accounts.connected a = false ∧ s.accounts.Taken p a
        | none =>
          (wanted options "accid" = [] ∨ s.accounts.Offered p s.accounts.next (wanted options "accid")) ∧
            (wanted options "status_channel" = [] ∨ isStatusName (wanted options "status_channel") = true) ∧
            s.accounts.Taken p s.accounts.next := by
      constructor
      · rintro ⟨proto', username', options', p', hr', hp', hmatch⟩
        obtain ⟨rfl, rfl, rfl⟩ := readAdd_unique hr hr'
        rw [hp] at hp'
        obtain rfl := Option.some.inj hp'
        exact hmatch
      · exact fun hmatch => ⟨proto, username, options, p, hr, hp, hmatch⟩
    rw [Keeps, hclash]
    cases hex : s.existing proto found with
    | none =>
      obtain ⟨hsound, hiff⟩ : (s.addAccount P proto username options none).accounts.Sound ∧ _ :=
        addAccount_new h hproper hp
      exact ⟨hsound, fun hd => ⟨hsound, hiff hd⟩⟩
    | some a =>
      obtain ⟨ha, -, hid⟩ := existing_iff hex
      have hpa : s.accounts.protocol a = some p := by
        rw [← hp, Accounts.protocol, hid]
      have hids : (s.accounts.setID a (s.accounts.given p a (wanted options "accid"))).SameIds
          (s.addAccount P proto username options (some a)).accounts :=
        addAccount_existing h ha hpa hproper
      have hsound := hids.sound (h.setID (h.given_ne_nil hpa))
      refine ⟨hsound, fun hd => ⟨hsound, ?_⟩⟩
      rw [hids.distinct, hd.setID ha]
      exact h.free_given hd ha hpa

theorem mapEdit_keeps (h : s.accounts.Sound) (account key : Str) (value : List Str) :
    (s.mapEdit P account key value).accounts.Sound ∧ (s.accounts.Distinct →
      s.Keeps decode (.edit account key value) (s.mapEdit P account key value).accounts) := by
  obtain ⟨errors, hcases⟩ := mapEdit_cases (P := P) s account key value
  rw [h.getAccount] at hcases
  rcases hcases with ⟨hnone, he⟩ | ⟨a, hsome, hcases⟩
  · rw [he]
    refine keeps_of_sameIds h (.refl _) ?_
    rintro ⟨a, p, hsome, -⟩
    rw [hnone] at hsome
    cases hsome
  have ha := h.getAccount_mem hsome
  obtain ⟨p, hp⟩ := Option.isSome_iff_exists.mp (h.known a ha)
  have hclash : s.Clash decode (.edit account key value) ↔ key = str "accid" ∧ joinWords value = [] ∧
      s.accounts.connected a = false ∧ s.accounts.Taken p a := by
    constructor
    · rintro ⟨a', p', hsome', hp', hrest⟩
      rw [hsome] at hsome'
      obtain rfl := Option.some.inj hsome'
      rw [hp] at hp'
      obtain rfl := Option.some.inj hp'
      exact hrest
    · exact fun hrest => ⟨a, p, hsome, hp, hrest⟩
  rw [Keeps, hclash]
  rcases hcases with ⟨reason, hr, he⟩ | ⟨options, hr, he⟩
  · rw [he]
    refine ⟨h, fun hd => ⟨h, iff_of_true hd ?_⟩⟩
    rintro ⟨rfl, -⟩
    obtain ⟨options, hok⟩ := readEdit_accid hp (joinWords value)
    rw [hr] at hok
    cases hok
  · obtain ⟨hproper, hacc, -⟩ := readEdit_ok hp hr
    obtain ⟨hids, -⟩ := setOptions_ids (P := P) (s := s.setAccounts P s.accounts) h hp hproper
    have hids : (s.accounts.setID a (s.accounts.given p a (wanted options "accid"))).SameIds
        (s.mapEdit P account key value).accounts := by
      rw [he]
      exact hids
    have hsound := hids.sound (h.setID (h.given_ne_nil hp))
    refine ⟨hsound, fun hd => ⟨hsound, ?_⟩⟩
    rw [hids.distinct, hd.setID ha, h.free_given hd ha hp, hacc]
    split
    · next hkey => exact not_congr (and_iff_right hkey).symm
    · next hkey => exact iff_of_true (fun hc => h.id a ha hc.1) fun hc => hkey hc.1

theorem removeBuddies_accounts (l : List BuddyRef) (s : IM) :
    (l.foldl (fun s b => s.removeBuddy P b) s).accounts = s.accounts := by
  induction l generalizing s with
  | nil => rfl
  | cons b l ih => exact ih _

theorem disconnect_accounts (s : IM) (a : AccountRef) (left : List ConvRef) :
    ∃ c, (s.disconnect P a left).accounts = { s.accounts with connected := c } := by
  unfold disconnect
  split
  · exact ⟨_, rfl⟩
  · exact ⟨_, rfl⟩

theorem deleteAccount_ids (s : IM) (a : AccountRef) (left : List ConvRef) :
    ({ s.accounts with all := s.accounts.all.erase a } : Accounts).SameIds
      (s.deleteAccount P a left).accounts := by
  obtain ⟨c, hc⟩ := disconnect_accounts (P := P) s a left
  unfold deleteAccount
  dsimp only
  rw [removeBuddies_accounts]
  change Accounts.SameIds _ (((s.disconnect P a left).accounts.remove a).destroy a)
  rw [hc]
  exact ⟨rfl, rfl, rfl, rfl, rfl⟩

theorem mapDelete_keeps (h : s.accounts.Sound) (account : Str) (left : List ConvRef) :
    (s.mapDelete P account left).accounts.Sound ∧ (s.accounts.Distinct →
      s.Keeps decode (.delete account left) (s.mapDelete P account left).accounts) := by
  unfold mapDelete
  dsimp only
  rw [h.getAccount]
  split
  · exact keeps_of_sameIds h (.refl _) nofun
  · next a _ =>
    have hids := deleteAccount_ids (P := P) (s.setAccounts P s.accounts) a left
    exact ⟨h.erased hids, fun hd => ⟨h.erased hids, iff_of_true (hd.erased hids) nofun⟩⟩

/-- What one event does to the IDs. -/
theorem after_keeps (h : s.accounts.Sound) (e : Event) :
    (s.after P decode e).accounts.Sound ∧
      (s.accounts.Distinct → s.Keeps decode e (s.after P decode e).accounts) := by
  cases e with
  | add args found => exact mapAdd_keeps h args found
  | edit account key value => exact mapEdit_keeps h account key value
  | delete account left => exact mapDelete_keeps h account left
  | connected a =>
    refine keeps_of_sameIds h ?_ nofun
    change Accounts.SameIds _ (s.connect P a).accounts
    unfold connect
    split
    · exact .refl _
    · exact ⟨rfl, rfl, rfl, rfl, rfl⟩
  | disconnected a left =>
    refine keeps_of_sameIds h ?_ nofun
    obtain ⟨c, hc⟩ := disconnect_accounts (P := P) s a left
    change Accounts.SameIds _ (s.disconnect P a left).accounts
    rw [hc]
    exact ⟨rfl, rfl, rfl, rfl, rfl⟩
  | presence b p =>
    refine keeps_of_sameIds h ?_ nofun
    change Accounts.SameIds _ (s.setPresence P b p).accounts
    unfold setPresence
    split
    · exact .refl _
    · exact .refl _
  | buddyRemoved b =>
    refine keeps_of_sameIds h ?_ nofun
    change Accounts.SameIds _ (if _ then s.removeBuddy P b else s).accounts
    split
    · exact .refl _
    · exact .refl _
  | voicedBuddies enabled =>
    refine keeps_of_sameIds h ?_ nofun
    change Accounts.SameIds _ (s.setVoicedBuddies P enabled).accounts
    unfold setVoicedBuddies
    split
    · exact .refl _
    · dsimp only
      rw [h.listed]
      exact .refl _

theorem step_some (h : s.step P decode e = some t) : s.intact = true ∧ t = s.after P decode e := by
  unfold step at h
  split at h
  · next hs => exact ⟨hs, (Option.some.inj h).symm⟩
  · cases h

end IM

/-- No two accounts have the same ID; every account is listed under its own, and nothing else is listed
under it; and `IM::getAccount` finds the account by its ID, unless that is also a server's name. -/
structure Accounts.Unique (A : Accounts) : Prop where
  distinct : A.Distinct
  listed : ∀ a ∈ A.all, ∀ b, (A.id a, b) ∈ A.getAccountsList.1.entries ↔ b = a
  found : ∀ a ∈ A.all, ∃ b, (A.getAccount (A.id a)).1 = some b ∧ (b = a ∨ A.getServername b = A.id a)

namespace Accounts

variable {A : Accounts}

theorem Sound.unique_iff (h : A.Sound) : A.Unique ↔ A.Distinct := by
  refine ⟨Unique.distinct, fun hd => ⟨hd, fun a ha b => ⟨fun hb => ?_, ?_⟩, fun a ha => ?_⟩⟩
  · exact OrdMap.mem_unique hb (h.listed_of_distinct hd ha)
  · rintro rfl
    exact h.listed_of_distinct hd ha
  · cases hget : (A.getAccount (A.id a)).1 with
    | none => exact (h.getAccount_none hd hget ha rfl).elim
    | some b =>
      refine ⟨b, rfl, ?_⟩
      have hname := List.find?_some hget
      rw [h.listed, Bool.or_eq_true, decide_eq_true_eq, decide_eq_true_eq] at hname
      exact hname.symm.imp_left fun hid => hd b (h.getAccount_mem hget) a ha hid

end Accounts

section TwoProtocols

open IM Accounts Runs

/-- Two protocols, and no account yet. -/
def twoProtocols : IM := start World.noPurple { protocols := [{ purpleId := str "prpl-jabber" }, { purpleId := str "prpl-msn" }] } {}

def addTwo (msn : List Str) : List IM.Event :=
  [.add ([str "msn", str "ann"] ++ msn) none, .add [str "jabber", str "bob"] none]

end TwoProtocols

end Minbif
