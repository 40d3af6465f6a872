import Minbif.World.Board
import Minbif.World.MapIds

/-! The status channels of the accounts along a session. -/
namespace Minbif
open Function

namespace Accounts

/-- No later account of the list has the same ID. -/
def Shown (id : AccountRef → Str) (l : List AccountRef) (a : AccountRef) : Prop :=
  ∃ l₁ l₂, l = l₁ ++ a :: l₂ ∧ ∀ b ∈ l₂, id b ≠ id a

/-- What libpurple stores: accounts that exist, each of a protocol that is known, with an ID or
without. -/
structure Stored (A : Accounts) : Prop where
  protocols : ∀ p ∈ A.protocols, p.getID ≠ []
  known : ∀ a ∈ A.all, (A.protocol a).isSome = true
  alive : ∀ a ∈ A.all, A.alive a = true
  bound : ∀ a ∈ A.all, a < A.next
  nodup : A.all.Nodup

variable {A B : Accounts} {id id' : AccountRef → Str} {l pre : List AccountRef} {a b : AccountRef}

theorem Shown.mem (h : Shown id l a) : a ∈ l := by
  obtain ⟨l₁, l₂, rfl, -⟩ := h
  simp

theorem shown_concat : Shown id (l ++ [b]) a ↔ a = b ∨ (Shown id l a ∧ id b ≠ id a) := by
  constructor
  · rintro ⟨l₁, l₂, heq, hlater⟩
    rcases List.eq_nil_or_concat l₂ with rfl | ⟨l₂, c, rfl⟩
    · obtain ⟨-, hab⟩ := List.append_inj' heq rfl
      exact .inl (List.cons.inj hab).1.symm
    · rw [List.concat_eq_append] at heq hlater
      rw [← List.cons_append, ← List.append_assoc] at heq
      obtain ⟨rfl, hbc⟩ := List.append_inj' heq rfl
      obtain rfl := (List.cons.inj hbc).1
      exact .inr ⟨⟨l₁, l₂, rfl, fun c hc => hlater c (by simp [hc])⟩, hlater b (by simp)⟩
  · rintro (rfl | ⟨⟨l₁, l₂, rfl, hlater⟩, hne⟩)
    · exact ⟨l, [], rfl, nofun⟩
    · refine ⟨l₁, l₂ ++ [b], by simp, fun c hc => ?_⟩
      rcases List.mem_append.mp hc with hc | hc
      · exact hlater c hc
      · exact List.mem_singleton.mp hc ▸ hne

theorem shown_congr (h : ∀ b ∈ l, id' b = id b) : Shown id' l a ↔ Shown id l a := by
  refine exists_congr fun l₁ => exists_congr fun l₂ => and_congr_right ?_
  rintro rfl
  refine forall₂_congr fun b hb => ?_
  rw [h b (by simp [hb]), h a (by simp)]

/-- What the loop of `getAccountsList` has done after some accounts. -/
structure Listing (A : Accounts) (pre : List AccountRef) (r : OrdMap Str AccountRef × Accounts) :
    Prop where
  rest : r.2 = { A with id := r.2.id }
  id : ∀ a ∈ pre, r.2.id a ≠ []
  entries : ∀ k a, (k, a) ∈ r.1.entries ↔ Shown r.2.id pre a ∧ k = r.2.id a

theorem Listing.next {r : OrdMap Str AccountRef × Accounts} (h : Listing A pre r) (hA : A.Stored)
    (ha : a ∈ A.all) (hnew : a ∉ pre) : Listing A (pre ++ [a]) (listAccount r a) := by
  obtain ⟨p, hp⟩ := Option.isSome_iff_exists.mp (hA.known a ha)
  have hproto : r.2.protocol a = some p := by
    rw [← hp, h.rest]
    rfl
  have hcur : r.2.current p a ≠ [] := by
    rw [current]
    split
    · obtain ⟨i, hname, -⟩ := r.2.offered p a
      rw [hname]
      exact numbered_ne_nil (hA.protocols p (protocol_mem hp))
    · next hne => exact hne
  have hself : (r.2.setID a (r.2.current p a)).id a = r.2.current p a := update_self ..
  have hother : ∀ b ∈ pre, (r.2.setID a (r.2.current p a)).id b = r.2.id b := by
    intro b hb
    have hne : b ≠ a := fun hba => hnew (hba ▸ hb)
    exact update_of_ne hne ..
  rw [listAccount, hproto, getID_eq hproto]
  generalize r.2.current p a = x at *
  refine ⟨?_, fun b hb => ?_, fun k b => ?_⟩
  · change r.2.setID a x = { A with id := (r.2.setID a x).id }
    rw [h.rest]
    rfl
  · change (r.2.setID a x).id b ≠ []
    rcases List.mem_append.mp hb with hb | hb
    · rw [hother b hb]
      exact h.id b hb
    · rw [List.mem_singleton.mp hb, hself]
      exact hcur
  · change (k, b) ∈ (r.1.insert x a).entries ↔
      Shown (r.2.setID a x).id (pre ++ [a]) b ∧ k = (r.2.setID a x).id b
    rw [OrdMap.mem_insert, h.entries, shown_concat, shown_congr hother, hself]
    constructor
    · rintro (⟨rfl, rfl⟩ | ⟨hk, hb, rfl⟩)
      · exact ⟨.inl rfl, hself.symm⟩
      · rw [hother b hb.mem]
        exact ⟨.inr ⟨hb, Ne.symm hk⟩, rfl⟩
    · rintro ⟨rfl | ⟨hb, hne⟩, rfl⟩
      · exact .inl ⟨hself, rfl⟩
      · rw [hother b hb.mem] at hne ⊢
        exact .inr ⟨Ne.symm hne, hb, rfl⟩

/-- The accounts that are listed are those that no later one hides, each once. -/
theorem Stored.listing (hA : A.Stored) : Listing A A.all A.getAccountsList := by
  have hgen : ∀ (l pre : List AccountRef) (r : OrdMap Str AccountRef × Accounts),
      A.all = pre ++ l → Listing A pre r → Listing A A.all (l.foldl listAccount r) := by
    intro l
    induction l with
    | nil =>
      intro pre r hall hr
      rw [hall, List.append_nil]
      exact hr
    | cons a l ih =>
      intro pre r hall hr
      have hnodup := hA.nodup
      rw [hall] at hnodup
      have hnew : a ∉ pre := fun ha => (List.nodup_append.mp hnodup).2.2 a ha a (by simp) rfl
      refine ih (pre ++ [a]) (listAccount r a) (by rw [hall]; simp) ?_
      exact hr.next hA (by rw [hall]; simp) hnew
  refine hgen A.all [] ({}, A) rfl ⟨rfl, nofun, fun k a => iff_of_false nofun ?_⟩
  rintro ⟨hshown, -⟩
  cases hshown.mem

theorem Stored.sound (hA : A.Stored) : A.getAccountsList.2.Sound := by
  have h := hA.listing
  rw [h.rest]
  exact ⟨hA.protocols, hA.known, h.id, hA.bound⟩

theorem Stored.mem_values (hA : A.Stored) :
    a ∈ A.getAccountsList.1.values ↔ Shown A.getAccountsList.2.id A.all a := by
  rw [OrdMap.mem_values]
  constructor
  · rintro ⟨k, hk⟩
    exact ((hA.listing.entries k a).mp hk).1
  · exact fun h => ⟨_, (hA.listing.entries _ a).mpr ⟨h, rfl⟩⟩

theorem Stored.values_nodup (hA : A.Stored) : A.getAccountsList.1.values.Nodup := by
  have hsorted := A.getAccountsList.1.sorted
  have hnodup : A.getAccountsList.1.entries.Nodup :=
    hsorted.imp fun hlt heq => absurd (congrArg Prod.fst heq) (ne_of_lt hlt)
  refine List.Nodup.map_on ?_ hnodup
  rintro ⟨k, a⟩ hk ⟨k', a'⟩ hk' rfl
  have h := ((hA.listing.entries k a).mp hk).2
  have h' := ((hA.listing.entries k' a).mp hk').2
  rw [h, h']

end Accounts

namespace IM

open Accounts Options

variable {P : Purple} {decode : Str → Str} {s t : IM} {a : AccountRef} {p : Protocol}
  {options : Options} {S : AccountRef → Prop} {e : Event}

/-- An account that is listed, and was not destroyed. -/
def Kept (s : IM) (a : AccountRef) : Prop := a ∈ s.accounts.all ∧ s.accounts.alive a = true

/-- A status channel exists exactly if it is that of an account, and has each of its accounts once
and no other. -/
def Placed (s : IM) : Prop := s.world.chans.Attached s.accounts.channel s.Kept

/-- What a session without a conversation keeps, whatever becomes of its accounts. -/
structure Moored (s : IM) : Prop where
  channel : s.world.data.statusChannel = s.accounts.channel
  convs : ∀ v, s.world.convs.alive v = false
  posted : s.world.chans.Posted

/-- The accounts that are listed, and their channels, are the same. -/
structure SameBoard (s t : IM) : Prop where
  chans : s.world.chans.SameBoard t.world.chans
  convs : t.world.convs.alive = s.world.convs.alive
  data : t.world.data.statusChannel = t.accounts.channel
  channel : t.accounts.channel = s.accounts.channel
  all : t.accounts.all = s.accounts.all
  alive : t.accounts.alive = s.accounts.alive

theorem Moored.refl (h : s.Moored) : s.SameBoard s := ⟨.refl _, rfl, h.channel, rfl, rfl, rfl⟩

theorem Moored.error (h : s.Moored) (reason : Str) : s.SameBoard (s.error reason) :=
  ⟨.refl _, rfl, h.channel, rfl, rfl, rfl⟩

theorem SameBoard.trans {u : IM} (h : s.SameBoard t) (h' : t.SameBoard u) : s.SameBoard u :=
  ⟨h.chans.trans h'.chans, h'.convs.trans h.convs, h'.data, h'.channel.trans h.channel,
    h'.all.trans h.all, h'.alive.trans h.alive⟩

/-- The accounts are as they were, and the world as much as matters. -/
theorem SameBoard.world (h : s.SameBoard t) {w : World} (hw : t.world.SameBoard w) :
    s.SameBoard { t with world := w } :=
  ⟨h.chans.trans hw.chans, hw.convs.trans h.convs, hw.channel.trans h.data, h.channel, h.all,
    h.alive⟩

theorem SameBoard.moored (h : s.SameBoard t) (hs : s.Moored) : t.Moored where
  channel := h.data
  convs v := by
    rw [h.convs]
    exact hs.convs v
  posted := h.chans.posted hs.posted

theorem SameBoard.kept (h : s.SameBoard t) : t.Kept a ↔ s.Kept a := by
  rw [Kept, Kept, h.all, h.alive]

theorem SameBoard.placed (h : s.SameBoard t) (hs : s.Placed) : t.Placed := by
  have hatt : t.world.chans.Attached t.accounts.channel s.Kept := by
    rw [h.channel]
    exact h.chans.attached hs
  exact hatt.congr fun a name _ => and_congr_left fun _ => h.kept.symm

section Options

/-- An account that is not there, or has no status channel, comes to the one it is given. -/
theorem setChannel_attached (h : s.Moored)
    (hatt : s.world.chans.Attached s.accounts.channel S)
    (ha : S a ∨ (s.accounts.channel a).head? ≠ some '&') (name : Str) :
    (s.setChannel P a name).Moored ∧
      (s.setChannel P a name).world.chans.Attached (s.setChannel P a name).accounts.channel
        (fun b => S b ∨ b = a) ∧
      ∃ channel, (s.setChannel P a name).accounts = { s.accounts with channel := channel } := by
  rw [setChannel]
  split
  · refine ⟨h, hatt.congr fun b name hname => and_congr_left ?_, s.accounts.channel, rfl⟩
    rintro rfl
    refine ⟨.inl, fun hb => hb.elim id ?_⟩
    rintro rfl
    exact ha.resolve_right (not_not_intro hname)
  have hatt' := hatt
  rw [← h.channel] at hatt'
  obtain ⟨hleft, hrest⟩ := World.leaveStatusChannel_attached h.posted hatt' a
  rw [h.channel] at hrest
  let t := ({ s with world := s.world.leaveStatusChannel a } : IM).setAccounts P
    { s.accounts with channel := update s.accounts.channel a name }
  have hgone : t.world.chans.Attached t.world.data.statusChannel fun b => S b ∧ b ≠ a := by
    refine hrest.congr fun b channame _ => ?_
    change _ ↔ (S b ∧ b ≠ a) ∧ update s.accounts.channel a name b = channame
    by_cases hba : b = a
    · simp [hba]
    · rw [update_of_ne hba]
  have hnew : ¬ (S a ∧ a ≠ a) := fun hin => hin.2 rfl
  obtain ⟨hposts, hfull⟩ := World.createStatusChannel_attached (P := P) (a := a)
    (w := t.world) hleft.posted hgone hnew
  refine ⟨⟨hposts.channel, fun v => ?_, hposts.posted⟩, ?_, _, rfl⟩
  · have hconvs : (t.world.createStatusChannel P a).convs.alive = s.world.convs.alive :=
      hposts.convs.trans hleft.convs
    exact (congrFun hconvs v).trans (h.convs v)
  · refine hfull.congr fun b channame _ => and_congr_left fun _ => ?_
    tauto

/-- What `setOptions` does to the channels: nothing if it fails. -/
theorem setOptions_attached (h : s.Moored) (hA : s.accounts.Sound)
    (hp : s.accounts.protocol a = some p) (ho : Proper options)
    (hatt : s.world.chans.Attached s.accounts.channel S)
    (ha : S a ∨ (s.accounts.channel a).head? ≠ some '&') :
    (s.setOptions P a options).2.Moored ∧
      (s.setOptions P a options).2.accounts.alive = s.accounts.alive ∧
      ((s.setOptions P a options).1 = none →
        (s.setOptions P a options).2.world.chans.Attached
          (s.setOptions P a options).2.accounts.channel fun b => S b ∨ b = a) ∧
      ((s.setOptions P a options).1 ≠ none →
        (s.setOptions P a options).2.world.chans = s.world.chans ∧
        (s.setOptions P a options).2.accounts.channel = s.accounts.channel) := by
  obtain ⟨S₁, S₂, S₃, hcases⟩ := setOptions_cases (P := P) (s := s) (a := a) ho
  obtain ⟨-, hset⟩ := Sound.setAccid (A := (s.withSettings S₁).accounts) (a := a) (p := p)
    ⟨hA.protocols, hA.known, hA.id, hA.bound⟩ hp (wanted options "accid")
  rw [hset] at hcases
  rcases hcases with ⟨reason, -, he⟩ | ⟨-, t, rfl, ⟨reason, -, he⟩ | ⟨-, he⟩⟩
  · rw [he]
    exact ⟨⟨rfl, h.convs, h.posted⟩, rfl, nofun, fun _ => ⟨rfl, rfl⟩⟩
  · rw [he]
    exact ⟨⟨rfl, h.convs, h.posted⟩, rfl, nofun, fun _ => ⟨rfl, rfl⟩⟩
  · rw [he]
    generalize ht : (IM.setAccounts P (s.withSettings S₁) _).withSettings S₂ = t
    have hmoored : t.Moored := by
      rw [← ht]
      exact ⟨rfl, h.convs, h.posted⟩
    have halive : t.accounts.alive = s.accounts.alive := by
      rw [← ht]
      rfl
    have hattt : t.world.chans.Attached t.accounts.channel S := by
      rw [← ht]
      exact hatt
    have hat : S a ∨ (t.accounts.channel a).head? ≠ some '&' := by
      rw [← ht]
      exact ha
    obtain ⟨hm, hfull, channel, hchan⟩ := setChannel_attached (P := P) hmoored hattt hat
      (wanted options "status_channel")
    refine ⟨⟨hm.channel, hm.convs, hm.posted⟩, ?_, fun _ => hfull, fun hno => absurd rfl hno⟩
    change (t.setChannel P a _).accounts.alive = _
    rw [hchan]
    exact halive

end Options

/-- MAP add of an account that exists and has a status channel is refused: it is destroyed, and on
the channel. -/
def Orphans (decode : Str → Str) (s : IM) : Event → Prop
  | .add args found => s.intact = true ∧ ∃ proto username options a p,
      s.readAdd decode args = .ok (proto, username, options) ∧
      s.existing proto found = some a ∧ s.accounts.protocol a = some p ∧
      (s.accounts.channel a).head? = some '&' ∧
      (s.accounts.BadAccid p a (wanted options "accid") ∨
        BadChannel s.accounts a (wanted options "status_channel"))
  | _ => False

/-- What the accounts and channels of a session keep. -/
structure Steady (s : IM) : Prop where
  sound : s.accounts.Sound
  nodup : s.accounts.all.Nodup
  moored : s.Moored

/-- What one event makes of the accounts and of the channels. -/
structure Holds (decode : Str → Str) (s : IM) (e : Event) (t : IM) : Prop where
  nodup : t.accounts.all.Nodup
  moored : t.Moored
  placed : t.Placed ↔ ¬ s.Orphans decode e

theorem SameBoard.holds (h : s.SameBoard t) (hs : s.Steady) (hp : s.Placed)
    (hno : ¬ s.Orphans decode e) : s.Holds decode e t := by
  refine ⟨?_, h.moored hs.moored, iff_of_true (h.placed hp) hno⟩
  rw [h.all]
  exact hs.nodup

section Add

variable {username : Str} {q : Protocol}

/-- An account that is added again stays on its channel, even if it is destroyed. -/
theorem addAccount_existing_placed (hs : s.Steady) (hp : s.Placed) (ha : s.Kept a)
    (hproto : s.accounts.protocol a = some p) (ho : Proper options) :
    (s.addAccount P q username options (some a)).accounts.all.Nodup ∧
      (s.addAccount P q username options (some a)).Moored ∧
      ((s.addAccount P q username options (some a)).Placed ↔
        ¬ ((s.accounts.channel a).head? = some '&' ∧
          (s.accounts.BadAccid p a (wanted options "accid") ∨
            BadChannel s.accounts a (wanted options "status_channel")))) := by
  let s₀ := s.setAccounts P s.accounts
  have hs₀ : s₀.Moored := ⟨rfl, hs.moored.convs, hs.moored.posted⟩
  obtain ⟨hids, hok⟩ := setOptions_ids (P := P) (s := s₀) hs.sound hproto ho
  have hset := setOptions_attached (P := P) (s := s₀) hs₀ hs.sound hproto ho hp (.inl ha)
  have hcases : (∃ reason, (s₀.setOptions P a options).1 = some reason ∧
        s.addAccount P q username options (some a) = ((s₀.setOptions P a options).2.setAccounts P
          ((s₀.setOptions P a options).2.accounts.destroy a)).error reason) ∨
      (s₀.setOptions P a options).1 = none ∧
        s.addAccount P q username options (some a) = (s₀.setOptions P a options).2.setAccounts P
          ((s₀.setOptions P a options).2.accounts.add a) :=
    addAccount_cases s q username options (some a)
  generalize s₀.setOptions P a options = r at *
  obtain ⟨refused, t⟩ := r
  obtain ⟨hmoored, halive, hfine, hrefused⟩ := hset
  have hall : t.accounts.all = s.accounts.all := hids.all
  have halive : t.accounts.alive = s.accounts.alive := halive
  rw [← not_or] at hok
  rcases hcases with ⟨reason, rfl, he⟩ | ⟨rfl, he⟩
  · rw [he]
    obtain ⟨hchans, hchannel⟩ := hrefused nofun
    have hbad := not_not.mp fun hno => nomatch hok.mpr hno
    refine ⟨?_, ⟨rfl, hmoored.convs, hmoored.posted⟩, ?_⟩
    · change t.accounts.all.Nodup
      rw [hall]
      exact hs.nodup
    change t.world.chans.Attached t.accounts.channel
      (fun b => b ∈ t.accounts.all ∧ update t.accounts.alive a false b = true) ↔ _
    rw [hchans, hchannel, hall, halive]
    constructor
    · rintro hatt ⟨hamp, -⟩
      -- the account is on its channel, as it was before
      obtain ⟨c, hc⟩ := Option.isSome_iff_exists.mp ((hp.opened _ hamp).mpr ⟨a, ha, rfl⟩)
      have hin := ((hp.once _ c hamp hc).2 a).mpr ⟨ha, rfl⟩
      have hnot := ((hatt.once _ c hamp hc).2 a).mp hin
      simp at hnot
    · intro hno
      refine Chans.Attached.congr hp fun b name hname => ?_
      by_cases hba : b = a
      · subst hba
        refine iff_of_false ?_ fun hb => by simp at hb
        rintro ⟨-, rfl⟩
        exact hno ⟨hname, hbad⟩
      · rw [update_of_ne hba]
        exact Iff.rfl
  · rw [he]
    rw [add_of_mem (hall ▸ ha.1)]
    refine ⟨?_, ⟨rfl, hmoored.convs, hmoored.posted⟩, iff_of_true ?_ fun hno => hok.mp rfl hno.2⟩
    · change t.accounts.all.Nodup
      rw [hall]
      exact hs.nodup
    · refine Chans.Attached.congr (hfine rfl) fun b name _ => and_congr_left fun _ => ?_
      change _ ↔ b ∈ t.accounts.all ∧ t.accounts.alive b = true
      rw [hall, halive]
      refine ⟨fun hb => hb.elim id ?_, .inl⟩
      rintro rfl
      exact ha

/-- A new account comes to its channel, unless it is refused. -/
theorem addAccount_new_placed (hs : s.Steady) (hp : s.Placed)
    (hproto : s.accounts.getProtocolByPurpleID q.purpleId = some p) (ho : Proper options) :
    (s.addAccount P q username options none).accounts.all.Nodup ∧
      (s.addAccount P q username options none).Moored ∧
      (s.addAccount P q username options none).Placed := by
  obtain ⟨hagree, hsound, hnew⟩ := hs.sound.newAccount username q.purpleId
  have hother : ∀ b ∈ s.accounts.all, b ≠ s.accounts.next :=
    fun b hb => Nat.ne_of_lt (hs.sound.bound b hb)
  let A := (s.accounts.newAccount username q.purpleId none).2
  let a := s.accounts.next
  let s₀ := s.setAccounts P A
  have hs₀ : s₀.Moored := ⟨rfl, hs.moored.convs, hs.moored.posted⟩
  have hchan : A.channel a = [] := update_self ..
  have hnamed : A.protocol a = some p := (newAccount_protocol ..).trans hproto
  have hkept : A.alive a = true := update_self ..
  have hatt : s₀.world.chans.Attached A.channel s.Kept := by
    refine hp.congr fun b name _ => and_congr_right fun hb => ?_
    change _ ↔ update s.accounts.channel s.accounts.next [] b = name
    rw [update_of_ne (hother b hb.1)]
  obtain ⟨hids, -⟩ := setOptions_ids (P := P) (s := s₀) hsound hnamed ho
  have hset := setOptions_attached (P := P) (s := s₀) hs₀ hsound hnamed ho hatt
    (.inr (by change (A.channel a).head? ≠ _; rw [hchan]; nofun))
  have hcases : (∃ reason, (s₀.setOptions P a options).1 = some reason ∧
        s.addAccount P q username options none = ((s₀.setOptions P a options).2.setAccounts P
          ((s₀.setOptions P a options).2.accounts.destroy a)).error reason) ∨
      (s₀.setOptions P a options).1 = none ∧
        s.addAccount P q username options none = (s₀.setOptions P a options).2.setAccounts P
          ((s₀.setOptions P a options).2.accounts.add a) :=
    addAccount_cases s q username options none
  generalize s₀.setOptions P a options = r at *
  obtain ⟨refused, t⟩ := r
  obtain ⟨hmoored, halive, hfine, hrefused⟩ := hset
  have hall : t.accounts.all = s.accounts.all := hids.all
  have halive : t.accounts.alive = update s.accounts.alive a true := halive
  have hlives : ∀ b ∈ s.accounts.all, t.accounts.alive b = s.accounts.alive b := by
    intro b hb
    rw [halive, update_of_ne (hother b hb)]
  rcases hcases with ⟨reason, rfl, he⟩ | ⟨rfl, he⟩
  · rw [he]
    obtain ⟨hchans, hchannel⟩ := hrefused nofun
    refine ⟨?_, ⟨rfl, hmoored.convs, hmoored.posted⟩, ?_⟩
    · change t.accounts.all.Nodup
      rw [hall]
      exact hs.nodup
    change t.world.chans.Attached t.accounts.channel
      (fun b => b ∈ t.accounts.all ∧ update t.accounts.alive a false b = true)
    rw [hchans, hchannel, hall]
    refine hatt.congr fun b name _ => and_congr_left fun _ => and_congr_right fun hb => ?_
    rw [update_of_ne (hother b hb), hlives b hb]
  · rw [he]
    rw [add_of_not_mem (hall ▸ hnew)]
    refine ⟨?_, ⟨rfl, hmoored.convs, hmoored.posted⟩, ?_⟩
    · change (t.accounts.all ++ [a]).Nodup
      rw [hall]
      refine List.nodup_append.mpr ⟨hs.nodup, List.pairwise_singleton _ a, ?_⟩
      rintro b hb c hc rfl
      rw [List.mem_singleton.mp hc] at hb
      exact hnew hb
    · change t.world.chans.Attached t.accounts.channel
        (fun b => b ∈ t.accounts.all ++ [a] ∧ t.accounts.alive b = true)
      rw [hall]
      refine (hfine rfl).congr fun b name _ => and_congr_left fun _ => ?_
      rw [List.mem_append, List.mem_singleton, or_and_right]
      refine or_congr (and_congr_right fun hb => by rw [hlives b hb]) ?_
      refine (and_iff_left_of_imp ?_).symm
      rintro rfl
      rw [halive]
      exact update_self ..

theorem mapAdd_holds (hs : s.Steady) (hp : s.Placed) (hint : s.intact = true) (args : List Str)
    (found : Option AccountRef) :
    s.Holds decode (.add args found) (s.mapAdd P decode args found) := by
  unfold mapAdd
  split
  · next reason hr =>
    refine (hs.moored.error reason).holds hs hp ?_
    rintro ⟨-, proto, username, options, a, p, hok, -⟩
    rw [hr] at hok
    cases hok
  · next proto username options hr =>
    obtain ⟨hproto, hproper⟩ := readAdd_ok hr
    obtain ⟨p, hp', -⟩ := getProtocol_some hproto
    cases hex : s.existing proto found with
    | none =>
      obtain ⟨hnodup, hmoored, hplaced⟩ :
          (s.addAccount P proto username options none).accounts.all.Nodup ∧ _ :=
        addAccount_new_placed hs hp hp' hproper
      refine ⟨hnodup, hmoored, iff_of_true hplaced ?_⟩
      rintro ⟨-, proto', username', options', a, p', hr', hex', -⟩
      obtain ⟨rfl, -, -⟩ := readAdd_unique hr hr'
      rw [hex] at hex'
      cases hex'
    | some a =>
      obtain ⟨ha, halive, hid⟩ := existing_iff hex
      have hpa : s.accounts.protocol a = some p := by
        rw [← hp', Accounts.protocol, hid]
      obtain ⟨hnodup, hmoored, hplaced⟩ :
          (s.addAccount P proto username options (some a)).accounts.all.Nodup ∧ _ :=
        addAccount_existing_placed hs hp ⟨ha, halive⟩ hpa hproper
      refine ⟨hnodup, hmoored, hplaced.trans (not_congr ⟨fun hbad => ?_, ?_⟩)⟩
      · exact ⟨hint, proto, username, options, a, p, hr, hex, hpa, hbad⟩
      · rintro ⟨-, proto', username', options', a', p', hr', hex', hpa', hbad⟩
        obtain ⟨rfl, rfl, rfl⟩ := readAdd_unique hr hr'
        rw [hex] at hex'
        obtain rfl := Option.some.inj hex'
        rw [hpa] at hpa'
        obtain rfl := Option.some.inj hpa'
        exact hbad

end Add

theorem intact_iff : s.intact = true ↔ ∀ a ∈ s.accounts.all, s.Kept a := by
  rw [intact, List.all_eq_true]
  exact forall₂_congr fun a ha => (and_iff_right ha).symm

theorem mapEdit_holds (hs : s.Steady) (hp : s.Placed) (hint : s.intact = true)
    (account key : Str) (value : List Str) :
    s.Holds decode (.edit account key value) (s.mapEdit P account key value) := by
  obtain ⟨errors, hcases⟩ := mapEdit_cases (P := P) s account key value
  rw [hs.sound.getAccount] at hcases
  have hframe : s.SameBoard { s.setAccounts P s.accounts with errors := errors } :=
    ⟨.refl _, rfl, rfl, rfl, rfl, rfl⟩
  rcases hcases with ⟨-, he⟩ | ⟨a, hsome, ⟨reason, -, he⟩ | ⟨options, hr, he⟩⟩
  · rw [he]
    exact hframe.holds hs hp id
  · rw [he]
    exact hframe.holds hs hp id
  have ha := hs.sound.getAccount_mem hsome
  obtain ⟨p, hproto⟩ := Option.isSome_iff_exists.mp (hs.sound.known a ha)
  have hkept := intact_iff.mp hint a ha
  obtain ⟨hproper, -⟩ := readEdit_ok hproto hr
  let s₀ := s.setAccounts P s.accounts
  have hs₀ : s₀.Moored := ⟨rfl, hs.moored.convs, hs.moored.posted⟩
  obtain ⟨hids, -⟩ := setOptions_ids (P := P) (s := s₀) hs.sound hproto hproper
  obtain ⟨hmoored, halive, hfine, hrefused⟩ :=
    setOptions_attached (P := P) (s := s₀) hs₀ hs.sound hproto hproper hp (.inl hkept)
  change s.mapEdit P account key value = { (s₀.setOptions P a options).2 with errors := errors } at he
  generalize s₀.setOptions P a options = r at *
  obtain ⟨refused, t⟩ := r
  have hall : t.accounts.all = s.accounts.all := hids.all
  have halive : t.accounts.alive = s.accounts.alive := halive
  have hkeep : ∀ b, s.Kept b ↔ t.Kept b := by
    intro b
    rw [Kept, Kept, hall, halive]
  rw [he]
  refine ⟨?_, ⟨hmoored.channel, hmoored.convs, hmoored.posted⟩, iff_of_true ?_ id⟩
  · change t.accounts.all.Nodup
    rw [hall]
    exact hs.nodup
  change t.world.chans.Attached t.accounts.channel t.Kept
  cases refused with
  | none =>
    refine (hfine rfl).congr fun b name _ => and_congr_left fun _ => ?_
    rw [← hkeep b]
    refine ⟨fun hb => hb.elim id ?_, .inl⟩
    rintro rfl
    exact hkept
  | some reason =>
    obtain ⟨hchans, hchannel⟩ := hrefused nofun
    rw [hchans, hchannel]
    exact Chans.Attached.congr hp fun b name _ => and_congr_left fun _ => hkeep b

section Frames

theorem leaveChats_idle {w : World} (h : ∀ v, w.convs.alive v = false) (a : AccountRef)
    (left : List ConvRef) : w.leaveChats a left = w := by
  have hnone : (left.filter fun v => w.convs.alive v && w.convs.isChat v &&
      w.convs.account v == a) = [] := List.filter_eq_nil_iff.mpr fun v _ => by simp [h v]
  rw [World.leaveChats, hnone]
  rfl

theorem connect_board (h : s.Moored) (a : AccountRef) : s.SameBoard (s.connect P a) := by
  unfold connect
  split
  · exact h.refl
  · exact ⟨.refl _, rfl, rfl, rfl, rfl, rfl⟩

theorem disconnect_board (h : s.Moored) (a : AccountRef) (left : List ConvRef) :
    s.SameBoard (s.disconnect P a left) := by
  unfold disconnect
  split
  · exact h.refl
  · dsimp only
    generalize hs : s.setAccounts P
      { s.accounts with connected := update s.accounts.connected a false } = t
    have hboard : s.SameBoard t := by
      rw [← hs]
      exact ⟨.refl _, rfl, rfl, rfl, rfl, rfl⟩
    rw [leaveChats_idle (hboard.moored h).convs]
    exact hboard.world (World.removeServer_board ..)

theorem setPresence_board (h : s.Moored) (b : BuddyRef) (presence : Presence) :
    s.SameBoard (s.setPresence P b presence) := by
  unfold setPresence
  split
  · exact h.refl
  · have hsync : s.SameBoard (sync P { s with presence := update s.presence b presence }) :=
      ⟨.refl _, rfl, rfl, rfl, rfl, rfl⟩
    exact hsync.world (World.updateNode_board ..)

theorem removeBuddy_board (s : IM) (b : BuddyRef) :
    s.world.SameBoard (s.removeBuddy P b).world := by
  have hdata : s.world.SameBoard { s.world with data := { s.world.data with
      buddies := update s.world.data.buddies (P.buddyAccount b)
        ((s.world.data.buddies (P.buddyAccount b)).erase b) } } := ⟨.refl _, rfl, rfl⟩
  exact hdata.trans (World.removedNode_board ..)

theorem removeBuddies_board (l : List BuddyRef) (s : IM) :
    s.world.SameBoard (l.foldl (fun s b => s.removeBuddy P b) s).world := by
  induction l generalizing s with
  | nil => exact .refl _
  | cons b l ih => exact (removeBuddy_board s b).trans (ih _)

theorem setVoicedBuddies_board (h : s.Moored) (hA : s.accounts.Sound) (enabled : Bool) :
    s.SameBoard (s.setVoicedBuddies P enabled) := by
  unfold setVoicedBuddies
  split
  · exact h.refl
  · dsimp only
    rw [hA.listed]
    generalize hs : s.setAccounts P s.accounts = t
    have hboard : s.SameBoard t := by
      rw [← hs]
      exact ⟨.refl _, rfl, rfl, rfl, rfl, rfl⟩
    refine hboard.world ?_
    have hdata : t.world.SameBoard
        { t.world with data := { t.world.data with voicedBuddies := enabled } } :=
      ⟨.refl _, rfl, rfl⟩
    refine hdata.trans (World.SameBoard.foldl (fun w a => ?_) _ _)
    exact World.SameBoard.foldl (World.updated_board P) _ _

end Frames

/-- An account that is deleted has left its channel. -/
theorem mapDelete_holds (hs : s.Steady) (hp : s.Placed) (account : Str) (left : List ConvRef) :
    s.Holds decode (.delete account left) (s.mapDelete P account left) := by
  have hframe : s.SameBoard (s.setAccounts P s.accounts) := ⟨.refl _, rfl, rfl, rfl, rfl, rfl⟩
  unfold mapDelete
  dsimp only
  rw [hs.sound.getAccount]
  split
  · exact (hframe.trans ((hframe.moored hs.moored).error _)).holds hs hp id
  next a _ =>
  have hoff := hframe.trans (disconnect_board (P := P) (hframe.moored hs.moored) a left)
  unfold deleteAccount
  generalize (s.setAccounts P s.accounts).disconnect P a left = t at *
  dsimp only
  rw [removeBuddies_accounts]
  have ht := hoff.moored hs.moored
  have hatt : t.world.chans.Attached t.accounts.channel s.Kept := by
    rw [hoff.channel]
    exact hoff.chans.attached hp
  generalize hu : t.setAccounts P (t.accounts.remove a) = u
  have hu' : u.Moored := by
    rw [← hu]
    exact ⟨rfl, ht.convs, ht.posted⟩
  have hattu : u.world.chans.Attached u.world.data.statusChannel s.Kept := by
    rw [← hu]
    exact hatt
  obtain ⟨hleft, hrest⟩ := World.leaveStatusChannel_attached hu'.posted hattu a
  have hbuddies := removeBuddies_board (P := P) ((u.world.leaveStatusChannel a).data.buddies a)
    { u with world := u.world.leaveStatusChannel a }
  have hall : (u.accounts.destroy a).all = s.accounts.all.erase a := by
    rw [← hu, ← hoff.all]
    rfl
  have halive : (u.accounts.destroy a).alive = update s.accounts.alive a false := by
    rw [← hu, ← hoff.alive]
    rfl
  have hchannel : (u.accounts.destroy a).channel = u.world.data.statusChannel := by
    rw [← hu]
    rfl
  generalize List.foldl (fun s b => s.removeBuddy P b)
    ({ u with world := u.world.leaveStatusChannel a } : IM) _ = v at *
  refine ⟨?_, ⟨rfl, fun x => ?_, hbuddies.chans.posted hleft.posted⟩, iff_of_true ?_ id⟩
  · change (u.accounts.destroy a).all.Nodup
    rw [hall]
    exact hs.nodup.erase a
  · exact (congrFun (hbuddies.convs.trans hleft.convs) x).trans (hu'.convs x)
  · change v.world.chans.Attached (u.accounts.destroy a).channel
      (fun b => b ∈ (u.accounts.destroy a).all ∧ (u.accounts.destroy a).alive b = true)
    rw [hchannel, hall, halive]
    refine (hbuddies.chans.attached hrest).congr fun b name _ => and_congr_left fun _ => ?_
    rw [hs.nodup.mem_erase_iff, Kept]
    by_cases hba : b = a
    · simp [hba]
    · rw [update_of_ne hba]
      tauto

/-- What one event does to the channels. -/
theorem after_holds (hs : s.Steady) (hp : s.Placed) (hint : s.intact = true) (e : Event) :
    s.Holds decode e (s.after P decode e) := by
  cases e with
  | add args found => exact mapAdd_holds hs hp hint args found
  | edit account key value => exact mapEdit_holds hs hp hint account key value
  | delete account left => exact mapDelete_holds hs hp account left
  | connected a => exact (connect_board hs.moored a).holds hs hp id
  | disconnected a left => exact (disconnect_board hs.moored a left).holds hs hp id
  | presence b p => exact (setPresence_board hs.moored b p).holds hs hp id
  | buddyRemoved b =>
    change s.Holds decode _ (if _ then s.removeBuddy P b else s)
    split
    · exact (hs.moored.refl.world (removeBuddy_board s b)).holds hs hp id
    · exact hs.moored.refl.holds hs hp id
  | voicedBuddies enabled =>
    exact (setVoicedBuddies_board hs.moored hs.sound enabled).holds hs hp id

/-- What start-up makes of the accounts that are stored. -/
theorem start_steady {A : Accounts} {D : PurpleData} (hA : A.Stored) :
    (start P A D).Steady ∧
      (start P A D).world.chans.Attached A.channel fun a => Shown A.getAccountsList.2.id A.all a := by
  have hrest := hA.listing.rest
  have hempty : ({} : Chans).Posted := fun k c hmem => nomatch hmem
  have hnone : ({} : Chans).Attached A.channel fun _ => False :=
    ⟨fun name _ => iff_of_false nofun fun ⟨a, ha, _⟩ => ha, fun name c _ hc => nomatch hc⟩
  have hchannel : A.getAccountsList.2.channel = A.channel := by rw [hrest]
  let w := (sync P { accounts := A.getAccountsList.2, world := { World.initial with data := D } }).world
  have hw : w.chans.Attached w.data.statusChannel fun _ => False := by
    change ({} : Chans).Attached A.getAccountsList.2.channel _
    rw [hchannel]
    exact hnone
  obtain ⟨hposts, hatt⟩ := World.startUp_attached (P := P) (w := w) hempty hw hA.values_nodup
  refine ⟨⟨hA.sound, ?_, ⟨hposts.channel, fun v => ?_, hposts.posted⟩⟩, ?_⟩
  · change A.getAccountsList.2.all.Nodup
    rw [hrest]
    exact hA.nodup
  · exact congrFun hposts.convs v
  · change (w.startUp P A.getAccountsList.1.values).chans.Attached A.channel _
    have hdata : w.data.statusChannel = A.channel := hchannel
    rw [hdata] at hatt
    exact hatt.congr fun a name _ => and_congr_left fun _ => hA.mem_values

/-- Start-up opens the channels of the accounts that no later one hides. -/
theorem start_placed {A : Accounts} {D : PurpleData} (hA : A.Stored) :
    (start P A D).Placed ↔ ∀ a ∈ A.all, (A.channel a).head? = some '&' →
      Shown A.getAccountsList.2.id A.all a := by
  obtain ⟨-, hatt⟩ := start_steady (P := P) (D := D) hA
  have hrest := hA.listing.rest
  have hkept : ∀ a, (start P A D).Kept a ↔ a ∈ A.all := by
    intro a
    change a ∈ A.getAccountsList.2.all ∧ A.getAccountsList.2.alive a = true ↔ _
    rw [hrest]
    exact and_iff_left_of_imp (hA.alive a)
  have hchannel : (start P A D).accounts.channel = A.channel := by
    change A.getAccountsList.2.channel = _
    rw [hrest]
  rw [Placed, hchannel]
  constructor
  · intro hp a ha hamp
    obtain ⟨c, hc⟩ := Option.isSome_iff_exists.mp ((hp.opened _ hamp).mpr ⟨a, (hkept a).mpr ha, rfl⟩)
    have hin := ((hp.once _ c hamp hc).2 a).mpr ⟨(hkept a).mpr ha, rfl⟩
    exact (((hatt.once _ c hamp hc).2 a).mp hin).1
  · refine fun hall => hatt.congr fun a name hname => and_congr_left ?_
    rintro rfl
    rw [hkept]
    exact ⟨fun h => h.mem, fun ha => hall a ha hname⟩

end IM

open IM Accounts Runs in
/-- The status channels are those of the accounts along a session exactly if start-up finds every
account that has one, and no account that is on its channel is refused when it is added again. -/
theorem status_channels_iff {P : Purple} {decode : Str → Str} {A : Accounts} {D : PurpleData}
    {es : List IM.Event} (hA : A.Stored) :
    Throughout (IM.step P decode) IM.Placed (IM.start P A D) es ↔
      (∀ a ∈ A.all, (A.channel a).head? = some '&' → Shown A.getAccountsList.2.id A.all a) ∧
        Along (IM.step P decode) (fun s e => ¬ s.Orphans decode e) (IM.start P A D) es := by
  obtain ⟨hsteady, -⟩ := start_steady (P := P) (D := D) hA
  rw [← start_placed (P := P) (D := D) hA]
  have hrun : IM.Placed (IM.start P A D) →
      (Throughout (IM.step P decode) IM.Placed (IM.start P A D) es ↔
        Along (IM.step P decode) (fun s e => ¬ s.Orphans decode e) (IM.start P A D) es) := by
    refine throughout_iff_stops (I := IM.Steady) (fun s e t hI hP ht => ?_) (fun s e ht => ?_) hsteady
    · obtain ⟨hint, rfl⟩ := step_some ht
      have hholds : s.Holds decode e (s.after P decode e) := after_holds hI hP hint e
      exact ⟨fun _ => ⟨(after_keeps hI.sound e).1, hholds.nodup, hholds.moored⟩, hholds.placed⟩
    · cases e with
      | add args found =>
        rintro ⟨hint, -⟩
        simp [IM.step, hint] at ht
      | _ => exact id
  exact ⟨fun h => ⟨h.head, (hrun h.head).mp h⟩, fun h => (hrun h.1).mpr h.2⟩

section TwoAccounts

open IM Accounts Runs

/-- Two accounts of a protocol, stored without an ID. -/
def twoAccounts : Accounts where
  protocols := [{ purpleId := str "prpl-jabber" }]
  all := [0, 1]
  next := 2
  alive := fun _ => true
  protocolId := fun _ => str "prpl-jabber"
  channel := fun _ => str "&minbif"

theorem status_channels_two : Throughout (IM.step World.noPurple id) IM.Placed
    (IM.start World.noPurple twoAccounts {})
    [.edit (str "jabber") (str "status_channel") [str "&friends"], .delete (str "jabber1") []] := by
  have hne : twoAccounts.getAccountsList.2.id 1 ≠ twoAccounts.getAccountsList.2.id 0 := by
    decide +kernel
  refine (status_channels_iff ⟨by decide, by decide, by decide, by decide, by decide⟩).mpr
    ⟨fun a ha _ => ?_, id, fun _ _ => ⟨id, fun _ _ => trivial⟩⟩
  change a ∈ [0, 1] at ha
  rcases List.mem_pair.mp ha with rfl | rfl
  · exact ⟨[], [1], rfl, fun b hb => by rwa [List.mem_singleton.mp hb]⟩
  · exact ⟨[0], [], rfl, nofun⟩

/-- MAP add of an account that exists, with a channel that is refused. -/
def addTwice : List IM.Event :=
  [.add [str "jabber", str "bob"] none,
    .add [str "jabber", str "bob", str "-status_channel", str "friends"] (some 0)]

/-- The account is destroyed, and still listed and on its channel. -/
theorem refused_account_stays :
    ∃ t, run (IM.step World.noPurple id) twoProtocols addTwice = some t ∧
      t.accounts.alive 0 = false ∧ ¬ t.Placed := by
  obtain ⟨t, ht⟩ := Option.isSome_iff_exists.mp (by decide +kernel :
    (run (IM.step World.noPurple id) twoProtocols addTwice).isSome = true)
  have heval : (run (IM.step World.noPurple id) twoProtocols addTwice).map (fun t =>
      (t.accounts.alive 0, t.world.chans.getChannel (str "&minbif"), t.world.chans.accounts 0)) =
        some (false, some 0, [0]) := by decide +kernel
  rw [ht] at heval
  obtain ⟨halive, hchan, hacc⟩ : t.accounts.alive 0 = false ∧
      t.world.chans.getChannel (str "&minbif") = some 0 ∧ t.world.chans.accounts 0 = [0] := by
    simpa using heval
  refine ⟨t, ht, halive, fun hp => ?_⟩
  have hmem : 0 ∈ t.world.chans.accounts 0 := by
    rw [hacc]
    exact List.mem_singleton.mpr rfl
  have hkept := (((hp.once _ 0 rfl hchan).2 0).mp hmem).1.2
  rw [halive] at hkept
  cases hkept

end TwoAccounts

end Minbif
