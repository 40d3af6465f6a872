import Minbif.Irc.Nick

/-! What holds of `IRC::users` and `IRC::servers` between two changes. -/
namespace Minbif
open Function

/-- A name made of the characters of nicks. -/
structure ProperNick (nick : Str) : Prop where
  ne_nil : nick ≠ []
  chars : ∀ c ∈ nick, isNickChar c = true

theorem ProperNick.not_mem {nick : Str} (h : ProperNick nick) {c : Char} (hc : isNickChar c = false) :
    c ∉ nick := fun hmem => by
  rw [h.chars c hmem] at hc
  cases hc

theorem ProperNick.of_valid {nick : Str} (h : isValidNickname nick = true) : ProperNick nick := by
  simp only [isValidNickname, Bool.and_eq_true, Bool.not_eq_true', Bool.or_eq_false_iff,
    List.isEmpty_eq_false_iff] at h
  exact ⟨h.1.1.1, by simpa using h.2⟩

theorem nickize_proper (translit : Option Str) (n : Str) : ProperNick (nickize translit n) := by
  have hlong : ∀ nick : Str, (∀ c ∈ nick, isNickChar c = true) →
      ProperNick (if (nick.take nickMaxLength).isEmpty then str "Invalid"
        else nick.take nickMaxLength) := by
    intro nick h
    split
    · exact ⟨by decide, forall_of_all (by decide)⟩
    · next hne => exact ⟨by simpa using hne, fun c hc => h c (List.mem_of_mem_take hc)⟩
  unfold nickize
  dsimp only
  generalize ((translit.getD n).takeWhile (· ≠ '\x00')).map (fun c => if c = ' ' then '_' else c) = m
  have hchars : ∀ c ∈ m.filter isNickChar, isNickChar c = true :=
    fun c hc => (List.mem_filter.mp hc).2
  apply hlong
  split
  · exact List.forall_mem_cons.mpr ⟨by decide, hchars⟩
  · exact hchars

namespace Nicks

variable {N : Nicks} {n m : NickRef} {k nick : Str} {b : BuddyRef} {s : ServerRef}
  {kind : NickKind}

/-- Nobody else has the name, its case ignored. -/
def FreeFor (N : Nicks) (n : NickRef) (nick : Str) : Prop :=
  ∀ k m, (k, m) ∈ N.users.entries → strlower k = strlower nick → m = n

instance (N : Nicks) (n : NickRef) (nick : Str) : Decidable (N.FreeFor n nick) :=
  decidable_of_iff (∀ e ∈ N.users.entries, strlower e.1 = strlower nick → e.2 = n)
    ⟨fun h k m hm => h (k, m) hm, fun h e he => h e.1 e.2 he⟩

theorem getNick_eq_none : N.getNick nick = none ↔
    ∀ k n, (k, n) ∈ N.users.entries → strlower k ≠ strlower nick := by
  simp [getNick]

theorem getNick_eq_some (h : N.getNick nick = some n) :
    ∃ k, (k, n) ∈ N.users.entries ∧ strlower k = strlower nick := by
  obtain ⟨e, he, rfl⟩ := Option.map_eq_some_iff.mp h
  have hk := List.find?_some he
  exact ⟨e.1, List.mem_of_find?_eq_some he, by simpa using hk⟩

/-- `while(irc->getNick(nick)) nick += "_"` ends with a name nobody has. -/
theorem freeNickname_free (N : Nicks) (nick : Str) : N.getNick (N.freeNickname nick) = none := by
  have h := @Fresh.freshLoop_free Char (fun s => (N.getNick s).isSome) strlower
    (N.users.entries.map fun e => strlower e.1) '_' (N.users.entries.length + 1) nick (fun s => by simp [strlower]) ?_ ?_
  · simpa [freeNickname] using h
  · intro s hs
    obtain ⟨n, hn⟩ := Option.isSome_iff_exists.mp hs
    obtain ⟨k, hk, he⟩ := getNick_eq_some hn
    exact List.mem_map.mpr ⟨(k, n), hk, he⟩
  · exact Nat.lt_succ_of_le (List.countP_le_length.trans (by simp))

theorem freeNickname_proper (N : Nicks) {nick : Str} (h : ProperNick nick) :
    ProperNick (N.freeNickname nick) := by
  obtain ⟨k, hk⟩ := @Fresh.freshLoop_prefix Char (fun s => (N.getNick s).isSome) '_'
    (N.users.entries.length + 1) nick
  rw [freeNickname, hk]
  refine ⟨by simp [h.ne_nil], fun c hc => ?_⟩
  rcases List.mem_append.mp hc with hc | hc
  · exact h.chars c hc
  · obtain rfl := (List.mem_replicate.mp hc).2
    decide

/-- The entries of the table and the nicks that are always found there. -/
structure Table (N : Nicks) : Prop where
  key : ∀ k n, (k, n) ∈ N.users.entries → N.nickname n = k
  live : ∀ k n, (k, n) ∈ N.users.entries → N.alive n = true
  bound : ∀ n, N.alive n = true → n < N.next
  userAlive : N.alive userRef = true
  userKind : N.kind userRef = .user
  /-- The name of the User is taken, if perhaps by another nick. -/
  userKey : ∃ m, (N.nickname userRef, m) ∈ N.users.entries ∧ (N.kind m).isConvNick = false
  conv : ∀ n, N.alive n = true → (N.kind n).isConvNick = true →
    (N.nickname n, n) ∈ N.users.entries
  distinct : ∀ k n, (k, n) ∈ N.users.entries → (N.kind n).isConvNick = true → N.FreeFor n k
  buddyNick : ∀ b n, N.buddyNick b = some n →
    N.alive n = true ∧ N.kind n = .buddy ∧ N.buddy n = b
  home : ∀ n, N.alive n = true → (N.kind n).isConvNick = false → N.server n = ircRef
  remote : ∀ k s, (k, s) ∈ N.servers.entries → s ≠ ircRef
  nextServer : N.nextServer ≠ ircRef

/-- Every nick is found under its own name, and no two names differ only in case. -/
structure Sound (N : Nicks) : Prop where
  key : ∀ k n, (k, n) ∈ N.users.entries → N.nickname n = k
  unique : ∀ k n, (k, n) ∈ N.users.entries → N.FreeFor n k
  user : N.users.find? (N.nickname userRef) = some userRef
  kept : N.desynch = 0

theorem userRef_ne (h : N.Table) (hn : (N.kind n).isConvNick = true) : n ≠ userRef := by
  intro he
  rw [he, h.userKind] at hn
  cases hn

theorem mem_addNick : (k, m) ∈ (N.addNick n).users.entries ↔
    (k = N.nickname n ∧ m = n) ∨ (k ≠ N.nickname n ∧ (k, m) ∈ N.users.entries) := OrdMap.mem_insert

theorem mem_renameNick : (k, m) ∈ (N.renameNick n nick).users.entries ↔
    (k = nick ∧ m = n) ∨ (k ≠ nick ∧ (k, m) ∈ N.users.entries ∧ k ≠ N.nickname n) := by
  have hn : ({ N with users := N.users.erase (N.nickname n) }.setNickname n nick).nickname n =
      nick := by simp [setNickname]
  unfold renameNick
  rw [mem_addNick, hn]
  exact or_congr_right (and_congr_right fun _ => OrdMap.mem_erase)

theorem renameNick_nickname : (N.renameNick n nick).nickname = update N.nickname n nick := rfl

theorem Table.find?_nickname (h : N.Table) (hn : N.alive n = true)
    (hk : (N.kind n).isConvNick = true) : N.users.find? (N.nickname n) = some n :=
  OrdMap.find?_eq_some.mpr (h.conv n hn hk)

/-- The name of a nick of the other side leads to it, whatever its case. -/
theorem Table.getNick_nickname (h : N.Table) (hn : N.alive n = true)
    (hk : (N.kind n).isConvNick = true) : N.getNick (N.nickname n) = some n := by
  have hmem := h.conv n hn hk
  cases hget : N.getNick (N.nickname n) with
  | none => exact (getNick_eq_none.mp hget _ n hmem rfl).elim
  | some m =>
    obtain ⟨k, hm, he⟩ := getNick_eq_some hget
    rw [h.distinct _ n hmem hk k m hm he]

/-- A nick that can be on a channel. -/
def Present (N : Nicks) (n : NickRef) : Prop :=
  N.alive n = true ∧ (n = userRef ∨ (N.kind n).isConvNick = true)

/-- Nicks that can be on a channel differ in their names. -/
theorem Table.nickname_inj (h : N.Table) (hn : N.Present n)
    (hm : N.Present m) (he : N.nickname n = N.nickname m) : n = m := by
  have hconv : ∀ n m, N.alive n = true → (N.kind n).isConvNick = true → N.Present m →
      N.nickname n = N.nickname m → n = m := by
    intro n m ha hk hm he
    have hfree := h.distinct _ n (h.conv n ha hk) hk
    rcases hm.2 with rfl | hmk
    · obtain ⟨x, hx, hxk⟩ := h.userKey
      obtain rfl := hfree _ x hx (by rw [he])
      rw [hk] at hxk
      cases hxk
    · exact (hfree _ m (h.conv m hm.1 hmk) (by rw [he])).symm
  rcases hn.2 with rfl | hk
  · rcases hm.2 with rfl | hmk
    · rfl
    · exact (hconv m userRef hm.1 hmk hn he.symm).symm
  · exact hconv n m hn.1 hk hm he

section Drop

/-- The objects and the table after a nick was deleted. -/
def dropped (N : Nicks) (k : Str) (n : NickRef) (l : ServerRef → List NickRef) : Nicks :=
  { N.freeNick n with users := N.users.erase k, serverUsers := l }

variable {l : ServerRef → List NickRef}

theorem dropped_alive : (N.dropped k n l).alive m = true ↔ m ≠ n ∧ N.alive m = true := by
  rcases eq_or_ne m n with rfl | hne
  · simp [dropped, freeNick]
  · simp [dropped, freeNick, hne]

theorem mem_dropped {k' : Str} : (k', m) ∈ (N.dropped k n l).users.entries ↔
    (k', m) ∈ N.users.entries ∧ k' ≠ k := OrdMap.mem_erase

theorem Table.dropped (h : N.Table) (hmem : (k, n) ∈ N.users.entries)
    (hn : (N.kind n).isConvNick = true) : (N.dropped k n l).Table where
  key k' m hm := h.key k' m (mem_dropped.mp hm).1
  live k' m hm := by
    obtain ⟨hold, hne⟩ := mem_dropped.mp hm
    refine dropped_alive.mpr ⟨?_, h.live k' m hold⟩
    intro he
    rw [he] at hold
    exact hne ((h.key k' n hold).symm.trans (h.key k n hmem))
  bound m hm := h.bound m (dropped_alive.mp hm).2
  userAlive := dropped_alive.mpr ⟨(userRef_ne h hn).symm, h.userAlive⟩
  userKind := h.userKind
  userKey := by
    obtain ⟨m, hm, hk⟩ := h.userKey
    refine ⟨m, mem_dropped.mpr ⟨hm, ?_⟩, hk⟩
    intro (he : N.nickname userRef = k)
    rw [he] at hm
    rw [OrdMap.mem_unique hm hmem, hn] at hk
    cases hk
  conv m hm hk := by
    obtain ⟨hne, hm⟩ := dropped_alive.mp hm
    refine mem_dropped.mpr ⟨h.conv m hm hk, ?_⟩
    intro he
    exact hne (OrdMap.mem_unique (he ▸ h.conv m hm hk) hmem)
  distinct k' m hm hk k'' m' hm' he := h.distinct k' m (mem_dropped.mp hm).1 hk k'' m'
    (mem_dropped.mp hm').1 he
  buddyNick b m hm := by
    have hold : N.buddyNick b = some m ∧ m ≠ n := by
      simp only [Nicks.dropped, freeNick] at hm
      split at hm
      · next hb =>
        rcases eq_or_ne b (N.buddy n) with rfl | hne
        · simp at hm
        · rw [update_of_ne hne] at hm
          refine ⟨hm, ?_⟩
          rintro rfl
          exact hne (h.buddyNick b m hm).2.2.symm
      · next hb =>
        refine ⟨hm, ?_⟩
        rintro rfl
        exact hb (h.buddyNick b m hm).2.1
    obtain ⟨ha, hk, hb⟩ := h.buddyNick b m hold.1
    exact ⟨dropped_alive.mpr ⟨hold.2, ha⟩, hk, hb⟩
  home m hm hk := h.home m (dropped_alive.mp hm).2 hk
  remote := h.remote
  nextServer := h.nextServer

theorem Sound.dropped (hs : N.Sound) (h : N.Table) (hmem : (k, n) ∈ N.users.entries)
    (hn : (N.kind n).isConvNick = true) : (N.dropped k n l).Sound where
  key k' m hm := h.key k' m (mem_dropped.mp hm).1
  unique k' m hm k'' m' hm' he := hs.unique k' m (mem_dropped.mp hm).1 k'' m'
    (mem_dropped.mp hm').1 he
  user := by
    have hu := OrdMap.find?_eq_some.mp hs.user
    refine OrdMap.find?_eq_some.mpr (mem_dropped.mpr ⟨hu, ?_⟩)
    intro (he : N.nickname userRef = k)
    rw [he] at hu
    exact userRef_ne h hn (OrdMap.mem_unique hmem hu)
  kept := hs.kept

end Drop

section Add

variable {ident host : Str} {cb : CBuddyRef}

/-- `new Nick` and `IRC::addNick`. -/
def added (N : Nicks) (kind : NickKind) (s : ServerRef) (nick ident host : Str) (b : BuddyRef)
    (cb : CBuddyRef) : Nicks := (N.newNick kind s nick ident host b cb).addNick N.next

theorem mem_added : (k, m) ∈ (N.added kind s nick ident host b cb).users.entries ↔
    (k = nick ∧ m = N.next) ∨ (k ≠ nick ∧ (k, m) ∈ N.users.entries) := by
  have hn : (N.newNick kind s nick ident host b cb).nickname N.next = nick := by simp [newNick]
  unfold added
  rw [mem_addNick, hn]
  rfl

theorem added_alive : (N.added kind s nick ident host b cb).alive m = true ↔
    m = N.next ∨ N.alive m = true := by
  rcases eq_or_ne m N.next with rfl | hne
  · simp [added, addNick, newNick]
  · simp [added, addNick, newNick, hne]

theorem added_kind_self : (N.added kind s nick ident host b cb).kind N.next = kind := by
  simp [added, addNick, newNick]

/-- The other objects stay as they are. -/
theorem added_other (hm : m ≠ N.next) :
    (N.added kind s nick ident host b cb).kind m = N.kind m ∧
      (N.added kind s nick ident host b cb).nickname m = N.nickname m ∧
      (N.added kind s nick ident host b cb).buddy m = N.buddy m ∧
      (N.added kind s nick ident host b cb).cbuddy m = N.cbuddy m ∧
      (N.added kind s nick ident host b cb).server m = N.server m := by
  simp [added, addNick, newNick, hm]

theorem Table.ne_next (h : N.Table) (hm : N.alive m = true) : m ≠ N.next := by
  exact Nat.ne_of_lt (h.bound m hm)

theorem Table.mem_ne_next (h : N.Table) (hm : (k, m) ∈ N.users.entries) : m ≠ N.next :=
  h.ne_next (h.live k m hm)

/-- The facts of `Table` about a new nick that do not depend on what it is. -/
theorem Table.added_shared (h : N.Table) :
    (∀ k m, (k, m) ∈ (N.added kind s nick ident host b cb).users.entries →
      (N.added kind s nick ident host b cb).nickname m = k ∧
        (N.added kind s nick ident host b cb).alive m = true) ∧
    (∀ m, (N.added kind s nick ident host b cb).alive m = true →
      m < (N.added kind s nick ident host b cb).next) := by
  constructor
  · intro k m hm
    rcases mem_added.mp hm with ⟨rfl, rfl⟩ | ⟨-, hm⟩
    · exact ⟨by simp [added, addNick, newNick], added_alive.mpr (.inl rfl)⟩
    · rw [(added_other (h.mem_ne_next hm)).2.1]
      exact ⟨h.key k m hm, added_alive.mpr (.inr (h.live k m hm))⟩
  · intro m hm
    change m < N.next + 1
    rcases added_alive.mp hm with rfl | hm
    · exact Nat.lt_succ_self _
    · exact Nat.lt_succ_of_lt (h.bound m hm)

theorem Table.added_user (h : N.Table) :
    (N.added kind s nick ident host b cb).alive userRef = true ∧
      (N.added kind s nick ident host b cb).kind userRef = .user ∧
      (N.added kind s nick ident host b cb).nickname userRef = N.nickname userRef := by
  have hu := @added_other N userRef nick b s kind ident host cb (h.ne_next h.userAlive)
  exact ⟨added_alive.mpr (.inr h.userAlive), hu.1.trans h.userKind, hu.2.1⟩

theorem Table.added_buddyNick (h : N.Table) {b' : BuddyRef}
    (hm : (N.added kind s nick ident host b cb).buddyNick b' = some m) :
    (N.added kind s nick ident host b cb).alive m = true ∧
      (N.added kind s nick ident host b cb).kind m = .buddy ∧
      (N.added kind s nick ident host b cb).buddy m = b' := by
  have hcase : (m = N.next ∧ kind = .buddy ∧ b = b') ∨ N.buddyNick b' = some m := by
    simp only [added, addNick, newNick] at hm
    split at hm
    · next hk =>
      rcases eq_or_ne b' b with rfl | hne
      · simp only [update_self, Option.some.injEq] at hm
        exact .inl ⟨hm.symm, hk, rfl⟩
      · rw [update_of_ne hne] at hm
        exact .inr hm
    · exact .inr hm
  rcases hcase with ⟨rfl, rfl, rfl⟩ | hold
  · exact ⟨added_alive.mpr (.inl rfl), added_kind_self, by simp [added, addNick, newNick]⟩
  · obtain ⟨ha, hk, hb⟩ := h.buddyNick b' m hold
    have ho := @added_other N m nick b s kind ident host cb (h.ne_next ha)
    exact ⟨added_alive.mpr (.inr ha), ho.1.trans hk, ho.2.2.1.trans hb⟩

/-- A `ConvNick` comes under a name nobody has. -/
theorem Table.added (h : N.Table) (hkind : kind.isConvNick = true) (hfree : N.getNick nick = none) :
    (N.added kind s nick ident host b cb).Table := by
  have hfree := getNick_eq_none.mp hfree
  have hname : ∀ k m, (k, m) ∈ N.users.entries → k ≠ nick := by
    intro k m hm he
    exact hfree k m hm (congrArg strlower he)
  have hother : ∀ m, m ≠ N.next → (N.added kind s nick ident host b cb).kind m = N.kind m :=
    fun m hm => (added_other hm).1
  obtain ⟨hshared, hbound⟩ := @Table.added_shared N nick b s kind ident host cb h
  obtain ⟨hua, huk, hun⟩ := @Table.added_user N nick b s kind ident host cb h
  refine ⟨fun k m hm => (hshared k m hm).1, fun k m hm => (hshared k m hm).2, hbound, hua, huk,
    ?_, ?_, ?_, fun b' m hm => h.added_buddyNick hm, ?_, h.remote, h.nextServer⟩
  · obtain ⟨m, hm, hk⟩ := h.userKey
    rw [hun]
    refine ⟨m, mem_added.mpr (.inr ⟨hname _ m hm, hm⟩), ?_⟩
    rw [hother m (h.mem_ne_next hm), hk]
  · intro m hm hk
    rcases added_alive.mp hm with rfl | hm
    · exact mem_added.mpr (.inl ⟨by simp [Nicks.added, addNick, newNick], rfl⟩)
    · have hne := h.ne_next hm
      rw [hother m hne] at hk
      rw [(added_other hne).2.1]
      have hmem := h.conv m hm hk
      exact mem_added.mpr (.inr ⟨hname _ m hmem, hmem⟩)
  · intro k m hm hk k' m' hm' he
    rcases mem_added.mp hm with ⟨rfl, rfl⟩ | ⟨-, hold⟩ <;>
      rcases mem_added.mp hm' with ⟨rfl, rfl⟩ | ⟨-, hold'⟩
    · rfl
    · exact (hfree k' m' hold' he).elim
    · exact (hfree k m hold he.symm).elim
    · rw [hother m (h.mem_ne_next hold)] at hk
      exact h.distinct k m hold hk k' m' hold' he
  · intro m hm hk
    rcases added_alive.mp hm with rfl | hm
    · rw [added_kind_self, hkind] at hk
      cases hk
    · have hne := h.ne_next hm
      rw [hother m hne] at hk
      rw [(added_other hne).2.2.2.2]
      exact h.home m hm hk

/-- The nicks of the server come while there is no `ConvNick` yet. -/
theorem Table.added_local (h : N.Table) (hkind : kind.isConvNick = false)
    (hquiet : ∀ m, N.alive m = true → (N.kind m).isConvNick = false) :
    (N.added kind ircRef nick ident host b cb).Table := by
  have hother : ∀ m, m ≠ N.next → (N.added kind ircRef nick ident host b cb).kind m = N.kind m :=
    fun m hm => (added_other hm).1
  obtain ⟨hshared, hbound⟩ := @Table.added_shared N nick b ircRef kind ident host cb h
  obtain ⟨hua, huk, hun⟩ := @Table.added_user N nick b ircRef kind ident host cb h
  have hall : ∀ m, (N.added kind ircRef nick ident host b cb).alive m = true →
      ((N.added kind ircRef nick ident host b cb).kind m).isConvNick = false := by
    intro m hm
    rcases added_alive.mp hm with rfl | hm
    · rw [added_kind_self, hkind]
    · rw [hother m (h.ne_next hm)]
      exact hquiet m hm
  refine ⟨fun k m hm => (hshared k m hm).1, fun k m hm => (hshared k m hm).2, hbound, hua, huk,
    ?_, ?_, ?_, fun b' m hm => h.added_buddyNick hm, ?_, h.remote, h.nextServer⟩
  · rw [hun]
    rcases eq_or_ne (N.nickname userRef) nick with he | hne
    · refine ⟨N.next, mem_added.mpr (.inl ⟨he, rfl⟩), ?_⟩
      rw [added_kind_self, hkind]
    · obtain ⟨m, hm, hk⟩ := h.userKey
      refine ⟨m, mem_added.mpr (.inr ⟨hne, hm⟩), ?_⟩
      rw [hother m (h.mem_ne_next hm), hk]
  · intro m hm hk
    rw [hall m hm] at hk
    cases hk
  · intro k m hm hk
    rw [hall m (hshared k m hm).2] at hk
    cases hk
  · intro m hm _
    rcases added_alive.mp hm with rfl | hm
    · simp [Nicks.added, addNick, newNick]
    · have hne := h.ne_next hm
      rw [(added_other hne).2.2.2.2]
      exact h.home m hm (hquiet m hm)

theorem Sound.added (hs : N.Sound) (h : N.Table) (hfree : N.getNick nick = none) :
    (N.added kind s nick ident host b cb).Sound := by
  have hfree := getNick_eq_none.mp hfree
  have hu := OrdMap.find?_eq_some.mp hs.user
  refine ⟨fun k m hm => ((h.added_shared).1 k m hm).1, ?_, ?_, ?_⟩
  · intro k m hm k' m' hm' he
    rcases mem_added.mp hm with ⟨rfl, rfl⟩ | ⟨-, hold⟩ <;>
      rcases mem_added.mp hm' with ⟨rfl, rfl⟩ | ⟨-, hold'⟩
    · rfl
    · exact (hfree k' m' hold' he).elim
    · exact (hfree k m hold he.symm).elim
    · exact hs.unique k m hold k' m' hold' he
  · rw [h.added_user.2.2]
    refine OrdMap.find?_eq_some.mpr (mem_added.mpr (.inr ⟨?_, hu⟩))
    intro he
    exact hfree _ _ hu (congrArg strlower he)
  · have hnone : N.users.find? nick = none :=
      OrdMap.find?_eq_none.mpr fun m hm => hfree nick m hm rfl
    simp [Nicks.added, addNick, newNick, hnone, hs.kept]

end Add

section Rename

theorem FreeFor.key_ne (hfree : N.FreeFor n nick)
    (hm : (k, m) ∈ N.users.entries) (hne : m ≠ n) : k ≠ nick := by
  rintro rfl
  exact hne (hfree k m hm rfl)

theorem Table.key_ne (h : N.Table) (hn : N.alive n = true) (hk : (N.kind n).isConvNick = true)
    (hm : (k, m) ∈ N.users.entries) (hne : m ≠ n) : k ≠ N.nickname n := by
  intro he
  exact hne (OrdMap.mem_unique (he ▸ hm) (h.conv n hn hk))

/-- A `ConvNick` takes a name nobody else has. -/
theorem Table.renamed (h : N.Table) (hn : N.alive n = true) (hkind : (N.kind n).isConvNick = true)
    (hfree : N.FreeFor n nick) : (N.renameNick n nick).Table := by
  have hmem : ∀ k m, (k, m) ∈ N.users.entries → m ≠ n →
      (k, m) ∈ (N.renameNick n nick).users.entries := by
    intro k m hm hne
    exact mem_renameNick.mpr (.inr ⟨hfree.key_ne hm hne, hm, h.key_ne hn hkind hm hne⟩)
  have hcases : ∀ k m, (k, m) ∈ (N.renameNick n nick).users.entries →
      (k = nick ∧ m = n) ∨ ((k, m) ∈ N.users.entries ∧ m ≠ n) := by
    intro k m hm
    refine (mem_renameNick.mp hm).imp_right fun hm => ⟨hm.2.1, ?_⟩
    rintro rfl
    exact hm.2.2 (h.key k m hm.2.1).symm
  have huser := (userRef_ne h hkind).symm
  refine ⟨?_, ?_, h.bound, h.userAlive, h.userKind, ?_, ?_, ?_, h.buddyNick, h.home, h.remote,
    h.nextServer⟩
  · intro k m hm
    rw [renameNick_nickname]
    rcases hcases k m hm with ⟨rfl, rfl⟩ | ⟨hm, hne⟩
    · exact update_self ..
    · rw [update_of_ne hne]
      exact h.key k m hm
  · intro k m hm
    rcases hcases k m hm with ⟨-, rfl⟩ | ⟨hm, -⟩
    · exact hn
    · exact h.live k m hm
  · obtain ⟨m, hm, hk⟩ := h.userKey
    rw [renameNick_nickname, update_of_ne huser]
    refine ⟨m, hmem _ m hm ?_, hk⟩
    rintro rfl
    rw [hkind] at hk
    cases hk
  · intro m hm hk
    rw [renameNick_nickname]
    rcases eq_or_ne m n with rfl | hne
    · rw [update_self]
      exact mem_renameNick.mpr (.inl ⟨rfl, rfl⟩)
    · rw [update_of_ne hne]
      exact hmem _ m (h.conv m hm hk) hne
  · intro k m hm hk k' m' hm' he
    rcases hcases k m hm with ⟨rfl, rfl⟩ | ⟨hold, -⟩ <;>
      rcases hcases k' m' hm' with ⟨rfl, rfl⟩ | ⟨hold', -⟩
    · rfl
    · exact hfree k' m' hold' he
    · exact (hfree k m hold he.symm).symm
    · exact h.distinct k m hold hk k' m' hold' he

theorem Sound.renamed (hs : N.Sound) (hu : n = userRef ∨ N.alive n = true ∧ n ≠ userRef)
    (hown : (N.nickname n, n) ∈ N.users.entries) (hfree : N.FreeFor n nick) :
    (N.renameNick n nick).Sound := by
  have hcases : ∀ k m, (k, m) ∈ (N.renameNick n nick).users.entries →
      (k = nick ∧ m = n) ∨ ((k, m) ∈ N.users.entries ∧ m ≠ n) := by
    intro k m hm
    refine (mem_renameNick.mp hm).imp_right fun hm => ⟨hm.2.1, ?_⟩
    rintro rfl
    exact hm.2.2 (hs.key k m hm.2.1).symm
  refine ⟨?_, ?_, ?_, ?_⟩
  · intro k m hm
    rw [renameNick_nickname]
    rcases hcases k m hm with ⟨rfl, rfl⟩ | ⟨hm, hne⟩
    · exact update_self ..
    · rw [update_of_ne hne]
      exact hs.key k m hm
  · intro k m hm k' m' hm' he
    rcases hcases k m hm with ⟨rfl, rfl⟩ | ⟨hold, -⟩ <;>
      rcases hcases k' m' hm' with ⟨rfl, rfl⟩ | ⟨hold', -⟩
    · rfl
    · exact hfree k' m' hold' he
    · exact (hfree k m hold he.symm).symm
    · exact hs.unique k m hold k' m' hold' he
  · rw [renameNick_nickname, OrdMap.find?_eq_some]
    rcases hu with rfl | ⟨-, hne⟩
    · rw [update_self]
      exact mem_renameNick.mpr (.inl ⟨rfl, rfl⟩)
    · have huser := OrdMap.find?_eq_some.mp hs.user
      rw [update_of_ne hne.symm]
      refine mem_renameNick.mpr (.inr ⟨?_, huser, ?_⟩)
      · intro he
        exact hne (hfree _ _ huser (congrArg strlower he)).symm
      · intro he
        exact hne (OrdMap.mem_unique (he ▸ hown) huser)
  · have hnone : (N.users.erase (N.nickname n)).find? nick = none := by
      refine OrdMap.find?_eq_none.mpr fun m hm => ?_
      obtain ⟨hold, hne⟩ := OrdMap.mem_erase.mp hm
      obtain rfl := hfree nick m hold rfl
      exact hne (hs.key nick m hold).symm
    simp [renameNick, addNick, setNickname, hnone, hs.kept]

/-- `NICK` before registration; it may take the entry of another nick. -/
theorem Table.renamed_user (h : N.Table)
    (hquiet : ∀ m, N.alive m = true → (N.kind m).isConvNick = false) :
    (N.renameNick userRef nick).Table := by
  have hcases : ∀ k m, (k, m) ∈ (N.renameNick userRef nick).users.entries →
      (k = nick ∧ m = userRef) ∨ ((k, m) ∈ N.users.entries ∧ m ≠ userRef) := by
    intro k m hm
    refine (mem_renameNick.mp hm).imp_right fun hm => ⟨hm.2.1, ?_⟩
    rintro rfl
    exact hm.2.2 (h.key k _ hm.2.1).symm
  have hlive : ∀ k m, (k, m) ∈ (N.renameNick userRef nick).users.entries →
      N.alive m = true := by
    intro k m hm
    rcases hcases k m hm with ⟨-, rfl⟩ | ⟨hm, -⟩
    · exact h.userAlive
    · exact h.live k m hm
  refine ⟨?_, hlive, h.bound, h.userAlive, h.userKind, ?_, ?_, ?_, h.buddyNick, h.home, h.remote,
    h.nextServer⟩
  · intro k m hm
    rw [renameNick_nickname]
    rcases hcases k m hm with ⟨rfl, rfl⟩ | ⟨hm, hne⟩
    · exact update_self ..
    · rw [update_of_ne hne]
      exact h.key k m hm
  · rw [renameNick_nickname, update_self]
    exact ⟨userRef, mem_renameNick.mpr (.inl ⟨rfl, rfl⟩), hquiet _ h.userAlive⟩
  · intro m hm hk
    rw [show (N.renameNick userRef nick).kind m = N.kind m from rfl, hquiet m hm] at hk
    cases hk
  · intro k m hm hk
    rw [show (N.renameNick userRef nick).kind m = N.kind m from rfl,
      hquiet m (hlive k m hm)] at hk
    cases hk

end Rename

theorem Table.addServer (h : N.Table) {a : AccountRef} : (N.addServer k a).Table :=
  { h with
    remote := fun k' s hs => by
      rcases OrdMap.mem_insert.mp hs with ⟨-, rfl⟩ | ⟨-, hs⟩
      · exact h.nextServer
      · exact h.remote k' s hs
    nextServer := Nat.succ_ne_zero _ }

theorem Table.dropServer (h : N.Table) : (N.dropServer k s).Table :=
  { h with remote := fun k' s hs => h.remote k' s (OrdMap.mem_erase.mp hs).1 }

theorem Table.rebound (h : N.Table) {f : NickRef → CBuddyRef} : ({ N with cbuddy := f }).Table :=
  { h with }

end Nicks
end Minbif
