import Mathlib.Data.List.Perm.Basic
import Minbif.World.Ban
import Minbif.World.Enqueued
import Minbif.World.Listing

/-! What WHO, NAMES and LIST say of the channels. -/
namespace Minbif

/-- The first character of an argument of WHO tells its flags; `strchr` finds a NUL too. -/
def isWhoFlags (arg : Str) : Bool :=
  match arg with
  | [] => true
  | c :: _ => c = '+' || c = '-' || c = '\x00'

/-- `WHO_STATUS` after the flags of an argument. -/
def whoFlags (arg : Str) (status : Bool) : Bool :=
  (arg.foldl (fun (r : Bool × Bool) c =>
    if c = '+' then (true, r.2)
    else if c = '-' then (false, r.2)
    else if c = 's' then (r.1, r.1)
    else r) (true, status)).2

/-- The name that WHO asks for, which is the last one, and `WHO_STATUS`. -/
def whoArgs (args : List Str) : Str × Bool :=
  args.foldl (fun r arg => if isWhoFlags arg then (r.1, whoFlags arg r.2) else (arg, r.2))
    ([], false)

/-- The channel and the nickname of a WHO reply. -/
def whoTold (m : Message) : Option (Str × Str) :=
  if m.cmd = str "352" then some (m.args.getD 0 [], m.args.getD 4 []) else none

namespace World

section Commands

variable (P : Purple) (X : Texts)
  -- `fnmatch(pattern, name, FNM_NOESCAPE|FNM_CASEFOLD)` finds a match
  (fnmatch : Str → Str → Bool)
  (w : World)

/-- Every nick of a list without a name, else those that the name or that of their server fits. -/
def whoMatches (arg : Str) (n : NickRef) : Bool :=
  arg.isEmpty || arg == ['*'] || arg == ['0'] ||
    decide (arg <:+: w.nicks.serverName (w.nicks.server n)) || fnmatch arg (w.nicks.nickname n)

/-- The `channame` of a nick that is listed. -/
def whoChannel (chan : Option ChanRef) (arg : Str) (n : NickRef) : Option Str :=
  if w.whoMatches fnmatch arg n then
    some (match w.chans.channels n with
      | cu :: _ => w.chans.name (w.chans.cuChan cu)
      | [] => ['*'])
  else
    match chan with
    | some c => if (w.chans.getChanUser n c).isSome then some arg else none
    | none => none

def whoListed (chan : Option ChanRef) (arg : Str) : List (Str × NickRef) :=
  w.nicks.users.values.filterMap fun n =>
    (w.whoChannel fnmatch chan arg n).map fun channame => (channame, n)

/-- The nicks that `m_who` replies with, each with its `channame`. -/
def whoRows (arg : Str) : List (Str × NickRef) :=
  if arg.isEmpty || !isChanName arg then w.whoListed fnmatch none arg
  else
    match w.chans.getChannel arg with
    | some c => w.whoListed fnmatch (some c) arg
    | none => []

/-- The last word of a WHO reply; only without the flag is the real name asked for. -/
def whoText (n : NickRef) (status : Bool) : Option Str :=
  if status then some (w.getStatusMessage X n true) else w.getRealName P X n

def whoReply (status : Bool) (row : Str × NickRef) : Option Message :=
  (w.whoText P X row.2 status).map fun text =>
    w.reply (str "352") [row.1, w.nicks.identname row.2, w.nicks.hostname row.2,
      w.nicks.serverName (w.nicks.server row.2), w.nicks.nickname row.2,
      if w.isAway X row.2 then ['G'] else ['H'], str "0 " ++ text]

/-- `m_who`; `none` is an assertion that fails. -/
def mWho (args : List Str) : Option (List Message) :=
  let (arg, status) := whoArgs args
  ((w.whoRows fnmatch arg).mapM (w.whoReply P X status)).map fun replies =>
    replies ++ [w.reply (str "315") [if arg.isEmpty then str "**" else arg,
      str "End of /WHO list"]]

/-- `m_list` without an argument. -/
def mList : List Message :=
  w.reply (str "321") [str "Channel", str "Users  Name"] ::
    (w.chans.table.entries.map fun e => w.reply (str "322")
      [w.chans.name e.2, Nat.toDigits 10 (w.chans.users e.2).length]) ++
    [w.reply (str "323") [str "End of /LIST"]]

end Commands

variable {P : Purple} {X : Texts} {fnmatch : Str → Str → Bool} {w : World}
  {arg : Str} {args : List Str} {n : NickRef} {c : ChanRef} {row : Str × NickRef} {status : Bool}

section Rows

theorem map_snd_filterMap {α β : Type} (f : α → Option β) (l : List α) :
    (l.filterMap fun x => (f x).map fun y => (y, x)).map Prod.snd =
      l.filter fun x => (f x).isSome := by
  induction l with
  | nil => rfl
  | cons x l ih =>
    cases hx : f x with
    | none => simp [hx, ih]
    | some y => simp [hx, ih]

theorem nodup_whoListed (ht : w.nicks.Table) (chan : Option ChanRef) :
    ((w.whoListed fnmatch chan arg).map Prod.snd).Nodup := by
  rw [whoListed, map_snd_filterMap]
  exact ht.nodup_values.filter _

theorem whoRows_channel (hname : isChanName arg = true) (hc : w.chans.getChannel arg = some c) :
    w.whoRows fnmatch arg = w.whoListed fnmatch (some c) arg := by
  have hne : arg.isEmpty = false := by
    cases arg with
    | nil => cases hname
    | cons x t => rfl
  simp [whoRows, hname, hne, hc]

theorem whoRows_cases : w.whoRows fnmatch arg = [] ∨
    ∃ chan, (∀ c, chan = some c → w.chans.getChannel arg = some c) ∧
      w.whoRows fnmatch arg = w.whoListed fnmatch chan arg := by
  unfold whoRows
  split
  · exact .inr ⟨none, nofun, rfl⟩
  · split
    · next c hc => exact .inr ⟨some c, fun c' h => h ▸ hc, rfl⟩
    · exact .inl rfl

theorem nodup_whoRows (ht : w.nicks.Table) : ((w.whoRows fnmatch arg).map Prod.snd).Nodup := by
  obtain hnil | ⟨chan, -, hrows⟩ := @whoRows_cases fnmatch w arg
  · rw [hnil]
    exact List.nodup_nil
  · rw [hrows]
    exact nodup_whoListed ht chan

/-- The first channel of the nick, or else the channel that was asked for. -/
theorem whoChannel_cases {chan : Option ChanRef} {channame : Str}
    (h : w.whoChannel fnmatch chan arg n = some channame) :
    (w.chans.channels n = [] ∧ channame = ['*']) ∨
      (∃ cu ∈ w.chans.channels n, w.chans.name (w.chans.cuChan cu) = channame) ∨
      ∃ c, chan = some c ∧ channame = arg ∧ ∃ cu ∈ w.chans.channels n, w.chans.cuChan cu = c := by
  unfold whoChannel at h
  split at h
  · split at h
    · next cu l hl => exact .inr (.inl ⟨cu, by simp [hl], Option.some.inj h⟩)
    · next hl => exact .inl ⟨hl, (Option.some.inj h).symm⟩
  · split at h
    · next c =>
      split at h
      · next hget =>
        obtain ⟨cu, hcu⟩ := Option.isSome_iff_exists.mp hget
        exact .inr (.inr ⟨c, rfl, (Option.some.inj h).symm, cu, Chans.getChanUser_some hcu⟩)
      · cases h
    · cases h

/-- The channel that a row names is one that its nick is on. -/
theorem whoRows_on (hw : w.Ok none) (hrow : row ∈ w.whoRows fnmatch arg) :
    row.2 ∈ w.nicks.users.values ∧ ((row.1 = ['*'] ∧ w.chans.channels row.2 = []) ∨
      ∃ c, w.chans.getChannel row.1 = some c ∧ row.2 ∈ w.chans.members c) := by
  have hon : ∀ n, ∀ cu ∈ w.chans.channels n, n ∈ w.chans.members (w.chans.cuChan cu) ∧
      w.chans.getChannel (w.chans.name (w.chans.cuChan cu)) = some (w.chans.cuChan cu) := by
    intro n cu hcu
    obtain ⟨hn, husers⟩ := hw.member.fwd n cu hcu
    refine ⟨Chans.mem_members.mpr ⟨cu, husers, hn⟩, ?_⟩
    exact hw.listed.getChannel.mpr ⟨hw.listed.full _ (List.ne_nil_of_mem husers), rfl⟩
  obtain hnil | ⟨chan, hchan, hrows⟩ := @whoRows_cases fnmatch w arg
  · rw [hnil] at hrow
    cases hrow
  · rw [hrows] at hrow
    obtain ⟨n, hn, hmap⟩ := List.mem_filterMap.mp hrow
    obtain ⟨channame, hchannel, rfl⟩ := Option.map_eq_some_iff.mp hmap
    refine ⟨hn, ?_⟩
    obtain ⟨hnil, rfl⟩ | ⟨cu, hcu, rfl⟩ | ⟨c, hc, rfl, cu, hcu, hcuc⟩ := whoChannel_cases hchannel
    · exact .inl ⟨rfl, hnil⟩
    · exact .inr ⟨_, (hon n cu hcu).2, (hon n cu hcu).1⟩
    · exact .inr ⟨c, hchan c hc, hcuc ▸ (hon n cu hcu).1⟩

/-- Those on a channel have their entries in the table. -/
theorem members_listed (hw : w.Ok none) (hs : w.nicks.Sound) (hn : n ∈ w.chans.members c) :
    n ∈ w.nicks.users.values := by
  obtain ⟨cu, hcu, rfl⟩ := Chans.mem_members.mp hn
  obtain ⟨halive, huser | hkind⟩ := hw.placed.ne_nil hw.member hcu
  · rw [huser]
    exact OrdMap.mem_values.mpr ⟨_, OrdMap.find?_eq_some.mp hs.user⟩
  · exact OrdMap.mem_values.mpr ⟨_, hw.table.conv _ halive hkind⟩

theorem getChanUser_isSome_iff (hw : w.Ok none) :
    (w.chans.getChanUser n c).isSome = true ↔ n ∈ w.chans.members c := by
  rw [Chans.mem_members]
  constructor
  · intro h
    obtain ⟨cu, hcu⟩ := Option.isSome_iff_exists.mp h
    obtain ⟨hmem, rfl⟩ := Chans.getChanUser_some hcu
    exact ⟨cu, (hw.member.fwd n cu hmem).2, (hw.member.fwd n cu hmem).1⟩
  · rintro ⟨cu, hcu, rfl⟩
    obtain ⟨rfl, hmem⟩ := hw.member.bwd c cu hcu
    exact List.find?_isSome.mpr ⟨cu, hmem, by simp⟩

/-- WHO of a channel finds those that are on it, and those that its name fits. -/
theorem mem_whoRows_channel (hw : w.Ok none) (hs : w.nicks.Sound) (hname : isChanName arg = true)
    (hc : w.chans.getChannel arg = some c) : n ∈ (w.whoRows fnmatch arg).map Prod.snd ↔
      n ∈ w.chans.members c ∨
        n ∈ w.nicks.users.values ∧ w.whoMatches fnmatch arg n = true := by
  rw [whoRows_channel hname hc, whoListed, map_snd_filterMap, List.mem_filter,
    ← getChanUser_isSome_iff hw]
  have hshown : (w.whoChannel fnmatch (some c) arg n).isSome =
      (w.whoMatches fnmatch arg n || (w.chans.getChanUser n c).isSome) := by
    unfold whoChannel
    cases hmatch : w.whoMatches fnmatch arg n with
    | true => simp
    | false => cases hget : w.chans.getChanUser n c <;> simp [hget]
  rw [hshown, Bool.or_eq_true]
  constructor
  · rintro ⟨hn, hmatch | hon⟩
    · exact .inr ⟨hn, hmatch⟩
    · exact .inl hon
  · rintro (hon | ⟨hn, hmatch⟩)
    · exact ⟨members_listed hw hs ((getChanUser_isSome_iff hw).mp hon), .inr hon⟩
    · exact ⟨hn, .inl hmatch⟩

end Rows

section Told

/-- `who` is what is sent of a nick whose real name is known. -/
theorem whoReply_who {channame : Str} {l : List Message}
    (h : w.who P X channame n status = some l) :
    ∃ m, w.whoReply P X status (channame, n) = some m ∧ l = [m] := by
  obtain ⟨realname, hname, rfl⟩ := Option.map_eq_some_iff.mp h
  have htext : w.whoText P X n status =
      some (if status then w.getStatusMessage X n true else realname) := by
    unfold whoText
    split
    · rfl
    · exact hname
  exact ⟨_, Option.map_eq_some_iff.mpr ⟨_, htext, rfl⟩, rfl⟩

/-- A client reads the row in the reply. -/
theorem whoTold_whoReply {m : Message} (h : w.whoReply P X status row = some m) :
    whoTold m = some (row.1, w.nicks.nickname row.2) := by
  obtain ⟨text, -, rfl⟩ := Option.map_eq_some_iff.mp h
  rfl

theorem told_mapM {rows : List (Str × NickRef)} {l : List Message}
    (h : rows.mapM (w.whoReply P X status) = some l) :
    l.filterMap whoTold = rows.map fun row => (row.1, w.nicks.nickname row.2) := by
  induction rows generalizing l with
  | nil =>
    cases h
    rfl
  | cons row rows ih =>
    rw [List.mapM_cons] at h
    obtain ⟨m, hm, h⟩ := Option.bind_eq_some_iff.mp h
    obtain ⟨l', hl', h⟩ := Option.bind_eq_some_iff.mp h
    cases h
    rw [List.filterMap_cons_some (whoTold_whoReply hm), List.map_cons, ih hl']

/-- What a client reads in the answer to WHO. -/
theorem told_mWho {l : List Message} (h : w.mWho P X fnmatch args = some l) :
    l.filterMap whoTold = (w.whoRows fnmatch (whoArgs args).1).map
      fun row => (row.1, w.nicks.nickname row.2) := by
  obtain ⟨replies, hreplies, rfl⟩ := Option.map_eq_some_iff.mp h
  rw [List.filterMap_append, told_mapM hreplies]
  exact List.append_nil _

theorem told_nicks {l : List Message} (h : w.mWho P X fnmatch args = some l) :
    (l.filterMap whoTold).map Prod.snd =
      ((w.whoRows fnmatch (whoArgs args).1).map Prod.snd).map w.nicks.nickname := by
  rw [told_mWho h, List.map_map, List.map_map]
  rfl

/-- Two nicks of the table have two names. -/
theorem nickname_inj_on (ht : w.nicks.Table) : ∀ n ∈ w.nicks.users.values,
    ∀ n' ∈ w.nicks.users.values, w.nicks.nickname n = w.nicks.nickname n' → n = n' := by
  intro n hn n' hn' he
  obtain ⟨k, hk⟩ := OrdMap.mem_values.mp hn
  obtain ⟨k', hk'⟩ := OrdMap.mem_values.mp hn'
  rw [ht.key k n hk, ht.key k' n' hk'] at he
  exact OrdMap.mem_unique (he ▸ hk) hk'

theorem picture_nicks (c : ChanRef) : (w.chans.picture w.nicks c).map Prod.fst =
    (w.chans.members c).map w.nicks.nickname := by
  simp [Chans.picture, Chans.members]

theorem mem_mList (hw : w.Ok none) (hc : w.chans.getChannel arg = some c) :
    w.reply (str "322") [arg, Nat.toDigits 10 (w.chans.users c).length] ∈ w.mList := by
  obtain ⟨halive, hname⟩ := hw.listed.getChannel.mp hc
  have hentry : (arg, c) ∈ w.chans.table.entries := (hw.listed.table arg c).mpr ⟨halive, hname⟩
  refine List.mem_append_left _ (List.mem_cons_of_mem _ (List.mem_map.mpr ⟨(arg, c), hentry, ?_⟩))
  dsimp only
  rw [hname]

end Told

end World
end Minbif
