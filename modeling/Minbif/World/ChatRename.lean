import Minbif.World.ChatIndex
import Minbif.World.Participants

/-! The rename of a participant of a chat. -/
namespace Minbif
open Function

namespace Nicks

variable {N : Nicks} {n : NickRef} {base nick s t : Str}

/-- The base, with the fewest underscores that avoid the names of the other nicks. -/
def Fewest (N : Nicks) (n : NickRef) (base s : Str) : Prop :=
  ∃ k, s = base ++ List.replicate k '_' ∧ N.FreeFor n s ∧
    ∀ j < k, ¬ N.FreeFor n (base ++ List.replicate j '_')

theorem Fewest.unique (h : N.Fewest n base s) (h' : N.Fewest n base t) : s = t := by
  obtain ⟨k, rfl, hfree, hleast⟩ := h
  obtain ⟨j, rfl, hfree', hleast'⟩ := h'
  rw [Fresh.least_unique (F := N.FreeFor n) hfree hleast hfree' hleast']

/-- The loop that looks only at the other nicks. -/
def nameFor (N : Nicks) (n : NickRef) (base : Str) : Str :=
  Fresh.freshLoop (fun s => !decide (N.FreeFor n s)) '_' (N.users.entries.length + 1) base

theorem nameFor_fewest (N : Nicks) (n : NickRef) (base : Str) :
    N.Fewest n base (N.nameFor n base) := by
  obtain ⟨k, hk, hleast⟩ := @Fresh.freshLoop_least Char (fun s => !decide (N.FreeFor n s)) '_'
    (N.users.entries.length + 1) base
  refine ⟨k, hk, ?_, fun j hj => by simpa using hleast j hj⟩
  have h := @Fresh.freshLoop_free Char (fun s => !decide (N.FreeFor n s)) strlower
    (N.users.entries.map fun e => strlower e.1) '_' (N.users.entries.length + 1) base
    (fun s => by simp [strlower]) ?_ ?_
  · simpa [nameFor] using h
  · intro s hs
    have hs' : ¬ N.FreeFor n s := by simpa using hs
    by_contra hnone
    refine hs' fun k m hmem he => (hnone ?_).elim
    exact List.mem_map.mpr ⟨(k, m), hmem, he⟩
  · exact Nat.lt_succ_of_le (List.countP_le_length.trans (by simp))

/-- The loop looks at the nick itself too; where it does not meet it, it stops where it should. -/
theorem freeNickname_fewest (h : N.Table) (hown : strlower (N.nickname n) ≠ strlower (N.nameFor n base)) :
    N.Fewest n base (N.freeNickname base) := by
  obtain ⟨k, hk, hleast⟩ := @Fresh.freshLoop_least Char (fun s => (N.getNick s).isSome) '_'
    (N.users.entries.length + 1) base
  refine ⟨k, hk, fun x m hm he => ?_, fun j hj hfree => ?_⟩
  · exact (getNick_eq_none.mp (freeNickname_free N base) x m hm he).elim
  · obtain ⟨i, hi, hfi, hleasti⟩ := N.nameFor_fewest n base
    have hij : i ≤ j := Nat.le_of_not_lt fun hji => hleasti j hji hfree
    obtain ⟨m, hm⟩ := Option.isSome_iff_exists.mp (hleast i (by omega))
    obtain ⟨x, hmem, he⟩ := getNick_eq_some hm
    rw [← hi] at he
    obtain rfl := hfi x m hmem he
    exact hown (by rw [h.key x m hmem, he])

/-- The loop never stops at the name that the nick has. -/
theorem freeNickname_ne (h : N.Table) (hn : N.alive n = true) (hk : (N.kind n).isConvNick = true)
    (base : Str) : strlower (N.nickname n) ≠ strlower (N.freeNickname base) :=
  getNick_eq_none.mp (freeNickname_free N base) _ n (h.conv n hn hk)

theorem mem_renameNick_other (h : N.Table) (hn : N.alive n = true)
    (hk : (N.kind n).isConvNick = true) (hfree : N.getNick nick = none) {k : Str} {m : NickRef}
    (hm : m ≠ n) : (k, m) ∈ (N.renameNick n nick).users.entries ↔ (k, m) ∈ N.users.entries := by
  rw [mem_renameNick]
  constructor
  · rintro (⟨-, rfl⟩ | ⟨-, hmem, -⟩)
    · exact (hm rfl).elim
    · exact hmem
  · refine fun hmem => .inr ⟨?_, hmem, ?_⟩
    · rintro rfl
      exact getNick_eq_none.mp hfree k m hmem rfl
    · rintro rfl
      exact hm (OrdMap.mem_unique hmem (h.conv n hn hk))

end Nicks

namespace World

variable {P : Purple} {w w' : World} {v : ConvRef} {c : ChanRef} {old cb : CBuddyRef}
  {cu : ChanUserRef}

/-- The participant `old` of a chat has become `cb`, and its nick has the name of that one. -/
structure Renames (P : Purple) (w w' : World) (c : ChanRef) (old cb : CBuddyRef)
    (cu : ChanUserRef) : Prop where
  index : (w'.chans.cbuddies c).find? cb = some cu
  absent : (w'.chans.cbuddies c).find? old = none
  nickname : w.nicks.kind (w.chans.cuNick cu) = .chatBuddy →
    w.nicks.Fewest (w.chans.cuNick cu) (nickize (P.translit (P.cbName cb)) (P.cbName cb))
      (w'.nicks.nickname (w.chans.cuNick cu))
  user : w.nicks.kind (w.chans.cuNick cu) ≠ .chatBuddy →
    w'.nicks.nickname (w.chans.cuNick cu) = w.nicks.nickname (w.chans.cuNick cu)
  sent : w'.chans.sent = w.chans.sent ++
    if w'.nicks.nickname (w.chans.cuNick cu) = w.nicks.nickname (w.chans.cuNick cu) then []
    else [.msg ⟨str "NICK", w.nicks.entity (w.chans.cuNick cu), .unset,
      [w'.nicks.nickname (w.chans.cuNick cu)]⟩]
  others : ∀ m, m ≠ w.chans.cuNick cu → w'.nicks.nickname m = w.nicks.nickname m
  table : ∀ k m, m ≠ w.chans.cuNick cu →
    ((k, m) ∈ w'.nicks.users.entries ↔ (k, m) ∈ w.nicks.users.entries)

/-- The rename of a `ChatBuddy` to another handle, when its name is not the one it is to get, and
no participant before it has its IM name up to case. -/
def Renamable (P : Purple) (w : World) (c : ChanRef) (old cb : CBuddyRef) (cu : ChanUserRef) :
    Prop :=
  let n := w.chans.cuNick cu
  w.nicks.kind n = .chatBuddy ∧ cb ≠ old ∧
    strlower (w.nicks.nickname n) ≠
      strlower (w.nicks.nameFor n (nickize (P.translit (P.cbName cb)) (P.cbName cb))) ∧
    ∀ e ∈ (w.chans.cbuddies c).entries, e.1 < old →
      strlower (P.cbName e.1) ≠ strlower (P.cbName old)

instance : Decidable (Renamable P w c old cb cu) :=
  inferInstanceAs (Decidable (_ ∧ _ ∧ _ ∧ _))

/-- The search by name finds an entry that no entry with the name comes before. -/
theorem chanUserNamed_first {name : Str} {x : CBuddyRef} (hx : (x, cu) ∈ (w.chans.cbuddies c).entries)
    (hname : strlower (P.cbName x) = strlower name) : ∃ e ∈ (w.chans.cbuddies c).entries,
      w.chanUserNamed P c name = some e.2 ∧ strlower (P.cbName e.1) = strlower name ∧ e.1 ≤ x ∧
        ∀ e' ∈ (w.chans.cbuddies c).entries, e'.1 < e.1 → strlower (P.cbName e'.1) ≠ strlower name := by
  cases hf : (w.chans.cbuddies c).entries.find? fun e => strlower (P.cbName e.1) = strlower name with
  | none =>
    have := List.find?_eq_none.mp hf _ hx
    simp [hname] at this
  | some e =>
    obtain ⟨he, xs, ys, hsplit, hbefore⟩ := List.find?_eq_some_iff_append.mp hf
    have hsorted := (w.chans.cbuddies c).sorted
    rw [hsplit, List.pairwise_append, List.pairwise_cons] at hsorted
    obtain ⟨-, ⟨hafter, -⟩, -⟩ := hsorted
    have hfirst : ∀ e' ∈ (w.chans.cbuddies c).entries, e'.1 < e.1 →
        strlower (P.cbName e'.1) ≠ strlower name := by
      intro e' he' hlt
      rw [hsplit, List.mem_append, List.mem_cons] at he'
      rcases he' with he' | rfl | he'
      · simpa using hbefore e' he'
      · exact (lt_irrefl _ hlt).elim
      · exact (lt_asymm hlt (hafter e' he')).elim
    refine ⟨e, List.mem_of_find?_eq_some hf, by simp [chanUserNamed, hf], by simpa using he, ?_, hfirst⟩
    exact Nat.le_of_not_lt fun hlt => hfirst _ hx hlt hname

theorem renameUser_eq (hv : w.chatChan v = some c) (h : w.chanUserNamed P c (P.cbName old) = some cu) :
    w.runRegistered P (.renameUser v old cb) = w.renameBuddy P c cu cb := by
  simp only [runRegistered, hv, h, Option.bind_some]

/-- What the code does with a `ChatBuddy`: it always takes a new name. -/
theorem renameBuddy_spec (hw : w.Ok none) (hcu : cu ∈ w.chans.users c)
    (h : w.renameBuddy P c cu cb = some w') :
    let n := w.chans.cuNick cu
    let newNick := w.nicks.freeNickname (nickize (P.translit (P.cbName cb)) (P.cbName cb))
    w.nicks.kind n = .chatBuddy ∧
      w'.chans.cbuddies c = ((w.chans.cbuddies c).erase (w.nicks.cbuddy n)).insert cb cu ∧
      w'.nicks.nickname = update w.nicks.nickname n newNick ∧
      w'.nicks.users = (w.nicks.renameNick n newNick).users ∧
      w'.chans.sent = w.chans.sent ++
        [.msg ⟨str "NICK", w.nicks.entity n, .unset, [newNick]⟩] := by
  unfold renameBuddy at h
  dsimp only at h ⊢
  split at h
  · cases h
  · next hk =>
    rw [not_not] at hk
    obtain rfl := Option.some.inj h
    have hconv : (w.nicks.kind (w.chans.cuNick cu)).isConvNick = true := by
      rw [hk]
      rfl
    have hne : w.nicks.nickname (w.chans.cuNick cu) ≠
        w.nicks.freeNickname (nickize (P.translit (P.cbName cb)) (P.cbName cb)) := fun he =>
      Nicks.freeNickname_ne hw.table (hw.placed.ne_nil hw.member hcu).1 hconv _ (congrArg strlower he)
    rw [if_neg hne]
    exact ⟨hk, update_self .., rfl, rfl, rfl⟩

theorem Renamable.of_renames (hw : w.Ok none) (hv : w.chatChan v = some c)
    (hold : (old, cu) ∈ (w.chans.cbuddies c).entries)
    (hrun : w.runRegistered P (.renameUser v old cb) = some w') (hr : Renames P w w' c old cb cu) :
    Renamable P w c old cb cu := by
  have hlive := (hw.chatChan hv).1
  obtain ⟨hcu, hidx⟩ := hw.placed.index c nofun hlive old cu hold
  obtain ⟨e, he, hnamed, -, -, hfirst⟩ := chanUserNamed_first (P := P) hold rfl
  rw [renameUser_eq hv hnamed] at hrun
  obtain ⟨hcu', hidx'⟩ := hw.placed.index c nofun hlive e.1 e.2 he
  obtain ⟨hk, hb, hnick, -, -⟩ := renameBuddy_spec hw hcu' hrun
  have hsame : e.2 = cu := by
    have hi := hr.index
    rw [hb, OrdMap.find?_insert_self] at hi
    exact Option.some.inj hi
  rw [hsame] at hk hnick hidx'
  have hconv : (w.nicks.kind (w.chans.cuNick cu)).isConvNick = true := by
    rw [hk]
    rfl
  refine ⟨hk, ?_, ?_, ?_⟩
  · rintro rfl
    have ha := hr.absent
    rw [hr.index] at ha
    cases ha
  · have hfewest := hr.nickname hk
    rw [hnick, update_self] at hfewest
    rw [(Nicks.nameFor_fewest _ _ _).unique hfewest]
    exact Nicks.freeNickname_ne hw.table (hw.placed.ne_nil hw.member hcu).1 hconv _
  · -- a `ChatBuddy` has one key
    have hkey : e.1 = old := by
      have hu := Nicks.userRef_ne hw.table hconv
      rw [← (hidx'.resolve_left hu).2, (hidx.resolve_left hu).2]
    exact hkey ▸ hfirst

theorem Renamable.renames (h : Renamable P w c old cb cu) (hw : w.Ok none)
    (hv : w.chatChan v = some c) (hold : (old, cu) ∈ (w.chans.cbuddies c).entries) :
    ∃ w', w.runRegistered P (.renameUser v old cb) = some w' ∧ Renames P w w' c old cb cu := by
  obtain ⟨hk, hne, hown, hbefore⟩ := h
  obtain ⟨hcu, hidx⟩ := hw.placed.index c nofun (hw.chatChan hv).1 old cu hold
  obtain ⟨e, he, hnamed, hname, hle, -⟩ := chanUserNamed_first (P := P) hold rfl
  have hkey : e.1 = old := Nat.le_antisymm hle (Nat.le_of_not_lt fun hlt => hbefore e he hlt hname)
  have hsame : e.2 = cu := OrdMap.mem_unique (hkey ▸ he) hold
  rw [renameUser_eq hv hnamed, hsame]
  obtain ⟨w', hrun⟩ : ∃ w', w.renameBuddy P c cu cb = some w' := by
    unfold renameBuddy
    dsimp only
    rw [if_neg (not_not.mpr hk)]
    exact ⟨_, rfl⟩
  obtain ⟨-, hb, hnick, husers, hsent⟩ := renameBuddy_spec hw hcu hrun
  have hconv : (w.nicks.kind (w.chans.cuNick cu)).isConvNick = true := by
    rw [hk]
    rfl
  have hcb := (hidx.resolve_left (Nicks.userRef_ne hw.table hconv)).2
  have halive := (hw.placed.ne_nil hw.member hcu).1
  have hchange : ∀ base, w.nicks.freeNickname base ≠ w.nicks.nickname (w.chans.cuNick cu) :=
    fun base he => Nicks.freeNickname_ne hw.table halive hconv base (congrArg strlower he.symm)
  refine ⟨w', hrun, ?_, ?_, fun _ => ?_, fun hother => (hother hk).elim, ?_, ?_, ?_⟩
  · rw [hb, OrdMap.find?_insert_self]
  · rw [hb, OrdMap.find?_insert_of_ne hne.symm, hcb, OrdMap.find?_erase_self]
  · rw [hnick, update_self]
    exact Nicks.freeNickname_fewest hw.table hown
  · rw [hnick, update_self, if_neg (hchange _), hsent]
  · intro m hm
    rw [hnick, update_of_ne hm]
  · intro k m hm
    rw [husers]
    exact Nicks.mem_renameNick_other hw.table halive hconv (Nicks.freeNickname_free _ _) hm

theorem renames_iff (hw : w.Ok none) (hv : w.chatChan v = some c)
    (hold : (old, cu) ∈ (w.chans.cbuddies c).entries) :
    (∃ w', w.runRegistered P (.renameUser v old cb) = some w' ∧ Renames P w w' c old cb cu) ↔
      Renamable P w c old cb cu := by
  constructor
  · rintro ⟨w', hrun, hr⟩
    exact .of_renames hw hv hold hrun hr
  · exact fun h => h.renames hw hv hold

/-- A rename does what is expected of it exactly when the participant is a `ChatBuddy` that the
search by name finds, and its nick does not have the name already that it is to get. -/
theorem renameUser_iff (P : Purple) (ops : List Op)
    (hv : (initial.runAll P ops).chatChan v = some c)
    (hold : (old, cu) ∈ ((initial.runAll P ops).chans.cbuddies c).entries) :
    (∃ w', (initial.runAll P ops).runRegistered P (.renameUser v old cb) = some w' ∧
      Renames P (initial.runAll P ops) w' c old cb cu) ↔
        Renamable P (initial.runAll P ops) c old cb cu :=
  renames_iff (runAll_ok P ops) hv hold

section Runs

/-- The handle 3 is `bob` under another name. -/
def bobRobert : Purple where
  buddyAccount _ := 0
  buddyName _ := []
  cbAccount _ := 0
  cbName cb := if cb = 1 then str "bob" else if cb = 3 then str "robert" else str "alice"
  cbRealName _ := []
  translit _ := none

theorem renameUser_robert :
    ∃ w', (initial.runAll bobRobert aliceJoins).runRegistered bobRobert (.renameUser 0 1 3) = some w' ∧
      Renames bobRobert (initial.runAll bobRobert aliceJoins) w' 0 1 3 1 := by
  refine (renameUser_iff bobRobert aliceJoins (v := 0) (by decide) ?_).mpr (by decide)
  decide

/-- The User is no `ChatBuddy`, and its rename reads a null pointer. -/
theorem renameUser_self : ¬ ∀ (P : Purple) (ops : List Op) (v : ConvRef) (c : ChanRef)
    (old cb : CBuddyRef) (cu : ChanUserRef), (initial.runAll P ops).chatChan v = some c →
    (old, cu) ∈ ((initial.runAll P ops).chans.cbuddies c).entries → cb ≠ old →
    ∃ w', (initial.runAll P ops).runRegistered P (.renameUser v old cb) = some w' ∧
      Renames P (initial.runAll P ops) w' c old cb cu := by
  intro h
  obtain ⟨w', hrun, -⟩ := h aliceTwice aliceJoins 0 0 0 2 0 (by decide) (by decide) (by decide)
  have hnone : ((initial.runAll aliceTwice aliceJoins).runRegistered aliceTwice
      (.renameUser 0 0 2)).isNone = true := by
    decide
  rw [hrun] at hnone
  cases hnone

end Runs

end World
end Minbif
