import Minbif.World.Pictured
import Minbif.World.Texts

/-! The ban masks of a status channel. -/
namespace Minbif
open Function

/-- A call of `deny` (`add`) or of `allow`. -/
structure BanCall where
  add : Bool
  account : AccountRef
  name : Str
deriving DecidableEq, Repr

namespace World

/-- The state of `Channel::m_mode`, with the calls so far. -/
structure Banning where
  w : World
  calls : List BanCall := []

/-- The pattern that `IRC::matchNick` compares long names with. -/
def nickPattern (pattern : Str) : Str :=
  if !pattern.contains '!' then
    if pattern.contains '@' then str "*!" ++ pattern
    else if pattern.contains ':' then str "*!*@" ++ pattern
    else pattern ++ str "!*@*"
  else if !pattern.contains '@' then pattern ++ str "@*" else pattern

variable (P : Purple)
  -- `fnmatch(pattern, name, FNM_NOESCAPE|FNM_CASEFOLD)` finds a match
  (fnmatch : Str → Str → Bool)
  -- the lists of `getDenyList` after these calls
  (denied : List BanCall → AccountRef → List Str)
  -- what the last of these calls returns
  (changed : List BanCall → Bool)

def matchNick (w : World) (pattern : Str) : List NickRef :=
  w.nicks.users.values.filter fun n => fnmatch (nickPattern pattern) (w.nicks.longName n)

def getMaskFromName (w : World) (name : Str) (a : AccountRef) : Str :=
  let ban := str "*!" ++ name
  if !ban.contains '@' then ban ++ '@' :: w.data.accountId a else ban ++ ':' :: w.data.accountId a

/-- The name and the account in a mask: what stands around the first colon, or else around the
first `@`. -/
def splitBan (pattern : Str) : Str × Str :=
  let r := stringtok pattern [':']
  if r.2.isEmpty then stringtok r.1 ['@'] else r

/-- The name without what stands before `!`. -/
def banName (pattern : Str) : Str :=
  if pattern.contains '!' then (stringtok pattern ['!']).2 else pattern

/-- The account of the channel that a mask is for; a single one needs no ID. -/
def banAccount (w : World) (c : ChanRef) (accid : Str) : Option AccountRef :=
  match (w.chans.accounts c).find? fun a => w.data.accountId a = accid with
  | some a => some a
  | none =>
    match w.chans.accounts c with
    | [a] => some a
    | _ => none

namespace Banning

/-- A numeric reply, which may turn out not to be one. -/
def tell (s : Banning) (cmd : Str) (args : List Str) : Except Exn Unit × Banning :=
  match Message.addArgs (s.w.reply cmd []) args with
  | .error e => (.error e, s)
  | .ok m => (.ok (), { s with w := s.w.tellUser m })

def showBans (c : ChanRef) : List (AccountRef × Str) → Banning → Except Exn Unit × Banning
  | [], s => s.tell (str "368") [s.w.chans.name c, str "End of Channel Ban List"]
  | (a, name) :: bans, s =>
    match s.tell (str "367")
      [s.w.chans.name c, s.w.getMaskFromName name a, s.w.data.servername a, str "0"] with
    | (.error e, s) => (.error e, s)
    | (.ok (), s) => showBans c bans s

def showBanList (c : ChanRef) (s : Banning) : Except Exn Unit × Banning :=
  showBans c ((s.w.chans.accounts c).flatMap fun a => (denied s.calls a).map fun name => (a, name)) s

/-- The call, and the change of mode if it changed anything. -/
def ban (c : ChanRef) (add : Bool) (s : Banning) (a : AccountRef) (name : Str) : Banning :=
  let calls := s.calls ++ [⟨add, a, name⟩]
  if changed calls then
    ⟨s.w.tellChan c ⟨str "MODE", s.w.nicks.entity userRef, s.w.chans.chanEntity c,
      [str (if add then "+b" else "-b"), s.w.getMaskFromName name a]⟩, calls⟩
  else ⟨s.w, calls⟩

def processBan (c : ChanRef) (s : Banning) (pattern : Str) (add : Bool) :
    Except Exn Unit × Banning :=
  let results := s.w.matchNick fnmatch pattern
  if !results.isEmpty then
    (.ok (), results.foldl (fun s n =>
      if s.w.nicks.kind n = .buddy then
        s.ban changed c add (P.buddyAccount (s.w.nicks.buddy n)) (P.buddyName (s.w.nicks.buddy n))
      else s) s)
  else
    let split := splitBan pattern
    match s.w.banAccount c split.2 with
    | none =>
      s.tell (str "401") [if split.2.isEmpty then split.1 else split.2,
        str (if split.2.isEmpty then "Please sufix mask with ':accountID'" else "No such account")]
    | some a => (.ok (), s.ban changed c add a (banName split.1))

/-- The loop of `Channel::m_mode` over the letters. -/
def modeLoop (c : ChanRef) : Str → Bool → List Str → Banning → Except Exn Unit × Banning
  | [], _, _, s => (.ok (), s)
  | letter :: modes, add, args, s =>
    if letter = '+' then modeLoop c modes true args s
    else if letter = '-' then modeLoop c modes false args s
    else if letter = 'b' then
      match args with
      | [] =>
        match s.showBanList denied c with
        | (.error e, s) => (.error e, s)
        | (.ok (), s) => modeLoop c modes add [] s
      | mask :: args =>
        match s.processBan P fnmatch changed c mask add with
        | (.error e, s) => (.error e, s)
        | (.ok (), s) => modeLoop c modes add args s
    else modeLoop c modes add args s

end Banning

/-- `Channel::m_mode` for the User. -/
def mMode (w : World) (c : ChanRef) : List Str → Except Exn Unit × Banning
  | [] =>
    match Banning.tell ⟨w, []⟩ (str "324") [w.chans.name c, str "+"] with
    | (.error e, s) => (.error e, s)
    | (.ok (), s) => s.tell (str "329") [w.chans.name c, str "1212313"]
  | modes :: args => Banning.modeLoop P fnmatch denied changed c modes true args ⟨w, []⟩

/-- A mask names its account by `accid`. -/
def Splits (name id accid : Str) : Prop :=
  ':' ∉ name ∧
    if '@' ∈ name then id ≠ [] ∧ accid = id
    else ':' ∉ id ∧ accid = id ∨ ':' ∉ accid ∧ id = accid ++ [':']

/-- The mask of a denied name leads back to it: through the one contact among the nicks it matches,
or through the account it names where it matches none. -/
def Reversible (w : World) (c : ChanRef) (a : AccountRef) (name : Str) : Prop :=
  let results := w.matchNick fnmatch (w.getMaskFromName name a)
  if results = [] then
    ∃ accid, Splits name (w.data.accountId a) accid ∧ w.banAccount c accid = some a
  else
    ∃ n, results.filter (fun n => w.nicks.kind n = .buddy) = [n] ∧
      P.buddyAccount (w.nicks.buddy n) = a ∧ P.buddyName (w.nicks.buddy n) = name

variable {P fnmatch denied changed} {w : World} {c : ChanRef} {a : AccountRef} {s : Banning}
  {name id accid t r : Str}

section Split

theorem stringtok_at {x : Char} (ht : t ≠ []) (hx : x ∉ t) : stringtok (t ++ x :: r) [x] = (t, r) :=
  stringtok_cut ht (fun y hy => by simpa using fun h : y = x => hx (h ▸ hy)) (by simp)

theorem stringtok_without {x : Char} (hx : x ∉ t) : stringtok t [x] = (t, []) := by
  have hfree : ∀ y ∈ t, ([x] : Str).contains y = false := fun y hy => by
    simpa using fun h : y = x => hx (h ▸ hy)
  have hstart : t.dropWhile ([x] : Str).contains = t := by
    cases t with
    | nil => rfl
    | cons y t => rw [List.dropWhile_cons_of_neg (by simpa using hfree y (by simp))]
  have hrun : ∀ y ∈ t, (!([x] : Str).contains y) = true := fun y hy => by rw [hfree y hy]; rfl
  simp only [stringtok, hstart]
  rw [List.takeWhile_eq_self_iff.mpr hrun, List.dropWhile_eq_nil_iff.mpr hrun, List.tail_nil]

/-- What stands before the first `!` goes. -/
theorem banName_mask (name : Str) : banName (str "*!" ++ name) = name := by
  have hmem : (str "*!" ++ name).contains '!' = true := by simp [str]
  have hcut : stringtok (str "*!" ++ name) ['!'] = (['*'], name) :=
    stringtok_at (t := ['*']) (by simp) (by decide)
  rw [banName, if_pos hmem, hcut]

theorem mask_colon (hname : ':' ∈ name) (h : r ≠ []) :
    banName (splitBan (str "*!" ++ name ++ r)).1 ≠ name := by
  obtain ⟨n₁, n₂, rfl, hn₁⟩ := List.eq_append_cons_of_mem hname
  have hcut : stringtok (str "*!" ++ (n₁ ++ ':' :: n₂) ++ r) [':'] = (str "*!" ++ n₁, n₂ ++ r) := by
    have := stringtok_at (t := str "*!" ++ n₁) (r := n₂ ++ r) (x := ':') (by simp [str])
      (by simpa [str] using hn₁)
    simpa using this
  have hrest : (n₂ ++ r).isEmpty = false := by simp [h]
  simp only [splitBan, hcut, hrest, Bool.false_eq_true, if_false, banName_mask]
  intro heq
  simpa using congrArg List.length heq

theorem getMaskFromName_eq (w : World) (name : Str) (a : AccountRef) :
    w.getMaskFromName name a =
      str "*!" ++ name ++ (if '@' ∈ name then ':' else '@') :: w.data.accountId a := by
  have hat : (str "*!" ++ name).contains '@' = decide ('@' ∈ name) := by simp [str]
  unfold getMaskFromName
  dsimp only
  rw [hat]
  by_cases hm : '@' ∈ name <;> simp [hm]

theorem mask_at (hname : ':' ∉ name) (hat : '@' ∈ name) :
    (banName (splitBan (str "*!" ++ name ++ ':' :: id)).1 = name ∧
      (splitBan (str "*!" ++ name ++ ':' :: id)).2 = accid) ↔ id ≠ [] ∧ accid = id := by
  have hfree : ':' ∉ str "*!" ++ name := by simpa [str] using hname
  have hcut : stringtok (str "*!" ++ name ++ ':' :: id) [':'] = (str "*!" ++ name, id) :=
    stringtok_at (by simp [str]) hfree
  cases id with
  | nil =>
    obtain ⟨n₁, n₂, rfl, hn₁⟩ := List.eq_append_cons_of_mem hat
    have hcut' : stringtok (str "*!" ++ (n₁ ++ '@' :: n₂)) ['@'] = (str "*!" ++ n₁, n₂) := by
      have := stringtok_at (t := str "*!" ++ n₁) (r := n₂) (x := '@') (by simp [str])
        (by simpa [str] using hn₁)
      simpa using this
    refine iff_of_false ?_ fun h => h.1 rfl
    rintro ⟨heq, -⟩
    simp only [splitBan, hcut, List.isEmpty_nil, if_true, hcut', banName_mask] at heq
    simpa using congrArg List.length heq
  | cons x id =>
    simp only [splitBan, hcut, List.isEmpty_cons, Bool.false_eq_true, if_false, banName_mask]
    exact ⟨fun h => ⟨List.cons_ne_nil x id, h.2.symm⟩, fun h => ⟨trivial, h.2.symm⟩⟩

theorem mask_plain (hname : ':' ∉ name) (hat : '@' ∉ name) :
    (banName (splitBan (str "*!" ++ name ++ '@' :: id)).1 = name ∧
      (splitBan (str "*!" ++ name ++ '@' :: id)).2 = accid) ↔
      ':' ∉ id ∧ accid = id ∨ ':' ∉ accid ∧ id = accid ++ [':'] := by
  have hat' : '@' ∉ str "*!" ++ name := by simpa [str] using hat
  have hsplit : ∀ id, stringtok (str "*!" ++ name ++ '@' :: id) ['@'] = (str "*!" ++ name, id) :=
    fun id => stringtok_at (by simp [str]) hat'
  by_cases hid : ':' ∈ id
  · obtain ⟨i₁, i₂, rfl, hi₁⟩ := List.eq_append_cons_of_mem hid
    have hfree : ':' ∉ str "*!" ++ name ++ '@' :: i₁ := by simpa [str] using ⟨hname, hi₁⟩
    have hcut : stringtok (str "*!" ++ name ++ '@' :: (i₁ ++ ':' :: i₂)) [':'] =
        (str "*!" ++ name ++ '@' :: i₁, i₂) := by
      have := stringtok_at (t := str "*!" ++ name ++ '@' :: i₁) (r := i₂) (x := ':') (by simp [str])
        hfree
      simpa using this
    cases i₂ with
    | nil =>
      simp only [splitBan, hcut, List.isEmpty_nil, if_true, hsplit, banName_mask]
      constructor
      · rintro ⟨-, rfl⟩
        exact .inr ⟨hi₁, rfl⟩
      · rintro (⟨hno, -⟩ | ⟨-, heq⟩)
        · exact absurd hid hno
        · exact ⟨trivial, List.append_cancel_right heq⟩
    | cons x i₂ =>
      simp only [splitBan, hcut, List.isEmpty_cons, Bool.false_eq_true, if_false]
      refine iff_of_false ?_ ?_
      · rintro ⟨heq, -⟩
        rw [List.append_assoc, banName_mask] at heq
        simpa using congrArg List.length heq
      · rintro (⟨hno, -⟩ | ⟨hno, heq⟩)
        · exact hno hid
        · -- the first colon of the ID would be its last character
          rcases List.eq_nil_or_concat (x :: i₂) with hnil | ⟨l, y, hl⟩
          · cases hnil
          · rw [hl, List.concat_eq_append, ← List.cons_append, ← List.append_assoc] at heq
            have := List.append_inj_left' heq rfl
            exact hno (this ▸ by simp)
  · have hfree : ':' ∉ str "*!" ++ name ++ '@' :: id := by simpa [str] using ⟨hname, hid⟩
    simp only [splitBan, stringtok_without hfree, List.isEmpty_nil, if_true, hsplit, banName_mask]
    constructor
    · rintro ⟨-, rfl⟩
      exact .inl ⟨hid, rfl⟩
    · rintro (⟨-, rfl⟩ | ⟨-, rfl⟩)
      · exact ⟨trivial, rfl⟩
      · exact absurd (by simp) hid

/-- What the split of a mask gives back. -/
theorem splits_iff (w : World) (name : Str) (a : AccountRef) :
    (banName (splitBan (w.getMaskFromName name a)).1 = name ∧
      (splitBan (w.getMaskFromName name a)).2 = accid) ↔ Splits name (w.data.accountId a) accid := by
  rw [getMaskFromName_eq, Splits]
  by_cases hname : ':' ∈ name
  · exact iff_of_false (fun h => mask_colon hname (by simp) h.1) fun h => h.1 hname
  · by_cases hat : '@' ∈ name
    · rw [if_pos hat, if_pos hat, mask_at hname hat]
      exact (and_iff_right hname).symm
    · rw [if_neg hat, if_neg hat, mask_plain hname hat]
      exact (and_iff_right hname).symm

end Split

section Calls

namespace Banning

@[simp] theorem ban_calls (c : ChanRef) (add : Bool) (s : Banning) (a : AccountRef) (name : Str) :
    (s.ban changed c add a name).calls = s.calls ++ [⟨add, a, name⟩] := by
  unfold ban
  dsimp only
  split <;> rfl

theorem ban_nicks (c : ChanRef) (add : Bool) (s : Banning) (a : AccountRef) (name : Str) :
    (s.ban changed c add a name).w.nicks = s.w.nicks := by
  unfold ban
  dsimp only
  split <;> rfl

theorem tell_calls (s : Banning) (cmd : Str) (args : List Str) :
    (s.tell cmd args).2.calls = s.calls := by
  unfold tell
  split <;> rfl

/-- The contacts among the nicks are called for, one after the other. -/
theorem foldl_ban_calls (c : ChanRef) (add : Bool) (results : List NickRef) (s : Banning) :
    (results.foldl (fun s n =>
      if s.w.nicks.kind n = .buddy then
        s.ban changed c add (P.buddyAccount (s.w.nicks.buddy n)) (P.buddyName (s.w.nicks.buddy n))
      else s) s).calls =
    s.calls ++ (results.filter fun n => s.w.nicks.kind n = .buddy).map fun n =>
      ⟨add, P.buddyAccount (s.w.nicks.buddy n), P.buddyName (s.w.nicks.buddy n)⟩ := by
  induction results generalizing s with
  | nil => simp
  | cons n results ih =>
    rw [List.foldl_cons, ih]
    by_cases hn : s.w.nicks.kind n = .buddy
    · rw [if_pos hn, ban_nicks, ban_calls, List.filter_cons_of_pos (by simpa using hn)]
      simp
    · rw [if_neg hn, List.filter_cons_of_neg (by simpa using hn)]

end Banning

/-- The calls for the mask of a denied name. -/
theorem processBan_iff (c : ChanRef) (s : Banning) (a : AccountRef) (name : Str) (add : Bool) :
    (s.processBan P fnmatch changed c (s.w.getMaskFromName name a) add).2.calls =
      s.calls ++ [⟨add, a, name⟩] ↔ s.w.Reversible P fnmatch c a name := by
  unfold Banning.processBan Reversible
  dsimp only
  by_cases hres : s.w.matchNick fnmatch (s.w.getMaskFromName name a) = []
  · rw [if_pos hres, hres]
    simp only [List.isEmpty_nil, Bool.not_true, Bool.false_eq_true, if_false]
    have hsplit : ∀ accid, (banName (splitBan (s.w.getMaskFromName name a)).1 = name ∧
        (splitBan (s.w.getMaskFromName name a)).2 = accid) ↔
          Splits name (s.w.data.accountId a) accid := fun accid => splits_iff s.w name a
    generalize splitBan (s.w.getMaskFromName name a) = split at *
    split
    · next hnone =>
      rw [Banning.tell_calls]
      refine iff_of_false (by simp) ?_
      rintro ⟨accid, hs, ha⟩
      rw [((hsplit accid).mpr hs).2, ha] at hnone
      cases hnone
    · next b hb =>
      rw [Banning.ban_calls]
      constructor
      · intro h
        obtain ⟨rfl, hname⟩ : b = a ∧ banName split.1 = name := by simpa using h
        exact ⟨split.2, (hsplit split.2).mp ⟨hname, rfl⟩, hb⟩
      · rintro ⟨accid, hs, ha⟩
        obtain ⟨hname, hacc⟩ := (hsplit accid).mpr hs
        rw [hacc, ha] at hb
        rw [hname, Option.some.inj hb]
  · rw [if_neg hres, if_pos (by simpa using hres), Banning.foldl_ban_calls,
      List.append_cancel_left_eq, List.map_eq_singleton_iff]
    simp

/-- `MODE -b` with the mask of a denied name allows exactly that name on that account if and only
if the mask leads back to it. -/
theorem unban_iff (P : Purple) (fnmatch : Str → Str → Bool)
    (denied : List BanCall → AccountRef → List Str) (changed : List BanCall → Bool) (w : World)
    (c : ChanRef) (a : AccountRef) (name : Str) :
    (w.mMode P fnmatch denied changed c [str "-b", w.getMaskFromName name a]).2.calls =
      [⟨false, a, name⟩] ↔ w.Reversible P fnmatch c a name := by
  have hcalls : (Banning.processBan P fnmatch changed c ⟨w, []⟩ (w.getMaskFromName name a)
      false).2.calls = [] ++ [⟨false, a, name⟩] ↔ w.Reversible P fnmatch c a name :=
    processBan_iff c ⟨w, []⟩ a name false
  rw [List.nil_append] at hcalls
  rw [← hcalls]
  have hmodes : str "-b" = ['-', 'b'] := rfl
  simp only [mMode, hmodes, Banning.modeLoop, Char.reduceEq, if_true, if_false]
  split <;> rename_i h <;> rw [h]

end Calls

section Runs

/-- `fnmatch` with `FNM_NOESCAPE|FNM_CASEFOLD`, for patterns without brackets. -/
def glob : Str → Str → Bool
  | [], s => s.isEmpty
  | '*' :: p, s => s.tails.any (glob p)
  | _ :: _, [] => false
  | x :: p, y :: s => (x == '?' || x.toLower == y.toLower) && glob p s

/-- The contact bob of account `jabber0` is on the status channel. -/
def jabberOnStatus : List Op :=
  [.nick (str "alice"), .data { bobData with accountId := fun _ => str "jabber0" }, .startUp [0],
    .welcome, .connected 0, .updateNode 0]

example : ((initial.runAll bobPurple jabberOnStatus).mMode bobPurple glob (fun _ _ => [str "eve"])
    (fun _ => true) 0 [str "-b", str "*!eve@jabber0"]).2.calls = [⟨false, 0, str "eve"⟩] := by
  decide

/-- The mask of a name with a colon in it stands for what is before the colon. -/
theorem unban_colon : ¬ ∀ (P : Purple) (fnmatch : Str → Str → Bool)
    (denied : List BanCall → AccountRef → List Str) (changed : List BanCall → Bool)
    (ops : List Op) (c : ChanRef) (a : AccountRef) (name : Str),
    a ∈ (initial.runAll P ops).chans.accounts c → name ∈ denied [] a →
    ((initial.runAll P ops).mMode P fnmatch denied changed c
      [str "-b", (initial.runAll P ops).getMaskFromName name a]).2.calls = [⟨false, a, name⟩] := by
  intro h
  have hcalls := h bobPurple glob (fun _ _ => [str "live:eve"]) (fun _ => true) jabberOnStatus 0 0
    (str "live:eve") (by decide) (by decide)
  revert hcalls
  decide

end Runs

end World
end Minbif
