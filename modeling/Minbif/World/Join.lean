import Minbif.Im.JoinQueue
import Minbif.World.Privmsg

/-! What `IRC::m_join` does with the channels and the parameters of a client. -/
namespace Minbif
open Function Tokens

/-- What `m_join` asks of libpurple: `serv_join_chat` may take its time, or refuse. -/
structure JoinEnv where
  /-- `purple_url_decode`. -/
  decode : Str → Str
  /-- The accounts whose protocol has its plugin. -/
  accounts : List AccountRef
  isConnected : AccountRef → Bool
  joinChat : World → AccountRef → Str → Str → World × Bool

/-- What became of one name of the list. -/
inductive JoinOutcome
  | nothing
  /-- `joinChat` was called. -/
  | joined (a : AccountRef) (convname param : Str)
  /-- `enqueueChannelJoin`, which takes no parameters. -/
  | queued (a : AccountRef) (convname : Str)
deriving DecidableEq, Repr

namespace World

/-- `getAccountsList`, once the accounts have IDs. -/
def getAccountsList (w : World) (accounts : List AccountRef) : OrdMap Str AccountRef :=
  accounts.foldl (fun m a => m.insert (w.data.accountId a) a) .empty

/-- `IM::getAccount`. -/
def getAccount (w : World) (accounts : List AccountRef) (name : Str) : Option AccountRef :=
  (w.getAccountsList accounts).values.find? fun a =>
    w.data.servername a = name || w.data.accountId a = name

/-- The state of the loop of `m_join`. -/
structure Joining where
  w : World
  parameters : Str
  outcomes : List JoinOutcome := []
  /-- The names that `check_channel_join` is to look for. -/
  checks : List Str := []

namespace Joining

/-- `ERR_NOSUCHCHANNEL` to the User. -/
def refuse (s : Joining) (channame : Str) (o : JoinOutcome) : Except Exn Joining :=
  (noSuchChannel s.w.nicks.ircEntity (s.w.nicks.entity userRef) channame).map fun m =>
    { s with w := s.w.tellUser m, outcomes := s.outcomes ++ [o] }

/-- A name that starts with `#`, of no channel that is open. -/
def joinRemote (E : JoinEnv) (s : Joining) (channame : Str) : Except Exn Joining :=
  let accid := stringtok channame.tail [':']
  let convname := E.decode accid.1
  let parameter := stringtok s.parameters [',']
  let param := E.decode parameter.1
  let s := { s with parameters := parameter.2 }
  if accid.2.isEmpty || convname.isEmpty then s.refuse channame .nothing
  else
    match s.w.getAccount E.accounts accid.2 with
    | none => s.refuse channame .nothing
    | some a =>
      if !E.isConnected a then .ok { s with outcomes := s.outcomes ++ [.queued a convname] }
      else
        match E.joinChat s.w a convname param with
        | (w, false) => { s with w := w }.refuse channame (.joined a convname param)
        | (w, true) => .ok { s with
            w := w
            outcomes := s.outcomes ++ [.joined a convname param]
            checks := s.checks ++ [channame] }

/-- One round of the loop. -/
def joinOne (E : JoinEnv) (s : Joining) (channame : Str) : Except Exn Joining :=
  if !isChanName channame then s.refuse channame .nothing
  else
    match s.w.chans.getChannel channame with
    | some c =>
      .ok { s with
        w := if channame.head? = some '&' then s.w.join userRef c statusOp else s.w
        outcomes := s.outcomes ++ [.nothing] }
    | none =>
      if channame.head? = some '&' then s.refuse channame .nothing else s.joinRemote E channame

def joinLoop (E : JoinEnv) : List Str → Joining → Except Exn Unit × Joining
  | [], s => (.ok (), s)
  | channame :: names, s =>
    match s.joinOne E channame with
    | .error e => (.error e, s)
    | .ok s => joinLoop E names s

end Joining

def mJoin (E : JoinEnv) (w : World) (m : Message) : Except Exn Unit × Joining :=
  match m.getArg 0 with
  | .error e => (.error e, ⟨w, [], [], []⟩)
  | .ok names =>
    Joining.joinLoop E (stringtokLoop [','] (names.length + 1) names)
      ⟨w, (m.args[1]?).getD [], [], []⟩

/-- `IRC::check_channel_join`: whether the channel is found. -/
def checkChannelJoin (w : World) (name : Str) : Bool := (w.chans.getChannel name).isSome

/-- The names that take a parameter field: they start with `#`, and no channel of that name is
open. -/
def consumes (w : World) (name : Str) : Bool :=
  isChanName name && name.head? != some '&' && (w.chans.getChannel name).isNone

/-- A new remote channel: the account it belongs to, and the room. -/
def NewRemote (E : JoinEnv) (w : World) (name : Str) (a : AccountRef) (room : Str) : Prop :=
  w.consumes name = true ∧ (stringtok name.tail [':']).2 ≠ [] ∧ room ≠ [] ∧
    room = E.decode (stringtok name.tail [':']).1 ∧
    w.getAccount E.accounts (stringtok name.tail [':']).2 = some a

/-- What `joinChat` is called with, at once or, without parameters, when the queue is flushed. -/
def joinedWith : JoinOutcome → Option (AccountRef × Str × Str)
  | .nothing => none
  | .joined a room param => some (a, room, param)
  | .queued a room => some (a, room, [])

/-- Each new remote channel is joined with the field at its own position. -/
def Positional (E : JoinEnv) (w : World) (m : Message) (names : List Str) (parameters : Str) : Prop :=
  ∀ i name a room, names[i]? = some name → NewRemote E w name a room →
    ((w.mJoin E m).2.outcomes[i]?).bind joinedWith =
      some (a, room, E.decode ((parameters.splitOn ',').getD i []))

/-- A chat that is joined does not open while the command is served. -/
def Later (E : JoinEnv) : Prop := ∀ w a convname param,
  (E.joinChat w a convname param).1.chans.table = w.chans.table ∧
    (E.joinChat w a convname param).1.data = w.data

variable {E : JoinEnv} {w w' : World} {s s' : Joining} {name : Str} {names : List Str}
  {a : AccountRef} {room : Str}

section Round

/-- The channels that can be found, and the accounts. -/
def SameTable (w w' : World) : Prop := w'.chans.table = w.chans.table ∧ w'.data = w.data

theorem SameTable.consumes (h : SameTable w w') : w'.consumes name = w.consumes name := by
  unfold World.consumes Chans.getChannel
  rw [h.1]

theorem SameTable.getAccount (h : SameTable w w') (accounts : List AccountRef) (name : Str) :
    w'.getAccount accounts name = w.getAccount accounts name := by
  unfold World.getAccount World.getAccountsList
  rw [h.2]

theorem SameTable.trans {w'' : World} (h : SameTable w w') (h' : SameTable w' w'') :
    SameTable w w'' := ⟨h'.1.trans h.1, h'.2.trans h.2⟩

theorem tellUser_table (w : World) (m : Message) : SameTable w (w.tellUser m) := by
  refine ⟨?_, rfl⟩
  change (w.chans.send userRef (.msg m)).table = w.chans.table
  rw [Chans.send_eq]

theorem join_table (w : World) (n : NickRef) (c : ChanRef) (status : Status) :
    SameTable w (w.join n c status) := by
  refine ⟨?_, rfl⟩
  change (w.chans.join w.nicks n c status).table = w.chans.table
  cases hget : w.chans.getChanUser n c with
  | some cu =>
    rw [Chans.join_old (N := w.nicks) hget status]
  | none =>
    rw [Chans.join_new (N := w.nicks) hget status]
    rfl

theorem refuse_spaced (s : Joining) (o : JoinOutcome) (h : ' ' ∈ name) :
    ∃ e, s.refuse name o = .error e := by
  have hspace : Message.hasSpace name = true := by simpa [Message.hasSpace] using h
  refine ⟨.malformedMessage, ?_⟩
  rw [Joining.refuse, Joins.noSuchChannel_eq, if_pos hspace]
  rfl

theorem refuse_plain (s : Joining) (o : JoinOutcome) (h : ' ' ∉ name) :
    ∃ m, s.refuse name o = .ok { s with w := s.w.tellUser m, outcomes := s.outcomes ++ [o] } := by
  have hspace : ¬ Message.hasSpace name = true := by simpa [Message.hasSpace] using h
  refine ⟨⟨str "403", s.w.nicks.ircEntity, s.w.nicks.entity userRef, [name, str "No such channel"]⟩, ?_⟩
  rw [Joining.refuse, Joins.noSuchChannel_eq, if_neg hspace]
  rfl

/-- What a new name that takes the field is done with. -/
def remoteOutcome (E : JoinEnv) (w : World) (name field : Str) : JoinOutcome :=
  let accid := stringtok name.tail [':']
  if accid.2.isEmpty || (E.decode accid.1).isEmpty then .nothing
  else
    match w.getAccount E.accounts accid.2 with
    | none => .nothing
    | some a =>
      if !E.isConnected a then .queued a (E.decode accid.1)
      else .joined a (E.decode accid.1) (E.decode field)

/-- What one round adds, and what it leaves of the parameters. -/
structure Round (E : JoinEnv) (s s' : Joining) (name : Str) : Prop where
  table : SameTable s.w s'.w
  outcomes : s'.outcomes = s.outcomes ++ [if s.w.consumes name then
    remoteOutcome E s.w name (stringtok s.parameters [',']).1 else .nothing]
  parameters : s'.parameters =
    if s.w.consumes name then (stringtok s.parameters [',']).2 else s.parameters

theorem joinRemote_round (hE : Later E) (s : Joining) (hspace : ' ' ∉ name)
    (hname : s.w.consumes name = true) :
    ∃ s', s.joinRemote E name = .ok s' ∧ Round E s s' name := by
  have hround : ∀ s', SameTable s.w s'.w → s'.outcomes = s.outcomes ++
      [remoteOutcome E s.w name (stringtok s.parameters [',']).1] →
      s'.parameters = (stringtok s.parameters [',']).2 → Round E s s' name :=
    fun s' ht ho hp => ⟨ht, by rw [if_pos hname, ho], by rw [if_pos hname, hp]⟩
  unfold Joining.joinRemote
  unfold remoteOutcome at hround
  dsimp only at hround ⊢
  split
  · next hempty =>
    obtain ⟨m, hm⟩ := refuse_plain { s with parameters := (stringtok s.parameters [',']).2 } .nothing
      hspace
    refine ⟨_, hm, hround _ (tellUser_table s.w m) ?_ rfl⟩
    rw [if_pos hempty]
  · next hempty =>
    rw [if_neg hempty] at hround
    cases hacc : s.w.getAccount E.accounts (stringtok name.tail [':']).2 with
    | none =>
      rw [hacc] at hround
      obtain ⟨m, hm⟩ := refuse_plain { s with parameters := (stringtok s.parameters [',']).2 }
        .nothing hspace
      exact ⟨_, hm, hround _ (tellUser_table s.w m) rfl rfl⟩
    | some a =>
      rw [hacc] at hround
      dsimp only at hround ⊢
      split
      · next hoff =>
        rw [if_pos hoff] at hround
        exact ⟨_, rfl, hround _ ⟨rfl, rfl⟩ rfl rfl⟩
      · next hoff =>
        rw [if_neg hoff] at hround
        have hlater := hE s.w a (E.decode (stringtok name.tail [':']).1)
          (E.decode (stringtok s.parameters [',']).1)
        split
        · next w heq =>
          rw [heq] at hlater
          obtain ⟨m, hm⟩ := refuse_plain
            { s with parameters := (stringtok s.parameters [',']).2, w := w }
            (.joined a (E.decode (stringtok name.tail [':']).1)
              (E.decode (stringtok s.parameters [',']).1)) hspace
          exact ⟨_, hm, hround _ (SameTable.trans hlater (tellUser_table w m)) rfl rfl⟩
        · next w heq =>
          rw [heq] at hlater
          exact ⟨_, rfl, hround _ hlater rfl rfl⟩

/-- A name with a space in it throws, every other one is dealt with. -/
theorem joinOne_round (hE : Later E) (s : Joining) (hspace : ' ' ∉ name) :
    ∃ s', s.joinOne E name = .ok s' ∧ Round E s s' name := by
  unfold Joining.joinOne
  split
  · next hchan =>
    have hname : s.w.consumes name = false := by simp_all [consumes]
    obtain ⟨m, hm⟩ := refuse_plain s .nothing hspace
    exact ⟨_, hm, tellUser_table s.w m, by simp [hname], by simp [hname]⟩
  · next hchan =>
    cases hget : s.w.chans.getChannel name with
    | some c =>
      have hname : s.w.consumes name = false := by simp [consumes, hget]
      refine ⟨_, rfl, ?_, by simp [hname], by simp [hname]⟩
      dsimp only
      split
      · exact join_table s.w _ c _
      · exact ⟨rfl, rfl⟩
    | none =>
      dsimp only
      split
      · next hhead =>
        have hname : s.w.consumes name = false := by simp [consumes, hhead]
        obtain ⟨m, hm⟩ := refuse_plain s .nothing hspace
        exact ⟨_, hm, tellUser_table s.w m, by simp [hname], by simp [hname]⟩
      · next hhead =>
        exact joinRemote_round hE s hspace (by simp_all [consumes])

theorem joinOne_spaced (s : Joining) (hspace : ' ' ∈ name) : ∃ e, s.joinOne E name = .error e := by
  have hchan : isChanName name = false := by simp [isChanName, hspace]
  unfold Joining.joinOne
  rw [hchan]
  exact refuse_spaced s .nothing hspace

end Round

section Loop

/-- The token and the rest, as the first one and the others. -/
theorem stringtok_tokens (p d : Str) : (stringtok p d).1 = (tokens d.contains p).headD [] ∧
    tokens d.contains (stringtok p d).2 = (tokens d.contains p).tail := by
  by_cases h : (stringtok p d).1 = []
  · have hall := stringtok_nil h
    have hnone : tokens d.contains p = [] := tokens_delims hall
    have hrest : (stringtok p d).2 = [] := by
      simp only [stringtok, List.dropWhile_eq_nil_iff.mpr hall, List.dropWhile_nil, List.tail_nil]
    rw [hnone, h, hrest]
    exact ⟨rfl, rfl⟩
  · rw [tokens_stringtok h]
    exact ⟨rfl, rfl⟩

theorem joinLoop_grows (hE : Later E) (names : List Str) (s : Joining) :
    ∃ l, (Joining.joinLoop E names s).2.outcomes = s.outcomes ++ l := by
  induction names generalizing s with
  | nil => exact ⟨[], (List.append_nil _).symm⟩
  | cons name names ih =>
    rw [Joining.joinLoop]
    by_cases hspace : ' ' ∈ name
    · obtain ⟨e, he⟩ := joinOne_spaced (E := E) s hspace
      rw [he]
      exact ⟨[], (List.append_nil _).symm⟩
    · obtain ⟨s', hs', hround⟩ := joinOne_round hE s hspace
      obtain ⟨l, hl⟩ := ih s'
      rw [hs']
      exact ⟨_, by rw [hl, hround.outcomes, List.append_assoc]⟩

/-- What is done at one position: the fields are taken in order by the names that consume one,
and a name with a space ends the loop. -/
theorem joinLoop_at (hE : Later E) (s : Joining) {i : Nat} (hi : names[i]? = some name) :
    (Joining.joinLoop E names s).2.outcomes[s.outcomes.length + i]? =
      if (names.take (i + 1)).any Message.hasSpace then none
      else some (if s.w.consumes name then
        remoteOutcome E s.w name ((tokens [','].contains s.parameters).getD
          ((names.take i).countP s.w.consumes) [])
        else .nothing) := by
  induction names generalizing s i with
  | nil => cases hi
  | cons first names ih =>
    rw [Joining.joinLoop]
    by_cases hspace : ' ' ∈ first
    · obtain ⟨e, he⟩ := joinOne_spaced (E := E) s hspace
      rw [he, if_pos (by simp [Message.hasSpace, hspace])]
      exact List.getElem?_eq_none (Nat.le_add_right _ _)
    · obtain ⟨s', hs', hround⟩ := joinOne_round hE s hspace
      obtain ⟨hhead, htail⟩ := stringtok_tokens s.parameters [',']
      rw [hs']
      dsimp only
      cases i with
      | zero =>
        obtain rfl := Option.some.inj hi
        obtain ⟨l, hl⟩ := joinLoop_grows hE names s'
        have hany : ((first :: names).take (0 + 1)).any Message.hasSpace = false := by
          simp [Message.hasSpace, hspace]
        rw [hl, hround.outcomes, hhead, hany]
        cases tokens [','].contains s.parameters <;> simp
      | succ j =>
        have hlen : s.outcomes.length + (j + 1) = s'.outcomes.length + j := by
          rw [hround.outcomes, List.length_append, List.length_singleton]
          omega
        have hconsumes : s'.w.consumes = s.w.consumes := funext fun _ => hround.table.consumes
        have hremote : ∀ field, remoteOutcome E s'.w name field = remoteOutcome E s.w name field := by
          intro field
          unfold remoteOutcome
          dsimp only
          rw [hround.table.getAccount]
        have hfield : (tokens [','].contains s'.parameters).getD
            ((names.take j).countP s.w.consumes) [] = (tokens [','].contains s.parameters).getD
              (((first :: names).take (j + 1)).countP s.w.consumes) [] := by
          rw [hround.parameters, List.take_succ_cons, List.countP_cons]
          split
          · rw [htail]
            cases tokens [','].contains s.parameters <;> simp
          · rfl
        have hany : ((first :: names).take (j + 1 + 1)).any Message.hasSpace =
            (names.take (j + 1)).any Message.hasSpace := by
          simp [Message.hasSpace, hspace]
        rw [hlen, ih s' hi, hany, hconsumes, hremote, hfield]

end Loop

section Positions

theorem NewRemote.no_space (h : NewRemote E w name a room) : ' ' ∉ name := by
  have hname := h.1
  simp only [consumes, isChanName, Bool.and_eq_true, Bool.not_eq_true', List.contains_eq_mem,
    decide_eq_false_iff_not] at hname
  exact hname.1.1.1

theorem NewRemote.outcome (h : NewRemote E w name a room) (field : Str) :
    joinedWith (remoteOutcome E w name field) =
      some (a, room, if E.isConnected a then E.decode field else []) := by
  obtain ⟨-, haccid, hroom, rfl, hacc⟩ := h
  unfold remoteOutcome
  dsimp only
  rw [if_neg (by simp [haccid, hroom]), hacc]
  cases hconn : E.isConnected a <;> simp [joinedWith, hconn]

/-- What a new remote channel is joined with by `m_join`. -/
theorem mJoin_at (hE : Later E) {m : Message} {list : Str} {rest : List Str}
    (hargs : m.args = list :: rest) {i : Nat}
    (hi : (tokens [','].contains list)[i]? = some name) (h : NewRemote E w name a room) :
    ((w.mJoin E m).2.outcomes[i]?).bind joinedWith =
      if ((tokens [','].contains list).take i).any Message.hasSpace then none
      else some (a, room, if E.isConnected a then E.decode
        ((tokens [','].contains ((m.args[1]?).getD [])).getD
          (((tokens [','].contains list).take i).countP w.consumes) []) else []) := by
  have hlist : m.getArg 0 = .ok list := by rw [Message.getArg, hargs]; rfl
  have hspace : Message.hasSpace name = false := by simpa [Message.hasSpace] using h.no_space
  have hany : ((tokens [','].contains list).take (i + 1)).any Message.hasSpace =
      ((tokens [','].contains list).take i).any Message.hasSpace := by
    rw [List.take_add_one, hi, List.any_append]
    simp [hspace]
  have hat := joinLoop_at hE ⟨w, (m.args[1]?).getD [], [], []⟩ hi
  rw [hany, List.length_nil, Nat.zero_add] at hat
  rw [mJoin, hlist]
  dsimp only
  rw [stringtokLoop_eq (Nat.lt_succ_self _), hat]
  split
  · rfl
  · rw [if_pos h.1, Option.bind_some, h.outcome]

end Positions

/-- Everything is taken as it is written, and every account is connected. -/
def plainEnv : JoinEnv where
  decode s := s
  accounts := [0]
  isConnected _ := true
  joinChat w _ _ _ := (w, true)

def oneAccount : World := { data := { accountId := fun _ => str "jabber0" } }

section Listed

theorem mem_getAccountsList {accounts : List AccountRef} {e : Str × AccountRef}
    (he : e ∈ (w.getAccountsList accounts).entries) : e.1 = w.data.accountId e.2 := by
  have hgen : ∀ (l : List AccountRef) (m : OrdMap Str AccountRef),
      (∀ e ∈ m.entries, e.1 = w.data.accountId e.2) →
      ∀ e ∈ (l.foldl (fun m a => m.insert (w.data.accountId a) a) m).entries,
        e.1 = w.data.accountId e.2 := by
    intro l
    induction l with
    | nil => exact fun m hm => hm
    | cons a l ih =>
      intro m hm
      refine ih _ fun e he => ?_
      rcases OrdMap.mem_insert.mp he with ⟨hk, hv⟩ | ⟨-, he⟩
      · rw [hk, hv]
      · exact hm e he
  exact hgen accounts {} (by simp) e he

/-- The account that is listed under its ID is found by it. -/
theorem getAccount_listed {accounts : List AccountRef}
    (hlisted : (w.getAccountsList accounts).find? (w.data.accountId a) = some a)
    (hcolon : ':' ∉ w.data.accountId a) :
    w.getAccount accounts (w.data.accountId a) = some a := by
  have hmem := OrdMap.find?_eq_some.mp hlisted
  have hone : ∀ b ∈ (w.getAccountsList accounts).values,
      (w.data.servername b = w.data.accountId a ∨ w.data.accountId b = w.data.accountId a) → b = a := by
    intro b hb hmatch
    obtain ⟨k, hk⟩ := OrdMap.mem_values.mp hb
    have hkey : k = w.data.accountId b := mem_getAccountsList hk
    rcases hmatch with hserver | hid
    · refine absurd ?_ hcolon
      rw [← hserver]
      simp [PurpleData.servername]
    · rw [hkey, hid] at hk
      exact OrdMap.mem_unique hk hmem
  unfold getAccount
  cases hfind : (w.getAccountsList accounts).values.find? fun b =>
      w.data.servername b = w.data.accountId a || w.data.accountId b = w.data.accountId a with
  | none =>
    have hnone := List.find?_eq_none.mp hfind a (OrdMap.mem_values.mpr ⟨_, hmem⟩)
    simp at hnone
  | some b =>
    have hmatch := List.find?_some hfind
    rw [hone b (List.mem_of_find?_eq_some hfind) (by simpa using hmatch)]

/-- A name is put together from a room and an account, and taken apart again. -/
theorem normalizeIRCName_split (hspace : ' ' ∉ room) (hcolon : ':' ∉ room) (hne : room ≠ []) :
    stringtok (w.normalizeIRCName a room).tail [':'] = (room, w.data.accountId a) := by
  have hroom : room.map (fun c => if c = ' ' then '_' else c) = room := by
    have hc : ∀ c ∈ room, (if c = ' ' then '_' else c) = c := by
      intro c hc
      rw [if_neg]
      rintro rfl
      exact hspace hc
    rw [List.map_congr_left hc, List.map_id']
  rw [normalizeIRCName, hroom]
  refine stringtok_cut hne (fun c hc => ?_) rfl
  have : c ≠ ':' := by
    rintro rfl
    exact hcolon hc
  simpa using this

/-- A chat that is made gets the name it is listed under, if nothing else has it. -/
theorem newChat_getChannel (hfree : w.chans.getChannel (w.normalizeIRCName a room) = none) :
    (w.newChat a room).chans.getChannel (w.normalizeIRCName a room) = some w.chans.next := by
  have hname : Fresh.freshLoop (fun s => (w.chans.getChannel s).isSome) '_'
      (w.chans.table.entries.length + 1) (w.normalizeIRCName a room) = w.normalizeIRCName a room := by
    rw [Fresh.freshLoop, hfree]
    rfl
  unfold newChat
  dsimp only
  rw [hname]
  unfold Chans.getChannel
  rw [(join_table _ _ _ _).1]
  simp [Chans.addChannel, Chans.newChan]

theorem mem_normalizeIRCName {c : Char} (hc : c ∈ w.normalizeIRCName a room) :
    c = '#' ∨ c = ':' ∨ c = '_' ∨ c ∈ room ∨ c ∈ w.data.accountId a := by
  simp only [normalizeIRCName, List.cons_append, List.mem_cons, List.mem_append, List.mem_map] at hc
  rcases hc with rfl | ⟨x, hx, rfl⟩ | rfl | hc
  · exact .inl rfl
  · split
    · exact .inr (.inr (.inl rfl))
    · exact .inr (.inr (.inr (.inl hx)))
  · exact .inr (.inl rfl)
  · exact .inr (.inr (.inr (.inr hc)))

/-- The name is one name of a list, that of a remote channel. -/
theorem normalizeIRCName_plain (hroom : ∀ c ∈ room, c ≠ ' ' ∧ c ≠ ',')
    (hid : ∀ c ∈ w.data.accountId a, c ≠ ' ' ∧ c ≠ ',') :
    tokens [','].contains (w.normalizeIRCName a room) = [w.normalizeIRCName a room] ∧
      isChanName (w.normalizeIRCName a room) = true := by
  have hchars : ∀ c ∈ w.normalizeIRCName a room, c ≠ ' ' ∧ c ≠ ',' := by
    intro c hc
    rcases mem_normalizeIRCName hc with rfl | rfl | rfl | hc | hc
    · exact ⟨by decide, by decide⟩
    · exact ⟨by decide, by decide⟩
    · exact ⟨by decide, by decide⟩
    · exact hroom c hc
    · exact hid c hc
  refine ⟨tokens_run (fun c hc => by simpa using (hchars c hc).2) (by simp [normalizeIRCName]), ?_⟩
  have hspace : ' ' ∉ w.normalizeIRCName a room := fun hc => (hchars ' ' hc).1 rfl
  simp [isChanName, hspace]
  simp [normalizeIRCName]

/-- What `m_join` does with the name of a room in the list. -/
theorem mJoin_listed {m : Message} (hargs : m.args = [w.normalizeIRCName a room]) (hne : room ≠ [])
    (hroom : ∀ c ∈ room, c ≠ ' ' ∧ c ≠ ',' ∧ c ≠ ':') (hdecode : E.decode room = room)
    (hidne : w.data.accountId a ≠ []) (hid : ∀ c ∈ w.data.accountId a, c ≠ ' ' ∧ c ≠ ',' ∧ c ≠ ':')
    (hlisted : (w.getAccountsList E.accounts).find? (w.data.accountId a) = some a)
    (hconn : E.isConnected a = true)
    (hfree : w.chans.getChannel (w.normalizeIRCName a room) = none) :
    ∃ s, w.mJoin E m = (.ok (), s) ∧ s.outcomes = [.joined a room (E.decode [])] ∧
      ((E.joinChat w a room (E.decode [])).2 = true → s.checks = [w.normalizeIRCName a room]) := by
  have hlist : m.getArg 0 = .ok (w.normalizeIRCName a room) := by rw [Message.getArg, hargs]; rfl
  have hparams : (m.args[1]?).getD [] = [] := by rw [hargs]; rfl
  have hroom' : ∀ c ∈ room, c ≠ ' ' ∧ c ≠ ',' := fun c hc => ⟨(hroom c hc).1, (hroom c hc).2.1⟩
  have hid' : ∀ c ∈ w.data.accountId a, c ≠ ' ' ∧ c ≠ ',' :=
    fun c hc => ⟨(hid c hc).1, (hid c hc).2.1⟩
  obtain ⟨htokens, hchan⟩ := normalizeIRCName_plain hroom' hid'
  have hsplit : stringtok (w.normalizeIRCName a room).tail [':'] = (room, w.data.accountId a) :=
    normalizeIRCName_split (fun hc => (hroom ' ' hc).1 rfl) (fun hc => (hroom ':' hc).2.2 rfl) hne
  have hacc := getAccount_listed hlisted fun hc => (hid ':' hc).2.2 rfl
  have hspace : ' ' ∉ w.normalizeIRCName a room := by
    simp only [isChanName, Bool.and_eq_true, Bool.not_eq_true', List.contains_eq_mem,
      decide_eq_false_iff_not] at hchan
    exact hchan.1
  have hone : ∃ s, Joining.joinOne E ⟨w, [], [], []⟩ (w.normalizeIRCName a room) = .ok s ∧
      s.outcomes = [.joined a room (E.decode [])] ∧
      ((E.joinChat w a room (E.decode [])).2 = true → s.checks = [w.normalizeIRCName a room]) := by
    have hhead : ¬ (w.normalizeIRCName a room).head? = some '&' := by simp [normalizeIRCName]
    have htaken : ¬ ((w.data.accountId a).isEmpty || room.isEmpty) = true := by simp [hne, hidne]
    unfold Joining.joinOne Joining.joinRemote
    simp only [hchan, hfree, if_neg hhead, hsplit, hdecode, if_neg htaken, hacc, hconn,
      Bool.not_true, Bool.false_eq_true, if_false]
    have hparam : (stringtok ([] : Str) [',']).1 = [] := rfl
    rw [hparam]
    rcases hjoin : E.joinChat w a room (E.decode []) with ⟨w', _ | _⟩
    · obtain ⟨reply, hreply⟩ := refuse_plain ⟨w', (stringtok ([] : Str) [',']).2, [], []⟩
        (.joined a room (E.decode [])) hspace
      exact ⟨_, hreply, rfl, fun h => (Bool.false_ne_true h).elim⟩
    · exact ⟨_, rfl, rfl, fun _ => rfl⟩
  obtain ⟨s, hs, h⟩ := hone
  refine ⟨s, ?_, h⟩
  rw [mJoin, hlist]
  dsimp only
  rw [hparams, stringtokLoop_eq (Nat.lt_succ_self _), htokens, Joining.joinLoop, hs]
  rfl

end Listed

/-- The name that a room is listed under, as a name to join: `joinChat` is called for the account
and the room, and a chat of that name is what `check_channel_join` finds later. -/
structure Joinable (E : JoinEnv) (w : World) (a : AccountRef) (room : Str) (m : Message) : Prop where
  joined : ∃ s, w.mJoin E m = (.ok (), s) ∧ s.outcomes = [.joined a room (E.decode [])] ∧
    ((E.joinChat w a room (E.decode [])).2 = true → s.checks = [w.normalizeIRCName a room])
  found : ∀ w' : World, w'.data.accountId a = w.data.accountId a →
    w'.chans.getChannel (w.normalizeIRCName a room) = none →
    (w'.newChat a room).chans.getChannel (w.normalizeIRCName a room) = some w'.chans.next

/-- A listed room can be joined by the name it is shown under, if the name has no separators. -/
theorem listed_joinable (E : JoinEnv) (w : World) (a : AccountRef) (room : Str) (m : Message)
    (hargs : m.args = [w.normalizeIRCName a room]) (hne : room ≠ [])
    (hroom : ∀ c ∈ room, c ≠ ' ' ∧ c ≠ ',' ∧ c ≠ ':') (hdecode : E.decode room = room)
    (hidne : w.data.accountId a ≠ []) (hid : ∀ c ∈ w.data.accountId a, c ≠ ' ' ∧ c ≠ ',' ∧ c ≠ ':')
    (hlisted : (w.getAccountsList E.accounts).find? (w.data.accountId a) = some a)
    (hconn : E.isConnected a = true)
    (hfree : w.chans.getChannel (w.normalizeIRCName a room) = none) :
    Joinable E w a room m := by
  refine ⟨mJoin_listed hargs hne hroom hdecode hidne hid hlisted hconn hfree, fun w' hw' hfree' => ?_⟩
  have hsame : w'.normalizeIRCName a room = w.normalizeIRCName a room := by
    rw [normalizeIRCName, hw']
    rfl
  rw [← hsame] at hfree' ⊢
  exact newChat_getChannel hfree'

theorem listed_joinable_lounge : Joinable plainEnv oneAccount 0 (str "lounge")
    { cmd := str "JOIN", args := [str "#lounge:jabber0"] } :=
  listed_joinable plainEnv oneAccount 0 (str "lounge") _ rfl (by decide)
    (forall_of_all (by decide)) rfl (by decide) (forall_of_all (by decide)) (by decide) rfl rfl

/-- A space is shown as an underscore, and stays one. -/
theorem listed_with_space : ¬ ∀ (E : JoinEnv) (w : World) (a : AccountRef) (room : Str)
    (m : Message), m.args = [w.normalizeIRCName a room] → room ≠ [] →
    (∀ c ∈ room, 0x20 ≤ c.toNat) → w.data.accountId a ≠ [] →
    (∀ c ∈ w.data.accountId a, c ≠ ',' ∧ c ≠ ':') →
    (w.getAccountsList E.accounts).find? (w.data.accountId a) = some a →
    E.isConnected a = true → w.chans.getChannel (w.normalizeIRCName a room) = none →
    Joinable E w a room m := by
  intro h
  obtain ⟨s, hs, houtcomes, -⟩ := (h plainEnv oneAccount 0 (str "the lounge")
    { cmd := str "JOIN", args := [str "#the_lounge:jabber0"] } (by decide) (by decide)
    (forall_of_all (by decide)) (by decide) (forall_of_all (by decide)) (by decide) rfl
    (by decide)).joined
  have hgot : (oneAccount.mJoin plainEnv
      { cmd := str "JOIN", args := [str "#the_lounge:jabber0"] }).2.outcomes =
        [.joined 0 (str "the_lounge") []] := by decide
  rw [hs, houtcomes] at hgot
  revert hgot
  decide

end World
end Minbif
