import Minbif.World.Join

/-! The parameters of a chat: what the User writes, and what libpurple joins it with. -/
namespace Minbif
open Tokens

/-- The components of a chat, which libpurple keeps in a `GHashTable`. -/
abbrev ChatTable := OrdMap Str Str

namespace ChatTable

/-- One turn of the loop over the parameters. -/
def setParam (hash : ChatTable) (param : Str) : ChatTable :=
  let key := stringtok param ['=']
  if key.1.isEmpty then hash else hash.insert key.1 key.2

/-- How `Account::joinChat` parses the parameters. -/
def setParams (hash : ChatTable) (parameters : Str) : ChatTable :=
  (stringtokLoop [';'] (parameters.length + 1) parameters).foldl setParam hash

end ChatTable

/-- What `joinChat` asks of the protocol of the account, and of libpurple. -/
structure ChatProtocol where
  supportsChats : Bool
  /-- `chat_info_defaults`, where there is one. -/
  defaults : Str → Option ChatTable
  /-- `purple_chat_get_name` -/
  chatName : ChatTable → Str
  /-- There is a conversation of that name, and the User has not left it. -/
  isIn : Str → Bool
  /-- In the menu of the nick there is "Initiate _Chat". -/
  initiates : Str → Bool

/-- What `joinChat` calls. -/
inductive ChatCall
  | nothing
  | initiate (name : Str)
  | join (components : ChatTable)
  | present (name : Str)

namespace ChatProtocol

/-- The end of `joinChat`, where the chat is made. -/
def joinWith (p : ChatProtocol) (components : ChatTable) : ChatCall :=
  if p.isIn (p.chatName components) then .present (p.chatName components) else .join components

/-- `Account::joinChat`; `purple_chat_new` makes no chat without components. -/
def joinChat (p : ChatProtocol) (isConnected : Bool) (name parameters : Str) : ChatCall × Bool :=
  if !isConnected then (.nothing, false)
  else if !p.supportsChats then
    if p.initiates name then (.initiate name, true) else (.nothing, false)
  else
    match p.defaults name with
    | none => (.nothing, false)
    | some hash => (p.joinWith (hash.setParams parameters), true)

end ChatProtocol

/-- A parameter with its value, if it has a name. -/
def assignment (param : Str) : Option (Str × Str) :=
  some (stringtok param ['=']) |>.filter fun key => !key.1.isEmpty

def assignments (parameters : Str) : List (Str × Str) :=
  (tokens ([';'] : Str).contains parameters).filterMap assignment

/-- The parameters as they are written. -/
def writeAssignments (l : List (Str × Str)) : Str :=
  [';'].intercalate (l.map fun e => e.1 ++ '=' :: e.2)

/-- A name and a value that can be written. -/
structure Assignable (e : Str × Str) : Prop where
  named : e.1 ≠ []
  name : ∀ c ∈ e.1, c ≠ ';' ∧ c ≠ '='
  value : ';' ∉ e.2

variable {hash : ChatTable} {parameters param key : Str} {e : Str × Str} {l : List (Str × Str)}

section Read

theorem setParam_eq : hash.setParam param =
    (assignment param).elim hash fun e => hash.insert e.1 e.2 := by
  unfold ChatTable.setParam assignment
  cases h : (stringtok param ['=']).1.isEmpty <;> simp [h, Option.filter]

/-- The assignments are carried out in order. -/
theorem setParams_eq : hash.setParams parameters =
    (assignments parameters).foldl (fun h e => h.insert e.1 e.2) hash := by
  unfold ChatTable.setParams assignments
  rw [stringtokLoop_eq (Nat.lt_succ_self _)]
  induction tokens ([';'] : Str).contains parameters generalizing hash with
  | nil => rfl
  | cons t ts ih =>
    rw [List.foldl_cons, ih, setParam_eq, List.filterMap_cons]
    cases assignment t with
    | none => rfl
    | some e => rfl

/-- The last assignment of a name counts, and without one the default. -/
theorem find?_setParams : (hash.setParams parameters).find? key =
    (((assignments parameters).reverse.find? fun e => e.1 = key).map Prod.snd).or
      (hash.find? key) := by
  rw [setParams_eq]
  induction assignments parameters generalizing hash with
  | nil => rfl
  | cons e l ih =>
    rw [List.foldl_cons, ih, OrdMap.find?_insert, List.reverse_cons, List.find?_append]
    cases l.reverse.find? fun e => e.1 = key with
    | some found => rfl
    | none =>
      by_cases hk : key = e.1
      · simp [hk]
      · simp [hk, Ne.symm hk]

/-- Whatever is read could have been written so. -/
theorem assignable_of_mem (h : e ∈ assignments parameters) : Assignable e := by
  obtain ⟨t, ht, hte⟩ := List.mem_filterMap.mp h
  obtain ⟨hsome, hne⟩ := Option.filter_eq_some_iff.mp hte
  obtain rfl := Option.some.inj hsome
  have hchars : ∀ c ∈ t, c ≠ ';' := by
    intro c hc
    simpa using (tokens_chars ht c hc).2
  have hfirst : ∀ c ∈ (stringtok t ['=']).1, c ∈ t ∧ c ≠ '=' := by
    intro c hc
    refine ⟨?_, by simpa using List.mem_takeWhile_imp hc⟩
    exact (List.dropWhile_sublist _).subset ((List.takeWhile_sublist _).subset hc)
  have hrest : ∀ c ∈ (stringtok t ['=']).2, c ∈ t := by
    intro c hc
    exact (List.dropWhile_sublist _).subset
      ((List.dropWhile_sublist _).subset (List.mem_of_mem_tail hc))
  exact ⟨by simpa using hne, fun c hc => ⟨hchars c (hfirst c hc).1, (hfirst c hc).2⟩,
    fun hc => hchars ';' (hrest _ hc) rfl⟩

end Read

section Write

theorem assignment_write (h : Assignable e) : assignment (e.1 ++ '=' :: e.2) = some e := by
  have hfree : ∀ c ∈ e.1, (['='] : Str).contains c = false := by
    intro c hc
    simpa using (h.name c hc).2
  rw [assignment, stringtok_cut h.named hfree rfl]
  simp [h.named]

/-- The parameters that are read are the ones that were written exactly if each can be. -/
theorem assignments_write_iff (l : List (Str × Str)) :
    assignments (writeAssignments l) = l ↔ ∀ e ∈ l, Assignable e := by
  constructor
  · intro h e he
    rw [← h] at he
    exact assignable_of_mem he
  · intro h
    have htokens : tokens ([';'] : Str).contains (writeAssignments l) =
        l.map fun e => e.1 ++ '=' :: e.2 := by
      refine tokens_intercalate rfl fun t ht => ?_
      obtain ⟨e, he, rfl⟩ := List.mem_map.mp ht
      refine ⟨by simp, fun c hc => ?_⟩
      have hne : c ≠ ';' := by
        rcases List.mem_append.mp hc with hc | hc
        · exact ((h e he).name c hc).1
        rcases List.mem_cons.mp hc with rfl | hc
        · decide
        · rintro rfl
          exact (h e he).value hc
      simpa using hne
    rw [assignments, htokens, List.filterMap_map]
    clear htokens
    induction l with
    | nil => rfl
    | cons e l ih =>
      obtain ⟨he, hl⟩ := List.forall_mem_cons.mp h
      rw [List.filterMap_cons, Function.comp_apply, assignment_write he, ih hl]

/-- What was read is written in a way that is read the same. -/
theorem assignments_normal (parameters : Str) :
    assignments (writeAssignments (assignments parameters)) = assignments parameters :=
  (assignments_write_iff _).mpr fun _ => assignable_of_mem

end Write

namespace World

/-- A room that is joined with a table; the field stands for it on the line. -/
structure RoomJoin where
  name : Str
  account : AccountRef
  room : Str
  table : List (Str × Str)
  field : Str

/-- The User asks for a new room of a connected account. -/
structure RoomJoin.Asked (E : JoinEnv) (w : World) (j : RoomJoin) : Prop where
  remote : NewRemote E w j.name j.account j.room
  connected : E.isConnected j.account = true
  name : ',' ∉ j.name
  field : j.field ≠ [] ∧ ',' ∉ j.field
  table : E.decode j.field = writeAssignments j.table
  assignable : ∀ e ∈ j.table, Assignable e

variable {E : JoinEnv} {w : World} {m : Message} {js : List RoomJoin}

theorem tokens_commas {l : List Str} (h : ∀ s ∈ l, s ≠ [] ∧ ',' ∉ s) :
    tokens ([','] : Str).contains ([','].intercalate l) = l := by
  refine tokens_intercalate rfl fun s hs => ⟨(h s hs).1, fun c hc => ?_⟩
  have hne : c ≠ ',' := by
    rintro rfl
    exact (h s hs).2 hc
  simpa using hne

theorem RoomJoin.Asked.name_ne_nil {j : RoomJoin} (h : j.Asked E w) : j.name ≠ [] := by
  intro hnil
  have hname := h.remote.1
  rw [hnil] at hname
  revert hname
  simp [consumes, isChanName]

/-- However many rooms the User joins in one line, the table that it wrote for each of them is what
libpurple is given, over the defaults of the protocol. -/
theorem mJoin_tables (hE : Later E) (hjs : ∀ j ∈ js, j.Asked E w)
    (hargs : m.args = [[','].intercalate (js.map (·.name)), [','].intercalate (js.map (·.field))])
    (i : Nat) (j : RoomJoin) (hi : js[i]? = some j) :
    ∃ param, ((w.mJoin E m).2.outcomes[i]?).bind joinedWith = some (j.account, j.room, param) ∧
      ∀ (p : ChatProtocol) (hash : ChatTable), p.supportsChats = true → p.defaults j.room = some hash →
        p.joinChat true j.room param =
          (p.joinWith (j.table.foldl (fun h e => h.insert e.1 e.2) hash), true) := by
  have hnames : tokens ([','] : Str).contains ([','].intercalate (js.map (·.name))) = js.map (·.name) := by
    refine tokens_commas fun s hs => ?_
    obtain ⟨j, hj, rfl⟩ := List.mem_map.mp hs
    exact ⟨(hjs j hj).name_ne_nil, (hjs j hj).name⟩
  have hfields : tokens ([','] : Str).contains ([','].intercalate (js.map (·.field))) =
      js.map (·.field) := by
    refine tokens_commas fun s hs => ?_
    obtain ⟨j, hj, rfl⟩ := List.mem_map.mp hs
    exact (hjs j hj).field
  have hj := hjs j (List.mem_of_getElem? hi)
  have hearlier : ∀ name ∈ (js.map (·.name)).take i, w.consumes name = true ∧ ' ' ∉ name := by
    intro name hname
    obtain ⟨k, hk, rfl⟩ := List.mem_map.mp (List.mem_of_mem_take hname)
    exact ⟨(hjs k hk).remote.1, (hjs k hk).remote.no_space⟩
  have hlt : i < js.length := (List.getElem?_eq_some_iff.mp hi).1
  have hcount : ((js.map (·.name)).take i).countP w.consumes = i := by
    rw [List.countP_eq_length.mpr fun name hname => (hearlier name hname).1, List.length_take,
      List.length_map, Nat.min_eq_left hlt.le]
  have hspaces : ((js.map (·.name)).take i).any Message.hasSpace = false := by
    rw [List.any_eq_false]
    intro name hname
    simpa [Message.hasSpace] using (hearlier name hname).2
  have hname : (tokens ([','] : Str).contains ([','].intercalate (js.map (·.name))))[i]? =
      some j.name := by
    rw [hnames, List.getElem?_map, hi]
    rfl
  have hat := mJoin_at hE hargs hname hj.remote
  have hparam : (m.args[1]?).getD [] = [','].intercalate (js.map (·.field)) := by rw [hargs]; rfl
  have hfield : (js.map (·.field)).getD i [] = j.field := by
    rw [List.getD_eq_getElem?_getD, List.getElem?_map, hi]
    rfl
  rw [hnames, hspaces, hj.connected, hparam, hfields, hcount, hfield, hj.table] at hat
  refine ⟨_, hat, fun p hash hchats hdefaults => ?_⟩
  rw [if_pos rfl, ChatProtocol.joinChat, hchats, hdefaults]
  dsimp only [Bool.not_true, Bool.false_eq_true, if_false]
  rw [setParams_eq, (assignments_write_iff j.table).mpr hj.assignable]
  rfl

def roomA : RoomJoin :=
  ⟨str "#a:jabber0", 0, str "a", [(str "password", str "x=y")], str "password=x=y"⟩

def roomB : RoomJoin :=
  ⟨str "#b:jabber0", 0, str "b", [(str "handle", str "me"), (str "password", [])],
    str "handle=me;password="⟩

theorem rooms_asked : ∀ j ∈ [roomA, roomB], j.Asked plainEnv oneAccount := by
  intro j hj
  rcases List.mem_cons.mp hj with rfl | hj
  · refine ⟨⟨by decide, by decide, by decide, by decide, by decide⟩, rfl, by decide,
      ⟨by decide, by decide⟩, rfl, List.forall_mem_singleton.mpr ?_⟩
    exact ⟨by decide, forall_of_all (by decide), by decide⟩
  · obtain rfl := List.mem_singleton.mp hj
    refine ⟨⟨by decide, by decide, by decide, by decide, by decide⟩, rfl, by decide,
      ⟨by decide, by decide⟩, rfl, List.forall_mem_cons.mpr ⟨?_, List.forall_mem_singleton.mpr ?_⟩⟩
    · exact ⟨by decide, forall_of_all (by decide), by decide⟩
    · exact ⟨by decide, forall_of_all (by decide), by decide⟩

theorem mJoin_tables_two : ∃ param, ((oneAccount.mJoin plainEnv { cmd := str "JOIN", args :=
      [str "#a:jabber0,#b:jabber0", str "password=x=y,handle=me;password="] }).2.outcomes[1]?).bind
        joinedWith = some (0, str "b", param) ∧
    ∀ (p : ChatProtocol) (hash : ChatTable), p.supportsChats = true → p.defaults (str "b") = some hash →
      p.joinChat true (str "b") param = (p.joinWith
        ([(str "handle", str "me"), (str "password", [])].foldl
          (fun h e => h.insert e.1 e.2) hash), true) :=
  mJoin_tables (fun _ _ _ _ => ⟨rfl, rfl⟩) rooms_asked rfl 1 roomB rfl

end World
end Minbif
