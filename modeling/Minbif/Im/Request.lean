import Minbif.Core.Util
import Minbif.Lib.Fresh
import Minbif.Lib.OrdMap
import Mathlib.Algebra.GroupWithZero.Nat
import Mathlib.Data.List.Lex

/-! The questions of libpurple, which the user answers to the nick `request`. -/
namespace Minbif
open Fresh

/-- A `Request*`, which is also the handle libpurple knows the request by. -/
abbrev RequestRef := Nat

structure RequestField where
  label : Str
  text : Str
  /-- Of a class where `setLabel` sets the text as well. -/
  shared : Bool := false

def RequestField.setLabel (f : RequestField) (l : Str) : RequestField :=
  if f.shared then { f with label := l, text := l } else { f with label := l }

/-- `RequestFieldList::fields`: the texts under the labels. -/
abbrev RequestFields := OrdMap Str Str

/-- `RequestFieldList::addField`. -/
def RequestFields.addField (fields : RequestFields) (f : RequestField) : RequestFields :=
  let label := freshLoop (fun l => (fields.find? l).isSome) '_' (fields.entries.length + 1) f.label
  fields.insert label (f.setLabel label).text

/-- No field takes the label of another. -/
theorem RequestFields.addField_keeps (fields : RequestFields) (f : RequestField) {l text : Str}
    (h : fields.find? l = some text) : (fields.addField f).find? l = some text := by
  have hlen : ∀ l : Str, (id l).length = l.length := fun _ => rfl
  have htaken : ∀ l, (fields.find? l).isSome = true → id l ∈ fields.entries.map Prod.fst := by
    intro l hl
    obtain ⟨t, ht⟩ := Option.isSome_iff_exists.mp hl
    exact List.mem_map.mpr ⟨_, OrdMap.find?_eq_some.mp ht, rfl⟩
  have hfree : (fields.find? (freshLoop (fun l => (fields.find? l).isSome) '_'
      (fields.entries.length + 1) f.label)).isSome = false := by
    refine freshLoop_free hlen htaken (Nat.lt_succ_of_le ?_)
    exact Nat.le_trans List.countP_le_length (Nat.le_of_eq (List.length_map _))
  rw [addField, OrdMap.find?_insert_of_ne]
  · exact h
  · rintro rfl
    simp [h] at hfree

def RequestFields.ofList (fs : List RequestField) : RequestFields :=
  fs.foldl RequestFields.addField .empty

/-- The class of a request, and what only that class has. -/
inductive Form
  | input (default_value : Str)
  | fieldList (fields : RequestFields)
  /-- With the lines that show the image. -/
  | image (shown : List Str)

structure Question where
  account : Option Str
  title : Str
  primary : Str
  secondary : Str
  form : Form

namespace Question

def isImage (q : Question) : Bool :=
  match q.form with
  | .image _ => true
  | _ => false

/-- What `display` tells the user. -/
def display (q : Question) : List Str :=
  let header :=
    [(match q.account with
      | some id => str "[" ++ id ++ str "] New request: " ++ q.title
      | none => str "New request: " ++ q.title)] ++
    (if q.primary.isEmpty then [] else [q.primary]) ++
    (if q.secondary.isEmpty then [] else [q.secondary])
  match q.form with
  | .input default_value => header ++ [str "Default value is: " ++ default_value, str "Type answer:"]
  | .fieldList fields =>
    header ++ fields.entries.map fun f => str "- " ++ f.1 ++ str ": " ++ f.2
  | .image shown => shown

/-- `process` does not throw `RequestFieldNotFound`. -/
def accepts (q : Question) (answer : Str) : Bool :=
  match q.form with
  | .fieldList fields => (fields.find? answer).isSome
  | .input _ | .image _ => true

end Question

namespace Requests

structure Request where
  id : RequestRef
  question : Question
  subrequests : List Question

namespace Request

/-- The question that `process` and `display` are delegated to. -/
def front (r : Request) : Question := r.subrequests.head?.getD r.question

def accepts (r : Request) (answer : Str) : Bool := r.front.accepts answer

end Request

end Requests

/-- A field of a `PurpleRequestFields`. -/
inductive PurpleField
  | string (label default_value : Option Str)
  | integer (label : Option Str) (default_value : Int)
  | image (shown : List Str)
  | boolean (label : Option Str)
  | choice (label : Option Str) (labels : List Str)
  | list (label : Option Str) (items : List Str)
  | skipped

/-- A call of the `PurpleRequestUiOps` that asks something. -/
inductive Asked
  | input (account title primary secondary default_value : Option Str)
  | action (account title primary secondary : Option Str) (actions : List Str)
  | choice (account title primary secondary : Option Str) (choices : List Str)
  | fields (account title primary secondary : Option Str) (visible : List PurpleField) (ok cancel : Str)

namespace Asked

/-- The label of an action is the first word of its text. -/
def actionField (text : Str) : RequestField :=
  { label := strlower (stringtok text (str "_ ")).1, text }

/-- A field whose label is its text. -/
def valueField (text : Str) : RequestField := { label := text, text, shared := true }

def fieldList (account : Option Str) (title primary secondary : Str) (fs : List RequestField) :
    Question :=
  { account, title, primary, secondary, form := .fieldList (RequestFields.ofList fs) }

def subrequest (account title primary secondary : Option Str) : PurpleField → Option Question
  | .string label default_value => some
    { account, title := p2s (title.or primary), primary := p2s secondary, secondary := p2s label,
      form := .input (p2s default_value) }
  | .integer label default_value => some
    { account, title := p2s (title.or primary), primary := p2s secondary, secondary := p2s label,
      form := .input (t2s default_value) }
  | .image shown => some
    { account, title := [], primary := [], secondary := [], form := .image shown }
  | .boolean label => some (fieldList account (p2s (title.or primary)) (p2s secondary) (p2s label)
    [valueField (str "true"), valueField (str "false")])
  | .choice label labels => some (fieldList account (p2s (title.or primary)) (p2s secondary)
    (p2s label) (labels.map valueField))
  | .list label items => some (fieldList account (p2s (title.or primary)) (p2s secondary)
    (p2s label) (items.map valueField))
  | .skipped => none

/-- The request that is made, and its subrequests. -/
def request : Asked → Question × List Question
  | .input account title primary secondary default_value =>
    ({ account, title := p2s title, primary := p2s primary, secondary := p2s secondary,
       form := .input (p2s default_value) }, [])
  | .action account title primary secondary actions =>
    (fieldList account (p2s title) (p2s primary) (p2s secondary) (actions.map actionField), [])
  | .choice account title primary secondary choices =>
    (fieldList account (p2s title) (p2s primary) (p2s secondary)
      (choices.map actionField ++ [{ label := str "cancel", text := str "Cancel" }]), [])
  | .fields account title primary secondary visible ok cancel =>
    (fieldList account (p2s (title.or primary))
      (if title.isSome then p2s (primary.or secondary) else p2s secondary) (str "Do you confirm?")
      [{ label := str "ok", text := ok }, { label := str "cancel", text := cancel }],
     visible.filterMap (subrequest account title primary secondary))

end Asked

/-- `Request::requests` and the handles of libpurple. A request is an object in the queue: to find
none is to use one that was deleted. -/
structure Requests where
  requests : List Requests.Request := []
  handles : List RequestRef := []
  next : RequestRef := 0
  deleted : List RequestRef := []
  said : List Str := []
  /-- The request that was last displayed in full. -/
  displayed : Option RequestRef := none
  /-- Which request processed which answer. -/
  processed : List (RequestRef × Str) := []
  usedDeleted : Bool := false

namespace Requests

def say (s : Requests) (l : List Str) : Requests := { s with said := s.said ++ l }

def find (s : Requests) (r : RequestRef) : Option Request := s.requests.find? (·.id = r)

def setSubrequests (s : Requests) (r : RequestRef) (qs : List Question) : Requests :=
  { s with requests := s.requests.map fun x => if x.id = r then { x with subrequests := qs } else x }

/-- No call nests deeper. -/
def depth (s : Requests) : Nat := 2 * (s.requests.map (·.subrequests.length)).sum + 4

mutual

def display : Nat → Requests → RequestRef → Option Requests
  | 0, _, _ => none
  | n + 1, s, r =>
    match s.find r with
    | none => some { s with usedDeleted := true }
    | some x =>
      match x.front.form with
      | .image shown =>
        let s := s.say shown
        match s.requests.head? with
        | some first => close n s first.id
        | none => some s
      | _ => some { s.say x.front.display with displayed := some r }

def close : Nat → Requests → RequestRef → Option Requests
  | 0, _, _ => none
  | n + 1, s, r =>
    match s.find r with
    | none => some { s with usedDeleted := true }
    | some x =>
      match x.subrequests with
      | _ :: qs => display n (s.setSubrequests r qs) r
      | [] => purpleRequestClose n s r

/-- `purple_request_close`, which calls back for a handle it has. -/
def purpleRequestClose : Nat → Requests → RequestRef → Option Requests
  | 0, _, _ => none
  | n + 1, s, r =>
    if r ∈ s.handles then closeRequest n { s with handles := s.handles.erase r } r else some s

def closeRequest : Nat → Requests → RequestRef → Option Requests
  | 0, _, _ => none
  | n + 1, s, r =>
    match s.find r with
    | none => some s
    | some _ =>
      let first := s.requests.head?.map (·.id) = some r
      let s := { s with
        requests := s.requests.filter (·.id ≠ r)
        deleted := s.deleted ++ [r] }
      if first then
        let s := s.say [str "Request closed."]
        match s.requests.head? with
        | some x => display n s x.id
        | none => some s
      else some s

end

/-- libpurple stores the handle that `addRequest` returns. -/
def addRequest (s : Requests) (a : Asked) : Option Requests :=
  let x : Request := { id := s.next, question := a.request.1, subrequests := a.request.2 }
  let s := { s with requests := s.requests ++ [x], next := s.next + 1 }
  (if s.requests.length = 1 then display s.depth s x.id
    else some (s.say [str "Hint: Received a new request (" ++ x.question.title ++
      str "). There are " ++ t2s (s.requests.length - 1) ++ str " requests in stack"])).map
    fun s => { s with handles := s.handles ++ [x.id] }

/-- What libpurple does with requests. -/
inductive Act
  | added (a : Asked)
  | closed (r : RequestRef)

def act (s : Requests) : Act → Option Requests
  | .added a => s.addRequest a
  | .closed r => purpleRequestClose s.depth s r

/-- A callback, from what it does with requests. -/
def callback : Requests → List Act → Option Requests
  | s, [] => some s
  | s, a :: acts => (s.act a).bind fun s => callback s acts

/-- `RequestNick::send`, where the callback of the answer does `acts`. -/
def send (s : Requests) (command : Str) (toThis : Bool) (answer : Str) (acts : List Act) :
    Option Requests :=
  if command ≠ str "PRIVMSG" ∨ !toThis then some s
  else if answer.head? = some '\x01' then some s
  else
    match s.requests.head? with
    | none => some (s.say [str "No active question"])
    | some x =>
      if x.accepts answer then
        let s := { s with processed := s.processed ++ [(x.id, answer)] }
        -- the question of a subrequest has no callback: its answer is stored
        (if x.subrequests.isEmpty then callback s acts else some s).bind fun s =>
          close s.depth s x.id
      else
        let s := s.say [str "ERROR: Answer '" ++ answer ++ str "' is not valid."]
        display s.depth s x.id

inductive Event
  | sent (command : Str) (toThis : Bool) (answer : Str) (acts : List Act)
  | libpurple (a : Act)

def step (s : Requests) : Event → Option Requests
  | .sent command toThis answer acts => s.send command toThis answer acts
  | .libpurple a => s.act a

end Requests
end Minbif
