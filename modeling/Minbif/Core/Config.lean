import Mathlib.Logic.Function.Basic
import Minbif.Core.Util

/-! The configuration: a tree of sections and items, and the file that is read into it. -/
namespace Minbif
open Function

/-- The values of an item; each class has its own. -/
structure Value where
  string : Str := []
  int : Int := 0
  valueMin : Int := 0
  valueMax : Int := 0
  bool : Bool := false
deriving DecidableEq, Repr

/-- The classes derived from `ConfigItem`. -/
inductive ItemType
  | string
  | int (min max : Int)
  | intrange (min max : Int)
  | bool
deriving DecidableEq, Repr

def intMin : Int := -2147483648
def intMax : Int := 2147483647

/-- `std::istringstream(s) >> old` for a string of digits: nothing is read from an empty one. -/
def readInt (old : Int) (s : Str) : Int :=
  if s.isEmpty then old
  else min (s.foldl (fun n c => 10 * n + (c.toNat - '0'.toNat)) 0 : Nat) intMax

/-- The two halves of a range; `none` for a character that does not belong there. -/
def rangeLoop : Bool → Str → Str → Str → Option (Str × Str)
  | _, minS, maxS, [] => some (minS, maxS)
  | onMin, minS, maxS, c :: s =>
    if c.isDigit then
      if onMin then rangeLoop onMin (minS ++ [c]) maxS s else rangeLoop onMin minS (maxS ++ [c]) s
    else if onMin && (c = ':' || c = '-') then rangeLoop false minS maxS s
    else none

namespace ItemType

/-- Whether the value is good, and what the item then holds. -/
def setValue : ItemType → Value → Str → Bool × Value
  | .string, v, s => (true, { v with string := s })
  | .int min max, v, s =>
    if s.all Char.isDigit then
      let v := { v with int := readInt v.int s }
      (min ≤ v.int && v.int ≤ max, v)
    else (false, v)
  | .intrange min max, v, s =>
    match rangeLoop true [] [] s with
    | none => (false, v)
    | some (minS, maxS) =>
      let v := { v with valueMin := readInt v.valueMin minS, valueMax := readInt v.valueMax maxS }
      (min ≤ v.valueMin && v.valueMin ≤ v.valueMax && v.valueMax ≤ max, v)
  | .bool, v, s =>
    if s = str "true" ∨ s = str "on" ∨ s = str "yes" then (true, { v with bool := true })
    else if s = str "false" ∨ s = str "off" ∨ s = str "no" then (true, { v with bool := false })
    else (false, v)

def valueType : ItemType → Str
  | .string => str "string"
  | .int min max =>
    if min = intMin then str "integer"
    else str "integer (between " ++ t2s min ++ str " and " ++ t2s max ++ str ")"
  | .intrange min max =>
    str "integer range (between " ++ t2s min ++ str " and " ++ t2s max ++ str ")"
  | .bool => str "boolean ('true' or 'false')"

end ItemType

/-- What `String`, `Integer`, `MinInteger` and `MaxInteger`, or `Boolean` return. -/
inductive Content
  | string (s : Str)
  | int (n : Int)
  | range (min max : Int)
  | bool (b : Bool)
deriving DecidableEq, Repr

def ItemType.content : ItemType → Value → Content
  | .string, v => .string v.string
  | .int _ _, v => .int v.int
  | .intrange _ _, v => .range v.valueMin v.valueMax
  | .bool, v => .bool v.bool

structure ConfigItem where
  label : Str
  description : Str := []
  type : ItemType
  defValue : Str := []
deriving DecidableEq, Repr

inductive SectionType
  | normal
  | multiple
  | optional
deriving DecidableEq, Repr

/-- A section as `AddSection` and `AddItem` built it. -/
structure ConfigSection where
  label : Str
  description : Str := []
  type : SectionType
  items : List ConfigItem := []
  nameItem : Option Str := none
  sections : List ConfigSection := []

namespace ConfigSection

def isMultiple (d : ConfigSection) : Bool := d.type = .multiple

def isOptional (d : ConfigSection) : Bool := d.type = .optional || d.type = .multiple

end ConfigSection

mutual

/-- `AddItem` and `AddSection` throw at a label that is taken. -/
def ConfigSection.valid : ConfigSection → Bool
  | ⟨_, _, _, items, nameItem, sections⟩ =>
    (items.map (·.label)).Nodup && nameItem.all (items.map (·.label)).contains &&
      validSections sections

def validSections : List ConfigSection → Bool
  | [] => true
  | d :: ds => !(ds.map (·.label)).contains d.label && d.valid && validSections ds

end

/-- All that was built before the first file is read. -/
structure Schema where
  sections : List ConfigSection
  valid : validSections sections = true := by decide

/-- A `ConfigSection*`: the labels down to the section and, where one is a copy, which of the copies
of that label. The null pointer is the empty list. -/
abbrev SectionRef := List (Str × Option Nat)

namespace SectionRef

/-- The section that was built with the configuration, of which this one is a copy or part of a
copy. -/
def original (p : SectionRef) : SectionRef := p.map fun s => (s.1, none)

/-- `Parent()`: a copy keeps the parent of what it is a copy of, all the way down. -/
def parent (p : SectionRef) : SectionRef := (original p).dropLast

def label (p : SectionRef) : Str := (p.getLast?.map Prod.fst).getD []

def isCopy (p : SectionRef) : Bool := p.getLast?.any fun s => s.2.isSome

/-- The copy of that number, which stands beside the original. -/
def copy (p : SectionRef) (k : Nat) : SectionRef := parent p ++ [(label p, some k)]

end SectionRef

/-- The section of that reference, as it was built. -/
def sectionAt : List ConfigSection → SectionRef → Option ConfigSection
  | _, [] => none
  | ds, [s] => ds.find? (·.label = s.1)
  | ds, s :: t :: p => (ds.find? (·.label = s.1)).bind fun d => sectionAt d.sections (t :: p)

structure MyConfig where
  schema : Schema
  path : Str := []
  lineCount : Nat := 0
  found : SectionRef → Bool := fun _ => false
  name : SectionRef → Str := fun _ => []
  /-- How many copies stand beside a section. -/
  copies : SectionRef → Nat := fun _ => 0
  itemFound : SectionRef → Str → Bool := fun _ _ => false
  value : SectionRef → Str → Value
  /-- Whether `SetValue` accepted what it was last given. -/
  accepted : SectionRef → Str → Bool := fun _ _ => false
  /-- The local variables of `Load`. -/
  current : SectionRef := []
  error : Bool := false
  cerr : List Str := []

/-- A line, from the first character that is neither a space nor a tab. -/
inductive ConfigLine
  | skip
  | item (label rest : Str)
  | close
  | section (tab : Str)
deriving DecidableEq, Repr

/-- What `Load` takes the line for; `c_str` ends at a NUL. -/
def ConfigLine.of (ligne : Str) : ConfigLine :=
  let ligne := (ligne.takeWhile (· ≠ '\x00')).dropWhile (str " \t").contains
  match ligne with
  | [] => .skip
  | c :: _ =>
    if c = '#' ∨ c = '\r' ∨ c = '\n' then .skip
    else if ligne.contains '=' then .item (stringtok ligne [' ']).1 (stringtok ligne [' ']).2
    else if c = '}' then .close
    else .section (stringtok ligne [' ']).1

/-- The lines `std::getline` returns. -/
def fileLines (content : Str) : List Str :=
  let l := content.splitOnP (· == '\n')
  if l.getLast? = some [] then l.dropLast else l

namespace MyConfig
open SectionRef

/-- The macro `Error`, without its flag. -/
def print (c : MyConfig) (x : Str) : MyConfig :=
  { c with cerr := c.cerr ++ [c.path ++ str ":" ++ t2s c.lineCount ++ str ": " ++ x] }

def fail (c : MyConfig) (x : Str) : MyConfig := { c.print x with error := true }

/-- `GetItem` of a section. -/
def getItem (c : MyConfig) (p : SectionRef) (label : Str) : Option ConfigItem :=
  (sectionAt c.schema.sections p).bind fun d => d.items.find? (·.label = label)

/-- `GetSection(label, name)` of the parent finds one with the label of `p`. -/
def named (c : MyConfig) (p : SectionRef) (name : Str) : Bool :=
  (sectionAt c.schema.sections p).any ConfigSection.isMultiple &&
    (c.name (original p) = name ||
      (List.range (c.copies (original p))).any fun k => c.name (copy p k) = name)

def setName (c : MyConfig) (p : SectionRef) (name : Str) : MyConfig :=
  { c with name := update c.name p name }

/-- `SetFound` of an item. -/
def setItemFound (c : MyConfig) (p : SectionRef) (label : Str) : MyConfig :=
  { c with itemFound := update c.itemFound p (update (c.itemFound p) label true) }

def setValue (c : MyConfig) (p : SectionRef) (item : ConfigItem) (s : Str) : Bool × MyConfig :=
  let r := item.type.setValue (c.value p item.label) s
  (r.1, { c with
    value := update c.value p (update (c.value p) item.label r.2)
    accepted := update c.accepted p (update (c.accepted p) item.label r.1) })

/-- `new ConfigSection(*section)`, added beside the section. Its name and its items are as they are
in a section that was not built yet. -/
def addCopy (c : MyConfig) (t : SectionRef) : MyConfig :=
  let n := copy t (c.copies (original t))
  { c with
    found := fun p => if n <+: p then c.found (t ++ p.drop n.length) else c.found p
    copies := fun p =>
      if p = original t then c.copies p + 1
      else if n <+: p then c.copies (t ++ p.drop n.length) else c.copies p
    current := n }

def onItem (c : MyConfig) (label rest : Str) : MyConfig :=
  let p := c.current
  if p.isEmpty then c.fail (str "We aren't in a section !")
  else
    match c.getItem p label with
    | none => c.fail (str "Unknown item '" ++ label ++ str "'")
    | some item =>
      let value := rest.dropWhile (str " =\t").contains
      if value.isEmpty then c.fail (str "There isn't any value")
      else
        let isName := (sectionAt c.schema.sections p).any fun d => d.nameItem = some item.label
        if isName && c.named p value then
          c.fail (str "There is already a section named '" ++ value ++ str "' ('" ++
            p.label ++ str "')")
        else
          let c := if isName then c.setName p value else c
          let r := (c.setItemFound p item.label).setValue p item value
          if r.1 then r.2
          else r.2.fail (str "'" ++ value ++ str "' is an incorrect value for '" ++ item.label ++
            str "' item (type of value is " ++ item.type.valueType ++ str ")")

def onClose (c : MyConfig) : MyConfig :=
  let p := c.current
  if p.isEmpty then c.fail (str "a '\x7d' out of a section !?")
  else
    let c := if p.isCopy && (c.name p).isEmpty then
        c.fail (str "Section '" ++ p.label ++ str "' hasn't a name")
      else c
    { c with current := p.parent }

def onSection (c : MyConfig) (tab : Str) : MyConfig :=
  let p := c.current ++ [(tab, none)]
  match sectionAt c.schema.sections p with
  | none => { c.fail (str "Unknown section '" ++ tab ++ str "'") with current := [] }
  | some d =>
    let c := { c with found := update c.found p true, current := p }
    if d.isMultiple then c.addCopy p else c

def onLine (c : MyConfig) (ligne : Str) : MyConfig :=
  let c := { c with lineCount := c.lineCount + 1 }
  match ConfigLine.of ligne with
  | .skip => c
  | .item label rest => c.onItem label rest
  | .close => c.onClose
  | .section tab => c.onSection tab

/-- The sections built with the configuration keep their names and values; where another is to be
built, its items find what is in that memory. -/
def clean (c : MyConfig) (memory : SectionRef → Str → Value) : MyConfig :=
  { c with
    found := fun _ => false
    copies := fun _ => 0
    itemFound := fun _ _ => false
    accepted := fun _ _ => false
    name := fun p => if p = original p then c.name p else []
    value := fun p l => if p = original p then c.value p l else { memory p l with string := [] } }

/-- One turn of the first loop of `ConfigSection::FindEmpty`. -/
def checkItem (p : SectionRef) (start : Str) (r : Bool × MyConfig) (item : ConfigItem) :
    Bool × MyConfig :=
  if r.2.itemFound p item.label then r
  else
    let s := if item.defValue.isEmpty then (false, r.2) else r.2.setValue p item item.defValue
    if !s.1 && s.2.found p then
      (true, s.2.print (start ++ str "missing item '" ++ item.label ++ str "' (" ++
        item.description ++ str ")"))
    else (r.1, s.2)

def start (c : MyConfig) (p : SectionRef) : Str :=
  str "in «" ++ p.label ++ (if (c.name p).isEmpty then [] else str "(" ++ c.name p ++ str ")") ++
    str "»: "

mutual

/-- `ConfigSection::FindEmpty` of the section `d` at `p`. -/
def findEmpty : ConfigSection → SectionRef → MyConfig → Bool × MyConfig
  | ⟨_, _, type, items, _, sections⟩, p, c =>
    if type = .multiple && !p.isCopy then (true, c)
    else findEmptyLoop sections p (c.start p) (items.foldl (checkItem p (c.start p)) (false, c))

/-- The loop over the sections of one level. -/
def findEmptyLoop : List ConfigSection → SectionRef → Str → Bool × MyConfig → Bool × MyConfig
  | [], _, _, r => r
  | d :: ds, p, start, r =>
    -- a copy stands after the section it was made of
    findEmptyLoop ds p start ((none :: (List.range (r.2.copies (p ++ [(d.label, none)]))).map some).foldl
      (fun r k =>
        if !r.2.found (p ++ [(d.label, k)]) && !d.isOptional then
          (true, r.2.print (start ++ str "missing section '" ++ d.label ++ str "' (" ++
            d.description ++ str ")"))
        -- the result is dropped
        else (r.1, (findEmpty d (p ++ [(d.label, k)]) r.2).2)) r)

end

/-- Before the first line. -/
def opening (c : MyConfig) (memory : SectionRef → Str → Value) : MyConfig :=
  { c.clean memory with lineCount := 0, current := [], error := false }

/-- After the last line. -/
def ending (c : MyConfig) : MyConfig :=
  if c.current.isEmpty then c
  else c.fail (str "in «" ++ c.current.label ++
    (if (c.name c.current).isEmpty then [] else str "(" ++ c.name c.current ++ str ")") ++
    str "»: '\x7d' not found to close section !")

/-- `MyConfig::Load`, once the path is known; `none` is a file that cannot be opened. -/
def load (c : MyConfig) (memory : SectionRef → Str → Value) (file : Option Str) : Bool × MyConfig :=
  match file with
  | none => (false, { c with cerr := c.cerr ++ [c.path ++ str ": File not found"] })
  | some content =>
    let c := ((fileLines content).foldl onLine (c.opening memory)).ending
    let r := findEmptyLoop c.schema.sections [] (str "in global porty: ") (false, c)
    (!(r.2.error || r.1), { r.2 with error := r.2.error || r.1 })

/-- `GetSectionClones`: the copies with that label in a section. -/
def getSectionClones (c : MyConfig) (p : SectionRef) (label : Str) : List SectionRef :=
  if (sectionAt c.schema.sections (p ++ [(label, none)])).any ConfigSection.isMultiple then
    (List.range (c.copies (p ++ [(label, none)]))).map fun k => p ++ [(label, some k)]
  else []

end MyConfig
end Minbif
