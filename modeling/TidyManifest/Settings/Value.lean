import TidyManifest.Text.Basic
import TidyManifest.Text.Lower

/-!
# Values of settings, and paths to them

Settings come in layers: defaults, a file, single overrides.  Each layer is a tree of tables, and
a later layer is put into the earlier ones.  Tables are merged key by key; anything else replaces
what was there.  Keys do not distinguish upper and lower case.

An override names its place by a path, keys joined by dots, where a number in brackets goes to an
item of a list.
-/

namespace TidyManifest

/-- A value of a settings layer. -/
inductive Value where
  | nothing
  | truth (value : Bool)
  | integer (value : Int)
  /-- a number with a fraction or an exponent -/
  | decimal (value : Float)
  | text (value : String)
  | list (items : List Value)
  | table (entries : List (String × Value))

namespace Value

/-- The entries of a table; anything else has none. -/
def entries : Value → List (String × Value)
  | table es => es
  | _ => []

/-- The items of a list; anything else has none. -/
def items : Value → List Value
  | list vs => vs
  | _ => []

/-- The value of a key. -/
def get? (v : Value) (key : String) : Option Value :=
  v.entries.lookup key

/-- Set one entry, in place of an earlier one with the same key. -/
def setEntry (key : String) (v : Value) : List (String × Value) → List (String × Value)
  | [] => [(key, v)]
  | (k, old) :: rest => if k == key then (k, v) :: rest else (k, old) :: setEntry key v rest

mutual

/-- Put a value under a key of a table.  What is not a table becomes an empty one first. -/
def put (into : Value) (key : String) (v : Value) : Value :=
  let key := Text.lower key
  match v with
  | table es =>
    let target := (into.get? key).getD (table [])
    table (setEntry key (putAll es target) into.entries)
  | v => table (setEntry key v into.entries)

/-- Put the entries of a table, one after the other. -/
def putAll : List (String × Value) → Value → Value
  | [], into => into
  | (key, v) :: rest, into => putAll rest (into.put key v)

end

end Value

namespace Settings

/-- A step of a path. -/
inductive Hop where
  | key (name : String)
  | item (index : Int)
deriving DecidableEq

/-- A path starts with a key. -/
structure Path where
  first : String
  rest : List Hop
deriving DecidableEq

/-- Why a text is no path. -/
inductive PathFault where
  /-- it does not start with a key -/
  | noKey
  /-- a key, a dot or a bracket is missing -/
  | broken
  /-- brackets hold no number -/
  | noNumber
  /-- the number in brackets has more than 64 bits -/
  | largeNumber
deriving DecidableEq

/-- The name of the fault in messages. -/
def PathFault.label : PathFault → String
  | noKey => "IsA"
  | broken => "Char"
  | noNumber => "Digit"
  | largeNumber => "Map on Result"

/-- Characters of a key in a path. -/
def isPathChar (c : Char) : Bool :=
  c.isAlphanum || c == '_' || c == '-' || c == ' '

/-- White space around the number in brackets. -/
def isPathBlank (c : Char) : Bool :=
  c == ' ' || c == '\t'

/-- A number in brackets, and what follows the closing bracket. -/
def readIndex (cs : List Char) : Except PathFault (Int × List Char) :=
  let cs := cs.dropWhile isPathBlank
  let (negative, cs) := match cs with
    | '-' :: rest => (true, rest)
    | _ => (false, cs)
  let digits := cs.takeWhile Char.isDigit
  let n : Int := Text.ofDigits digits
  let index := if negative then -n else n
  if digits.isEmpty then .error .noNumber
  else if index < Int64.minValue.toInt || Int64.maxValue.toInt < index then .error .largeNumber
  else match (cs.dropWhile Char.isDigit).dropWhile isPathBlank with
    | ']' :: rest => .ok (index, rest)
    | _ => .error .broken

/-- The steps of a path after its first key, where `n` bounds their number. -/
def readHops : Nat → List Char → Except PathFault (List Hop)
  | _, [] => .ok []
  | 0, _ => .error .broken
  | n + 1, '.' :: cs =>
    let name := cs.takeWhile isPathChar
    if name.isEmpty then .error .broken
    else (readHops n (cs.dropWhile isPathChar)).map (.key (String.ofList name) :: ·)
  | n + 1, '[' :: cs =>
    match readIndex cs with
    | .error e => .error e
    | .ok (index, rest) => (readHops n rest).map (.item index :: ·)
  | _ + 1, _ => .error .broken

/-- Read a path. -/
def Path.parse (text : String) : Except PathFault Path :=
  let cs := text.toList
  let name := cs.takeWhile isPathChar
  if name.isEmpty then .error .noKey
  else (readHops cs.length (cs.dropWhile isPathChar)).map (⟨String.ofList name, ·⟩)

/-- Change one item of a list.  A negative index counts from the end.  The list is extended with
empty items, at its end or at its start, so that the item is there. -/
def changeItem (index : Int) (change : Value → Value) (items : List Value) : List Value :=
  if index < 0 then
    let missing := index.natAbs - items.length
    (List.replicate missing Value.nothing ++ items).modify (items.length - index.natAbs) change
  else
    let missing := index.toNat + 1 - items.length
    (items ++ List.replicate missing Value.nothing).modify index.toNat change

/-- Put a value at the end of some steps.  What is not a table or a list as the steps need it
becomes an empty one. -/
def putAt (v : Value) : List Hop → Value → Value
  | [], _ => v
  | [.key name], into => into.put name v
  | .key name :: rest, into =>
    let name := Text.lower name
    let inner := putAt v rest ((into.get? name).getD .nothing)
    .table (Value.setEntry name inner into.entries)
  | .item index :: rest, into => .list (changeItem index (putAt v rest) into.items)

/-- Put a value at a path. -/
def Path.put (path : Path) (v : Value) (into : Value) : Value :=
  putAt v (.key path.first :: path.rest) into

end Settings

end TidyManifest
