import TidyManifest.Layout.View
import TidyManifest.Parse.Resource
import TidyManifest.Settings.Toml.Document
import TidyManifest.Text.Quoted

/-!
# Loading settings

The layers are the defaults, perhaps a file, and overrides in the order in which they are given.
Only what is left when all layers are in place is checked:

* a number is an integer that is not negative, a decimal rounded to the nearest one, halves up, and
  cut off at zero and at 64 bits, a truth value as one or zero, or a text that says an integer or a
  truth value;
* a truth value is one, or a number, which is true unless it is zero, or a text that says one;
* the split mode is its name, in upper or lower case.

What nobody asks for is ignored.
-/

namespace TidyManifest

/-- Everything that can be chosen. -/
structure Settings where
  layout : Layout.Options := {}
  /-- how a resource with several titles becomes several blocks -/
  splitMode : SplitMode := .render
deriving DecidableEq

/-- A description of a value that was found where another sort belongs. -/
inductive Found where
  | unit
  | boolean (value : Bool)
  | integer (value : Int)
  | wideInteger (value : Int)
  | decimal
  | string (value : String)
  | sequence
  | map

/-- The description in messages. -/
def Found.message : Found → String
  | unit => "unit value"
  | boolean b => "boolean `" ++ (if b then "true" else "false") ++ "`"
  | integer n => "integer `" ++ toString n ++ "`"
  | wideInteger n => "64-bit integer `" ++ toString n ++ "`"
  | decimal => "floating point number"
  | string s => "string " ++ Text.quoted s
  | sequence => "sequence"
  | map => "map"

/-- Why settings could not be loaded. -/
inductive SettingsError where
  /-- an override has no proper path -/
  | badPath (fault : Settings.PathFault)
  /-- the file is not there -/
  | missingFile (path : String)
  /-- the file is not proper TOML -/
  | badFile (path : String)
  /-- a value cannot be used for its key -/
  | badValue (found : Found) (expected : String) (key : String)
  /-- a group of settings is not a table -/
  | badGroup (found : Found) (expected : String)
  /-- a list stands for a group of settings and is too short -/
  | shortGroup (length : Nat) (expected : String)
  /-- a setting is missing from its group -/
  | missing (field : String)
  /-- no choice has this name -/
  | unknownChoice (group : String) (name : String)
  /-- a choice is made by something else than a name -/
  | badChoice (group : String)

/-- The error for a reader. -/
def SettingsError.message (e : SettingsError) : String :=
  "configuration error: " ++ match e with
    | badPath fault => fault.label
    | missingFile path => "configuration file \"" ++ path ++ "\" not found"
    | badFile path => "invalid TOML in " ++ path
    | badValue found expected key =>
      "invalid type: " ++ found.message ++ ", expected " ++ expected ++ " for key `" ++ key ++ "`"
    | badGroup found expected =>
      "invalid type: " ++ found.message ++ ", expected struct " ++ expected
    | shortGroup length expected =>
      "invalid length " ++ toString length ++ ", expected struct " ++ expected
    | missing field => "missing field `" ++ field ++ "`"
    | unknownChoice group name =>
      "enum " ++ group ++ " does not have variant constructor " ++ name
    | badChoice group =>
      "value of enum " ++ group ++
        " should be represented by either string or table with exactly one key"

namespace Settings

/-- A description of a value where a group of settings belongs. -/
def foundAsGroup : Value → Found
  | .nothing => .unit
  | .truth b => .boolean b
  | .integer n => .integer n
  | .decimal _ => .decimal
  | .text s => .string s
  | .list _ => .sequence
  | .table _ => .map

/-- A description of a value where a single setting belongs. -/
def foundAsSetting : Value → Found
  | .integer n => .wideInteger n
  | v => foundAsGroup v

/-- Texts that say yes. -/
def yesWords : List String := ["true", "on", "yes"]

/-- Texts that say no. -/
def noWords : List String := ["false", "off", "no"]

/-- A number of at most 64 bits in decimal digits, perhaps with a plus sign. -/
def naturalOf? (s : String) : Option Nat :=
  let digits := match s.toList with
    | '+' :: rest => rest
    | cs => cs
  (Text.natOfDigits? digits).filter (· < UInt64.size)

/-- A setting that is a number. -/
def toNatural (key : String) (v : Value) : Except SettingsError Nat :=
  let refuse := SettingsError.badValue (foundAsSetting v) "an integer" key
  match v with
  | .integer n =>
    if 0 ≤ n then .ok n.toNat
    else .error (.badValue (.wideInteger n) "an unsigned 64 bit or less integer" key)
  | .decimal x => .ok x.round.toUInt64.toNat
  | .truth b => .ok (if b then 1 else 0)
  | .text s =>
    if yesWords.contains (Text.lower s) then .ok 1
    else if noWords.contains (Text.lower s) then .ok 0
    else match naturalOf? s with
      | some n => .ok n
      | none => .error refuse
  | _ => .error refuse

/-- A setting that is a truth value. -/
def toTruth (key : String) (v : Value) : Except SettingsError Bool :=
  match v with
  | .truth b => .ok b
  | .integer n => .ok (n != 0)
  | .decimal x => .ok (x != 0.0)
  | .text s =>
    if ("1" :: yesWords).contains (Text.lower s) then .ok true
    else if ("0" :: noWords).contains (Text.lower s) then .ok false
    else .error (.badValue (.string (Text.lower s)) "a boolean" key)
  | _ => .error (.badValue (foundAsSetting v) "a boolean" key)

/-- The split mode with a given name. -/
def modeOf (name : String) : Except SettingsError SplitMode :=
  match Text.lower name with
  | "render" => .ok .render
  | "splice" => .ok .splice
  | _ => .error (.unknownChoice "SplitMode" name)

/-- The setting of the split mode: a name, or a table whose only key is a name. -/
def toMode (_key : String) (v : Value) : Except SettingsError SplitMode :=
  match v with
  | .text name => modeOf name
  | .table [(name, _)] => modeOf name
  | _ => .error (.badChoice "SplitMode")

/-- A group of settings: a table with one entry for each, or a list of them in order. -/
structure Group where
  key : String
  label : String
  fields : List String

/-- The value of one setting of a group, and the key by which messages call it. -/
def Group.value (g : Group) (v : Value) (index : Nat) (field : String) :
    Except SettingsError (String × Value) :=
  match v with
  | .table _ =>
    match v.get? field with
    | some setting => .ok (g.key ++ "." ++ field, setting)
    | none => .error (.missing field)
  | .list items =>
    match items[index]? with
    | some setting => .ok (g.key ++ "[" ++ toString index ++ "]", setting)
    | none =>
      let count := g.fields.length
      .error (.shortGroup index
        (g.label ++ " with " ++ toString count ++ (if count == 1 then " element" else " elements")))
  | _ => .error (.badGroup (foundAsGroup v) g.label)

/-- The settings of the layout. -/
def layoutGroup : Group :=
  ⟨"formatting", "FormattingConfig",
    ["indent_width", "align_arrows", "cuddle_else", "max_line_width"]⟩

/-- The settings of the parser. -/
def parsingGroup : Group :=
  ⟨"parsing", "ParsingConfig", ["split_resources"]⟩

/-- The value of a group. -/
def groupValue (root : Value) (g : Group) : Except SettingsError Value :=
  match root.get? g.key with
  | some v => .ok v
  | none => .error (.missing g.key)

/-- The settings that a layer describes. -/
def ofValue (root : Value) : Except SettingsError Settings := do
  let layout ← groupValue root layoutGroup
  let (key, v) ← layoutGroup.value layout 0 "indent_width"
  let indentWidth ← toNatural key v
  let (key, v) ← layoutGroup.value layout 1 "align_arrows"
  let alignArrows ← toTruth key v
  let (key, v) ← layoutGroup.value layout 2 "cuddle_else"
  let cuddleElse ← toTruth key v
  let (key, v) ← layoutGroup.value layout 3 "max_line_width"
  let maxLineWidth ← toNatural key v
  let parsing ← groupValue root parsingGroup
  let (key, v) ← parsingGroup.value parsing 0 "split_resources"
  let splitMode ← toMode key v
  return ⟨⟨indentWidth, alignArrows, cuddleElse, maxLineWidth⟩, splitMode⟩

/-- The name of a split mode. -/
def modeName : SplitMode → String
  | .render => "render"
  | .splice => "splice"

/-- Settings as a layer. -/
def toValue (s : Settings) : Value :=
  .table
    [("formatting", .table
      [("indent_width", .integer s.layout.indentWidth),
       ("align_arrows", .truth s.layout.alignArrows),
       ("cuddle_else", .truth s.layout.cuddleElse),
       ("max_line_width", .integer s.layout.maxLineWidth)]),
     ("parsing", .table [("split_resources", .text (modeName s.splitMode))])]

/-- Put the entries of a file into the earlier layers.  A key of the file that is a path goes where
the path leads. -/
def putFile : List (String × Value) → Value → Value
  | [], into => into
  | (key, v) :: rest, into =>
    putFile rest <| match Path.parse key with
      | .ok path => path.put v into
      | .error _ => into.put key v

/-- A settings file: its path, and its text unless it is not there. -/
structure File where
  path : String
  text : Option String

/-- The entries of a settings file. -/
def File.entries (f : File) : Except SettingsError (List (String × Value)) :=
  match f.text with
  | none => .error (.missingFile f.path)
  | some text =>
    match Toml.parse text with
    | some v => .ok v.entries
    | none => .error (.badFile f.path)

/-- Read the paths of overrides. -/
def readOverrides : List (String × Value) → Except SettingsError (List (Path × Value))
  | [] => .ok []
  | (text, v) :: rest =>
    match Path.parse text with
    | .error fault => .error (.badPath fault)
    | .ok path => (readOverrides rest).map ((path, v) :: ·)

/-- Load settings.  The paths of the overrides are checked before the file is read. -/
def load (file : Option File) (overrides : List (String × Value)) :
    Except SettingsError Settings := do
  let overrides ← readOverrides overrides
  let fromFile ← match file with
    | none => pure []
    | some f => f.entries
  let layers := putFile fromFile (toValue {})
  ofValue (overrides.foldl (fun into (path, v) => path.put v into) layers)

end Settings

end TidyManifest
