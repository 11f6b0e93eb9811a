import TidyManifest.Parse.Resource
import TidyManifest.Text.Basic

/-!
# Command line arguments

An option with a value is given as `--name value`, `--name=value`, `-n value` or `-nvalue`.  Short
flags can be written together.  After `--` everything is a path, and `-` is always one.  At most
one path may be given, and each option once.  A value that starts with `-` has to be attached to
its option, unless it is `-` alone.

Arguments are taken from left to right, and the first one that asks for the version or the help, or
that is wrong, decides.
-/

namespace TidyManifest.Command

/-- What the arguments ask for. -/
structure Invocation where
  /-- the manifest; none means standard input -/
  path : Option String := none
  /-- the file for the result; none means standard output -/
  output : Option String := none
  /-- the output format; none means the canonical layout -/
  format : Option String := none
  /-- the settings file -/
  config : Option String := none
  indentWidth : Option Int := none
  splitMode : Option SplitMode := none
  check : Bool := false
  debug : Bool := false
  listFormats : Bool := false
deriving DecidableEq

/-- Why arguments lead to no invocation. -/
inductive Stop where
  | version
  | help
  | misuse
deriving DecidableEq

/-- Options with a value. -/
inductive Setting where
  | output | format | config | indentWidth | splitMode
deriving DecidableEq

/-- Options without a value. -/
inductive Flag where
  | check | debug | listFormats | version | help
deriving DecidableEq

/-- An option of either sort. -/
inductive Switch where
  | setting (s : Setting)
  | flag (f : Flag)
deriving DecidableEq

/-- The options by their long names. -/
def longSwitches : List (String × Switch) :=
  [("output", .setting .output), ("format", .setting .format), ("config", .setting .config),
   ("indent-width", .setting .indentWidth), ("split-resources", .setting .splitMode),
   ("check", .flag .check), ("debug", .flag .debug), ("list-formats", .flag .listFormats),
   ("version", .flag .version), ("help", .flag .help)]

/-- The options by their short names. -/
def shortSwitches : List (Char × Switch) :=
  [('o', .setting .output), ('f', .setting .format), ('c', .setting .config),
   ('d', .flag .debug), ('V', .flag .version), ('h', .flag .help)]

/-- An integer of 64 bits in decimal digits, perhaps with a sign. -/
def integerOf? (s : String) : Option Int :=
  let (negative, digits) := match s.toList with
    | '-' :: rest => (true, rest)
    | '+' :: rest => (false, rest)
    | cs => (false, cs)
  match Text.natOfDigits? digits with
  | none => none
  | some n =>
    let value : Int := if negative then -n else n
    if Int64.minValue.toInt ≤ value && value ≤ Int64.maxValue.toInt then some value
    else none

/-- The split mode with exactly this name. -/
def splitModeOf? : String → Option SplitMode
  | "render" => some .render
  | "splice" => some .splice
  | _ => none

/-- Set something that is not set yet. -/
def setOnce (old : Option α) (new : Option α) : Except Stop (Option α) :=
  match old, new with
  | none, some a => .ok (some a)
  | _, _ => .error .misuse

namespace Invocation

/-- Take an option with its value. -/
def set (i : Invocation) (s : Setting) (value : String) : Except Stop Invocation :=
  match s with
  | .output => return { i with output := ← setOnce i.output (some value) }
  | .format => return { i with format := ← setOnce i.format (some value) }
  | .config => return { i with config := ← setOnce i.config (some value) }
  | .indentWidth => return { i with indentWidth := ← setOnce i.indentWidth (integerOf? value) }
  | .splitMode => return { i with splitMode := ← setOnce i.splitMode (splitModeOf? value) }

/-- Take an option without a value. -/
def raise (i : Invocation) (f : Flag) : Except Stop Invocation :=
  match f with
  | .check => if i.check then .error .misuse else .ok { i with check := true }
  | .debug => if i.debug then .error .misuse else .ok { i with debug := true }
  | .listFormats => if i.listFormats then .error .misuse else .ok { i with listFormats := true }
  | .version => .error .version
  | .help => .error .help

/-- Take a path. -/
def addPath (i : Invocation) (path : String) : Except Stop Invocation :=
  return { i with path := ← setOnce i.path (some path) }

/-- Take several paths. -/
def addPaths (i : Invocation) : List String → Except Stop Invocation
  | [] => .ok i
  | path :: rest => do (← i.addPath path).addPaths rest

end Invocation

/-- Whether an argument can only be an option. -/
def looksLikeOption (arg : String) : Bool :=
  match arg.toList with
  | '-' :: _ :: _ => true
  | _ => false

/-- What one argument does: it leads to a new invocation, or it is an option that waits for its
value. -/
inductive Effect where
  | done (i : Invocation)
  | waiting (i : Invocation) (s : Setting)

/-- Take a long option, without its dashes. -/
def takeLong (i : Invocation) (cs : List Char) : Except Stop Effect :=
  let name := String.ofList (cs.takeWhile (· != '='))
  let attached := match cs.dropWhile (· != '=') with
    | [] => none
    | _ :: value => some (String.ofList value)
  match longSwitches.lookup name, attached with
  | some (.setting s), some value => return .done (← i.set s value)
  | some (.setting s), none => return .waiting i s
  | some (.flag f), none => return .done (← i.raise f)
  | _, _ => .error .misuse

/-- Take short options, without their dash. -/
def takeShort (i : Invocation) : List Char → Except Stop Effect
  | [] => .ok (.done i)
  | c :: rest =>
    match shortSwitches.lookup c with
    | some (.flag f) => do takeShort (← i.raise f) rest
    | some (.setting s) =>
      match rest with
      | [] => .ok (.waiting i s)
      | '=' :: value => return .done (← i.set s (String.ofList value))
      | value => return .done (← i.set s (String.ofList value))
    | none => .error .misuse

/-- Take the arguments from left to right. -/
def takeAll (i : Invocation) : List String → Except Stop Invocation
  | [] => .ok i
  | arg :: rest =>
    if arg == "--" then i.addPaths rest
    else
      let effect := match arg.toList with
        | '-' :: '-' :: cs => takeLong i cs
        | '-' :: c :: cs => takeShort i (c :: cs)
        | _ => do return .done (← i.addPath arg)
      match effect with
      | .error stop => .error stop
      | .ok (.done i) => takeAll i rest
      | .ok (.waiting i s) =>
        match rest with
        | [] => .error .misuse
        | value :: rest =>
          if looksLikeOption value then .error .misuse
          else match i.set s value with
            | .error stop => .error stop
            | .ok i => takeAll i rest

/-- The invocation that a command line asks for. -/
def parseArguments (args : List String) : Except Stop Invocation :=
  takeAll {} args

end TidyManifest.Command
