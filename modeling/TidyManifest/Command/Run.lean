import TidyManifest.Command.Arguments
import TidyManifest.Command.Host
import TidyManifest.Format.Basic
import TidyManifest.Settings.Load
import TidyManifest.Source

/-!
# The command

The command reads a manifest, writes it in a format, and puts the result into a file or on standard
output.  It can also check whether the manifest is in its canonical form already, and list the
formats.

Settings are loaded first, then the manifest is read and parsed, then the format is looked up.  The
first of these that fails is reported.
-/

namespace TidyManifest.Command

/-- What the command leaves behind, files apart. -/
structure Report where
  exitCode : Nat := 0
  output : String := ""
  errors : String := ""
deriving DecidableEq

/-- The report of a failure. -/
def Report.failure (message : String) : Report :=
  { exitCode := 1, errors := "error: " ++ message ++ "\n" }

/-- Name and version. -/
def versionLine : String := "pupfmt 0.1.0\n"

/-- How the command is used. -/
def usage : String :=
  "A canonical formatter for Puppet-style manifests\n\n" ++
  "Usage: pupfmt [OPTIONS] [path]\n\n" ++
  "Options:\n" ++
  "  -o, --output <output>                    Write the result to this file\n" ++
  "  -f, --format <format>                    Output format\n" ++
  "  -c, --config <config>                    Settings file\n" ++
  "      --indent-width <indent-width>        Spaces per nesting level\n" ++
  "      --split-resources <split-resources>  render or splice\n" ++
  "      --check                              Exit with 1 if not formatted\n" ++
  "  -d, --debug                              Report decisions\n" ++
  "      --list-formats                       List available output formats\n" ++
  "  -h, --help                               Print help\n" ++
  "  -V, --version                            Print version\n"

/-- The list of formats with their descriptions. -/
def formatList (fs : Formats) : String :=
  let entry (name : String) : String :=
    "  " ++ name ++ "\n    " ++ ((fs.get? name).map (·.description)).getD "" ++ "\n"
  "Available formats:\n\n" ++ String.join (fs.names.map entry)

/-- The settings file of an invocation.  The ending `.toml` may be left out. -/
def readSettingsFile [Monad m] (host : Host m) (path : String) : m Settings.File := do
  if ← host.isKept path then
    return ⟨path, (← host.readFile path).toOption⟩
  else match withEnding? path ".toml" with
    | none => return ⟨path, none⟩
    | some other =>
      if ← host.isKept other then
        return ⟨path, (← host.readFile other).toOption⟩
      else return ⟨path, none⟩

/-- The overrides of an invocation. -/
def overrides (i : Invocation) : List (String × Value) :=
  (i.indentWidth.toList.map fun n => ("formatting.indent_width", .integer n)) ++
  (i.splitMode.toList.map fun mode => ("parsing.split_resources", .text (Settings.modeName mode)))

/-- The settings of an invocation. -/
def loadSettings [Monad m] (host : Host m) (i : Invocation) :
    m (Except SettingsError Settings) := do
  let file ← match i.config with
    | none => pure none
    | some path => some <$> readSettingsFile host path
  return Settings.load file (overrides i)

/-- The result of a manifest: its text in a format. -/
def convert (s : Settings) (format source : String) : Except String String :=
  match Source.parse source s with
  | .error e => .error e.message
  | .ok tree =>
    match (Formats.builtin s.layout).write tree format with
    | .error e => .error e.message
    | .ok text => .ok text

/-- Run an invocation. -/
def run [Monad m] (host : Host m) (i : Invocation) : m Report := do
  match ← loadSettings host i with
  | .error e => return .failure e.message
  | .ok settings =>
    if i.listFormats then
      return { output := formatList (.builtin settings.layout) }
    else
      let path := i.path.getD "-"
      match ← if path == "-" then host.readInput else host.readFile path with
      | .error e => return .failure e.message
      | .ok source =>
        match convert settings (i.format.getD "puppet") source with
        | .error message => return .failure message
        | .ok text =>
          if i.check then
            return { exitCode := if text == source then 0 else 1 }
          else match i.output with
            | none => return { output := text }
            | some path =>
              match ← host.writeFile path text with
              | .ok () => return {}
              | .error e => return .failure e.message

/-- Run a command line. -/
def runArguments [Monad m] (host : Host m) (args : List String) : m Report :=
  match parseArguments args with
  | .ok i => run host i
  | .error .version => return { output := versionLine }
  | .error .help => return { output := usage }
  | .error .misuse => return { exitCode := 2, errors := usage }

end TidyManifest.Command
