import TidyManifest.Layout.Render
import TidyManifest.Outline.Document
import TidyManifest.Outline.Drawing

/-!
# Output formats

A format writes a tree as text.  The collection of formats is looked up by name, and a format
replaces an earlier one of the same name.
-/

namespace TidyManifest

/-- Why a tree was not written. -/
inductive FormatError where
  /-- no format has this name -/
  | unknown (name : String)
  /-- the format could not write the tree -/
  | failed (reason : String)
deriving DecidableEq

/-- The error for a reader. -/
def FormatError.message : FormatError → String
  | unknown name => "Format '" ++ name ++ "' not found"
  | failed reason => "Serialization error: " ++ reason

/-- A way to write a tree. -/
structure Format where
  name : String
  description : String
  write : Tree → Except FormatError String

namespace Format

/-- The canonical layout. -/
def puppet (o : Layout.Options) : Format :=
  ⟨"puppet", "Canonically formatted manifest source", fun t => .ok (Layout.render t o)⟩

/-- The outline as a JSON document. -/
def json : Format :=
  ⟨"json", "Tree snapshot as pretty-printed JSON", fun t => .ok (Outline.ofTree t).toJson.pretty⟩

/-- The outline as a drawing. -/
def treeviz : Format :=
  ⟨"treeviz", "One line per node, drawn as a tree", fun t => .ok (Outline.ofTree t).draw⟩

end Format

/-- Formats, looked up by name. -/
structure Formats where
  entries : List Format := []

namespace Formats

/-- Add a format, in place of one with the same name. -/
def register (fs : Formats) (f : Format) : Formats :=
  ⟨f :: fs.entries.filter fun other => other.name != f.name⟩

/-- The format with a given name. -/
def get? (fs : Formats) (name : String) : Option Format :=
  fs.entries.find? fun f => f.name == name

/-- All names, in order. -/
def names (fs : Formats) : List String :=
  (fs.entries.map (·.name)).mergeSort fun a b => decide (a ≤ b)

/-- Write a tree in the format with a given name. -/
def write (fs : Formats) (t : Tree) (name : String) : Except FormatError String :=
  match fs.get? name with
  | some f => f.write t
  | none => .error (.unknown name)

/-- The formats that are always there. -/
def builtin (o : Layout.Options) : Formats :=
  (({} : Formats).register (.puppet o)).register .json |>.register .treeviz

end Formats

end TidyManifest
