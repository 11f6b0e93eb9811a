/-!
# Files

The command works on any host that can read and write files.
-/

namespace TidyManifest.Command

/-- Why a file could not be read or written. -/
inductive FileError where
  | missing
  | notFolder
  | isFolder
  | longName
  | notText
  | other (message : String)
deriving DecidableEq

/-- The error for a reader. -/
def FileError.message : FileError → String
  | missing => "No such file or directory (os error 2)"
  | notFolder => "Not a directory (os error 20)"
  | isFolder => "Is a directory (os error 21)"
  | longName => "File name too long (os error 36)"
  | notText => "stream did not contain valid UTF-8"
  | other message => message

/-- What the command needs from its surroundings. -/
structure Host (m : Type → Type) where
  readInput : m (Except FileError String)
  /-- whether a path leads to a file that is kept, and not to a folder or a device -/
  isKept : String → m Bool
  readFile : String → m (Except FileError String)
  writeFile : String → String → m (Except FileError Unit)

/-- Bytes as text. -/
def textOfBytes (bytes : ByteArray) : Except FileError String :=
  match String.fromUTF8? bytes with
  | some text => .ok text
  | none => .error .notText

/-- A path with an ending after its last name; nothing if the path does not end in a name. -/
def withEnding? (path ending : String) : Option String :=
  let names := (path.splitOn "/").reverse.dropWhile fun s => s == "" || s == "."
  match names with
  | [] => none
  | last :: before =>
    if last == ".." then none
    else some ("/".intercalate ((last ++ ending) :: before).reverse)

end TidyManifest.Command
