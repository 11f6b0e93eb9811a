import TidyManifest.Command.Host

/-!
# A folder as a host

A folder holds files and stands somewhere in a system that is empty otherwise, apart from the usual
folders at its root and from four devices.  A place is given by the names on the way to it from the
root.

A path is walked step by step, and every step needs a folder to start from: a dot stays there, two
dots go to the folder around it, which for the root is the root itself, and a name goes to what the
folder holds under it.  A path that ends in a slash has to lead to a folder.  What is written
outside the folder is not kept.
-/

namespace TidyManifest.Command

/-- Files that nothing is kept in. -/
inductive Device where
  /-- empty, and drops what is written -/
  | null
  | input
  | output
  | errors
deriving DecidableEq

/-- What is found at a place. -/
inductive Thing where
  | nothing
  | folder
  | file (text : String)
  | device (d : Device)
deriving DecidableEq

/-- A folder of files. -/
structure Folder where
  /-- the word that stands for the folder in paths -/
  label : String
  /-- the place of the folder -/
  location : List String := ["tmp", label]
  /-- the place where paths start that do not start at the root -/
  start : List String := ["home", "work"]
  /-- the files with their paths below the folder -/
  files : List (String × String)
  /-- standard input -/
  input : Except FileError String
  /-- what was written to the device for standard output -/
  output : String := ""
  /-- what was written to the device for error messages -/
  errors : String := ""

namespace Folder

/-- The folders at the root. -/
def rootFolders : List String :=
  ["bin", "boot", "dev", "etc", "home", "lib", "media", "mnt", "opt", "proc", "root", "run", "sbin",
   "srv", "sys", "tmp", "usr", "var"]

/-- The devices with their places. -/
def devices : List (List String × Device) :=
  [(["dev", "null"], .null), (["dev", "stdin"], .input), (["dev", "stdout"], .output),
   (["dev", "stderr"], .errors)]

/-- How many bytes a name can have. -/
def maxName : Nat := 255

/-- How many bytes a path can have. -/
def maxPath : Nat := 4095

/-- The steps of a path, without empty ones. -/
def steps (path : String) : List String :=
  (path.splitOn "/").filter (· != "")

/-- The places of the files. -/
def filePlaces (f : Folder) : List (List String × String) :=
  f.files.map fun (name, text) => (f.location ++ steps name, text)

/-- The places that are known to be folders, and so are all places on the way to them. -/
def knownFolders (f : Folder) : List (List String) :=
  f.location :: f.start :: rootFolders.map ([·]) ++ f.filePlaces.map (·.1.dropLast)

/-- What is found at a place. -/
def look (f : Folder) (place : List String) : Thing :=
  match f.filePlaces.lookup place with
  | some text => .file text
  | none =>
    match devices.lookup place with
    | some d => .device d
    | none => if f.knownFolders.any place.isPrefixOf then .folder else .nothing

/-- Go on by one step. -/
def step (f : Folder) (place : List String) (s : String) : Except FileError (List String) :=
  match f.look place with
  | .nothing => .error .missing
  | .folder =>
    if s == "." then .ok place
    else if s == ".." then .ok place.dropLast
    else if maxName < s.utf8ByteSize then .error .longName
    else .ok (place ++ [s])
  | _ => .error .notFolder

/-- A path with the folder in place of its label. -/
def expand (f : Folder) (path : String) : String :=
  path.replace f.label ("/" ++ "/".intercalate f.location)

/-- The place that a path leads to. -/
def walk (f : Folder) (path : String) : Except FileError (List String) :=
  let path := f.expand path
  if path == "" then .error .missing
  else if maxPath < path.utf8ByteSize then .error .longName
  else (steps path).foldlM f.step (if path.startsWith "/" then [] else f.start)

/-- What a path leads to. -/
def find (f : Folder) (path : String) : Except FileError Thing := do
  let place ← f.walk path
  if path.endsWith "/" then
    return f.look (← f.step place ".")
  else return f.look place

/-- Read a file. -/
def read (f : Folder) (path : String) : Except FileError String := do
  match ← f.find path with
  | .nothing => .error .missing
  | .folder => .error .isFolder
  | .file text => .ok text
  | .device .input => f.input
  | .device _ => .ok ""

/-- Put a file at a place; nothing is kept outside the folder. -/
def put (f : Folder) (place : List String) (text : String) : Folder :=
  if (f.filePlaces.lookup place).isSome then
    { f with
      files := f.files.map fun (name, old) =>
        (name, if f.location ++ steps name == place then text else old) }
  else if f.location.isPrefixOf place then
    { f with files := f.files ++ [("/".intercalate (place.drop f.location.length), text)] }
  else f

/-- Write a file.  A path that ends in a slash never leads to one. -/
def write (f : Folder) (path text : String) : Except FileError Folder := do
  let place ← f.walk path
  if path.endsWith "/" then .error .isFolder
  else match f.look place with
    | .folder => .error .isFolder
    | .device .output => return { f with output := f.output ++ text }
    | .device .errors => return { f with errors := f.errors ++ text }
    | .device _ => return f
    | _ => return f.put place text

/-- Whether a path leads to a file that is kept. -/
def isKept (f : Folder) (path : String) : Bool :=
  match f.find path with
  | .ok (.file _) => true
  | _ => false

/-- The folder as a host. -/
def host : Host (StateM Folder) where
  readInput := do return (← get).input
  isKept path := do return (← get).isKept path
  readFile path := do return (← get).read path
  writeFile path text := do
    match (← get).write path text with
    | .ok f =>
      set f
      return .ok ()
    | .error e => return .error e

end Folder

end TidyManifest.Command
