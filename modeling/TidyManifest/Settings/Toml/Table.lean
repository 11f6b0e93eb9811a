import TidyManifest.Settings.Value

/-!
# Tables of a settings file

A key is set once.  A table is opened by its header once; a header may also open a table that only
served to reach another one.  Keys with dots extend the tables that such keys made, and inline
tables are closed.  A header in double brackets adds a table to a list of tables, and a path that
leads through such a list goes on in its last table.
-/

namespace TidyManifest.Settings.Toml

/-- How a table came to be. -/
inductive Origin where
  /-- opened by its own header -/
  | header
  /-- on the way to a table with a header -/
  | implied
  /-- on the way to a key with dots -/
  | dotted
deriving DecidableEq

/-- An entry of a document. -/
inductive Entry where
  | value (value : Value)
  | table (origin : Origin) (entries : List (String × Entry))
  /-- the tables that a header in double brackets made, the last one first -/
  | tables (last : List (String × Entry)) (earlier : List (List (String × Entry)))

/-- The entries of a table. -/
abbrev Entries := List (String × Entry)

/-- Set one entry, in place of an earlier one with the same key. -/
def setEntry (key : String) (e : Entry) : Entries → Entries
  | [] => [(key, e)]
  | (k, old) :: rest => if k == key then (k, e) :: rest else (k, old) :: setEntry key e rest

mutual

/-- The value that an entry stands for. -/
def Entry.toValue : Entry → Value
  | .value v => v
  | .table _ es => .table (entryValues es)
  | .tables last earlier => .list ((Value.table (entryValues last) :: tableValues earlier).reverse)

/-- The values that entries stand for. -/
def entryValues : List (String × Entry) → List (String × Value)
  | [] => []
  | (key, e) :: rest => (key, e.toValue) :: entryValues rest

/-- The values that tables stand for. -/
def tableValues : List (List (String × Entry)) → List Value
  | [] => []
  | es :: rest => .table (entryValues es) :: tableValues rest

end

/-- Set a key with dots. -/
def assign (v : Value) : List String → Entries → Option Entries
  | [], _ => none
  | [key], es =>
    match es.lookup key with
    | some _ => none
    | none => some (es ++ [(key, .value v)])
  | key :: next :: rest, es =>
    match es.lookup key with
    | none => (assign v (next :: rest) []).map fun sub => es ++ [(key, .table .dotted sub)]
    | some (.value _) => none
    | some (.table origin sub) =>
      if origin == .header || (rest.isEmpty && origin != .dotted) then none
      else (assign v (next :: rest) sub).map fun sub => setEntry key (.table origin sub) es
    | some (.tables last earlier) =>
      if rest.isEmpty then none
      else (assign v (next :: rest) last).map fun last => setEntry key (.tables last earlier) es

/-- Change the last entry of a path, where tables on the way are made if they are missing. -/
def reach (change : Option Entry → Option Entry) : List String → Entries → Option Entries
  | [], _ => none
  | [key], es => (change (es.lookup key)).map fun e => setEntry key e es
  | key :: rest, es =>
    match es.lookup key with
    | none => (reach change rest []).map fun sub => es ++ [(key, .table .implied sub)]
    | some (.value _) => none
    | some (.table origin sub) =>
      (reach change rest sub).map fun sub => setEntry key (.table origin sub) es
    | some (.tables last earlier) =>
      (reach change rest last).map fun last => setEntry key (.tables last earlier) es

/-- Open a table by its header. -/
def openTable : List String → Entries → Option Entries :=
  reach fun
    | none => some (.table .header [])
    | some (.table .implied sub) => some (.table .header sub)
    | some _ => none

/-- Add a table to a list of tables by its header. -/
def addTable : List String → Entries → Option Entries :=
  reach fun
    | none => some (.tables [] [])
    | some (.tables last earlier) => some (.tables [] (last :: earlier))
    | some _ => none

/-- Change the entries of the table at a path. -/
def changeAt (change : Entries → Option Entries) : List String → Entries → Option Entries
  | [], es => change es
  | key :: rest, es =>
    match es.lookup key with
    | some (.table origin sub) =>
      (changeAt change rest sub).map fun sub => setEntry key (.table origin sub) es
    | some (.tables last earlier) =>
      (changeAt change rest last).map fun last => setEntry key (.tables last earlier) es
    | _ => none

end TidyManifest.Settings.Toml
