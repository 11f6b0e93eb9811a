import TidyManifest.Settings.Toml.Numbers
import TidyManifest.Settings.Toml.Table

/-!
# Settings files

A settings file is written in TOML: comments, tables and lists of tables by their headers, keys
with dots in them, inline tables, lists, strings, numbers, truth values, dates and times.
-/

namespace TidyManifest.Settings.Toml

mutual

/-- A value.  `n` bounds the number of steps, and lists and inline tables may be nested `depth`
deep. -/
def readValue (depth : Nat) : Nat → Scan Value
  | 0, _ => none
  | n + 1, cs =>
    match cs with
    | '[' :: rest =>
      if depth == 0 then none
      else do
        let (items, rest) ← readItems (depth - 1) n rest
        return (.list items, rest)
    | '\x7b' :: rest =>
      if depth == 0 then none
      else
        match skipBlanks rest with
        | '\x7d' :: rest => some (.table [], rest)
        | rest => do
          let (es, rest) ← readInline (depth - 1) n [] rest
          return (.table (entryValues es), rest)
    | '"' :: _ => (readString cs).map fun (s, rest) => (.text s, rest)
    | '\'' :: _ => (readString cs).map fun (s, rest) => (.text s, rest)
    | _ => readWord cs

/-- The items of a list up to its bracket; a comma may follow the last one. -/
def readItems (depth : Nat) : Nat → Scan (List Value)
  | 0, _ => none
  | n + 1, cs => do
    match ← skipLines cs.length cs with
    | ']' :: rest => return ([], rest)
    | cs =>
      let (item, cs) ← readValue depth n cs
      match ← skipLines cs.length cs with
      | ']' :: rest => return ([item], rest)
      | ',' :: rest =>
        let (more, rest) ← readItems depth n rest
        return (item :: more, rest)
      | _ => none

/-- The entries of an inline table up to its brace. -/
def readInline (depth : Nat) : Nat → Entries → Scan Entries
  | 0, _, _ => none
  | n + 1, es, cs => do
    let (key, cs) ← readKey cs
    match cs with
    | '=' :: rest =>
      let (v, rest) ← readValue depth n (skipBlanks rest)
      let es ← assign v key es
      match skipBlanks rest with
      | '\x7d' :: rest => return (es, rest)
      | ',' :: rest => readInline depth n es rest
      | _ => none
    | _ => none

end

/-- A document so far: its entries, and the path of the table that is open. -/
structure Document where
  entries : Entries := []
  current : List String := []

/-- Read the rest of a header, where `closing` brackets end it. -/
def readHeader (closing : List Char) (openAt : List String → Entries → Option Entries)
    (d : Document) (cs : List Char) : Option (Document × List Char) := do
  let (path, rest) ← readKey cs
  if closing.isPrefixOf rest then
    return (⟨← openAt path d.entries, path⟩, ← endLine (rest.drop closing.length))
  else none

/-- Read one line, which may go on over several lines inside a list or a string. -/
def readLine (d : Document) (cs : List Char) : Option (Document × List Char) := do
  match skipBlanks cs with
  | '[' :: '[' :: rest => readHeader [']', ']'] addTable d rest
  | '[' :: rest => readHeader [']'] openTable d rest
  | [] => return (d, [])
  | '\n' :: _ => return (d, ← endLine cs)
  | '\r' :: _ => return (d, ← endLine cs)
  | '#' :: _ => return (d, ← endLine cs)
  | cs =>
    let (key, rest) ← readKey cs
    match rest with
    | '=' :: rest =>
      let (v, rest) ← readValue maxDepth (rest.length + 1) (skipBlanks rest)
      let entries ← changeAt (assign v key) d.current d.entries
      return ({ d with entries }, ← endLine rest)
    | _ => none

/-- Read at most `n` lines. -/
def readLines : Nat → Document → List Char → Option Document
  | _, d, [] => some d
  | 0, _, _ => none
  | n + 1, d, cs => do
    let (d, rest) ← readLine d cs
    readLines n d rest

/-- Read a settings file; a byte order mark at its start is ignored. -/
def parse (source : String) : Option Value :=
  let cs := match source.toList with
    | '\ufeff' :: rest => rest
    | cs => cs
  (readLines (cs.length + 1) {} cs).map fun d => .table (entryValues d.entries)

end TidyManifest.Settings.Toml
