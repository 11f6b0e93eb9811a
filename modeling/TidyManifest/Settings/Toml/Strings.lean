/-!
# Blanks, comments, strings and keys of a settings file

A string stands between one or three quotes of either sort.  Between single quotes every character
stands for itself; between double quotes a backslash starts an escape.  Three quotes allow line
ends inside: one directly after the opening quotes is dropped, and between double quotes a
backslash at the end of a line drops everything up to the next character that is not blank.
-/

namespace TidyManifest.Settings.Toml

/-- What a reader gives: a result and the rest of the text. -/
abbrev Scan (α : Type) := List Char → Option (α × List Char)

/-- Blanks and tabs. -/
def isBlank (c : Char) : Bool := c == ' ' || c == '\t'

/-- The text without blanks at its start. -/
def skipBlanks (cs : List Char) : List Char := cs.dropWhile isBlank

/-- Characters that may not stand in a comment or a string. -/
def isControl (c : Char) : Bool := (c.toNat < 0x20 && c != '\t') || c.toNat == 0x7F

/-- Characters of a key without quotes. -/
def isKeyChar (c : Char) : Bool := c.isAlphanum || c == '_' || c == '-'

/-- The text after a line end, if one stands here. -/
def lineEnd? : List Char → Option (List Char)
  | '\n' :: rest => some rest
  | '\r' :: '\n' :: rest => some rest
  | _ => none

/-- The text after a comment, if one starts here. -/
def skipComment : List Char → Option (List Char)
  | '#' :: cs =>
    let rest := cs.dropWhile fun c => !isControl c
    if rest.isEmpty || (lineEnd? rest).isSome then some rest else none
  | cs => some cs

/-- The text after the end of the line, which blanks and a comment may precede. -/
def endLine (cs : List Char) : Option (List Char) := do
  let rest ← skipComment (skipBlanks cs)
  if rest.isEmpty then some [] else lineEnd? rest

/-- Skip blanks, line ends and comments, at most `n` of them. -/
def skipLines : Nat → List Char → Option (List Char)
  | 0, cs => some cs
  | n + 1, cs =>
    let cs := skipBlanks cs
    match lineEnd? cs with
    | some rest => skipLines n rest
    | none =>
      match cs with
      | '#' :: rest => do skipLines n (← skipComment ('#' :: rest))
      | rest => some rest

/-- The value of a hexadecimal digit. -/
def hexValue? (c : Char) : Option Nat :=
  if c.isDigit then some (c.toNat - '0'.toNat)
  else if 'a' ≤ c && c ≤ 'f' then some (c.toNat - 'a'.toNat + 10)
  else if 'A' ≤ c && c ≤ 'F' then some (c.toNat - 'A'.toNat + 10)
  else none

/-- A character by its code in exactly `n` hexadecimal digits. -/
def readCode (n : Nat) (cs : List Char) : Option (Char × List Char) := do
  let digits := cs.take n
  if digits.length != n then none
  else
    let values ← digits.mapM hexValue?
    let code := values.foldl (fun code v => 16 * code + v) 0
    if code.isValidChar then some (Char.ofNat code, cs.drop n) else none

/-- The character that an escape stands for. -/
def readEscape : Scan Char
  | 'b' :: cs => some (Char.ofNat 0x08, cs)
  | 't' :: cs => some ('\t', cs)
  | 'n' :: cs => some ('\n', cs)
  | 'f' :: cs => some (Char.ofNat 0x0C, cs)
  | 'r' :: cs => some ('\r', cs)
  | '"' :: cs => some ('"', cs)
  | '\\' :: cs => some ('\\', cs)
  | 'u' :: cs => readCode 4 cs
  | 'U' :: cs => readCode 8 cs
  | _ => none

/-- The rest of a string between double quotes, of at most `n` characters. -/
def readBasic : Nat → Scan (List Char)
  | 0, _ => none
  | _, [] => none
  | _ + 1, '"' :: cs => some ([], cs)
  | n + 1, '\\' :: cs => do
    let (c, cs) ← readEscape cs
    let (more, cs) ← readBasic n cs
    return (c :: more, cs)
  | n + 1, c :: cs =>
    if isControl c then none
    else do
      let (more, cs) ← readBasic n cs
      return (c :: more, cs)

/-- The rest of a string between single quotes. -/
def readLiteral (cs : List Char) : Option (List Char × List Char) :=
  let body := cs.takeWhile fun c => c != '\'' && !isControl c
  match cs.drop body.length with
  | '\'' :: rest => some (body, rest)
  | _ => none

/-- The text after a backslash at the end of a line, up to the next character that is not blank;
nothing if no line ends here. -/
def joinLines? (cs : List Char) : Option (List Char) :=
  (lineEnd? (skipBlanks cs)).map fun rest => skipEmpty rest.length rest
where
  /-- Skip blanks and line ends, at most `n` of them. -/
  skipEmpty : Nat → List Char → List Char
    | 0, cs => cs
    | n + 1, cs =>
      match lineEnd? (skipBlanks cs) with
      | some rest => skipEmpty n rest
      | none => skipBlanks cs

/-- The rest of a string between three quotes, of at most `n` characters.  Up to two quotes stand
for themselves, also directly before the closing ones. -/
def readLong (quote : Char) (escapes : Bool) : Nat → Scan (List Char)
  | 0, _ => none
  | _, [] => none
  | n + 1, c :: cs =>
    let quotes := ((c :: cs).takeWhile (· == quote)).length
    if 3 ≤ quotes then
      let inside := min (quotes - 3) 2
      some (List.replicate inside quote, (c :: cs).drop (inside + 3))
    else if escapes && c == '\\' then
      match joinLines? cs with
      | some rest => readLong quote escapes n rest
      | none => do
        let (c, cs) ← readEscape cs
        let (more, cs) ← readLong quote escapes n cs
        return (c :: more, cs)
    else
      match lineEnd? (c :: cs) with
      | some rest => do
        let (more, cs) ← readLong quote escapes n rest
        return ('\n' :: more, cs)
      | none =>
        if isControl c then none
        else do
          let (more, cs) ← readLong quote escapes n cs
          return (c :: more, cs)

/-- The text without a line end at its start. -/
def dropLineEnd (cs : List Char) : List Char :=
  (lineEnd? cs).getD cs

/-- A string on one line, of either sort. -/
def readShortString : Scan String
  | '"' :: cs => (readBasic (cs.length + 1) cs).map fun (body, rest) => (String.ofList body, rest)
  | '\'' :: cs => (readLiteral cs).map fun (body, rest) => (String.ofList body, rest)
  | _ => none

/-- A string of any sort. -/
def readString (cs : List Char) : Option (String × List Char) :=
  match cs with
  | '"' :: '"' :: '"' :: rest =>
    (readLong '"' true (rest.length + 1) (dropLineEnd rest)).map fun (body, rest) =>
      (String.ofList body, rest)
  | '\'' :: '\'' :: '\'' :: rest =>
    (readLong '\'' false (rest.length + 1) (dropLineEnd rest)).map fun (body, rest) =>
      (String.ofList body, rest)
  | _ => readShortString cs

/-- One part of a key. -/
def readKeyPart (cs : List Char) : Option (String × List Char) :=
  let bare := cs.takeWhile isKeyChar
  if bare.isEmpty then readShortString cs else some (String.ofList bare, cs.drop bare.length)

/-- A key of at most `n` parts. -/
def readParts : Nat → Scan (List String)
  | 0, _ => none
  | n + 1, cs => do
    let (part, cs) ← readKeyPart (skipBlanks cs)
    match skipBlanks cs with
    | '.' :: rest =>
      let (more, rest) ← readParts n rest
      return (part :: more, rest)
    | rest => return ([part], rest)

/-- How deep keys and values may be nested. -/
def maxDepth : Nat := 79

/-- A key. -/
def readKey : Scan (List String) :=
  readParts maxDepth

end TidyManifest.Settings.Toml
