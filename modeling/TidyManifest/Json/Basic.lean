import TidyManifest.Text.Quoted

/-!
# JSON documents

Values of the sorts that outputs need, and their two written forms: on one line without blanks,
and over several lines with an indentation of two.  Quotes, backslashes and the controls below
the blank are escaped, and nothing else.
-/

namespace TidyManifest

/-- A JSON value.  The fields of an object keep their order. -/
inductive Json where
  | text (value : String)
  | number (value : Int)
  | array (items : List Json)
  | object (fields : List (String × Json))

namespace Json

/-- A control character as four hexadecimal digits. -/
def escapedControl (c : Char) : String :=
  let digits := Text.hexadecimal c.toNat
  "\\u" ++ String.ofList (List.replicate (4 - digits.length) '0') ++ digits

/-- One character inside a string. -/
def escapedChar (c : Char) : String :=
  if c == '"' then "\\\""
  else if c == '\\' then "\\\\"
  else if c == '\n' then "\\n"
  else if c == '\r' then "\\r"
  else if c == '\t' then "\\t"
  else if c.toNat == 0x08 then "\\b"
  else if c.toNat == 0x0C then "\\f"
  else if c.toNat < 0x20 then escapedControl c
  else c.toString

/-- A string with its quotes. -/
def string (text : String) : String :=
  "\"" ++ String.join (text.toList.map escapedChar) ++ "\""

mutual

/-- The value on one line. -/
def compact : Json → String
  | text value => string value
  | number value => toString value
  | array items => "[" ++ ",".intercalate (compactItems items) ++ "]"
  | object fields => "\x7b" ++ ",".intercalate (compactFields fields) ++ "\x7d"

/-- The items of an array. -/
def compactItems : List Json → List String
  | [] => []
  | item :: rest => compact item :: compactItems rest

/-- The fields of an object. -/
def compactFields : List (String × Json) → List String
  | [] => []
  | (key, value) :: rest => (string key ++ ":" ++ compact value) :: compactFields rest

end

/-- Lines with commas between them, in brackets; the brackets stand together if there is no
line. -/
def bracketed (opening closing indentation : String) (lines : List String) : String :=
  if lines.isEmpty then opening ++ closing
  else
    opening ++ "\n" ++ ",\n".intercalate (lines.map fun line => indentation ++ "  " ++ line) ++
      "\n" ++ indentation ++ closing

mutual

/-- The value over several lines; lines after the first have the given indentation. -/
def prettyAt (indentation : String) : Json → String
  | text value => string value
  | number value => toString value
  | array items => bracketed "[" "]" indentation (prettyItems (indentation ++ "  ") items)
  | object fields =>
    bracketed "\x7b" "\x7d" indentation (prettyFields (indentation ++ "  ") fields)

/-- The items of an array. -/
def prettyItems (indentation : String) : List Json → List String
  | [] => []
  | item :: rest => prettyAt indentation item :: prettyItems indentation rest

/-- The fields of an object. -/
def prettyFields (indentation : String) : List (String × Json) → List String
  | [] => []
  | (key, value) :: rest =>
    (string key ++ ": " ++ prettyAt indentation value) :: prettyFields indentation rest

end

/-- The value over several lines. -/
def pretty (value : Json) : String :=
  prettyAt "" value

end Json

end TidyManifest
