import TidyManifest.Settings.Toml.Strings
import TidyManifest.Settings.Value

/-!
# Numbers, dates and truth values of a settings file

Integers have 64 bits.  A number with a fraction or an exponent becomes the nearest binary
fraction of 64 bits; one that is too large for that is refused, unless it is negative.  Single
underscores may stand between digits.  Dates and times are kept as they are written.
-/

namespace TidyManifest.Settings.Toml

/-- Digits with single underscores between them: the digits, and the rest of the text. -/
def readDigits (isDigit : Char → Bool) : List Char → List Char × List Char
  | [] => ([], [])
  | '_' :: c :: cs =>
    if isDigit c then
      let (more, rest) := readDigits isDigit cs
      (c :: more, rest)
    else ([], '_' :: c :: cs)
  | c :: cs =>
    if isDigit c then
      let (more, rest) := readDigits isDigit cs
      (c :: more, rest)
    else ([], c :: cs)

/-- At least one digit, and no underscore before the first one. -/
def readSomeDigits (isDigit : Char → Bool) (cs : List Char) : Option (List Char × List Char) :=
  match cs with
  | c :: _ => if isDigit c then some (readDigits isDigit cs) else none
  | [] => none

/-- The number that digits of a base stand for. -/
def valueOf (base : Nat) (digits : List Char) : Nat :=
  digits.foldl (fun n c => base * n + (hexValue? c).getD 0) 0

/-- An integer of 64 bits. -/
def integer? (n : Int) : Option Value :=
  if Int64.minValue.toInt ≤ n && n ≤ Int64.maxValue.toInt then some (.integer n) else none

/-- Digits of a base. -/
def isDigitOf (base : Nat) (c : Char) : Bool :=
  match hexValue? c with
  | some v => v < base
  | none => false

/-- The base that a letter after a zero stands for. -/
def base? : Char → Option Nat
  | 'x' => some 16
  | 'o' => some 8
  | 'b' => some 2
  | _ => none

/-- The nearest binary fraction to `mantissa * 10 ^ exponent`, or infinity. -/
def nearest (mantissa : Nat) (exponent : Int) : Float :=
  let magnitude : Int := (toString mantissa).length + exponent
  if mantissa == 0 || magnitude < -400 then 0.0
  else if 400 < magnitude then 1.0 / 0.0
  else Float.ofScientific mantissa (exponent < 0) exponent.natAbs

/-- A number with a fraction or an exponent; nothing if it is too large. -/
def decimal? (negative : Bool) (mantissa : Nat) (exponent : Int) : Option Value :=
  let value := nearest mantissa exponent
  if negative then some (.decimal (-value))
  else if value == 1.0 / 0.0 then none
  else some (.decimal value)

/-- Digits without a superfluous zero in front. -/
def readWhole : Scan (List Char)
  | '0' :: cs => some (['0'], cs)
  | cs => readSomeDigits Char.isDigit cs

/-- A sign, if there is one: whether it is a minus. -/
def readSign : List Char → Bool × List Char
  | '-' :: cs => (true, cs)
  | '+' :: cs => (false, cs)
  | cs => (false, cs)

/-- The digits after a point, if there are any. -/
def readFraction (cs : List Char) : Option (List Char × List Char) :=
  match cs with
  | '.' :: rest => readSomeDigits Char.isDigit rest
  | _ => none

/-- An exponent, if there is one. -/
def readExponent (cs : List Char) : Option (Int × List Char) :=
  match cs with
  | c :: rest =>
    if c == 'e' || c == 'E' then do
      let (negative, rest) := readSign rest
      let (digits, rest) ← readSomeDigits Char.isDigit rest
      let n : Int := valueOf 10 digits
      return (if negative then -n else n, rest)
    else none
  | [] => none

/-- Infinity, or the value that is no number. -/
def readSpecial (negative : Bool) : Scan Value
  | 'i' :: 'n' :: 'f' :: cs => some (.decimal (if negative then -(1.0 / 0.0) else 1.0 / 0.0), cs)
  | 'n' :: 'a' :: 'n' :: cs => some (.decimal (0.0 / 0.0), cs)
  | _ => none

/-- A number of base ten. -/
def readDecimal (cs : List Char) : Option (Value × List Char) :=
  let (negative, cs) := readSign cs
  match readWhole cs with
  | none => readSpecial negative cs
  | some (whole, cs) =>
    let (fraction, cs) := match readFraction cs with
      | some (digits, rest) => (some digits, rest)
      | none => (none, cs)
    let (exponent, cs) := match readExponent cs with
      | some (n, rest) => (some n, rest)
      | none => (none, cs)
    if fraction.isNone && exponent.isNone then
      let n : Int := valueOf 10 whole
      (integer? (if negative then -n else n)).map (·, cs)
    else
      let places := fraction.getD []
      (decimal? negative (valueOf 10 (whole ++ places))
        (exponent.getD 0 - (places.length : Int))).map (·, cs)

/-- A number.  After a zero, a letter can name another base. -/
def readNumber (cs : List Char) : Option (Value × List Char) :=
  match cs with
  | '0' :: c :: rest =>
    match base? c with
    | some base => do
      let (digits, rest) ← readSomeDigits (isDigitOf base) rest
      return (← integer? (valueOf base digits), rest)
    | none => readDecimal cs
  | _ => readDecimal cs

/-- Exactly `n` digits that stand for a number from `low` to `high`. -/
def readField (n low high : Nat) (cs : List Char) : Option (Nat × List Char) :=
  let digits := cs.take n
  let value := valueOf 10 digits
  if digits.length == n && digits.all Char.isDigit && low ≤ value && value ≤ high then
    some (value, cs.drop n)
  else none

/-- The text after a character that has to stand here. -/
def expect (c : Char) (cs : List Char) : Option (List Char) :=
  match cs with
  | d :: rest => if d == c then some rest else none
  | [] => none

/-- How many days a month has. -/
def daysOf (year month : Nat) : Nat :=
  if month == 2 then
    if year % 4 == 0 && (year % 100 != 0 || year % 400 == 0) then 29 else 28
  else if [4, 6, 9, 11].contains month then 30
  else 31

/-- The text after a date. -/
def skipDate (cs : List Char) : Option (List Char) := do
  let (year, cs) ← readField 4 0 9999 cs
  let (month, cs) ← readField 2 1 12 (← expect '-' cs)
  let (_, cs) ← readField 2 1 (daysOf year month) (← expect '-' cs)
  return cs

/-- The text after a time of day.  A minute may have a leap second. -/
def skipTime (cs : List Char) : Option (List Char) := do
  let (_, cs) ← readField 2 0 23 cs
  let (_, cs) ← readField 2 0 59 (← expect ':' cs)
  let (_, cs) ← readField 2 0 60 (← expect ':' cs)
  match cs with
  | '.' :: rest =>
    let digits := rest.takeWhile Char.isDigit
    return if digits.isEmpty then cs else rest.drop digits.length
  | _ => return cs

/-- The text after the distance from universal time, if it is given. -/
def skipOffset (cs : List Char) : Option (List Char) :=
  match cs with
  | 'Z' :: rest => some rest
  | 'z' :: rest => some rest
  | c :: rest =>
    if c == '+' || c == '-' then do
      let (_, rest) ← readField 2 0 23 rest
      let (_, rest) ← readField 2 0 59 (← expect ':' rest)
      return rest
    else some cs
  | [] => some []

/-- The text after a time that follows a date, if there is one. -/
def skipTimeOfDate (cs : List Char) : Option (List Char) :=
  match cs with
  | c :: rest =>
    if c == 'T' || c == 't' || c == ' ' then
      match skipTime rest with
      | some rest => skipOffset rest
      | none => some cs
    else some cs
  | [] => some []

/-- A date, a time, or both. -/
def readDate (cs : List Char) : Option (Value × List Char) := do
  let rest ← match skipDate cs with
    | some rest => skipTimeOfDate rest
    | none => skipTime cs
  return (.text (String.ofList (cs.take (cs.length - rest.length))), rest)

/-- A truth value, a date or a number. -/
def readWord (cs : List Char) : Option (Value × List Char) :=
  match cs with
  | 't' :: 'r' :: 'u' :: 'e' :: rest => some (.truth true, rest)
  | 'f' :: 'a' :: 'l' :: 's' :: 'e' :: rest => some (.truth false, rest)
  | _ =>
    match readDate cs with
    | some result => some result
    | none => readNumber cs

end TidyManifest.Settings.Toml
