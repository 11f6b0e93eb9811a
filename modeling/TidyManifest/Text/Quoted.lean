import TidyManifest.Text.Extending
import TidyManifest.Text.Unassigned

/-!
# Quoted text

A text between double quotes with the escapes `\"`, `\\`, `\n`, `\r`, `\t` and `\0`.  Any other
character that cannot be seen by itself is written as its code point in lower-case hexadecimal,
in braces after `\u`.  These are controls and format characters, separators other than the blank,
private and unassigned code points, fillers, and characters that extend the one before them.
-/

namespace TidyManifest.Text

/-- Controls, format characters, separators other than the blank, and private code points, as
inclusive ranges in ascending order. -/
def controlRanges : List (Nat × Nat) :=
  [(0x00, 0x1F), (0x7F, 0xA0), (0xAD, 0xAD), (0x600, 0x605), (0x61C, 0x61C), (0x6DD, 0x6DD),
   (0x70F, 0x70F), (0x890, 0x891), (0x8E2, 0x8E2), (0x1680, 0x1680), (0x180E, 0x180E),
   (0x2000, 0x200F), (0x2028, 0x202F), (0x205F, 0x2064), (0x2066, 0x206F), (0x3000, 0x3000),
   (0xE000, 0xF8FF), (0xFEFF, 0xFEFF), (0xFFF9, 0xFFFB), (0x110BD, 0x110BD),
   (0x110CD, 0x110CD), (0x13430, 0x1343F), (0x1BCA0, 0x1BCA3), (0x1D173, 0x1D17A),
   (0xE0001, 0xE0001), (0xE0020, 0xE007F), (0xF0000, 0xFFFFD), (0x100000, 0x10FFFD)]

/-- Letters that fill the place of a sound and are drawn as nothing. -/
def fillerRanges : List (Nat × Nat) :=
  [(0x115F, 0x1160), (0x3164, 0x3164), (0xFFA0, 0xFFA0)]

/-- The half-width sound marks extend the letter before them and still have a cell of their own. -/
def soundMarkRanges : List (Nat × Nat) :=
  [(0xFF9E, 0xFF9F)]

/-- Whether a character cannot be seen by itself. -/
def isUnseen (c : Char) : Bool :=
  inRanges controlRanges c.toNat || inRanges fillerRanges c.toNat ||
    (isExtending c && !inRanges soundMarkRanges c.toNat) || isUnassigned c

/-- Digits of a number in base sixteen, lower case. -/
def hexadecimal (n : Nat) : String :=
  String.ofList (Nat.toDigits 16 n)

/-- One character inside a quoted text. -/
def quotedChar (c : Char) : String :=
  if c == '"' then "\\\""
  else if c == '\\' then "\\\\"
  else if c == '\n' then "\\n"
  else if c == '\r' then "\\r"
  else if c == '\t' then "\\t"
  else if c.toNat == 0 then "\\0"
  else if isUnseen c then "\\u\x7b" ++ hexadecimal c.toNat ++ "\x7d"
  else c.toString

/-- The text between double quotes, with its escapes. -/
def quoted (text : String) : String :=
  "\"" ++ String.join (text.toList.map quotedChar) ++ "\""

end TidyManifest.Text
