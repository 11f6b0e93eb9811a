import TidyManifest.Token.Kind
import TidyManifest.Token.Pattern

/-!
# Lexical rules

The table `Kind.rules` gives the pattern of every kind that is recognised by its text alone.
Keywords share the pattern of names.  A block comment is listed by its opening `/*` and a regular
expression literal by its opening `/`, which is the division sign; the lexer finds where they end.
-/

namespace TidyManifest

open Pattern (one char literal sequence optional repeated star union concat)

/-- `A` to `Z`. -/
def isUpperLetter (c : Char) : Bool := 'A' ≤ c && c ≤ 'Z'

/-- `a` to `z`. -/
def isLowerLetter (c : Char) : Bool := 'a' ≤ c && c ≤ 'z'

/-- `0` to `9`. -/
def isDecimalDigit (c : Char) : Bool := '0' ≤ c && c ≤ '9'

/-- Digits and the letters up to `f`. -/
def isHexDigit (c : Char) : Bool :=
  isDecimalDigit c || ('a' ≤ c && c ≤ 'f') || ('A' ≤ c && c ≤ 'F')

/-- Letters, digits and the underscore. -/
def isWordChar (c : Char) : Bool :=
  isUpperLetter c || isLowerLetter c || isDecimalDigit c || c == '_'

namespace Pattern

/-- Segments that are joined, and may be preceded, by `::`. -/
def qualified (segment : Pattern) : Pattern :=
  sequence [optional (literal "::"), segment, star (sequence [literal "::", segment])]

/-- A name segment with its first character from a class. -/
def segment (first : Char → Bool) : Pattern :=
  sequence [char first, star (char isWordChar)]

/-- `0x` and hexadecimal digits. -/
def hexNumber : Pattern :=
  sequence [one '0', char (fun c => c == 'x' || c == 'X'), repeated (char isHexDigit)]

/-- Digits, perhaps a fraction, perhaps an exponent. -/
def decimalNumber : Pattern :=
  let digits := repeated (char isDecimalDigit)
  let sign := char fun c => c == '-' || c == '+'
  sequence
    [digits, optional (sequence [one '.', digits]),
     optional (sequence [char (fun c => c == 'e' || c == 'E'), optional sign, digits])]

/-- An opening quote and everything up to the place where a closing quote has to stand: characters
other than the quote and the backslash, and backslashes with the character they escape, which is
not a line feed. -/
def openText (quote : Char) : Pattern :=
  concat (one quote)
    (star (union (char fun c => c != quote && c != '\\')
      (concat (one '\\') (char fun c => c != '\n'))))

/-- A text between two quotes of one sort. -/
def quotedText (quote : Char) : Pattern :=
  concat (openText quote) (one quote)

end Pattern

namespace Kind

/-- The kinds whose text is fixed, with that text. -/
def spellings : List (Kind × String) :=
  [(leftBracket, "["), (rightBracket, "]"), (leftBrace, "\x7b"), (rightBrace, "\x7d"),
   (leftParen, "("), (rightParen, ")"), (comma, ","), (colon, ":"), (semicolon, ";"),
   (question, "?"), (atSign, "@"),
   (fatArrow, "=>"), (plusArrow, "+>"), (equals, "="), (isEqual, "=="), (notEqual, "!="),
   (greaterEqual, ">="), (greater, ">"), (less, "<"), (lessEqual, "<="), (isMatch, "=~"),
   (noMatch, "!~"), (plus, "+"), (minus, "-"), (times, "*"), (slash, "/"), (shiftLeft, "<<"),
   (shiftRight, ">>"), (bang, "!"), (plusEquals, "+="), (dot, "."),
   (edgeRight, "->"), (edgeLeft, "<-"), (notifyRight, "~>"), (notifyLeft, "<~"),
   (collectOpen, "<|"), (collectClose, "|>"), (exportedOpen, "<<|"), (exportedClose, "|>>"),
   (blockComment, "/*")]

/-- The kinds whose text varies, with the pattern of their texts. -/
def shapes : List (Kind × Pattern) :=
  [(name, .qualified (.segment fun c => isLowerLetter c || c == '_')),
   (classRef, .qualified (.segment isUpperLetter)),
   (dollarVar, .sequence [.one '$', .qualified (.repeated (.char isWordChar))]),
   (number, .union .hexNumber .decimalNumber),
   (singleQuoted, .quotedText '\''),
   (doubleQuoted, .quotedText '"'),
   (newline, .sequence [.optional (.one '\r'), .one '\n']),
   (comment, .concat (.one '#') (.star (.char fun c => c != '\r' && c != '\n'))),
   (blank, .repeated (.char fun c => c == ' ' || c == '\t' || c == '\r'))]

/-- All lexical rules. -/
def rules : List (Kind × Pattern) :=
  spellings.map (fun (kind, text) => (kind, .literal text)) ++ shapes

end Kind

end TidyManifest
