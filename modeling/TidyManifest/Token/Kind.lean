/-!
# Kinds of token

Every token has one of these kinds.  Keywords are names with a fixed spelling, and a regular
expression literal starts with the same character as the division sign; the lexer decides both.

Each kind has a name in capitals, by which outputs call it.
-/

namespace TidyManifest

/-- The kinds of token of a manifest. -/
inductive Kind where
  -- brackets and separators
  | leftBracket | rightBracket | leftBrace | rightBrace | leftParen | rightParen
  | comma | colon | semicolon | question | atSign
  -- operators
  | fatArrow | plusArrow | equals | isEqual | notEqual | greaterEqual | greater | less | lessEqual
  | isMatch | noMatch | plus | minus | times | slash | shiftLeft | shiftRight | bang | plusEquals
  | dot
  -- edges of a dependency chain
  | edgeRight | edgeLeft | notifyRight | notifyLeft
  -- collector brackets
  | collectOpen | collectClose | exportedOpen | exportedClose
  -- values
  | name | classRef | dollarVar | number | singleQuoted | doubleQuoted | regex
  -- newlines, comments and blanks
  | newline | comment | blockComment | blank
  -- keywords
  | kwCase | kwClass | kwDefault | kwDefine | kwImport | kwIf | kwElsif | kwElse | kwInherits
  | kwNode | kwAnd | kwOr | kwUndef | kwFalse | kwTrue | kwIn | kwInclude
deriving DecidableEq, Inhabited

namespace Kind

/-- All kinds, in the order of their declaration. -/
def all : List Kind :=
  [leftBracket, rightBracket, leftBrace, rightBrace, leftParen, rightParen,
   comma, colon, semicolon, question, atSign,
   fatArrow, plusArrow, equals, isEqual, notEqual, greaterEqual, greater, less, lessEqual,
   isMatch, noMatch, plus, minus, times, slash, shiftLeft, shiftRight, bang, plusEquals,
   dot,
   edgeRight, edgeLeft, notifyRight, notifyLeft,
   collectOpen, collectClose, exportedOpen, exportedClose,
   name, classRef, dollarVar, number, singleQuoted, doubleQuoted, regex,
   newline, comment, blockComment, blank,
   kwCase, kwClass, kwDefault, kwDefine, kwImport, kwIf, kwElsif, kwElse, kwInherits,
   kwNode, kwAnd, kwOr, kwUndef, kwFalse, kwTrue, kwIn, kwInclude]

/-- The name of a kind in outputs. -/
def label : Kind → String
  | leftBracket => "LBRACK"
  | rightBracket => "RBRACK"
  | leftBrace => "LBRACE"
  | rightBrace => "RBRACE"
  | leftParen => "LPAREN"
  | rightParen => "RPAREN"
  | comma => "COMMA"
  | colon => "COLON"
  | semicolon => "SEMIC"
  | question => "QMARK"
  | atSign => "AT"
  | fatArrow => "FARROW"
  | plusArrow => "PARROW"
  | equals => "EQUALS"
  | isEqual => "ISEQUAL"
  | notEqual => "NOTEQUAL"
  | greaterEqual => "GREATEREQUAL"
  | greater => "GREATERTHAN"
  | less => "LESSTHAN"
  | lessEqual => "LESSEQUAL"
  | isMatch => "MATCH"
  | noMatch => "NOMATCH"
  | plus => "PLUS"
  | minus => "MINUS"
  | times => "TIMES"
  | slash => "DIV"
  | shiftLeft => "LSHIFT"
  | shiftRight => "RSHIFT"
  | bang => "NOT"
  | plusEquals => "APPENDS"
  | dot => "DOT"
  | edgeRight => "IN_EDGE"
  | edgeLeft => "OUT_EDGE"
  | notifyRight => "IN_EDGE_SUB"
  | notifyLeft => "OUT_EDGE_SUB"
  | collectOpen => "LCOLLECT"
  | collectClose => "RCOLLECT"
  | exportedOpen => "LLCOLLECT"
  | exportedClose => "RRCOLLECT"
  | name => "NAME"
  | classRef => "CLASSREF"
  | dollarVar => "DOLLAR_VAR"
  | number => "NUMBER"
  | singleQuoted => "SQUOTES"
  | doubleQuoted => "DQUOTES"
  | regex => "REGEX"
  | newline => "RETURN"
  | comment => "COMMENT"
  | blockComment => "MLCOMMENT"
  | blank => "WHITESPACE"
  | kwCase => "CASE"
  | kwClass => "CLASS"
  | kwDefault => "DEFAULT"
  | kwDefine => "DEFINE"
  | kwImport => "IMPORT"
  | kwIf => "IF"
  | kwElsif => "ELSIF"
  | kwElse => "ELSE"
  | kwInherits => "INHERITS"
  | kwNode => "NODE"
  | kwAnd => "AND"
  | kwOr => "OR"
  | kwUndef => "UNDEF"
  | kwFalse => "FALSE"
  | kwTrue => "TRUE"
  | kwIn => "IN"
  | kwInclude => "INCLUDE"

/-- The kind that outputs call by a given name. -/
def ofLabel? (label : String) : Option Kind :=
  all.find? fun k => k.label == label

/-- The keywords with their spelling. -/
def keywords : List (String × Kind) :=
  [("case", kwCase), ("class", kwClass), ("default", kwDefault), ("define", kwDefine),
   ("import", kwImport), ("if", kwIf), ("elsif", kwElsif), ("else", kwElse),
   ("inherits", kwInherits), ("node", kwNode), ("and", kwAnd), ("or", kwOr),
   ("undef", kwUndef), ("false", kwFalse), ("true", kwTrue), ("in", kwIn),
   ("include", kwInclude)]

/-- The keyword with exactly this spelling. -/
def keyword? (text : String) : Option Kind :=
  keywords.lookup text

/-- Whether the kind is a keyword. -/
def isKeyword (k : Kind) : Bool :=
  keywords.any fun entry => entry.2 == k

/-- Newlines, comments and blanks carry no meaning for the grammar. -/
def isTrivia (k : Kind) : Bool :=
  [newline, comment, blockComment, blank].contains k

/-- Kinds that can end a value.  A `/` after one of them divides; elsewhere it may open a regular
expression literal. -/
def canEndValue (k : Kind) : Bool :=
  [name, classRef, dollarVar, number, singleQuoted, doubleQuoted, regex, rightParen, rightBracket,
   kwTrue, kwFalse, kwUndef, kwDefault].contains k

end Kind

end TidyManifest
