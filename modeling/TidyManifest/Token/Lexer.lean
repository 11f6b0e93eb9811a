import TidyManifest.Text.Lines
import TidyManifest.Token.Basic
import TidyManifest.Token.Rules

/-!
# From source text to tokens

At each place the longest text that some rule of `Kind.rules` matches is the next token.  Three
decisions need more than the rules:

* a name whose text is a keyword becomes that keyword;
* `/*` extends to the first `*/` after it;
* `/` opens a regular expression literal if the last token that is not trivia cannot end a value
  and an unescaped `/` follows on the same line.

Blanks are dropped.  Newlines and comments are kept.  Input that no rule matches is an error, with
an excerpt of the source around it.
-/

namespace TidyManifest

/-- Input that is no token: where, which text, and the source around it. -/
structure LexError where
  line : Nat
  text : String
  excerpt : String
deriving DecidableEq

namespace LexError

/-- The error for a reader. -/
def message (e : LexError) : String :=
  "line " ++ toString e.line ++ ": unrecognized input '" ++ e.text ++ "'\n\n" ++ e.excerpt

end LexError

namespace Token

/-- Of two matches the longer one; the first one if they are equally long. -/
def longer (best : Option (Kind × Nat)) (next : Kind × Option Nat) : Option (Kind × Nat) :=
  match best, next with
  | best, (_, none) => best
  | none, (kind, some n) => some (kind, n)
  | some (kind, n), (kind', some n') => if n < n' then some (kind', n') else some (kind, n)

/-- The rule that matches the longest text at the start of the input, with the length of that
text. -/
def recognise (input : List Char) : Option (Kind × Nat) :=
  (Kind.rules.map fun (kind, pattern) => (kind, pattern.longest input)).foldl longer none

/-- How many characters there are up to the end of the first `*/`. -/
def commentEnd : List Char → Option Nat
  | [] => none
  | '*' :: '/' :: _ => some 2
  | _ :: rest => (commentEnd rest).map (· + 1)

/-- How many characters there are up to and including the first `/` that no backslash escapes, if
it comes before any line feed.  `escaped` says whether a backslash stands directly before. -/
def regexEnd (escaped : Bool) : List Char → Option Nat
  | [] => none
  | c :: rest =>
    if c == '\n' then none
    else if !escaped && c == '/' then some 1
    else (regexEnd (!escaped && c == '\\') rest).map (· + 1)

/-- Kind and length of the token at the start of the input.  `afterValue` says whether the last
token that is not trivia can end a value. -/
def next? (afterValue : Bool) (input : List Char) : Option (Kind × Nat) :=
  match recognise input with
  | some (.blockComment, n) =>
    (commentEnd (input.drop n)).map fun m => (.blockComment, n + m)
  | some (.slash, n) =>
    if afterValue then some (.slash, n)
    else match regexEnd false (input.drop n) with
      | some m => some (.regex, n + m)
      | none => some (.slash, n)
  | some (.name, n) =>
    some ((Kind.keyword? (String.ofList (input.take n))).getD .name, n)
  | other => other

/-- The text that an error reports where no token starts: an unclosed quoted text as far as it
goes, the opening of an unclosed block comment, otherwise one character. -/
def refused (input : List Char) : List Char :=
  match input with
  | [] => []
  | '/' :: '*' :: _ => ['/', '*']
  | c :: _ =>
    if c == '\'' || c == '"' then input.take (((Pattern.openText c).longest input).getD 1)
    else [c]

/-- Tokens of the rest of a source, from a line on. -/
def lexFrom (source : String) (line : Nat) (afterValue : Bool) :
    List Char → Except LexError (List Token)
  | [] => .ok []
  | c :: rest =>
    match next? afterValue (c :: rest) with
    | none =>
      .error ⟨line, String.ofList (refused (c :: rest)), Text.excerpt source line⟩
    | some (kind, n) =>
      let text := (c :: rest).take n
      match lexFrom source (line + text.count '\n')
          (if kind.isTrivia then afterValue else kind.canEndValue) (rest.drop (n - 1)) with
      | .error e => .error e
      | .ok tokens =>
        .ok (if kind == .blank then tokens else ⟨kind, String.ofList text, line⟩ :: tokens)
termination_by input => input.length
decreasing_by simp only [List.length_drop, List.length_cons]; omega

/-- The tokens of a source. -/
def lex (source : String) : Except LexError (List Token) :=
  lexFrom source 1 false source.toList

end Token

end TidyManifest
