import TidyManifest.Grammar.Rule
import TidyManifest.Token.Cursor

/-!
# Recognising a category by the tokens ahead

Most categories are recognised by the patterns of their rule.  A few need more:

* a call without parentheses is recognised by the name of the function;
* a resource by its sigil, by a type with a brace, by a type with a collector, or by a reference
  with a brace;
* a selector by a subject with a question mark.

A subject is a value of one token, and after a class reference or a variable the groups in
brackets that follow it directly.  Brackets are counted here, not read.
-/

namespace TidyManifest.Parse

open Grammar

/-- How many tokens there are up to and including the bracket that closes the first one, where
`depth` brackets are open already. -/
def groupLength (depth : Nat) : List Token → Option Nat
  | [] => none
  | t :: rest =>
    if t.kind == .leftBracket then (groupLength (depth + 1) rest).map (· + 1)
    else if t.kind == .rightBracket then
      if depth == 1 then some 1 else (groupLength (depth - 1) rest).map (· + 1)
    else (groupLength depth rest).map (· + 1)

/-- How many tokens the bracket groups at the start take up; nothing if one of them is not
closed. -/
def groupsLength : List Token → Option Nat
  | [] => some 0
  | t :: rest =>
    if t.kind == .leftBracket then
      match groupLength 0 (t :: rest) with
      | none => none
      | some n => (groupsLength (rest.drop (n - 1))).map (n + ·)
    else some 0
termination_by tokens => tokens.length
decreasing_by simp only [List.length_drop, List.length_cons]; omega

/-- How many tokens there are up to the end of the subject at the start, newlines before it
included. -/
def subjectLength (tokens : List Token) : Option Nat :=
  let lead := (tokens.takeWhile (·.isOneOf newlines)).length
  match tokens.drop lead with
  | [] => none
  | t :: rest =>
    if t.isOneOf simpleKinds then
      if t.isOneOf referenceHeads then (groupsLength rest).map (lead + 1 + ·)
      else some (lead + 1)
    else none

/-- Whether a subject is followed by a question mark. -/
def atSelector (tokens : List Token) : Bool :=
  match subjectLength tokens with
  | some n => Lookahead.startsWith [.question] newlines (tokens.drop n)
  | none => false

/-- Whether a subject that ends in an index is followed by a brace. -/
def atOverride (tokens : List Token) : Bool :=
  match subjectLength tokens with
  | some n =>
    (tokens[n - 1]?).any (fun t => t.kind == .rightBracket) &&
      Lookahead.startsWith [.leftBrace] newlines (tokens.drop n)
  | none => false

/-- Whether a resource starts here. -/
def atResource (tokens : List Token) : Bool :=
  Lookahead.startsWith [.atSign] newlines tokens ||
  Lookahead.fits newlines [resourceTypes, [.leftBrace]] tokens ||
  Lookahead.fits newlines [[.classRef], collectorOpens] tokens ||
  atOverride tokens

/-- Whether the next token names a function that may be called without parentheses. -/
def atPlainCall (tokens : List Token) : Bool :=
  (Lookahead.peek newlines tokens).any fun t => t.kind == .name && bareFunctions.contains t.text

/-- Whether a pair starts here. -/
def atPair (tokens : List Token) : Bool :=
  Lookahead.fits newlines [keyKinds, arrows] tokens

/-- Whether one of the patterns of a rule fits. -/
def atPattern (rule : Rule) (tokens : List Token) : Bool :=
  rule.patterns.any fun pattern => Lookahead.fits rule.skip pattern tokens

end TidyManifest.Parse
