/-!
# Patterns over characters

A pattern describes a set of texts.  `Pattern.after` is the pattern of what may still follow once
a character has been read, and `Pattern.longest` finds the longest prefix of an input that a
pattern matches by reading characters until nothing can match any more.
-/

namespace TidyManifest

/-- A regular set of texts. -/
inductive Pattern where
  /-- no text at all -/
  | nothing
  /-- the empty text only -/
  | empty
  /-- one character that passes the test -/
  | char (test : Char → Bool)
  /-- a text of the first pattern, then one of the second -/
  | concat (p q : Pattern)
  /-- a text of either pattern -/
  | union (p q : Pattern)
  /-- any number of texts of the pattern, one after the other -/
  | star (p : Pattern)

namespace Pattern

/-- Whether the pattern matches the empty text. -/
def nullable : Pattern → Bool
  | nothing => false
  | empty => true
  | char _ => false
  | concat p q => p.nullable && q.nullable
  | union p q => p.nullable || q.nullable
  | star _ => true

/-- Concatenation that drops an impossible or empty first part. -/
def join : Pattern → Pattern → Pattern
  | nothing, _ => nothing
  | empty, q => q
  | p, q => concat p q

/-- Union that drops an impossible side. -/
def either : Pattern → Pattern → Pattern
  | nothing, q => q
  | p, nothing => p
  | p, q => union p q

/-- What may follow after `c`. -/
def after (c : Char) : Pattern → Pattern
  | nothing => nothing
  | empty => nothing
  | char test => if test c then empty else nothing
  | concat p q =>
    if p.nullable then either (join (p.after c) q) (q.after c) else join (p.after c) q
  | union p q => either (p.after c) (q.after c)
  | star p => join (p.after c) (star p)

/-- Length of the longest prefix that the pattern matches. -/
def longest (p : Pattern) (input : List Char) : Option Nat :=
  match p, input with
  | nothing, _ => none
  | p, [] => if p.nullable then some 0 else none
  | p, c :: rest =>
    match longest (p.after c) rest with
    | some n => some (n + 1)
    | none => if p.nullable then some 0 else none

/-- One given character. -/
def one (c : Char) : Pattern :=
  char (· == c)

/-- A fixed text. -/
def literal (text : String) : Pattern :=
  text.toList.foldr (fun c p => join (one c) p) empty

/-- One pattern after the other. -/
def sequence (ps : List Pattern) : Pattern :=
  ps.foldr join empty

/-- The pattern or nothing in its place. -/
def optional (p : Pattern) : Pattern :=
  either empty p

/-- The pattern at least once. -/
def repeated (p : Pattern) : Pattern :=
  concat p (star p)

end Pattern

end TidyManifest
