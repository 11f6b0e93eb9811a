import TidyManifest.Grammar.Rule
import TidyManifest.Token.Cursor
import TidyManifest.Tree.Basic

/-!
# The state of a parse

A parse moves a cursor over the tokens and grows a tree.  It tries alternatives: before each of
them it takes a mark, and a failed one is taken back by moving the cursor to where it stood
and shrinking the tree to the size it had.

The state also remembers the furthest token at which a step failed, because that token explains an
error best, and how deeply trial runs are nested.
-/

namespace TidyManifest

/-- Why a list of tokens is not a manifest. -/
inductive ParseError where
  /-- a token at which no reading goes on -/
  | unexpectedToken (line : Nat) (text : String)
  /-- the tokens end inside a block -/
  | unexpectedEnd
  /-- a statement was read that has no tokens -/
  | stalled (line : Nat)
  /-- the tokens are nested more deeply than their number allows -/
  | exhausted
deriving DecidableEq

/-- The error for a reader. -/
def ParseError.message : ParseError → String
  | unexpectedToken line text =>
    "line " ++ toString line ++ ": unexpected token '" ++ text ++ "'"
  | unexpectedEnd => "unexpected end of input"
  | stalled line => "line " ++ toString line ++ ": parser made no progress"
  | exhausted => "input is nested too deeply"

namespace Parse

/-- Where a parse stands. -/
structure State where
  cursor : Cursor
  tree : Tree
  /-- the furthest token at which a step of the current statement failed, and its position -/
  furthest : Option (Nat × Token)
  /-- how many trial runs are under way -/
  trials : Nat
deriving DecidableEq

/-- What a failed reading goes back to. -/
structure Mark where
  position : Nat
  size : Nat
deriving DecidableEq

namespace State

/-- The state before the first token. -/
def start (tokens : List Token) : State :=
  ⟨.ofList tokens, .start, none, 0⟩

/-- The tokens from the cursor on. -/
def ahead (s : State) : List Token :=
  s.cursor.ahead

/-- The line of the current token, or zero at the end. -/
def line (s : State) : Nat :=
  (s.cursor.current.map (·.line)).getD 0

/-- What to go back to if the next reading fails. -/
def mark (s : State) : Mark :=
  ⟨s.cursor.position, s.tree.size⟩

/-- Take back everything read since a mark. -/
def returnTo (s : State) (c : Mark) : State :=
  { s with cursor := s.cursor.goTo c.position, tree := s.tree.shrink c.size }

/-- Step past tokens of the given kinds. -/
def skip (s : State) (kinds : List Kind) : State :=
  { s with cursor := s.cursor.skip kinds }

/-- Step past one token. -/
def advance (s : State) : State :=
  { s with cursor := s.cursor.advance }

/-- Remember the current token as the place of a failure, unless a later one is known. -/
def recordFailure (s : State) : State :=
  match s.cursor.current with
  | none => s
  | some token =>
    let position := s.cursor.position
    if s.furthest.all (fun known => known.1 ≤ position) then
      { s with furthest := some (position, token) }
    else s

/-- The error that explains why no statement can be read: the furthest failure if it is not behind
the cursor, otherwise the next token. -/
def blame (s : State) : ParseError :=
  let cursor := s.cursor.skip Grammar.newlines
  let token := match s.furthest with
    | some (position, token) =>
      if cursor.position ≤ position then some token else cursor.current
    | none => cursor.current
  match token with
  | some token => .unexpectedToken token.line token.text
  | none => .unexpectedEnd

end State

/-- A reading: it changes the state and gives a result or an error. -/
abbrev Reader := EStateM ParseError State

/-- Run a reading on trial: nothing of it stays, and an error counts as a failure.  Only where the
levels do not suffice there is no answer, and the trial ends as the reading did. -/
def onTrial (reading : Reader Bool) : Reader Bool := fun s =>
  let restore (after : State) : State :=
    { after.returnTo s.mark with furthest := s.furthest, trials := after.trials - 1 }
  match reading { s.skip Grammar.newlines with trials := s.trials + 1 } with
  | .ok result after => .ok result (restore after)
  | .error .exhausted after => .error .exhausted (restore after)
  | .error _ after => .ok false (restore after)

end Parse

end TidyManifest
