import TidyManifest.Token.Basic

/-!
# A cursor in a list of tokens

The cursor stands between the tokens it has passed and the tokens ahead.  It moves forward one
token at a time, back or forward to a position, and takes tokens in directly ahead of it.  Looking
ahead never moves it: all lookahead is a function of the tokens ahead.
-/

namespace TidyManifest

/-- A list of tokens with a place in it. -/
structure Cursor where
  /-- the tokens before the cursor, the nearest one first -/
  passed : List Token
  /-- the tokens from the cursor on -/
  ahead : List Token
  /-- how many tokens stand before the cursor -/
  position : Nat
  position_eq : position = passed.length
deriving DecidableEq

namespace Cursor

/-- A cursor before the first token. -/
def ofList (tokens : List Token) : Cursor :=
  ⟨[], tokens, 0, rfl⟩

/-- All tokens, in order. -/
def toList (c : Cursor) : List Token :=
  c.passed.reverse ++ c.ahead

/-- The number of all tokens. -/
def size (c : Cursor) : Nat :=
  c.position + c.ahead.length

/-- The token at the cursor. -/
def current (c : Cursor) : Option Token :=
  c.ahead.head?

/-- The kind of the token at the cursor. -/
def currentKind (c : Cursor) : Option Kind :=
  c.current.map (·.kind)

/-- Whether no token is left. -/
def atEnd (c : Cursor) : Bool :=
  c.ahead.isEmpty

/-- Step past one token, if there is one. -/
def advance (c : Cursor) : Cursor :=
  match c.ahead with
  | [] => c
  | t :: rest => ⟨t :: c.passed, rest, c.position + 1, by simp [c.position_eq]⟩

/-- Step back over one token, if there is one. -/
def retreat (c : Cursor) : Cursor :=
  match c.passed with
  | [] => c
  | t :: before => ⟨before, t :: c.ahead, before.length, rfl⟩

/-- Step past `n` tokens or as many as there are. -/
def advanceBy (c : Cursor) : Nat → Cursor
  | 0 => c
  | n + 1 => c.advance.advanceBy n

/-- Step back over `n` tokens or as many as there are. -/
def retreatBy (c : Cursor) : Nat → Cursor
  | 0 => c
  | n + 1 => c.retreat.retreatBy n

/-- Go to a position, or to the end if there are fewer tokens. -/
def goTo (c : Cursor) (position : Nat) : Cursor :=
  if position < c.position then c.retreatBy (c.position - position)
  else c.advanceBy (position - c.position)

/-- Put tokens in at the cursor; the first of them becomes the current token. -/
def insert (c : Cursor) (tokens : List Token) : Cursor :=
  ⟨c.passed, tokens ++ c.ahead, c.position, c.position_eq⟩

/-- How many tokens of the given kinds stand at the cursor. -/
def countLeading (c : Cursor) (kinds : List Kind) : Nat :=
  (c.ahead.takeWhile (·.isOneOf kinds)).length

/-- Step past all tokens of the given kinds. -/
def skip (c : Cursor) (kinds : List Kind) : Cursor :=
  c.advanceBy (c.countLeading kinds)

/-- Tokens from one position up to another; positions past the end mean the end. -/
def slice (c : Cursor) (first last : Nat) : List Token :=
  (c.toList.take last).drop first

@[simp] theorem toList_ofList (tokens : List Token) : (ofList tokens).toList = tokens := rfl

/-- Stepping forward keeps the tokens. -/
@[simp] theorem toList_advance (c : Cursor) : c.advance.toList = c.toList := by
  unfold advance toList
  split <;> simp_all

/-- Stepping back keeps the tokens. -/
@[simp] theorem toList_retreat (c : Cursor) : c.retreat.toList = c.toList := by
  unfold retreat toList
  split <;> simp_all

/-- Stepping on several times keeps the tokens. -/
@[simp] theorem toList_advanceBy (c : Cursor) (n : Nat) : (c.advanceBy n).toList = c.toList := by
  induction n generalizing c with
  | zero => rfl
  | succ n ih => simp [advanceBy, ih]

/-- Stepping back several times keeps the tokens. -/
@[simp] theorem toList_retreatBy (c : Cursor) (n : Nat) : (c.retreatBy n).toList = c.toList := by
  induction n generalizing c with
  | zero => rfl
  | succ n ih => simp [retreatBy, ih]

/-- Going to a position keeps the tokens. -/
@[simp] theorem toList_goTo (c : Cursor) (position : Nat) :
    (c.goTo position).toList = c.toList := by
  unfold goTo
  split <;> simp

/-- Skipping keeps the tokens. -/
@[simp] theorem toList_skip (c : Cursor) (kinds : List Kind) : (c.skip kinds).toList = c.toList := by
  simp [skip]

end Cursor

namespace Lookahead

/-- What is left of the tokens after those that are to be skipped. -/
def significant (skip : List Kind) (tokens : List Token) : List Token :=
  tokens.dropWhile (·.isOneOf skip)

/-- The first token that is not to be skipped. -/
def peek (skip : List Kind) (tokens : List Token) : Option Token :=
  (significant skip tokens).head?

/-- Whether the first token that is not to be skipped has one of the kinds. -/
def startsWith (kinds skip : List Kind) (tokens : List Token) : Bool :=
  match peek skip tokens with
  | some t => t.isOneOf kinds
  | none => false

/-- Whether the tokens begin with one token of each set, in order, where tokens to be skipped may
stand before each of them. -/
def fits (skip : List Kind) : List (List Kind) → List Token → Bool
  | [], _ => true
  | set :: sets, tokens =>
    match significant skip tokens with
    | [] => false
    | t :: rest => t.isOneOf set && fits skip sets rest

/-- Whether the tokens begin with one token of each kind, in order, where tokens to be skipped may
stand before each of them. -/
def spells (skip : List Kind) : List Kind → List Token → Bool
  | [], _ => true
  | kind :: kinds, tokens =>
    match significant skip tokens with
    | [] => false
    | t :: rest => t.kind == kind && spells skip kinds rest

end Lookahead

end TidyManifest
