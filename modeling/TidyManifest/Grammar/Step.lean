import TidyManifest.Tree.Category
import TidyManifest.Token.Kind

/-!
# Grammar steps

A rule of the grammar lists the steps that read a node.  A step reads

* one token of certain kinds,
* one node of the first category, among several, that applies,
* several steps one after the other,
* the first of several step sequences that can be read,
* or a list of statements in braces.

What a step reads can be kept under a name.  A step may be optional or repeated.  Newlines in
front of a step are skipped unless the step has to stand on the same line.
-/

namespace TidyManifest

/-- How a step is used in its rule. -/
structure Usage where
  /-- the name under which the step keeps what it reads -/
  label : Option String := none
  /-- the rule goes on if the step cannot be read -/
  optional : Bool := false
  /-- the step is read as often as it can be -/
  many : Bool := false
  /-- newlines in front of the step are not skipped -/
  sameLine : Bool := false
deriving DecidableEq

/-- One step of a rule. -/
inductive Step where
  | token (usage : Usage) (kinds : List Kind)
  | node (usage : Usage) (categories : List Category)
  | group (usage : Usage) (steps : List Step)
  | choice (usage : Usage) (branches : List (List Step))
  | block (usage : Usage)

namespace Step

/-- How the step is used. -/
def usage : Step → Usage
  | token u _ => u
  | node u _ => u
  | group u _ => u
  | choice u _ => u
  | block u => u

/-- The same step in another use. -/
def withUsage (change : Usage → Usage) : Step → Step
  | token u kinds => token (change u) kinds
  | node u categories => node (change u) categories
  | group u steps => group (change u) steps
  | choice u branches => choice (change u) branches
  | block u => block (change u)

/-- Keep what the step reads under a name. -/
def named (s : Step) (label : String) : Step :=
  s.withUsage fun u => { u with label := some label }

/-- The step may be left out. -/
def maybe (s : Step) : Step :=
  s.withUsage fun u => { u with optional := true }

/-- The step is read again as often as it can be. -/
def many (s : Step) : Step :=
  s.withUsage fun u => { u with many := true }

/-- The step has to stand on the same line as what comes before it. -/
def sameLine (s : Step) : Step :=
  s.withUsage fun u => { u with sameLine := true }

/-- Read one token of these kinds. -/
def expect (kinds : List Kind) : Step :=
  token {} kinds

/-- Read one node of the first of these categories that applies. -/
def oneOf (categories : List Category) : Step :=
  node {} categories

/-- Read all steps in order. -/
def inOrder (steps : List Step) : Step :=
  group {} steps

/-- Read the first sequence that can be read. -/
def firstOf (branches : List (List Step)) : Step :=
  choice {} branches

/-- Read statements in braces. -/
def braces : Step :=
  block {}

end Step

end TidyManifest
