import TidyManifest.Tree.Node

/-!
# What the steps of a rule keep

The steps of a rule keep what they read in a log: tokens, nodes and blocks, each under the name of
its step.  A name that occurs more than once stands for a list.  `Form.ofCaptures?` makes the
contents of a node from the log of its rule.
-/

namespace TidyManifest

/-- What one step keeps. -/
inductive Capture (ι : Type := NodeId) where
  | token (token : Token)
  | node (id : ι)
  | block (statements : List ι)
deriving DecidableEq

namespace Capture

variable {ι : Type}

/-- The token, if it is one. -/
def token? : Capture ι → Option Token
  | token t => some t
  | _ => none

/-- The node, if it is one. -/
def node? : Capture ι → Option ι
  | node id => some id
  | _ => none

/-- The statements of the block, if it is one. -/
def block? : Capture ι → Option (List ι)
  | block ids => some ids
  | _ => none

/-- The part of an expression that it stands for. -/
def part? : Capture ι → Option (Part ι)
  | node id => some (.term id)
  | token t => some (.operator t)
  | block _ => none

end Capture

/-- The log of a rule, in the order in which it was read. -/
structure Captures (ι : Type := NodeId) where
  entries : List (String × Capture ι) := []
deriving DecidableEq

namespace Captures

variable {ι : Type}

/-- Keep one more thing. -/
def add (log : Captures ι) (label : String) (value : Capture ι) : Captures ι :=
  ⟨log.entries ++ [(label, value)]⟩

/-- Keep one more thing if it has a name. -/
def addIf (log : Captures ι) (label : Option String) (value : Capture ι) : Captures ι :=
  match label with
  | some label => log.add label value
  | none => log

/-- How many things are kept. -/
def size (log : Captures ι) : Nat :=
  log.entries.length

/-- Only the first `n` things. -/
def take (log : Captures ι) (n : Nat) : Captures ι :=
  ⟨log.entries.take n⟩

/-- Everything under a name, in order. -/
def all (log : Captures ι) (label : String) : List (Capture ι) :=
  (log.entries.filter fun entry => entry.1 == label).map (·.2)

/-- Whether there is anything under a name. -/
def has (log : Captures ι) (label : String) : Bool :=
  log.entries.any fun entry => entry.1 == label

/-- The tokens under a name. -/
def tokens (log : Captures ι) (label : String) : List Token :=
  (log.all label).filterMap Capture.token?

/-- The nodes under a name. -/
def nodes (log : Captures ι) (label : String) : List ι :=
  (log.all label).filterMap Capture.node?

/-- The first token under a name. -/
def token? (log : Captures ι) (label : String) : Option Token :=
  (log.all label).findSome? Capture.token?

/-- The first node under a name. -/
def node? (log : Captures ι) (label : String) : Option ι :=
  (log.all label).findSome? Capture.node?

/-- The first block under a name. -/
def block? (log : Captures ι) (label : String) : Option (List ι) :=
  (log.all label).findSome? Capture.block?

end Captures

/-- The contents of a node of a category, from the log of its rule; nothing if a required entry is
missing.  A manifest and a resource are not read by their steps alone. -/
def Form.ofCaptures? {ι : Type} (category : Category) (log : Captures ι) : Option (Form ι) :=
  match category with
  | .manifest => none
  | .resource => none
  | .comment => do return .comment (← log.token? "text").text
  | .blockComment => do return .blockComment (← log.token? "text").text
  | .classBlock => do
    return .classBlock (← log.token? "name") (log.nodes "params") (log.token? "inherits")
      (← log.block? "body")
  | .defineBlock => do
    return .defineBlock (← log.token? "name") (log.nodes "params") (← log.block? "body")
  | .nodeBlock => do
    return .nodeBlock (log.tokens "names") (log.token? "inherits") (← log.block? "body")
  | .parameter => do
    return .parameter (log.node? "type") (← log.token? "name") (log.node? "default")
  | .title => some (.title (log.nodes "titles"))
  | .collector => do
    return .collector (← log.token? "open") (log.node? "query") (← log.token? "close")
  | .branch => do
    return .branch (← log.token? "keyword") (log.node? "condition") (← log.block? "body")
  | .caseBlock => do return .caseBlock (← log.node? "subject") (← log.block? "body")
  | .caseOption => do return .caseOption (log.nodes "values") (← log.block? "body")
  | .selector => do return .selector (← log.node? "subject") (log.nodes "items")
  | .inclusion => do return .inclusion (← log.token? "keyword") (log.nodes "args")
  | .assignment => do
    return .assignment (← log.token? "name") (← log.token? "operator") (← log.node? "value")
  | .call => do return .call (← log.token? "name") (log.nodes "args") (log.has "open")
  | .chain => some (.chain (log.nodes "members") (log.tokens "edges"))
  | .reference => do return .reference (← log.token? "head") (log.nodes "indexes")
  | .hash => some (.hash (log.nodes "items"))
  | .list => some (.list (log.nodes "items"))
  | .pair => do
    return .pair (← log.token? "key") (← log.token? "arrow") (← log.node? "value") 0
  | .expression => some (.expression ((log.all "parts").filterMap Capture.part?))
  | .parens => do return .parens (← log.node? "inner")
  | .unary => do return .unary (← log.token? "operator") (← log.node? "operand")
  | .simple => do return .simple (← log.token? "token")

end TidyManifest
