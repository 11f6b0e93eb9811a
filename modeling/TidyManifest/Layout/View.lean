import TidyManifest.Tree.Basic

/-!
# What the layout depends on

The layout of a node depends on its contents, on its level and spacing, and on whether it is a
member of a chain.  A view gives these for every reference.  The layout is written for views, so
that it does not depend on how nodes are kept; a tree is one view of its nodes.

What can be chosen is in the options.
-/

namespace TidyManifest

/-- What the layout sees of nodes. -/
structure View (ι : Type) where
  form : ι → Form ι
  level : ι → Int
  innerSpacing : ι → Bool
  outerSpacing : ι → Bool
  /-- whether the parent is a chain -/
  inChain : ι → Bool

namespace View

variable {ι : Type} (v : View ι)

/-- The category of a node. -/
def category (id : ι) : Category :=
  (v.form id).category

/-- Whether a node is a comment. -/
def isComment (id : ι) : Bool :=
  (v.category id).isComment

/-- The depth of a statement is its level. -/
def depth (id : ι) : Nat :=
  (v.level id).toNat

/-- Whether a statement is an `else` or `elsif` branch. -/
def isElse (id : ι) : Bool :=
  match v.form id with
  | .branch keyword _ _ => keyword.text != "if"
  | _ => false

end View

/-- A tree as a view of its nodes. -/
def Tree.view (t : Tree) : View NodeId where
  form := t.form
  level id := (t.node id).level
  innerSpacing id := (t.node id).innerSpacing
  outerSpacing id := (t.node id).outerSpacing
  inChain id := (t.node id).parent.any fun parent => t.category parent == .chain

/-- The choices of the canonical layout. -/
structure Layout.Options where
  /-- blanks for each level -/
  indentWidth : Nat := 2
  /-- whether the arrows of pairs that stand together are in one column -/
  alignArrows : Bool := true
  /-- whether `else` and `elsif` stand on the line of the brace before them -/
  cuddleElse : Bool := true
  /-- the longest line of a class or define head with its parameters, in bytes -/
  maxLineWidth : Nat := 80
deriving DecidableEq

end TidyManifest
