import TidyManifest.Tree.Node

/-!
# Trees

A tree is a table of nodes in which node zero is the root.  A node is entered before its children
are read, so that they can refer to it, and is completed after them.  Shrinking the table to an
earlier size takes back a node together with everything that was read below it.
-/

namespace TidyManifest

/-- A table of nodes that has at least a root. -/
structure Tree where
  nodes : Array Node
  size_pos : 0 < nodes.size
deriving DecidableEq

namespace Tree

/-- The number of the root. -/
def root : NodeId := 0

/-- A tree with a pending root only. -/
def start : Tree :=
  ⟨#[.root], by simp⟩

/-- How many nodes there are. -/
def size (t : Tree) : Nat :=
  t.nodes.size

/-- The node with a given number; for a number beyond the table, a root without contents. -/
def node (t : Tree) (id : NodeId) : Node :=
  t.nodes[id]?.getD .root

/-- The contents of a node. -/
def form (t : Tree) (id : NodeId) : Form :=
  (t.node id).form

/-- The category of a node. -/
def category (t : Tree) (id : NodeId) : Category :=
  (t.node id).category

/-- The children of a node. -/
def children (t : Tree) (id : NodeId) : List NodeId :=
  (t.form id).children

/-- Enter a pending node below `parent`.  Its number is the size of the tree before. -/
def addPending (t : Tree) (category : Category) (parent : NodeId) (line : Nat) : Tree :=
  ⟨t.nodes.push ⟨.pending category, some parent, (t.node parent).level + 1, line, false, false⟩,
    by simp⟩

/-- Change one node. -/
def update (t : Tree) (id : NodeId) (change : Node → Node) : Tree :=
  ⟨t.nodes.modify id change, by simpa using t.size_pos⟩

/-- Give a node its contents. -/
def complete (t : Tree) (id : NodeId) (form : Form) : Tree :=
  t.update id fun n => { n with form }

/-- Set both sorts of spacing of a node. -/
def setSpacing (t : Tree) (id : NodeId) (inner outer : Bool) : Tree :=
  t.update id fun n => { n with innerSpacing := inner, outerSpacing := outer }

/-- Keep the first `n` nodes; the root always stays. -/
def shrink (t : Tree) (n : Nat) : Tree :=
  ⟨t.nodes.shrink (max n 1), by
    have := t.size_pos
    simp only [Array.size_shrink]
    omega⟩

/-- Whether some node's children are still being read. -/
def hasPending (t : Tree) : Bool :=
  t.nodes.any fun n => n.form.isPending

end Tree

end TidyManifest
