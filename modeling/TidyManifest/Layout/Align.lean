import TidyManifest.Layout.View

/-!
# Aligned arrows

Pairs that stand together share the column of their arrows, which the longest key decides.  The
pairs of a hash stand together, and so do those of a selector and those below each title of a
resource.  Attributes in front of the first title belong to it.
-/

namespace TidyManifest.Layout

section

variable {ι : Type} (v : View ι)

/-- The length of the key, in characters, if the node is a pair. -/
def keyLength? (id : ι) : Option Nat :=
  match v.form id with
  | .pair key _ _ _ => some key.text.length
  | _ => none

/-- The pairs among the items of a group, each with the length of the longest key. -/
def groupWidths (items : List ι) : List (ι × Nat) :=
  let pairs := items.filter fun id => (keyLength? v id).isSome
  match (pairs.filterMap (keyLength? v)).max? with
  | none => []
  | some width => pairs.map fun id => (id, width)

/-- The groups of a resource body, where `group` holds the items of the group that is open and `seen`
says whether a title stands before the items.  The first title leaves the group open, so that what
stands in front of it belongs to it; every further title closes the group of the one before it. -/
def titleGroups (group : List ι) (seen : Bool) : List ι → List (List ι)
  | [] => [group]
  | item :: rest =>
    if v.category item != .title then titleGroups (group ++ [item]) seen rest
    else if seen then group :: titleGroups [] true rest
    else titleGroups group true rest

/-- The groups of items that a node aligns. -/
def groups (id : ι) : List (List ι) :=
  match v.form id with
  | .hash items => [items]
  | .selector _ items => [items]
  | .resource _ _ _ _ items => titleGroups v [] false items
  | _ => []

end

/-- The node with its arrow in a column, if it is a pair. -/
def widened (width : Nat) (n : Node) : Node :=
  match n.form with
  | .pair key arrow value _ => { n with form := .pair key arrow value width }
  | _ => n

/-- Set the column of the arrow, if the node is a pair. -/
def setWidth (t : Tree) (id : NodeId) (width : Nat) : Tree :=
  t.update id (widened width)

/-- The columns of all arrows of a tree, group by group. -/
def widths (t : Tree) : List (NodeId × Nat) :=
  (List.range t.size).flatMap fun id => (groups t.view id).flatMap (groupWidths t.view)

/-- Align the arrows of a tree. -/
def align (t : Tree) : Tree :=
  (widths t).foldl (fun t (id, width) => setWidth t id width) t

end TidyManifest.Layout
