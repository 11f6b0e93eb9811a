import TidyManifest.Tree.Basic

/-!
# Outlines

An outline shows a tree without the details of each category: what a node is, a short label, some
attributes, and its children.
-/

namespace TidyManifest

/-- A node and what is below it, for display. -/
inductive Outline where
  | mk (category : Category) (label : String) (line : Nat) (level : Int)
      (attributes : List (String × String)) (children : List Outline)

namespace Outline

/-- The label of a node. -/
def labelOf : Form → String
  | .pending _ => ""
  | .manifest .. => ""
  | .classBlock name .. => name.text
  | .defineBlock name .. => name.text
  | .nodeBlock names .. => ", ".intercalate (names.map (·.text))
  | .parameter _ name _ => name.text
  | .resource sigil (.type token) .. => sigil ++ token.text
  | .resource sigil (.reference _) .. => sigil ++ "<reference>"
  | .title .. => ""
  | .collector opening _ closing => opening.text ++ " " ++ closing.text
  | .branch keyword .. => keyword.text
  | .caseBlock .. => ""
  | .caseOption .. => ""
  | .selector .. => ""
  | .inclusion keyword _ => keyword.text
  | .assignment name .. => name.text
  | .call name .. => name.text
  | .chain _ edges => " ".intercalate (edges.map (·.text))
  | .reference head _ => head.text
  | .hash .. => ""
  | .list .. => ""
  | .pair key .. => key.text
  | .expression .. => ""
  | .parens .. => ""
  | .unary operator _ => operator.text
  | .comment text => text
  | .blockComment text => text
  | .simple token => token.text

/-- A truth value in words. -/
def truth (b : Bool) : String :=
  if b then "true" else "false"

/-- The attributes that belong to a category. -/
def ownAttributes : Form → List (String × String)
  | .classBlock _ _ (some parent) _ => [("inherits", parent.text)]
  | .nodeBlock _ (some parent) _ => [("inherits", parent.text)]
  | .resource sigil _ _ hasBlock _ =>
    [("block", truth hasBlock)] ++ (if sigil.isEmpty then [] else [("sigil", sigil)])
  | .assignment _ operator _ => [("operator", operator.text)]
  | .call _ _ parenthesized => [("parenthesized", truth parenthesized)]
  | .pair _ arrow _ keyWidth =>
    [("arrow", arrow.text)] ++
      (if keyWidth == 0 then [] else [("key_width", toString keyWidth)])
  | .expression parts =>
    let operators := parts.filterMap Part.operator?
    if operators.isEmpty then [] else [("operators", " ".intercalate (operators.map (·.text)))]
  | .simple token => [("token", token.kind.label)]
  | _ => []

/-- The attributes of a node, ordered by name. -/
def attributesOf (n : Node) : List (String × String) :=
  let spacing := if n.outerSpacing then [("outer_spacing", "true")] else []
  (spacing ++ ownAttributes n.form).mergeSort fun a b => decide (a.1 ≤ b.1)

/-- The outline of a node, with `n` levels below it. -/
def within (t : Tree) : Nat → NodeId → Outline
  | 0, id => leaf id
  | n + 1, id =>
    let node := t.node id
    .mk node.category (labelOf node.form) node.line node.level (attributesOf node)
      (node.form.children.map (within t n))
where
  leaf (id : NodeId) : Outline :=
    let node := t.node id
    .mk node.category (labelOf node.form) node.line node.level (attributesOf node) []

/-- The outline of a node.  Nodes cannot be nested more deeply than there are nodes. -/
def ofNode (t : Tree) (id : NodeId) : Outline :=
  within t t.size id

/-- The outline of a whole tree. -/
def ofTree (t : Tree) : Outline :=
  ofNode t Tree.root

end Outline

end TidyManifest
