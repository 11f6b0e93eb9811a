import TidyManifest.Outline.Basic
import TidyManifest.Text.Lines

/-!
# Drawing an outline

Each node is one line: the lines that lead to it from the nodes above, an icon, the category and
the label.  Only the first line of a label is shown, and of that thirty characters.  The root is
not drawn.
-/

namespace TidyManifest.Outline

/-- The icon of a category. -/
def icon : Category → String
  | .classBlock => "§"
  | .defineBlock => "ƒ"
  | .nodeBlock => "⌂"
  | .resource => "⧈"
  | .branch => "⑂"
  | .caseBlock => "⋔"
  | .caseOption => "▹"
  | .inclusion => "↦"
  | .assignment => "≔"
  | .call => "⨍"
  | .chain => "⛓"
  | .title => "⊤"
  | .collector => "⟪"
  | .reference => "⊕"
  | .parameter => "¤"
  | .hash => "⌗"
  | .list => "☰"
  | .pair => "⇒"
  | .selector => "?"
  | .expression => "∑"
  | .parens => "()"
  | .unary => "¬"
  | .comment => "#"
  | .blockComment => "¶"
  | .simple => "◦"
  | .manifest => "⧉"

/-- The first `limit` characters, with dots if there are more. -/
def shortened (limit : Nat) (text : String) : String :=
  if limit < text.length then String.ofList (text.toList.take limit) ++ "..." else text

/-- Icon, category and label. -/
def caption (category : Category) (label : String) : String :=
  icon category ++ " " ++ category.label ++
    (if label.isEmpty then "" else ": " ++ shortened 30 ((Text.lines label).headD ""))

mutual

/-- A node and what is below it.  `lead` is drawn in front of every line, and `last` says whether
no sibling follows. -/
def drawNode (lead : String) (last : Bool) : Outline → String
  | .mk category label _ _ _ children =>
    lead ++ (if last then "└─ " else "├─ ") ++ caption category label ++ "\n" ++
      drawAll (lead ++ (if last then "  " else "│ ")) children

/-- Siblings, one after the other. -/
def drawAll (lead : String) : List Outline → String
  | [] => ""
  | outline :: rest => drawNode lead rest.isEmpty outline ++ drawAll lead rest

end

/-- The drawing of everything below the root of an outline. -/
def draw : Outline → String
  | .mk _ _ _ _ _ children => drawAll "" children

end TidyManifest.Outline
