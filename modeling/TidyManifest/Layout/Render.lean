import TidyManifest.Layout.Align
import TidyManifest.Text.Basic

/-!
# The canonical layout

A tree is written back as source text.  Statements are indented by their level.  What is inside a
statement stays on its line where that is readable, and otherwise has one item on each line:

* a hash stays on the line if it is one pair without a line break;
* a list stays on the line if it has no comments and no line breaks;
* parameters stay on the line if they have no comments and no line breaks and their head fits the
  width;
* the pairs of a selector always have lines of their own.

Blank lines between statements:

* a statement that is set off has a blank line after it, and one before it unless a comment stands
  there, which belongs to it;
* `else` and `elsif` have no blank line before them, and join the brace before them if so chosen;
* two statements never have more than one blank line between them, and braces have none inside.

The items of a resource body fall into the items before the first title and, for each title, the
items between it and the next one.  A resource with several titles is written as one block for each
title.  As a member of a chain it stays one block, in which `;` ends the attributes of each title.

The functions below take the text of a child as an argument, `write`, with the child's number and
the depth for which its later lines are indented.
-/

namespace TidyManifest.Layout

/-- The blanks of a level. -/
def margin (o : Options) (depth : Nat) : String :=
  String.ofList (List.replicate (depth * o.indentWidth) ' ')

/-- A text between braces. -/
def braced (inner : String) : String :=
  "\x7b" ++ inner ++ "\x7d"

/-- Whether a text takes more than one line. -/
def hasLineBreak (text : String) : Bool :=
  text.toList.contains '\n'

/-- The text without newlines at its ends. -/
def trimNewlines (text : String) : String :=
  String.ofList (Text.trimBoth '\n' text.toList)

/-- A comment has one blank after its `#`, unless it is empty or something else sets it off
already, and no blanks at its end. -/
def tidyComment (text : String) : String :=
  let body := match text.toList with
    | '#' :: rest => rest
    | whole => whole
  match Text.trimEnd body with
  | [] => "#"
  | c :: rest =>
    if Text.isBlank c || c == '#' then "#" ++ String.ofList (c :: rest)
    else "# " ++ String.ofList (c :: rest)

section

variable {ι : Type}

/-- Cut a list in front of every item that starts a section: the items before the first section,
and each section with its first item and the rest of it. -/
def sectionsBy (starts : ι → Bool) : List ι → List ι × List (ι × List ι)
  | [] => ([], [])
  | item :: rest =>
    let (lead, sections) := sectionsBy starts rest
    if starts item then ([], (item, lead) :: sections) else (item :: lead, sections)

/-- The sections of a resource body, one for each title. -/
def sections (v : View ι) (items : List ι) : List ι × List (ι × List ι) :=
  sectionsBy (fun id => v.category id == .title) items

/-- Put items into the first section, in front of what it holds. -/
def prepend (items : List ι) : List (ι × List ι) → List (ι × List ι)
  | [] => []
  | (title, members) :: rest => (title, items ++ members) :: rest

variable (v : View ι)

/-- What stands between a statement and the next one. -/
def gap (o : Options) (previous next : ι) : String :=
  if o.cuddleElse && v.isElse next && v.category previous == .branch then " "
  else
    let blank := !v.isElse next &&
      (v.outerSpacing previous || (v.outerSpacing next && !v.isComment previous))
    (if blank then "\n\n" else "\n") ++ margin o (v.depth next)

/-- The statements after a given one, up to the end of the last line. -/
def following (o : Options) (write : ι → Nat → String) (previous : ι) : List ι → String
  | [] => "\n"
  | next :: rest =>
    gap v o previous next ++ write next (v.depth next) ++ following o write next rest

/-- Statements below a parent, each on lines of its own. -/
def statementLines (o : Options) (write : ι → Nat → String) (parent : ι) (children : List ι) :
    String :=
  let edge := if v.innerSpacing parent then "\n" else ""
  let lines := match children with
    | [] => ""
    | first :: rest =>
      margin o (v.depth first) ++ write first (v.depth first) ++ following v o write first rest
  edge ++ lines ++ edge

/-- Statements in braces. -/
def block (o : Options) (write : ι → Nat → String) (owner : ι) (body : List ι) (depth : Nat) :
    String :=
  if body.isEmpty then braced ""
  else braced ("\n" ++ trimNewlines (statementLines v o write owner body) ++ "\n" ++ margin o depth)

/-- The texts of nodes with commas between them. -/
def withCommas (write : ι → Nat → String) (ids : List ι) (depth : Nat) : String :=
  ", ".intercalate (ids.map fun id => write id depth)

/-- Items on lines of their own, with a comma after each that is no comment. -/
def onePerLine (o : Options) (write : ι → Nat → String) (items : List ι) (depth : Nat)
    (opening closing : String) : String :=
  let line (id : ι) : String :=
    margin o (depth + 1) ++ write id (depth + 1) ++ (if v.isComment id then "\n" else ",\n")
  opening ++ "\n" ++ String.join (items.map line) ++ margin o depth ++ closing

/-- The text of a hash that stays on its line: its only pair, if that has no line break. -/
def shortHash? (write : ι → Nat → String) (items : List ι) (depth : Nat) : Option String :=
  match items with
  | [item] =>
    if v.category item == .pair then
      let text := write item depth
      if hasLineBreak text then none else some (braced (" " ++ text ++ " "))
    else none
  | _ => none

/-- The text of a hash. -/
def hashText (o : Options) (write : ι → Nat → String) (items : List ι) (depth : Nat) : String :=
  if items.isEmpty then braced ""
  else match shortHash? v write items depth with
    | some text => text
    | none => onePerLine v o write items depth "\x7b" "\x7d"

/-- The text of a list. -/
def listText (o : Options) (write : ι → Nat → String) (items : List ι) (depth : Nat) : String :=
  if items.isEmpty then "[]"
  else
    let texts := items.map fun id => write id depth
    if items.any v.isComment || texts.any hasLineBreak then
      onePerLine v o write items depth "[" "]"
    else "[" ++ ", ".intercalate texts ++ "]"

/-- The parameters of a class or define, with the separator in front of them.  They stay on one
line if that line, from the margin to the opening brace, is not too long. -/
def parameters (o : Options) (write : ι → Nat → String) (params : List ι) (depth : Nat)
    (before separator after : String) : String :=
  if params.isEmpty then ""
  else
    let short := "(" ++ withCommas write params (depth + 1) ++ ")"
    let width := (margin o depth).utf8ByteSize + before.utf8ByteSize + separator.utf8ByteSize +
      short.utf8ByteSize + after.utf8ByteSize
    let fits := !params.any v.isComment && !hasLineBreak short && width ≤ o.maxLineWidth
    separator ++ (if fits then short else onePerLine v o write params depth "(" ")")

/-- What a class or a node inherits from. -/
def inheritance : Option Token → String
  | some t => " inherits " ++ t.text
  | none => ""

/-- The attributes of one title in a block with several titles: `;` after the last one, `,` after
those before it. -/
def compactMembers (o : Options) (write : ι → Nat → String) (depth : Nat) : List ι → String
  | [] => ""
  | member :: rest =>
    let mark :=
      if v.isComment member then ""
      else if rest.all v.isComment then ";"
      else ","
    margin o depth ++ write member depth ++ mark ++ "\n" ++ compactMembers o write depth rest

/-- One title with its attributes in a block with several titles. -/
def compactSection (o : Options) (write : ι → Nat → String) (depth : Nat)
    (section_ : ι × List ι) : String :=
  let (title, members) := section_
  let mark := if members.all v.isComment then ";" else ""
  margin o (depth + 1) ++ write title (depth + 1) ++ mark ++ "\n" ++
    compactMembers v o write (depth + 2) members

/-- One title with its attributes as a block of its own. -/
def titleBlock (o : Options) (write : ι → Nat → String) (depth : Nat) (head : String)
    (section_ : ι × List ι) : String :=
  let (title, members) := section_
  let opening := head ++ " \x7b " ++ write title depth
  if members.isEmpty then opening ++ " \x7d"
  else opening ++ onePerLine v o write members depth "" "\x7d"

/-- The body of a resource.  Comments in front of the first title are moved above the head. -/
def resourceBody (o : Options) (write : ι → Nat → String) (depth : Nat) (inChain : Bool)
    (head : String) (items : List ι) : String :=
  match sections v items with
  | ([], []) => head ++ " " ++ braced ""
  | (lead, []) => head ++ " " ++ onePerLine v o write lead depth "\x7b" "\x7d"
  | (lead, titles) =>
    let above := (lead.filter v.isComment).map fun id => write id depth ++ "\n" ++ margin o depth
    let whole := prepend (lead.filter fun id => !v.isComment id) titles
    String.join above ++
      if inChain && whole.length > 1 then
        head ++ " " ++
          braced ("\n" ++ String.join (whole.map (compactSection v o write depth)) ++ margin o depth)
      else
        ("\n\n" ++ margin o depth).intercalate (whole.map (titleBlock v o write depth head))

/-- The members of a chain with their edges; an edge that is missing is `->`. -/
def chainText (write : ι → Nat → String) (depth : Nat) : List ι → List Token → String
  | [], _ => ""
  | [member], _ => write member depth
  | member :: rest, [] => write member depth ++ " -> " ++ chainText write depth rest []
  | member :: rest, edge :: edges =>
    write member depth ++ " " ++ edge.text ++ " " ++ chainText write depth rest edges

/-- A text with blanks after it up to a number of characters. -/
def padRight (width : Nat) (text : String) : String :=
  text ++ String.ofList (List.replicate (width - text.length) ' ')

/-- The text of a part of an expression. -/
def partText (write : ι → Nat → String) (depth : Nat) : Part ι → String
  | .term term => write term depth
  | .operator token => token.text

/-- The text of a node.  Its first line is not indented; the later ones are, for the depth. -/
def formText (o : Options) (write : ι → Nat → String) (id : ι)
    (depth : Nat) : String :=
  match v.form id with
  | .pending _ => ""
  | .manifest _ => ""
  | .comment text => tidyComment text
  | .blockComment text => text
  | .classBlock name params inherits body =>
    let head := "class " ++ name.text
    head ++ parameters v o write params depth head " " (inheritance inherits ++ " \x7b") ++
      inheritance inherits ++ " " ++ block v o write id body depth
  | .defineBlock name params body =>
    let head := "define " ++ name.text
    head ++ parameters v o write params depth head "" " \x7b" ++ " " ++
      block v o write id body depth
  | .nodeBlock names inherits body =>
    "node " ++ ", ".intercalate (names.map (·.text)) ++ inheritance inherits ++ " " ++
      block v o write id body depth
  | .parameter type name value =>
    (match type with
      | some type => write type depth ++ " "
      | none => "") ++ name.text ++
    (match value with
      | some value => " = " ++ write value depth
      | none => "")
  | .resource sigil head collector hasBlock items =>
    let headText := sigil ++
      (match head with
        | .type token => token.text
        | .reference reference => write reference depth) ++
      (match collector with
        | some collector => " " ++ write collector depth
        | none => "")
    if hasBlock then resourceBody v o write depth (v.inChain id) headText items else headText
  | .title titles => withCommas write titles depth ++ ":"
  | .collector opening query closing =>
    match query with
    | some query => opening.text ++ " " ++ write query depth ++ " " ++ closing.text
    | none => opening.text ++ " " ++ closing.text
  | .branch keyword condition body =>
    keyword.text ++ " " ++
    (match condition with
      | some condition => write condition depth ++ " "
      | none => "") ++ block v o write id body depth
  | .caseBlock subject body =>
    "case " ++ write subject depth ++ " " ++ block v o write id body depth
  | .caseOption values body =>
    withCommas write values depth ++ ": " ++ block v o write id body depth
  | .selector subject items =>
    write subject depth ++ " ? " ++
      (if items.isEmpty then braced "" else onePerLine v o write items depth "\x7b" "\x7d")
  | .inclusion keyword args => keyword.text ++ " " ++ withCommas write args depth
  | .assignment name operator value =>
    name.text ++ " " ++ operator.text ++ " " ++ write value depth
  | .call name args parenthesized =>
    if parenthesized then name.text ++ "(" ++ withCommas write args depth ++ ")"
    else name.text ++ " " ++ withCommas write args depth
  | .chain members edges => chainText write depth members edges
  | .reference head indexes =>
    head.text ++ String.join (indexes.map fun index => write index depth)
  | .hash items => hashText v o write items depth
  | .list items => listText v o write items depth
  | .pair key arrow value keyWidth =>
    padRight keyWidth key.text ++ " " ++ arrow.text ++ " " ++ write value depth
  | .expression parts =>
    " ".intercalate (parts.map (partText write depth))
  | .parens inner => "(" ++ write inner depth ++ ")"
  | .unary operator operand => operator.text ++ write operand depth
  | .simple token => token.text

/-- The text of a node, where nodes are nested at most `n` deep. -/
def textWithin (o : Options) : Nat → ι → Nat → String
  | 0, _, _ => ""
  | n + 1, id, depth => formText v o (textWithin o n) id depth

end

/-- The text of a node.  Nodes cannot be nested more deeply than there are nodes. -/
def text (t : Tree) (o : Options) (id : NodeId) (depth : Nat) : String :=
  textWithin t.view o t.size id depth

/-- Statements of a tree, each on lines of its own. -/
def statements (t : Tree) (o : Options) (write : NodeId → Nat → String) (parent : NodeId)
    (children : List NodeId) : String :=
  statementLines t.view o write parent children

/-- The text of a whole tree, with its arrows as they are. -/
def manifest (t : Tree) (o : Options) : String :=
  match t.form Tree.root with
  | .manifest ids =>
    let body := trimNewlines (statements t o (text t o) Tree.root ids)
    if body.isEmpty then "" else body ++ "\n"
  | _ => ""

/-- The canonical text of a tree. -/
def render (t : Tree) (o : Options) : String :=
  manifest (if o.alignArrows then align t else t) o

end TidyManifest.Layout
