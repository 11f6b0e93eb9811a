import TidyManifest.Token.Basic
import TidyManifest.Tree.Category

/-!
# Nodes

What a node holds depends on its category: tokens by value, and other nodes by reference.  In a
tree a reference is the node's number; other uses of the same forms refer to nodes in other ways, so
the sort of reference is an argument.  While a node's children are being read its form is `pending`.
-/

namespace TidyManifest

/-- The number of a node in its tree. -/
abbrev NodeId := Nat

/-- What a resource declares: a type, or a reference whose attributes it overrides. -/
inductive Head (ι : Type := NodeId) where
  | type (token : Token)
  | reference (id : ι)
deriving DecidableEq

/-- Whether a type is declared. -/
def Head.hasType {ι : Type} : Head ι → Bool
  | .type _ => true
  | .reference _ => false

/-- A part of an expression: terms and operators alternate. -/
inductive Part (ι : Type := NodeId) where
  | term (id : ι)
  | operator (token : Token)
deriving DecidableEq

section

variable {ι : Type}

/-- The operand of a term part. -/
def Part.term? : Part ι → Option ι
  | .term id => some id
  | .operator _ => none

/-- The operator of an operator part. -/
def Part.operator? : Part ι → Option Token
  | .term _ => none
  | .operator token => some token

end

/-- The contents of a node. -/
inductive Form (ι : Type := NodeId) where
  /-- the children are still being read -/
  | pending (category : Category)
  | manifest (statements : List ι)
  | classBlock (name : Token) (params : List ι) (inherits : Option Token)
      (body : List ι)
  | defineBlock (name : Token) (params : List ι) (body : List ι)
  | nodeBlock (names : List Token) (inherits : Option Token) (body : List ι)
  | parameter (type : Option ι) (name : Token) (value : Option ι)
  /-- `items` are the titles, pairs and comments in source order -/
  | resource (sigil : String) (head : Head ι) (collector : Option ι) (hasBlock : Bool)
      (items : List ι)
  | title (titles : List ι)
  | collector (opening : Token) (query : Option ι) (closing : Token)
  /-- an `else` branch has no condition -/
  | branch (keyword : Token) (condition : Option ι) (body : List ι)
  | caseBlock (subject : ι) (body : List ι)
  | caseOption (values : List ι) (body : List ι)
  | selector (subject : ι) (items : List ι)
  | inclusion (keyword : Token) (args : List ι)
  | assignment (name : Token) (operator : Token) (value : ι)
  | call (name : Token) (args : List ι) (parenthesized : Bool)
  | chain (members : List ι) (edges : List Token)
  | reference (head : Token) (indexes : List ι)
  | hash (items : List ι)
  | list (items : List ι)
  /-- `keyWidth` is the column of the arrow; zero if the pair is not aligned -/
  | pair (key : Token) (arrow : Token) (value : ι) (keyWidth : Nat)
  | expression (parts : List (Part ι))
  | parens (inner : ι)
  | unary (operator : Token) (operand : ι)
  | comment (text : String)
  | blockComment (text : String)
  | simple (token : Token)
deriving DecidableEq

namespace Form

variable {ι : Type}

/-- The category of the node. -/
def category : Form ι → Category
  | pending c => c
  | manifest .. => .manifest
  | classBlock .. => .classBlock
  | defineBlock .. => .defineBlock
  | nodeBlock .. => .nodeBlock
  | parameter .. => .parameter
  | resource .. => .resource
  | title .. => .title
  | collector .. => .collector
  | branch .. => .branch
  | caseBlock .. => .caseBlock
  | caseOption .. => .caseOption
  | selector .. => .selector
  | inclusion .. => .inclusion
  | assignment .. => .assignment
  | call .. => .call
  | chain .. => .chain
  | reference .. => .reference
  | hash .. => .hash
  | list .. => .list
  | pair .. => .pair
  | expression .. => .expression
  | parens .. => .parens
  | unary .. => .unary
  | comment .. => .comment
  | blockComment .. => .blockComment
  | simple .. => .simple

/-- Whether the children are still being read. -/
def isPending : Form ι → Bool
  | pending _ => true
  | _ => false

/-- The children in source order. -/
def children : Form ι → List ι
  | pending _ => []
  | manifest statements => statements
  | classBlock _ params _ body => params ++ body
  | defineBlock _ params body => params ++ body
  | nodeBlock _ _ body => body
  | parameter type _ value => type.toList ++ value.toList
  | resource _ (.type _) query _ items => query.toList ++ items
  | resource _ (.reference id) query _ items => id :: (query.toList ++ items)
  | title titles => titles
  | collector _ query _ => query.toList
  | branch _ condition body => condition.toList ++ body
  | caseBlock subject body => subject :: body
  | caseOption values body => values ++ body
  | selector subject items => subject :: items
  | inclusion _ args => args
  | assignment _ _ value => [value]
  | call _ args _ => args
  | chain members _ => members
  | reference _ indexes => indexes
  | hash items => items
  | list items => items
  | pair _ _ value _ => [value]
  | expression parts => parts.filterMap Part.term?
  | parens inner => [inner]
  | unary _ operand => [operand]
  | comment _ => []
  | blockComment _ => []
  | simple _ => []

end Form

/-- A node with its place in the tree. -/
structure Node where
  form : Form
  /-- the root has no parent -/
  parent : Option NodeId
  /-- one more than the parent's level; the root's is -1 -/
  level : Int
  /-- the line of its first token -/
  line : Nat
  /-- the node's statements are set off from its braces by blank lines -/
  innerSpacing : Bool
  /-- the node is set off from its siblings by blank lines -/
  outerSpacing : Bool
deriving DecidableEq

/-- The category of a node. -/
def Node.category (n : Node) : Category :=
  n.form.category

/-- The root of a tree before its statements are known. -/
def Node.root : Node :=
  ⟨.pending .manifest, none, -1, 1, false, false⟩

end TidyManifest
