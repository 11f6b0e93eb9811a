/-!
# Syntactic categories

A node of a manifest's tree belongs to one of these categories.  The grammar has one rule for each
of them.
-/

namespace TidyManifest

/-- The syntactic categories. -/
inductive Category where
  /-- the whole source -/
  | manifest
  /-- `class name (…) inherits name { … }` -/
  | classBlock
  /-- `define name (…) { … }` -/
  | defineBlock
  /-- `node name { … }` -/
  | nodeBlock
  /-- one parameter of a class or a define -/
  | parameter
  /-- `type { title: key => value }`, an override of a reference, or a collector -/
  | resource
  /-- `expression, expression:` inside a resource -/
  | title
  /-- `<| query |>` after a resource type -/
  | collector
  /-- one branch `if`, `elsif` or `else` -/
  | branch
  /-- `case subject { … }` -/
  | caseBlock
  /-- `value, value: { … }` inside a case -/
  | caseOption
  /-- `subject ? { key => value }` -/
  | selector
  /-- `include` or `import` -/
  | inclusion
  /-- `$name = value` or `$name += value` -/
  | assignment
  /-- a function call -/
  | call
  /-- resources and references joined by edges -/
  | chain
  /-- `Type[…]` or `$name[…]` -/
  | reference
  /-- `{ key => value }` -/
  | hash
  /-- `[ … ]` -/
  | list
  /-- `key => value` -/
  | pair
  /-- terms joined by operators -/
  | expression
  /-- an expression in parentheses -/
  | parens
  /-- `!term` or `-term` -/
  | unary
  /-- a comment up to the end of its line -/
  | comment
  /-- a comment between `/*` and `*/` -/
  | blockComment
  /-- a value of one token -/
  | simple
deriving DecidableEq, Inhabited

namespace Category

/-- All categories, in the order of their declaration. -/
def all : List Category :=
  [manifest, classBlock, defineBlock, nodeBlock, parameter, resource, title, collector, branch,
   caseBlock, caseOption, selector, inclusion, assignment, call, chain, reference, hash, list,
   pair, expression, parens, unary, comment, blockComment, simple]

/-- The name of a category in outputs. -/
def label : Category → String
  | manifest => "Manifest"
  | classBlock => "Class"
  | defineBlock => "Define"
  | nodeBlock => "Node"
  | parameter => "Parameter"
  | resource => "Resource"
  | title => "ResourceTitle"
  | collector => "Collector"
  | branch => "IfStatement"
  | caseBlock => "CaseStatement"
  | caseOption => "CaseCondition"
  | selector => "Selector"
  | inclusion => "Include"
  | assignment => "VarAssignment"
  | call => "FunctionCall"
  | chain => "DependencyChain"
  | reference => "ResourceRef"
  | hash => "Hash"
  | list => "List"
  | pair => "KeyValuePair"
  | expression => "Expression"
  | parens => "Parenthesized"
  | unary => "Unary"
  | comment => "Comment"
  | blockComment => "MultilineComment"
  | simple => "Simple"

/-- The category that outputs call by a given name. -/
def ofLabel? (label : String) : Option Category :=
  all.find? fun c => c.label == label

/-- Categories whose body is a list of statements. -/
def takesStatements (c : Category) : Bool :=
  [manifest, classBlock, defineBlock, nodeBlock, branch, caseOption].contains c

/-- Both sorts of comment. -/
def isComment (c : Category) : Bool :=
  [comment, blockComment].contains c

end Category

end TidyManifest
