import TidyManifest.Grammar.Step

/-!
# The grammar of manifests

`Category.rule` gives the rule of every category: the token patterns by which it is recognised, the
steps that read it, and whether it is set off by blank lines.  A pattern is a sequence of kind
sets, one for each token.

The body of a resource mixes titles, attributes and separators freely, so the rule of a resource
covers its head only.
-/

namespace TidyManifest

namespace Grammar

open Step

/-- Kinds that a step skips in front of itself. -/
def newlines : List Kind := [.newline]

/-- What can be a statement, in the order in which it is tried. -/
def statements : List Category :=
  [.comment, .blockComment, .caseOption, .classBlock, .defineBlock, .nodeBlock, .branch,
   .caseBlock, .inclusion, .assignment, .chain, .resource, .call]

/-- What can be a term of an expression, in the order in which it is tried. -/
def terms : List Category :=
  [.selector, .call, .reference, .hash, .list, .parens, .unary, .simple]

/-- What a dependency chain joins. -/
def chainMembers : List Category := [.resource, .reference]

/-- Both sorts of comment. -/
def comments : List Category := [.comment, .blockComment]

/-- Operators between two terms. -/
def binaryOperators : List Kind :=
  [.isEqual, .notEqual, .greaterEqual, .greater, .less, .lessEqual, .isMatch, .noMatch, .plus,
   .minus, .times, .slash, .shiftLeft, .shiftRight, .kwAnd, .kwOr, .kwIn]

/-- Edges of a dependency chain. -/
def edges : List Kind := [.edgeRight, .edgeLeft, .notifyRight, .notifyLeft]

/-- Arrows between a key and its value. -/
def arrows : List Kind := [.fatArrow, .plusArrow]

/-- Tokens that can be the key of a pair. -/
def keyKinds : List Kind :=
  [.name, .classRef, .dollarVar, .number, .singleQuoted, .doubleQuoted, .regex, .kwDefault,
   .kwTrue, .kwFalse, .kwUndef]

/-- Tokens that are values by themselves. -/
def simpleKinds : List Kind :=
  [.name, .classRef, .dollarVar, .number, .singleQuoted, .doubleQuoted, .regex, .kwTrue, .kwFalse,
   .kwUndef, .kwDefault]

/-- Tokens that can name a node. -/
def nodeNameKinds : List Kind := [.name, .singleQuoted, .doubleQuoted, .regex, .kwDefault]

/-- Tokens that can be the type of a resource. -/
def resourceTypes : List Kind := [.name, .classRef, .kwClass]

/-- Brackets that open a collector. -/
def collectorOpens : List Kind := [.collectOpen, .exportedOpen]

/-- Brackets that close a collector. -/
def collectorCloses : List Kind := [.collectClose, .exportedClose]

/-- Tokens that can be followed by an index in brackets. -/
def referenceHeads : List Kind := [.classRef, .dollarVar]

/-- Functions that a statement may call without parentheses. -/
def bareFunctions : List String :=
  ["realize", "require", "contain", "fail", "notice", "warning", "tag", "hiera_include"]

/-- Expressions separated by commas, kept under one name. -/
def expressions (label : String) : List Step :=
  [(oneOf [.expression]).named label,
   (inOrder [expect [.comma], (oneOf [.expression]).named label]).many.maybe]

/-- Items, each perhaps with a comma after it. -/
def items (categories : List Category) : Step :=
  (inOrder [(oneOf categories).named "items", (expect [.comma]).maybe]).many.maybe

/-- The parameters of a class or a define. -/
def parameters : Step :=
  (inOrder
    [expect [.leftParen],
     (inOrder
       [(oneOf [.comment, .blockComment, .parameter]).named "params",
        (expect [.comma]).maybe]).many.maybe,
     expect [.rightParen]]).maybe

/-- Sigils, type or reference, and perhaps a collector. -/
def resourceHead : List Step :=
  [((expect [.atSign]).named "sigil").many.maybe,
   firstOf
     [[(oneOf [.reference]).named "reference"],
      [(expect resourceTypes).named "type"]],
   ((oneOf [.collector]).named "collector").maybe]

/-- The values of a case option and the colon after them. -/
def caseValues : List Step :=
  expressions "values" ++ [expect [.colon]]

end Grammar

/-- The rule of a category. -/
structure Rule where
  /-- the category is recognised by any of these -/
  patterns : List (List (List Kind)) := []
  /-- kinds that may stand anywhere inside a pattern -/
  skip : List Kind := Grammar.newlines
  /-- what is read -/
  steps : List Step := []
  innerSpacing : Bool := false
  outerSpacing : Bool := false

open Step Grammar in
/-- The grammar. -/
def Category.rule : Category → Rule
  | .manifest => {}
  | .comment =>
    { patterns := [[[.comment]]]
      steps := [(expect [.comment]).named "text"] }
  | .blockComment =>
    { patterns := [[[.blockComment]]]
      steps := [(expect [.blockComment]).named "text"] }
  | .caseOption =>
    { steps := caseValues ++ [braces.named "body"] }
  | .classBlock =>
    { patterns := [[[.kwClass], [.name]]]
      outerSpacing := true
      steps :=
        [expect [.kwClass],
         (expect [.name]).named "name",
         parameters,
         (inOrder
           [expect [.kwInherits], (expect [.name, .kwDefault]).named "inherits"]).maybe,
         braces.named "body"] }
  | .defineBlock =>
    { patterns := [[[.kwDefine]]]
      outerSpacing := true
      steps :=
        [expect [.kwDefine], (expect [.name]).named "name", parameters, braces.named "body"] }
  | .nodeBlock =>
    { patterns := [[[.kwNode]]]
      outerSpacing := true
      steps :=
        [expect [.kwNode],
         (expect nodeNameKinds).named "names",
         (inOrder [expect [.comma], (expect nodeNameKinds).named "names"]).many.maybe,
         (inOrder [expect [.kwInherits], (expect nodeNameKinds).named "inherits"]).maybe,
         braces.named "body"] }
  | .parameter =>
    { patterns := [[[.dollarVar]], [[.classRef]]]
      steps :=
        [firstOf
           [[(oneOf [.reference, .simple]).named "type", (expect [.dollarVar]).named "name"],
            [(expect [.dollarVar]).named "name"]],
         (inOrder [expect [.equals], (oneOf [.expression]).named "default"]).maybe] }
  | .resource =>
    { outerSpacing := true
      steps := resourceHead }
  | .title =>
    { steps := expressions "titles" ++ [expect [.colon]] }
  | .collector =>
    { patterns := [[collectorOpens]]
      steps :=
        [(expect collectorOpens).named "open",
         ((oneOf [.expression]).named "query").maybe,
         (expect collectorCloses).named "close"] }
  | .branch =>
    { patterns := [[[.kwIf, .kwElsif, .kwElse]]]
      outerSpacing := true
      steps :=
        [firstOf
           [[(expect [.kwIf, .kwElsif]).named "keyword",
             (oneOf [.expression]).named "condition"],
            [(expect [.kwElse]).named "keyword"]],
         braces.named "body"] }
  | .caseBlock =>
    { patterns := [[[.kwCase]]]
      outerSpacing := true
      steps :=
        [expect [.kwCase], (oneOf [.expression]).named "subject", braces.named "body"] }
  | .selector =>
    { steps :=
        [(oneOf [.reference, .simple]).named "subject",
         expect [.question],
         expect [.leftBrace],
         items [.comment, .blockComment, .pair],
         expect [.rightBrace]] }
  | .inclusion =>
    { patterns := [[[.kwInclude, .kwImport]]]
      steps := (expect [.kwInclude, .kwImport]).named "keyword" :: expressions "args" }
  | .assignment =>
    { patterns := [[[.dollarVar], [.equals, .plusEquals]]]
      steps :=
        [(expect [.dollarVar]).named "name",
         (expect [.equals, .plusEquals]).named "operator",
         (oneOf [.expression]).named "value"] }
  | .call =>
    { patterns := [[[.name], [.leftParen]]]
      skip := []
      steps :=
        [firstOf
           [[(expect [.name]).named "name",
             ((expect [.leftParen]).named "open").sameLine,
             ((oneOf [.expression]).named "args").maybe,
             (inOrder [expect [.comma], (oneOf [.expression]).named "args"]).many.maybe,
             (expect [.comma]).maybe,
             expect [.rightParen]],
            [(expect [.name]).named "name",
             ((oneOf [.expression]).named "args").sameLine,
             (inOrder [expect [.comma], (oneOf [.expression]).named "args"]).many.maybe]]] }
  | .chain =>
    { steps :=
        [(oneOf chainMembers).named "members",
         (inOrder
           [(expect Grammar.edges).named "edges",
            (oneOf chainMembers).named "members"]).many] }
  | .reference =>
    { patterns := [[referenceHeads, [.leftBracket]]]
      skip := []
      steps :=
        [(expect referenceHeads).named "head",
         ((oneOf [.list]).named "indexes").many.sameLine] }
  | .hash =>
    { patterns := [[[.leftBrace]]]
      steps :=
        [expect [.leftBrace], items [.comment, .blockComment, .pair], expect [.rightBrace]] }
  | .list =>
    { patterns := [[[.leftBracket]]]
      steps :=
        [expect [.leftBracket],
         items [.comment, .blockComment, .expression],
         expect [.rightBracket]] }
  | .pair =>
    { patterns := [[keyKinds, arrows]]
      steps :=
        [(expect keyKinds).named "key",
         (expect arrows).named "arrow",
         (oneOf [.expression]).named "value"] }
  | .expression =>
    { steps :=
        [(oneOf terms).named "parts",
         (inOrder
           [(expect binaryOperators).named "parts",
            (oneOf terms).named "parts"]).many.maybe] }
  | .parens =>
    { patterns := [[[.leftParen]]]
      steps :=
        [expect [.leftParen], (oneOf [.expression]).named "inner", expect [.rightParen]] }
  | .unary =>
    { patterns := [[[.bang, .minus]]]
      steps :=
        [(expect [.bang, .minus]).named "operator", (oneOf terms).named "operand"] }
  | .simple =>
    { patterns := [[simpleKinds]]
      steps := [(expect simpleKinds).named "token"] }

end TidyManifest
