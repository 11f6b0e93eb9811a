import TidyManifest.Proofs.Plain.Fits

/-!
# The shape of every category

`Schema` says for each category, apart from manifests and resources, what its contents are and what
stood in the text for them.  It is the grammar once more, written for reading: the steps of a rule
are interpreted once, in `Proofs.Plain.Interpret`, and everything that later holds of a category is
read off its schema.
-/

namespace TidyManifest.Plain

open Grammar

variable {ι : Type}

/-- A token that is not kept. -/
abbrev word (t : Token) : Option String × Capture ι := (none, .token t)

/-- A token that is kept under a name. -/
abbrev named (label : String) (t : Token) : Option String × Capture ι := (some label, .token t)

/-- A node that is kept under a name. -/
abbrev sub (label : String) (x : ι) : Option String × Capture ι := (some label, .node x)

/-- A block of statements. -/
abbrev body (xs : List ι) : Option String × Capture ι := (some "body", .block xs)

section

variable (categoryOf : ι → Category)

/-- Nodes of certain categories, each perhaps with a comma after it. -/
inductive Listed (label : String) (categories : List Category) : List ι → Trace ι → Prop
  | nil : Listed label categories [] []
  | plain {x : ι} {xs : List ι} {trace : Trace ι} (hx : categoryOf x ∈ categories)
      (more : Listed label categories xs trace) :
      Listed label categories (x :: xs) (sub label x :: trace)
  | comma {x : ι} {xs : List ι} {trace : Trace ι} {t : Token} (hx : categoryOf x ∈ categories)
      (ht : t.kind = .comma) (more : Listed label categories xs trace) :
      Listed label categories (x :: xs) (sub label x :: word t :: trace)

/-- Expressions, each with a comma before it. -/
inductive Further (label : String) : List ι → Trace ι → Prop
  | nil : Further label [] []
  | cons {x : ι} {xs : List ι} {trace : Trace ι} {t : Token} (ht : t.kind = .comma)
      (hx : categoryOf x = .expression) (more : Further label xs trace) :
      Further label (x :: xs) (word t :: sub label x :: trace)

/-- Expressions separated by commas. -/
inductive Joined (label : String) : List ι → Trace ι → Prop
  | intro {x : ι} {xs : List ι} {trace : Trace ι} (hx : categoryOf x = .expression)
      (more : Further categoryOf label xs trace) : Joined label (x :: xs) (sub label x :: trace)

/-- Names of nodes, each with a comma before it. -/
inductive FurtherNames : List Token → Trace ι → Prop
  | nil : FurtherNames [] []
  | cons {t name : Token} {names : List Token} {trace : Trace ι} (ht : t.kind = .comma)
      (hname : name.kind ∈ nodeNameKinds) (more : FurtherNames names trace) :
      FurtherNames (name :: names) (word t :: named "names" name :: trace)

/-- Members of a chain, each with an edge before it. -/
inductive Linked : List ι → List Token → Trace ι → Prop
  | nil : Linked [] [] []
  | cons {x : ι} {xs : List ι} {t : Token} {ts : List Token} {trace : Trace ι}
      (ht : t.kind ∈ edges) (hx : categoryOf x ∈ chainMembers) (more : Linked xs ts trace) :
      Linked (x :: xs) (t :: ts) (named "edges" t :: sub "members" x :: trace)

/-- Terms of an expression, each with an operator before it. -/
inductive Operated : List (Part ι) → Trace ι → Prop
  | nil : Operated [] []
  | cons {x : ι} {t : Token} {parts : List (Part ι)} {trace : Trace ι}
      (ht : t.kind ∈ binaryOperators) (hx : categoryOf x ∈ terms) (more : Operated parts trace) :
      Operated (.operator t :: .term x :: parts) (named "parts" t :: sub "parts" x :: trace)

/-- The parameters of a class or a define: none, or a list in parentheses. -/
inductive Parameters : List ι → Trace ι → Prop
  | none : Parameters [] []
  | list {opening closing : Token} {xs : List ι} {trace : Trace ι}
      (hopening : opening.kind = .leftParen)
      (items : Listed categoryOf "params" [.comment, .blockComment, .parameter] xs trace)
      (hclosing : closing.kind = .rightParen) :
      Parameters xs (word opening :: (trace ++ [word closing]))

/-- What a class or a node inherits from. -/
inductive Inheriting (kinds : List Kind) : Option Token → Trace ι → Prop
  | none : Inheriting kinds none []
  | some {t name : Token} (ht : t.kind = .kwInherits) (hname : name.kind ∈ kinds) :
      Inheriting kinds (some name) [word t, named "inherits" name]

/-- A node of certain categories that may be left out. -/
inductive Possible (label : String) (categories : List Category) : Option ι → Trace ι → Prop
  | none : Possible label categories none []
  | some {x : ι} (hx : categoryOf x ∈ categories) :
      Possible label categories (some x) [sub label x]

/-- The value of a parameter, if it has one. -/
inductive Defaulted : Option ι → Trace ι → Prop
  | none : Defaulted none []
  | some {t : Token} {x : ι} (ht : t.kind = .equals) (hx : categoryOf x = .expression) :
      Defaulted (some x) [word t, sub "default" x]

/-- A comma that may be left out. -/
inductive PossibleComma : Trace ι → Prop
  | none : PossibleComma []
  | some {t : Token} (ht : t.kind = .comma) : PossibleComma [word t]

/-- The contents of a category and what stands in the text for them. -/
inductive Schema : Category → Form ι → Trace ι → Prop
  | comment {t : Token} (ht : t.kind = .comment) :
      Schema .comment (.comment t.text) [named "text" t]
  | blockComment {t : Token} (ht : t.kind = .blockComment) :
      Schema .blockComment (.blockComment t.text) [named "text" t]
  | caseOption {values statements : List ι} {trace : Trace ι} {colon : Token}
      (hvalues : Joined categoryOf "values" values trace) (hcolon : colon.kind = .colon) :
      Schema .caseOption (.caseOption values statements) (trace ++ [word colon, body statements])
  | classBlock {keyword name : Token} {params statements : List ι} {inherits : Option Token}
      {trace more : Trace ι} (hkeyword : keyword.kind = .kwClass) (hname : name.kind = .name)
      (hparams : Parameters categoryOf params trace)
      (hinherits : Inheriting [.name, .kwDefault] inherits more) :
      Schema .classBlock (.classBlock name params inherits statements)
        (word keyword :: named "name" name :: (trace ++ (more ++ [body statements])))
  | defineBlock {keyword name : Token} {params statements : List ι} {trace : Trace ι}
      (hkeyword : keyword.kind = .kwDefine) (hname : name.kind = .name)
      (hparams : Parameters categoryOf params trace) :
      Schema .defineBlock (.defineBlock name params statements)
        (word keyword :: named "name" name :: (trace ++ [body statements]))
  | nodeBlock {keyword name : Token} {names : List Token} {statements : List ι}
      {inherits : Option Token} {trace more : Trace ι} (hkeyword : keyword.kind = .kwNode)
      (hname : name.kind ∈ nodeNameKinds) (hnames : FurtherNames names trace)
      (hinherits : Inheriting nodeNameKinds inherits more) :
      Schema .nodeBlock (.nodeBlock (name :: names) inherits statements)
        (word keyword :: named "names" name :: (trace ++ (more ++ [body statements])))
  | parameter {type value : Option ι} {name : Token} {trace more : Trace ι}
      (htype : Possible categoryOf "type" [.reference, .simple] type trace)
      (hname : name.kind = .dollarVar) (hvalue : Defaulted categoryOf value more) :
      Schema .parameter (.parameter type name value) (trace ++ named "name" name :: more)
  | title {titles : List ι} {trace : Trace ι} {colon : Token}
      (htitles : Joined categoryOf "titles" titles trace) (hcolon : colon.kind = .colon) :
      Schema .title (.title titles) (trace ++ [word colon])
  | collector {opening closing : Token} {query : Option ι} {trace : Trace ι}
      (hopening : opening.kind ∈ collectorOpens)
      (hquery : Possible categoryOf "query" [.expression] query trace)
      (hclosing : closing.kind ∈ collectorCloses) :
      Schema .collector (.collector opening query closing)
        (named "open" opening :: (trace ++ [named "close" closing]))
  | branch {keyword : Token} {condition : ι} {statements : List ι}
      (hkeyword : keyword.kind ∈ [Kind.kwIf, .kwElsif])
      (hcondition : categoryOf condition = .expression) :
      Schema .branch (.branch keyword (some condition) statements)
        [named "keyword" keyword, sub "condition" condition, body statements]
  | elseBranch {keyword : Token} {statements : List ι} (hkeyword : keyword.kind = .kwElse) :
      Schema .branch (.branch keyword none statements)
        [named "keyword" keyword, body statements]
  | caseBlock {keyword : Token} {subject : ι} {statements : List ι}
      (hkeyword : keyword.kind = .kwCase) (hsubject : categoryOf subject = .expression) :
      Schema .caseBlock (.caseBlock subject statements)
        [word keyword, sub "subject" subject, body statements]
  | selector {subject : ι} {items : List ι} {question opening closing : Token} {trace : Trace ι}
      (hsubject : categoryOf subject ∈ [Category.reference, .simple])
      (hquestion : question.kind = .question) (hopening : opening.kind = .leftBrace)
      (hitems : Listed categoryOf "items" [.comment, .blockComment, .pair] items trace)
      (hclosing : closing.kind = .rightBrace) :
      Schema .selector (.selector subject items)
        (sub "subject" subject :: word question :: word opening :: (trace ++ [word closing]))
  | inclusion {keyword : Token} {args : List ι} {trace : Trace ι}
      (hkeyword : keyword.kind ∈ [Kind.kwInclude, .kwImport])
      (hargs : Joined categoryOf "args" args trace) :
      Schema .inclusion (.inclusion keyword args) (named "keyword" keyword :: trace)
  | assignment {name operator : Token} {value : ι} (hname : name.kind = .dollarVar)
      (hoperator : operator.kind ∈ [Kind.equals, .plusEquals])
      (hvalue : categoryOf value = .expression) :
      Schema .assignment (.assignment name operator value)
        [named "name" name, named "operator" operator, sub "value" value]
  | call {name opening closing : Token} {arg : Option ι} {args : List ι}
      {trace more comma : Trace ι} (hname : name.kind = .name)
      (hopening : opening.kind = .leftParen)
      (harg : Possible categoryOf "args" [.expression] arg trace)
      (hargs : Further categoryOf "args" args more) (hcomma : PossibleComma comma)
      (hclosing : closing.kind = .rightParen) :
      Schema .call (.call name (arg.toList ++ args) true)
        (named "name" name :: named "open" opening ::
          (trace ++ (more ++ (comma ++ [word closing]))))
  | bareCall {name : Token} {args : List ι} {trace : Trace ι} (hname : name.kind = .name)
      (hargs : Joined categoryOf "args" args trace) :
      Schema .call (.call name args false) (named "name" name :: trace)
  | chain {member : ι} {members : List ι} {edge : Token} {edges : List Token} {trace : Trace ι}
      (hmember : categoryOf member ∈ chainMembers)
      (hmembers : Linked categoryOf members (edge :: edges) trace) :
      Schema .chain (.chain (member :: members) (edge :: edges)) (sub "members" member :: trace)
  | reference {head : Token} {index : ι} {indexes : List ι}
      (hhead : head.kind ∈ referenceHeads) (hindexes : ∀ x ∈ index :: indexes, categoryOf x = .list) :
      Schema .reference (.reference head (index :: indexes))
        (named "head" head :: (index :: indexes).map (sub "indexes"))
  | hash {opening closing : Token} {items : List ι} {trace : Trace ι}
      (hopening : opening.kind = .leftBrace)
      (hitems : Listed categoryOf "items" [.comment, .blockComment, .pair] items trace)
      (hclosing : closing.kind = .rightBrace) :
      Schema .hash (.hash items) (word opening :: (trace ++ [word closing]))
  | list {opening closing : Token} {items : List ι} {trace : Trace ι}
      (hopening : opening.kind = .leftBracket)
      (hitems : Listed categoryOf "items" [.comment, .blockComment, .expression] items trace)
      (hclosing : closing.kind = .rightBracket) :
      Schema .list (.list items) (word opening :: (trace ++ [word closing]))
  | pair {key arrow : Token} {value : ι} (hkey : key.kind ∈ keyKinds)
      (harrow : arrow.kind ∈ arrows) (hvalue : categoryOf value = .expression) :
      Schema .pair (.pair key arrow value 0)
        [named "key" key, named "arrow" arrow, sub "value" value]
  | expression {term : ι} {parts : List (Part ι)} {trace : Trace ι}
      (hterm : categoryOf term ∈ terms) (hparts : Operated categoryOf parts trace) :
      Schema .expression (.expression (.term term :: parts)) (sub "parts" term :: trace)
  | parens {opening closing : Token} {inner : ι} (hopening : opening.kind = .leftParen)
      (hinner : categoryOf inner = .expression) (hclosing : closing.kind = .rightParen) :
      Schema .parens (.parens inner) [word opening, sub "inner" inner, word closing]
  | unary {operator : Token} {operand : ι} (hoperator : operator.kind ∈ [Kind.bang, .minus])
      (hoperand : categoryOf operand ∈ terms) :
      Schema .unary (.unary operator operand) [named "operator" operator, sub "operand" operand]
  | simple {t : Token} (ht : t.kind ∈ simpleKinds) :
      Schema .simple (.simple t) [named "token" t]

/-- The head of a resource: sigils, a type or a reference, and perhaps a collector. -/
inductive HeadSchema : List Token → Head ι → Option ι → Trace ι → Prop
  | type {sigils : List Token} {t : Token} {collector : Option ι} {trace : Trace ι}
      (hsigils : ∀ s ∈ sigils, s.kind = .atSign) (ht : t.kind ∈ resourceTypes)
      (hcollector : Possible categoryOf "collector" [.collector] collector trace) :
      HeadSchema sigils (.type t) collector
        (sigils.map (named "sigil") ++ named "type" t :: trace)
  | reference {sigils : List Token} {x : ι} {collector : Option ι} {trace : Trace ι}
      (hsigils : ∀ s ∈ sigils, s.kind = .atSign) (hx : categoryOf x = .reference)
      (hcollector : Possible categoryOf "collector" [.collector] collector trace) :
      HeadSchema sigils (.reference x) collector
        (sigils.map (named "sigil") ++ sub "reference" x :: trace)

end

section

variable {categoryOf : ι → Category}

@[simp] theorem logOf_nil : logOf ([] : Trace ι) = [] := rfl

@[simp] theorem logOf_none (value : Capture ι) (trace : Trace ι) :
    logOf ((none, value) :: trace) = logOf trace := rfl

@[simp] theorem logOf_some (label : String) (value : Capture ι) (trace : Trace ι) :
    logOf ((some label, value) :: trace) = (label, value) :: logOf trace := rfl

/-- The log of a trace is made up entry by entry. -/
@[simp] theorem logOf_append (first more : Trace ι) :
    logOf (first ++ more) = logOf first ++ logOf more := by
  simp [logOf]

@[simp] theorem logOf_map_sub (label : String) (xs : List ι) :
    logOf (xs.map (sub label)) = xs.map fun x => (label, .node x) := by
  induction xs with
  | nil => rfl
  | cons x xs ih => simp [ih]

@[simp] theorem logOf_map_named (label : String) (ts : List Token) :
    logOf (ts.map (named label) : Trace ι) = ts.map fun t => (label, .token t) := by
  induction ts with
  | nil => rfl
  | cons t ts ih => simp [ih]

/-- The log of a list holds its items under one name. -/
theorem Listed.logOf_eq {label : String} {categories : List Category} {xs : List ι}
    {trace : Trace ι} (h : Listed categoryOf label categories xs trace) :
    logOf trace = xs.map fun x => (label, .node x) := by
  induction h with
  | nil => rfl
  | plain _ _ ih => simp [ih]
  | comma _ _ _ ih => simp [ih]

/-- The log of the rest of a list holds its items under one name. -/
theorem Further.logOf_eq {label : String} {xs : List ι} {trace : Trace ι}
    (h : Further categoryOf label xs trace) : logOf trace = xs.map fun x => (label, .node x) := by
  induction h with
  | nil => rfl
  | cons _ _ _ ih => simp [ih]

/-- The log of a list without a comma at its end holds its items under one name. -/
theorem Joined.logOf_eq {label : String} {xs : List ι} {trace : Trace ι}
    (h : Joined categoryOf label xs trace) : logOf trace = xs.map fun x => (label, .node x) := by
  cases h with
  | intro _ more => simp [more.logOf_eq]

/-- The log of the further names of a node holds these names. -/
theorem FurtherNames.logOf_eq {names : List Token} {trace : Trace ι}
    (h : FurtherNames names trace) : logOf trace = names.map fun t => ("names", .token t) := by
  induction h with
  | nil => rfl
  | cons _ _ _ ih => simp [ih]

/-- The log of a parameter list holds its parameters and comments. -/
theorem Parameters.logOf_eq {xs : List ι} {trace : Trace ι} (h : Parameters categoryOf xs trace) :
    logOf trace = xs.map fun x => ("params", .node x) := by
  cases h with
  | none => rfl
  | list _ items _ => simp [items.logOf_eq]

/-- The log of what may be left out holds it if it is there. -/
theorem Possible.logOf_eq {label : String} {categories : List Category} {x : Option ι}
    {trace : Trace ι} (h : Possible categoryOf label categories x trace) :
    logOf trace = x.toList.map fun x => (label, .node x) := by
  cases h <;> rfl

/-- A comma is not kept. -/
theorem PossibleComma.logOf_eq {trace : Trace ι} (h : PossibleComma trace) : logOf trace = [] := by
  cases h <;> rfl

end

section

@[simp] theorem all_nil (label : String) : (⟨[]⟩ : Captures ι).all label = [] := rfl

/-- An entry counts if it stands under the name. -/
@[simp] theorem all_cons (label : String) (entry : String × Capture ι)
    (log : List (String × Capture ι)) :
    (⟨entry :: log⟩ : Captures ι).all label =
      if entry.1 = label then entry.2 :: (⟨log⟩ : Captures ι).all label
      else (⟨log⟩ : Captures ι).all label := by
  by_cases h : entry.1 = label <;> simp [Captures.all, h]

/-- The entries under a name stand in the order of the log. -/
@[simp] theorem all_append (label : String) (first more : List (String × Capture ι)) :
    (⟨first ++ more⟩ : Captures ι).all label =
      (⟨first⟩ : Captures ι).all label ++ (⟨more⟩ : Captures ι).all label := by
  simp [Captures.all]

/-- Entries under one name are all there is under it, and nothing is under another. -/
@[simp] theorem all_map {β : Type} (label other : String) (f : β → Capture ι) (xs : List β) :
    (⟨xs.map fun x => (other, f x)⟩ : Captures ι).all label =
      if other = label then xs.map f else [] := by
  induction xs with
  | nil => simp
  | cons x xs ih => by_cases h : other = label <;> simp_all

@[simp] theorem has_cons (label : String) (entry : String × Capture ι)
    (log : List (String × Capture ι)) :
    (⟨entry :: log⟩ : Captures ι).has label =
      (entry.1 == label || (⟨log⟩ : Captures ι).has label) := rfl

/-- Entries under one name are not under another. -/
@[simp] theorem has_map {β : Type} (label other : String) (f : β → Capture ι) (xs : List β)
    (h : other ≠ label) : (⟨xs.map fun x => (other, f x)⟩ : Captures ι).has label = false := by
  simp [Captures.has, h]

@[simp] theorem node?_node (x : ι) : (Capture.node x).node? = some x := rfl

@[simp] theorem token?_token (t : Token) : (Capture.token t : Capture ι).token? = some t := rfl

@[simp] theorem node?_comp_node : (Capture.node? ∘ Capture.node : ι → Option ι) = some := rfl

@[simp] theorem token?_comp_token :
    ((Capture.token? : Capture ι → Option Token) ∘ Capture.token) = some := rfl

end

section

variable {categoryOf : ι → Category}

/-- The members of a chain stand under their name. -/
theorem Linked.members_eq {xs : List ι} {ts : List Token} {trace : Trace ι}
    (h : Linked categoryOf xs ts trace) :
    ((⟨logOf trace⟩ : Captures ι).all "members").filterMap Capture.node? = xs := by
  induction h with
  | nil => rfl
  | cons _ _ _ ih => simp [Capture.node?, ih]

/-- The edges of a chain stand under their name. -/
theorem Linked.edges_eq {xs : List ι} {ts : List Token} {trace : Trace ι}
    (h : Linked categoryOf xs ts trace) :
    ((⟨logOf trace⟩ : Captures ι).all "edges").filterMap Capture.token? = ts := by
  induction h with
  | nil => rfl
  | cons _ _ _ ih => simp [Capture.token?, ih]

/-- Operators and terms stand under one name, in order. -/
theorem Operated.parts_eq {parts : List (Part ι)} {trace : Trace ι}
    (h : Operated categoryOf parts trace) :
    ((⟨logOf trace⟩ : Captures ι).all "parts").filterMap Capture.part? = parts := by
  induction h with
  | nil => rfl
  | cons _ _ _ ih => simp [Capture.part?, ih]

/-- Contents that follow the schema of a category have this category. -/
theorem Schema.category_eq {category : Category} {form : Form ι} {trace : Trace ι}
    (h : Schema categoryOf category form trace) : form.category = category := by
  cases h <;> rfl

/-- Every rule reads something. -/
theorem Schema.trace_pos {category : Category} {form : Form ι} {trace : Trace ι}
    (h : Schema categoryOf category form trace) : 0 < trace.length := by
  cases h <;> exact List.length_pos_iff.mpr (by simp)

/-- The head of a resource is not empty. -/
theorem HeadSchema.trace_pos {sigils : List Token} {head : Head ι} {collector : Option ι}
    {trace : Trace ι} (h : HeadSchema categoryOf sigils head collector trace) :
    0 < trace.length := by
  cases h <;> exact List.length_pos_iff.mpr (by simp)

/-- The contents that a schema names are those that its log makes. -/
theorem Schema.ofCaptures?_eq {category : Category} {form : Form ι} {trace : Trace ι}
    (h : Schema categoryOf category form trace) :
    Form.ofCaptures? category ⟨logOf trace⟩ = some form := by
  cases h with
  | caseOption hvalues _ =>
    simp [Form.ofCaptures?, Captures.nodes, Captures.block?, Capture.block?, hvalues.logOf_eq]
  | classBlock _ _ hparams hinherits =>
    cases hinherits <;>
      simp [Form.ofCaptures?, Captures.token?, Captures.nodes, Captures.block?, Capture.token?,
        Capture.block?, hparams.logOf_eq]
  | defineBlock _ _ hparams =>
    simp [Form.ofCaptures?, Captures.token?, Captures.nodes, Captures.block?, Capture.token?,
      Capture.block?, hparams.logOf_eq]
  | nodeBlock _ _ hnames hinherits =>
    cases hinherits <;>
      simp [Form.ofCaptures?, Captures.token?, Captures.tokens, Captures.block?, Capture.token?,
        Capture.block?, hnames.logOf_eq]
  | parameter htype _ hvalue =>
    cases htype <;> cases hvalue <;>
      simp [Form.ofCaptures?, Captures.token?, Captures.node?, Capture.token?, Capture.node?]
  | title htitles _ =>
    simp [Form.ofCaptures?, Captures.nodes, htitles.logOf_eq]
  | collector _ hquery _ =>
    cases hquery <;>
      simp [Form.ofCaptures?, Captures.token?, Captures.node?, Capture.token?, Capture.node?]
  | selector _ _ _ hitems _ =>
    simp [Form.ofCaptures?, Captures.nodes, Captures.node?, Capture.node?, hitems.logOf_eq]
  | inclusion _ hargs =>
    simp [Form.ofCaptures?, Captures.token?, Captures.nodes, Capture.token?, hargs.logOf_eq]
  | call _ _ harg hargs hcomma _ =>
    simp [Form.ofCaptures?, Captures.token?, Captures.nodes, Capture.token?, harg.logOf_eq,
      hargs.logOf_eq, hcomma.logOf_eq]
  | bareCall _ hargs =>
    simp [Form.ofCaptures?, Captures.token?, Captures.nodes, Capture.token?, hargs.logOf_eq]
  | chain _ hmembers =>
    simp [Form.ofCaptures?, Captures.nodes, Captures.tokens, Capture.node?, hmembers.members_eq,
      hmembers.edges_eq]
  | reference _ _ =>
    simp [Form.ofCaptures?, Captures.token?, Captures.nodes, Capture.token?, Capture.node?]
  | hash _ hitems _ => simp [Form.ofCaptures?, Captures.nodes, hitems.logOf_eq]
  | list _ hitems _ => simp [Form.ofCaptures?, Captures.nodes, hitems.logOf_eq]
  | expression _ hparts => simp [Form.ofCaptures?, Capture.part?, hparts.parts_eq]
  | _ =>
    simp [Form.ofCaptures?, Captures.token?, Captures.node?, Captures.block?, Capture.token?,
      Capture.node?, Capture.block?]

section

variable {sigils : List Token} {head : Head ι} {collector : Option ι} {trace : Trace ι}

/-- The sigils that the head of a resource keeps. -/
theorem HeadSchema.sigils_eq (h : HeadSchema categoryOf sigils head collector trace) :
    (⟨logOf trace⟩ : Captures ι).tokens "sigil" = sigils := by
  cases h with
  | type _ _ hcollector =>
    cases hcollector <;> simp [Captures.tokens]
  | reference _ _ hcollector =>
    cases hcollector <;> simp [Captures.tokens]

/-- The collector that the head of a resource keeps. -/
theorem HeadSchema.collector_eq (h : HeadSchema categoryOf sigils head collector trace) :
    (⟨logOf trace⟩ : Captures ι).node? "collector" = collector := by
  cases h with
  | type _ _ hcollector =>
    cases hcollector <;> simp [Captures.node?, Capture.node?]
  | reference _ _ hcollector =>
    cases hcollector <;> simp [Captures.node?, Capture.node?]

/-- What the head of a resource declares. -/
theorem HeadSchema.head_eq (h : HeadSchema categoryOf sigils head collector trace) :
    Parse.resourceHead? (⟨logOf trace⟩ : Captures ι) = some head := by
  cases h with
  | type _ _ hcollector =>
    cases hcollector <;>
      simp [Parse.resourceHead?, Captures.node?, Captures.token?, Capture.token?]
  | reference _ _ hcollector =>
    cases hcollector <;>
      simp [Parse.resourceHead?, Captures.node?, Capture.node?]

end

end

end TidyManifest.Plain
