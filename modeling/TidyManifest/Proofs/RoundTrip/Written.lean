import TidyManifest.Proofs.Splitting.Reopened

/-!
# The tokens of a canonical text

`Written` relates values, and assignments of values, to the tokens that stand for them in a canonical
text.  It is stricter than `Spells`: a comma stands between two items of a list or a hash, a call has
its parentheses and a reference its brackets directly after the name, and newlines stand only between
items.  So the tokens leave no choice to a reader.  `Stated` does the same for statements: a newline
follows each of them, apart from a branch whose `else` joins its brace.

The brackets of values match (`Written.balanced`), which is what the recognition of a subject by
counting brackets relies on.
-/

namespace TidyManifest.Plain

open Parse Grammar

/-- What tokens of a canonical text can stand for. -/
inductive Shape where
  | phrase (p : Phrase)
  /-- items of one category, with commas and newlines between them -/
  | items (category : Category) (ps : List Phrase)
  /-- further expressions, each with a comma before it -/
  | further (ps : List Phrase)
  /-- index lists of a reference -/
  | indexes (ps : List Phrase)
  /-- parts of an expression after its first term -/
  | parts (parts : List (Part Phrase))

/-- The line of the first token. -/
def firstLine (w : List Token) : Nat :=
  (w.head?.map (·.line)).getD 0

/-- Tokens that stand for something in a canonical text. -/
inductive Written : Shape → List Token → Prop
  | simple {t : Token} (ht : t.kind ∈ simpleKinds) : Written (.phrase ⟨t.line, .simple t⟩) [t]
  | parens {opening closing : Token} {inner : Phrase} {w : List Token}
      (hopening : opening.kind = .leftParen) (hinner : inner.category = .expression)
      (value : Written (.phrase inner) w) (hclosing : closing.kind = .rightParen) :
      Written (.phrase ⟨opening.line, .parens inner⟩) (opening :: (w ++ [closing]))
  | unary {operator : Token} {operand : Phrase} {w : List Token}
      (hoperator : operator.kind ∈ [Kind.bang, .minus]) (hoperand : operand.category ∈ terms)
      (value : Written (.phrase operand) w) :
      Written (.phrase ⟨operator.line, .unary operator operand⟩) (operator :: w)
  | emptyCall {name opening closing : Token} (hname : name.kind = .name)
      (hopening : opening.kind = .leftParen) (hclosing : closing.kind = .rightParen) :
      Written (.phrase ⟨name.line, .call name [] true⟩) [name, opening, closing]
  | call {name opening closing : Token} {arg : Phrase} {args : List Phrase} {v w : List Token}
      (hname : name.kind = .name) (hopening : opening.kind = .leftParen)
      (harg : arg.category = .expression) (first : Written (.phrase arg) v)
      (more : Written (.further args) w) (hclosing : closing.kind = .rightParen) :
      Written (.phrase ⟨name.line, .call name (arg :: args) true⟩)
        (name :: opening :: (v ++ (w ++ [closing])))
  | reference {head : Token} {index : Phrase} {indexes : List Phrase} {w : List Token}
      (hhead : head.kind ∈ referenceHeads) (lists : Written (.indexes (index :: indexes)) w) :
      Written (.phrase ⟨head.line, .reference head (index :: indexes)⟩) (head :: w)
  | hash {opening closing : Token} {items : List Phrase} {w : List Token}
      (hopening : opening.kind = .leftBrace) (pairs : Written (.items .pair items) w)
      (hclosing : closing.kind = .rightBrace) :
      Written (.phrase ⟨opening.line, .hash items⟩) (opening :: (w ++ [closing]))
  | list {opening closing : Token} {items : List Phrase} {w : List Token}
      (hopening : opening.kind = .leftBracket) (values : Written (.items .expression items) w)
      (hclosing : closing.kind = .rightBracket) :
      Written (.phrase ⟨opening.line, .list items⟩) (opening :: (w ++ [closing]))
  | selector {subject : Phrase} {items : List Phrase} {question opening closing : Token}
      {v w : List Token} (hsubject : subject.category ∈ [Category.reference, .simple])
      (first : Written (.phrase subject) v) (hquestion : question.kind = .question)
      (hopening : opening.kind = .leftBrace) (pairs : Written (.items .pair items) w)
      (hclosing : closing.kind = .rightBrace) :
      Written (.phrase ⟨firstLine v, .selector subject items⟩)
        (v ++ question :: opening :: (w ++ [closing]))
  | pair {key arrow : Token} {value : Phrase} {w : List Token} (hkey : key.kind ∈ keyKinds)
      (harrow : arrow.kind ∈ arrows) (hvalue : value.category = .expression)
      (right : Written (.phrase value) w) :
      Written (.phrase ⟨key.line, .pair key arrow value 0⟩) (key :: arrow :: w)
  | expression {term : Phrase} {parts : List (Part Phrase)} {v w : List Token}
      (hterm : term.category ∈ terms) (first : Written (.phrase term) v)
      (more : Written (.parts parts) w) :
      Written (.phrase ⟨firstLine v, .expression (.term term :: parts)⟩) (v ++ w)
  | assignment {name operator : Token} {value : Phrase} {w : List Token}
      (hname : name.kind = .dollarVar) (hoperator : operator.kind ∈ [Kind.equals, .plusEquals])
      (hvalue : value.category = .expression) (right : Written (.phrase value) w) :
      Written (.phrase ⟨name.line, .assignment name operator value⟩) (name :: operator :: w)
  | noItem {category : Category} : Written (.items category []) []
  | newline {category : Category} {ps : List Phrase} {t : Token} {w : List Token}
      (ht : t.kind = .newline) (more : Written (.items category ps) w) :
      Written (.items category ps) (t :: w)
  | lastItem {p : Phrase} {w : List Token} (last : Written (.phrase p) w) :
      Written (.items p.category [p]) w
  | item {p : Phrase} {ps : List Phrase} {comma : Token} {v w : List Token}
      (first : Written (.phrase p) v) (hcomma : comma.kind = .comma)
      (more : Written (.items p.category ps) w) :
      Written (.items p.category (p :: ps)) (v ++ comma :: w)
  | noFurther : Written (.further []) []
  | further {p : Phrase} {ps : List Phrase} {comma : Token} {v w : List Token}
      (hcomma : comma.kind = .comma) (hp : p.category = .expression) (first : Written (.phrase p) v)
      (more : Written (.further ps) w) : Written (.further (p :: ps)) (comma :: (v ++ w))
  | noIndex : Written (.indexes []) []
  | index {p : Phrase} {ps : List Phrase} {v w : List Token} (hp : p.category = .list)
      (first : Written (.phrase p) v) (more : Written (.indexes ps) w) :
      Written (.indexes (p :: ps)) (v ++ w)
  | noPart : Written (.parts []) []
  | part {t : Token} {p : Phrase} {parts : List (Part Phrase)} {v w : List Token}
      (ht : t.kind ∈ binaryOperators) (hp : p.category ∈ terms) (first : Written (.phrase p) v)
      (more : Written (.parts parts) w) :
      Written (.parts (.operator t :: .term p :: parts)) (t :: (v ++ w))

/-- The first token is of a kind that the category allows, and on the line of the phrase. -/
theorem Written.opens {p : Phrase} {w : List Token} (h : Written (.phrase p) w) :
    ∃ t v, w = t :: v ∧ t.kind ∈ opens p.category ∧ t.line = p.line := by
  generalize hr : Shape.phrase p = r at h
  induction h generalizing p with
  | simple ht => cases hr; exact ⟨_, _, rfl, ht, rfl⟩
  | parens hopening => cases hr; exact ⟨_, _, rfl, List.mem_singleton.mpr hopening, rfl⟩
  | unary hoperator => cases hr; exact ⟨_, _, rfl, hoperator, rfl⟩
  | emptyCall hname => cases hr; exact ⟨_, _, rfl, List.mem_singleton.mpr hname, rfl⟩
  | call hname => cases hr; exact ⟨_, _, rfl, List.mem_singleton.mpr hname, rfl⟩
  | reference hhead => cases hr; exact ⟨_, _, rfl, hhead, rfl⟩
  | hash hopening => cases hr; exact ⟨_, _, rfl, List.mem_singleton.mpr hopening, rfl⟩
  | list hopening => cases hr; exact ⟨_, _, rfl, List.mem_singleton.mpr hopening, rfl⟩
  | selector hsubject _ _ _ _ _ ih =>
    cases hr
    obtain ⟨t, v, rfl, ht, -⟩ := ih rfl
    have hopens : ∀ c ∈ [Category.reference, .simple], Plain.opens c ⊆ Plain.opens .selector := by
      decide
    exact ⟨t, _, rfl, hopens _ hsubject ht, rfl⟩
  | pair hkey => cases hr; exact ⟨_, _, rfl, hkey, rfl⟩
  | expression hterm _ _ ih =>
    cases hr
    obtain ⟨t, v, rfl, ht, -⟩ := ih rfl
    have hopens : ∀ c ∈ terms, Plain.opens c ⊆ Plain.opens .expression := by decide
    exact ⟨t, _, rfl, hopens _ hterm ht, rfl⟩
  | assignment hname => cases hr; exact ⟨_, _, rfl, List.mem_singleton.mpr hname, rfl⟩
  | _ => cases hr

/-- Brackets inside the tokens match, so counting brackets passes over them. -/
def Balanced (w : List Token) : Prop :=
  ∀ depth rest, groupLength (depth + 1) (w ++ rest) =
    (groupLength (depth + 1) rest).map (w.length + ·)

section

variable {v w : List Token} {t : Token}

/-- No tokens have no brackets. -/
theorem balanced_nil : Balanced [] := by
  intro depth rest
  cases h : groupLength (depth + 1) rest <;> simp [h]

/-- Tokens in balance after tokens in balance. -/
theorem Balanced.append (hv : Balanced v) (hw : Balanced w) : Balanced (v ++ w) := by
  intro depth rest
  rw [List.append_assoc, hv, hw, Option.map_map]
  congr 1
  funext n
  simp only [Function.comp_apply, List.length_append]
  omega

/-- A token that is no bracket keeps the balance. -/
theorem Balanced.cons (hw : Balanced w) {kinds : List Kind} (ht : t.kind ∈ kinds)
    (hkinds : ∀ k ∈ kinds, k ≠ .leftBracket ∧ k ≠ .rightBracket) : Balanced (t :: w) := by
  intro depth rest
  obtain ⟨hleft, hright⟩ := hkinds _ ht
  have hstep : groupLength (depth + 1) (t :: (w ++ rest)) =
      (groupLength (depth + 1) (w ++ rest)).map (· + 1) := by
    rw [groupLength, if_neg (by simpa using hleft), if_neg (by simpa using hright)]
  rw [List.cons_append, hstep, hw, Option.map_map]
  congr 1
  funext n
  simp only [Function.comp_apply, List.length_cons]
  omega

theorem balanced_single {kinds : List Kind} (ht : t.kind ∈ kinds)
    (hkinds : ∀ k ∈ kinds, k ≠ .leftBracket ∧ k ≠ .rightBracket) : Balanced [t] :=
  balanced_nil.cons ht hkinds

/-- Counting from an opening bracket ends at the bracket that closes it. -/
theorem Balanced.groupLength_brackets {opening closing : Token} (hw : Balanced w)
    (hopening : opening.kind = .leftBracket) (hclosing : closing.kind = .rightBracket)
    (depth : Nat) (rest : List Token) :
    groupLength depth (opening :: (w ++ [closing]) ++ rest) =
      if depth = 0 then some (w.length + 2) else (groupLength depth rest).map (w.length + 2 + ·) := by
  have hinner : opening :: (w ++ [closing]) ++ rest = opening :: (w ++ closing :: rest) := by simp
  rw [hinner, groupLength, if_pos (by simp [hopening]), hw, groupLength,
    if_neg (by simp [hclosing]), if_pos (by simp [hclosing])]
  by_cases hdepth : depth = 0
  · simp [hdepth]
  · rw [if_neg (by simpa using hdepth), if_neg hdepth, Nat.add_sub_cancel, Option.map_map,
      Option.map_map]
    congr 1
    funext n
    simp only [Function.comp_apply]
    omega

end

/-- The brackets of what is written match. -/
theorem Written.balanced {r : Shape} {w : List Token} (h : Written r w) : Balanced w := by
  have hcons {t : Token} {w : List Token} (hw : Balanced w) {k : Kind} (ht : t.kind = k)
      (hk : k ≠ .leftBracket ∧ k ≠ .rightBracket) : Balanced (t :: w) :=
    hw.cons (List.mem_singleton.mpr ht) (by simpa using hk)
  have hlast {t : Token} {w : List Token} (hw : Balanced w) {k : Kind} (ht : t.kind = k)
      (hk : k ≠ .leftBracket ∧ k ≠ .rightBracket) : Balanced (w ++ [t]) :=
    hw.append (hcons balanced_nil ht hk)
  induction h with
  | simple ht => exact balanced_single ht (by decide)
  | parens hopening _ _ hclosing ih => exact hcons (hlast ih hclosing (by decide)) hopening (by decide)
  | unary hoperator _ _ ih => exact ih.cons hoperator (by decide)
  | emptyCall hname hopening hclosing =>
    exact hcons (hcons (hcons balanced_nil hclosing (by decide)) hopening (by decide)) hname
      (by decide)
  | call hname hopening _ _ _ hclosing ihfirst ihmore =>
    exact hcons (hcons (ihfirst.append (hlast ihmore hclosing (by decide))) hopening (by decide)) hname
      (by decide)
  | reference hhead _ ih => exact ih.cons hhead (by decide)
  | hash hopening _ hclosing ih => exact hcons (hlast ih hclosing (by decide)) hopening (by decide)
  | list hopening _ hclosing ih =>
    intro depth rest
    rw [ih.groupLength_brackets hopening hclosing, if_neg (Nat.succ_ne_zero depth)]
    simp
  | selector _ _ hquestion hopening _ hclosing ihfirst ihpairs =>
    exact ihfirst.append (hcons (hcons (hlast ihpairs hclosing (by decide)) hopening (by decide))
      hquestion (by decide))
  | pair hkey harrow _ _ ih => exact (ih.cons harrow (by decide)).cons hkey (by decide)
  | expression _ _ _ ihfirst ihmore => exact ihfirst.append ihmore
  | assignment hname hoperator _ _ ih => exact hcons (ih.cons hoperator (by decide)) hname (by decide)
  | noItem => exact balanced_nil
  | newline ht _ ih => exact hcons ih ht (by decide)
  | lastItem _ ih => exact ih
  | item _ hcomma _ ihfirst ihmore => exact ihfirst.append (hcons ihmore hcomma (by decide))
  | noFurther => exact balanced_nil
  | further hcomma _ _ _ ihfirst ihmore => exact hcons (ihfirst.append ihmore) hcomma (by decide)
  | noIndex => exact balanced_nil
  | index _ _ _ ihfirst ihmore => exact ihfirst.append ihmore
  | noPart => exact balanced_nil
  | part ht _ _ _ ihfirst ihmore => exact (ihfirst.append ihmore).cons ht (by decide)

/-- Index lists are as many groups in brackets. -/
theorem Written.groupsLength_eq {ps : List Phrase} {w rest : List Token}
    (h : Written (.indexes ps) w) (hrest : Lookahead.startsWith [.leftBracket] [] rest = false) :
    groupsLength (w ++ rest) = some w.length := by
  induction ps generalizing w with
  | nil =>
    cases h
    cases rest with
    | nil => rw [List.nil_append, groupsLength]; rfl
    | cons t rest =>
      rw [startsWith_cons (by simp)] at hrest
      rw [List.nil_append, groupsLength, if_neg (by simpa using hrest)]
      rfl
  | cons p ps ih =>
    cases h with
    | @index _ _ v w hp first more =>
      obtain ⟨line, form⟩ := p
      cases first with
      | @list opening closing items u hopening values hclosing =>
        have hgroup := values.balanced.groupLength_brackets hopening hclosing 0 (w ++ rest)
        rw [if_pos rfl] at hgroup
        have hdrop : (u ++ [closing] ++ (w ++ rest)).drop (u.length + 2 - 1) = w ++ rest :=
          List.drop_left' (by simp)
        rw [List.append_assoc, List.cons_append, groupsLength, if_pos (by simp [hopening]),
          ← List.cons_append, hgroup]
        simp only [hdrop, ih more, Option.map_some, List.length_append, List.length_cons,
          List.length_nil]
      | _ => cases hp

/-- Expressions with commas between them. -/
inductive Row : List Phrase → List Token → Prop
  | intro {p : Phrase} {ps : List Phrase} {v w : List Token} (hp : p.category = .expression)
      (first : Written (.phrase p) v) (more : Written (.further ps) w) : Row (p :: ps) (v ++ w)

/-- Items of a resource: each attribute has a comma after it. -/
inductive Members : List Phrase → List Token → Prop
  | done : Members [] []
  | newline {ps : List Phrase} {t : Token} {w : List Token} (ht : t.kind = .newline)
      (more : Members ps w) : Members ps (t :: w)
  | title {titles ps : List Phrase} {colon : Token} {v w : List Token} (values : Row titles v)
      (hcolon : colon.kind = .colon) (more : Members ps w) :
      Members (⟨firstLine v, .title titles⟩ :: ps) (v ++ colon :: w)
  | pair {p : Phrase} {ps : List Phrase} {comma : Token} {v w : List Token} (hp : p.category = .pair)
      (first : Written (.phrase p) v) (hcomma : comma.kind = .comma) (more : Members ps w) :
      Members (p :: ps) (v ++ comma :: w)

/-- What stands in front of the block of a statement. -/
inductive Headed : Category → (List Phrase → Form Phrase) → List Token → Prop
  | classBlock {keyword name : Token} (hkeyword : keyword.kind = .kwClass) (hname : name.kind = .name) :
      Headed .classBlock (.classBlock name [] none) [keyword, name]
  | defineBlock {keyword name : Token} (hkeyword : keyword.kind = .kwDefine)
      (hname : name.kind = .name) : Headed .defineBlock (.defineBlock name []) [keyword, name]
  | nodeBlock {keyword name : Token} (hkeyword : keyword.kind = .kwNode)
      (hname : name.kind ∈ nodeNameKinds) : Headed .nodeBlock (.nodeBlock [name] none) [keyword, name]
  | branch {keyword : Token} {condition : Phrase} {w : List Token}
      (hkeyword : keyword.kind ∈ [Kind.kwIf, .kwElsif]) (hcondition : condition.category = .expression)
      (value : Written (.phrase condition) w) :
      Headed .branch (.branch keyword (some condition)) (keyword :: w)
  | elseBranch {keyword : Token} (hkeyword : keyword.kind = .kwElse) :
      Headed .branch (.branch keyword none) [keyword]
  | caseBlock {keyword : Token} {subject : Phrase} {w : List Token} (hkeyword : keyword.kind = .kwCase)
      (hsubject : subject.category = .expression) (value : Written (.phrase subject) w) :
      Headed .caseBlock (.caseBlock subject) (keyword :: w)
  | caseOption {values : List Phrase} {colon : Token} {w : List Token} (row : Row values w)
      (hcolon : colon.kind = .colon) : Headed .caseOption (.caseOption values) (w ++ [colon])

/-- What tokens of a canonical text can stand for, apart from values. -/
inductive Sentence where
  | statement (p : Phrase)
  /-- statements below a parent of some category -/
  | body (parent : Category) (ps : List Phrase)

/-- Tokens that stand for statements in a canonical text. -/
inductive Stated : Sentence → List Token → Prop
  | value {p : Phrase} {w : List Token} (hp : p.category ∈ [Category.assignment, .call])
      (h : Written (.phrase p) w) : Stated (.statement p) w
  | inclusion {keyword : Token} {args : List Phrase} {w : List Token}
      (hkeyword : keyword.kind ∈ [Kind.kwInclude, .kwImport]) (row : Row args w) :
      Stated (.statement ⟨keyword.line, .inclusion keyword args⟩) (keyword :: w)
  | resource {r : Reopening} {items : List Phrase} {closing : Token} {w : List Token}
      (members : Members items w) (hclosing : closing.kind = .rightBrace) :
      Stated (.statement ⟨r.first.line, .resource (sigilText r.sigils) (.type r.type) none true items⟩)
        (r.tokens (w ++ [closing]))
  | block {category : Category} {form : List Phrase → Form Phrase} {ps : List Phrase}
      {opening closing : Token} {v w : List Token} (head : Headed category form v)
      (hopening : opening.kind = .leftBrace) (body : Stated (.body category ps) w)
      (hclosing : closing.kind = .rightBrace) :
      Stated (.statement ⟨firstLine v, form ps⟩) (v ++ opening :: (w ++ [closing]))
  | done {parent : Category} : Stated (.body parent []) []
  | pause {parent : Category} {ps : List Phrase} {t : Token} {w : List Token} (ht : t.kind = .newline)
      (more : Stated (.body parent ps) w) : Stated (.body parent ps) (t :: w)
  | statement {parent : Category} {p : Phrase} {ps : List Phrase} {t : Token} {v w : List Token}
      (hp : p.category = .caseOption ↔ parent = .caseBlock) (first : Stated (.statement p) v)
      (ht : t.kind = .newline) (more : Stated (.body parent ps) w) :
      Stated (.body parent (p :: ps)) (v ++ t :: w)
  | joined {parent : Category} {p : Phrase} {ps : List Phrase} {v w : List Token}
      (hp : p.category = .caseOption ↔ parent = .caseBlock) (hbranch : p.category = .branch)
      (first : Stated (.statement p) v) (more : Stated (.body parent ps) w) :
      Stated (.body parent (p :: ps)) (v ++ w)

/-- A row starts as a value does. -/
theorem Row.opens {ps : List Phrase} {w : List Token} (h : Row ps w) :
    ∃ t v, w = t :: v ∧ t.kind ∈ expressionOpens := by
  cases h with
  | intro hp first =>
    obtain ⟨t, v, rfl, ht, -⟩ := first.opens
    rw [hp] at ht
    exact ⟨t, _, rfl, ht⟩

theorem Headed.category_eq {category : Category} {form : List Phrase → Form Phrase} {w : List Token}
    (h : Headed category form w) (ps : List Phrase) : (form ps).category = category := by
  cases h <;> rfl

/-- A head starts as a statement of its category does. -/
theorem Headed.opens {category : Category} {form : List Phrase → Form Phrase} {w : List Token}
    (h : Headed category form w) : ∃ t v, w = t :: v ∧ t.kind ∈ Plain.opens category := by
  cases h with
  | classBlock hkeyword => exact ⟨_, _, rfl, List.mem_singleton.mpr hkeyword⟩
  | defineBlock hkeyword => exact ⟨_, _, rfl, List.mem_singleton.mpr hkeyword⟩
  | nodeBlock hkeyword => exact ⟨_, _, rfl, List.mem_singleton.mpr hkeyword⟩
  | branch hkeyword => exact ⟨_, _, rfl, List.mem_append_left [Kind.kwElse] hkeyword⟩
  | elseBranch hkeyword => exact ⟨_, _, rfl, by simp [hkeyword, Plain.opens]⟩
  | caseBlock hkeyword => exact ⟨_, _, rfl, List.mem_singleton.mpr hkeyword⟩
  | caseOption row =>
    obtain ⟨t, v, rfl, ht⟩ := row.opens
    exact ⟨t, _, rfl, ht⟩

/-- Categories of statements that a canonical text of the basic sorts has. -/
def basicStatements : List Category :=
  [.classBlock, .defineBlock, .nodeBlock, .branch, .caseBlock, .caseOption, .inclusion, .assignment,
    .resource, .call]

/-- Only statements of the basic sorts are described. -/
theorem Stated.category_mem {p : Phrase} {w : List Token} (h : Stated (.statement p) w) :
    p.category ∈ basicStatements := by
  cases h with
  | value hp =>
    have hsub : [Category.assignment, .call] ⊆ basicStatements := by decide
    exact hsub hp
  | block head =>
    rw [Phrase.category, Phrase.form_mk, head.category_eq]
    cases head <;> decide
  | _ => simp [Phrase.category, Form.category, basicStatements]

/-- The first token of a statement is of a kind that its category allows. -/
theorem Stated.opens {p : Phrase} {w : List Token} (h : Stated (.statement p) w) :
    ∃ t v, w = t :: v ∧ t.kind ∈ Plain.opens p.category := by
  cases h with
  | value _ h =>
    obtain ⟨t, v, hw, ht, -⟩ := h.opens
    exact ⟨t, v, hw, ht⟩
  | inclusion hkeyword => exact ⟨_, _, rfl, hkeyword⟩
  | @resource r =>
    have hsub : Kind.atSign :: resourceTypes ⊆ resourceOpens := by decide
    obtain ⟨more, hmore⟩ := r.tokens_eq _
    exact ⟨_, _, hmore, hsub r.first_mem⟩
  | block head =>
    rw [Phrase.category, Phrase.form_mk, head.category_eq]
    obtain ⟨t, u, rfl, ht⟩ := head.opens
    exact ⟨t, _, rfl, ht⟩

end TidyManifest.Plain
