import TidyManifest.Proofs.RoundTrip.Reading
import TidyManifest.Proofs.Splitting.Statements

/-!
# Reading statements

The tokens of statements are read as those statements (`Stated.rereads`).  A statement is tried as
each category in turn, so the categories before the right one must not be recognised.

A newline keeps two statements apart: none of them starts with a token that continues an expression, a
row of expressions or a chain.  Case options may start so, but only a block stands before them.
-/

namespace TidyManifest.Plain

open Parse Grammar

section

variable {p : Phrase} {ps : List Phrase} {v w rest : List Token}

/-- Nothing in the tokens after a row of expressions continues it. -/
structure RowEnded (rest : List Token) : Prop extends Ended rest where
  comma : Lookahead.startsWith [.comma] newlines rest = false

/-- A row is read as the expressions that it is, and then what follows it. -/
theorem Row.inOrder_eq (h : Row ps w) (hrest : RowEnded rest) (label : String) (owner : Category)
    (steps : List Step) :
    ∃ trace, Joined Phrase.category label ps trace ∧
      inOrder full owner (expressions label ++ steps) (w ++ rest) =
        andThen (inOrder full owner steps rest) fun more rest => .ok (some (trace ++ more, rest)) := by
  cases h with
  | @intro p ps v w hp first more =>
    obtain ⟨trace, hruns, hfurther⟩ := more.rereads label owner rest hrest.toEnded hrest.comma
    have hfirst : once full owner ((Step.oneOf [.expression]).named label) (v ++ (w ++ rest)) =
        .ok (some ([sub label p], w ++ rest)) :=
      once_node (first.reads_expression hp first.rereads (more.ended hrest.toEnded) _)
    refine ⟨sub label p :: trace, .intro hp hfurther, ?_⟩
    show inOrder full owner (_ :: further label :: steps) _ = _
    rw [List.append_assoc, inOrder_maybe rfl hfirst, inOrder_runs rfl rfl hruns]
    rcases inOrder full owner steps rest with _ | _ | _ <;> rfl

/-- A row with a colon after it. -/
theorem Row.inOrder_colon {colon : Token} (h : Row ps w) (hcolon : colon.kind = .colon)
    (label : String) (owner : Category) (rest : List Token) :
    ∃ trace, Joined Phrase.category label ps trace ∧
      inOrder full owner (expressions label ++ [Step.expect [.colon]]) (w ++ colon :: rest) =
        .ok (some (trace ++ [word colon], rest)) := by
  have hended : RowEnded (colon :: rest) :=
    ⟨ended_cons hcolon (by decide), startsWith_of_not_mem (by rw [hcolon]; decide)⟩
  obtain ⟨trace, hjoined, hread⟩ := h.inOrder_eq hended label owner [Step.expect [.colon]]
  refine ⟨trace, hjoined, hread.trans ?_⟩
  rw [inOrder_expect hcolon (by decide)]
  rfl

/-- A title is read up to its colon. -/
theorem choose_title {colon : Token} (h : Row ps w) (hcolon : colon.kind = .colon) (parent : Category)
    (rest : List Token) :
    full.choose [.title] parent (w ++ colon :: rest) =
      .ok (some (⟨firstLine w, .title ps⟩, rest)) := by
  obtain ⟨trace, hjoined, hread⟩ := h.inOrder_colon hcolon "titles" .title rest
  obtain ⟨t, v, rfl, ht⟩ := h.opens
  rw [full_choose, chooseFrom_here (show accepts full .title parent _ = true from rfl)]
  exact phrase_of_schema (.title hjoined hcolon) (by decide)
    (not_newline_of_opens (c := .expression) ht) hread

/-- A value that no arrow follows is no key of a pair. -/
theorem Written.not_atPair (h : Written (.phrase p) w) (hp : p.category ∈ .expression :: terms)
    (hrest : Lookahead.startsWith arrows newlines rest = false) : atPair (w ++ rest) = false := by
  have hopening {t : Token} {tokens : List Token} {kinds : List Kind} (ht : t.kind ∈ kinds)
      (hkinds : ∀ kind ∈ kinds, kind ∉ newlines ∧ keyKinds.contains kind = false) :
      atPair (t :: tokens) = false := by
    rw [atPair, fits_cons (hkinds _ ht).1, (hkinds _ ht).2, Bool.false_and]
  have hnext {t : Token} {tokens : List Token} (ht : t.kind ∉ newlines)
      (htokens : Lookahead.startsWith arrows newlines tokens = false) :
      atPair (t :: tokens) = false := by
    rw [atPair, fits_cons ht, fits_single, htokens, Bool.and_false]
  generalize hr : Shape.phrase p = r at h
  induction h generalizing p rest with
  | simple ht => exact hnext (not_newline_of_opens (c := .simple) ht) hrest
  | parens hopens => exact hopening (List.mem_singleton.mpr hopens) (by decide)
  | unary hoperator => exact hopening hoperator (by decide)
  | emptyCall hname hopens | call hname hopens =>
    exact hnext (by rw [hname]; decide) (startsWith_of_not_mem (by rw [hopens]; decide))
  | reference hhead lists =>
    obtain ⟨t, v, rfl, ht⟩ := lists.indexes_opens
    exact hnext (not_newline_of_opens (c := .reference) hhead)
      (startsWith_of_not_mem (by rw [ht]; decide))
  | hash hopens => exact hopening (List.mem_singleton.mpr hopens) (by decide)
  | list hopens => exact hopening (List.mem_singleton.mpr hopens) (by decide)
  | selector hsubject _ hquestion _ _ _ ih =>
    have hterms : ∀ c ∈ [Category.reference, .simple], c ∈ .expression :: terms := by decide
    rw [List.append_assoc]
    exact ih (hterms _ hsubject) (startsWith_of_not_mem (by rw [hquestion]; decide)) rfl
  | expression hterm _ more ih =>
    rw [List.append_assoc]
    refine ih (List.mem_cons_of_mem _ hterm) ?_ rfl
    cases more with
    | noPart => exact hrest
    | part ht =>
      have hkinds : ∀ kind ∈ binaryOperators, kind ∉ newlines ++ arrows := by decide
      exact startsWith_of_not_mem (hkinds _ ht)
  | _ => cases hr <;> exact absurd hp (by simp [Phrase.category, Form.category, terms])

theorem Row.not_atPair {colon : Token} (h : Row ps w) (hcolon : colon.kind = .colon)
    (rest : List Token) : atPair (w ++ colon :: rest) = false := by
  cases h with
  | intro hp first more =>
    rw [List.append_assoc]
    refine first.not_atPair (by simp [hp]) ?_
    cases more with
    | noFurther => exact startsWith_of_not_mem (by rw [hcolon]; decide)
    | further hcomma => exact startsWith_of_not_mem (by rw [hcomma]; decide)

/-- An item of a resource is read, and then those after it. -/
theorem allItems_item {t : Token} {tokens middle : List Token} {item : Phrase} {category : Category}
    (ht : t.kind ∈ expressionOpens) (hcategory : category = if atPair (t :: tokens) then .pair else .title)
    (hitem : full.choose [category] .resource (t :: tokens) = .ok (some (item, middle)))
    (hmore : allItems middle = .ok (some (ps, rest))) :
    allItems (t :: tokens) = .ok (some (item :: ps, rest)) := by
  have hkinds : ∀ kind ∈ expressionOpens, kind ∉ newlines ∧ (kind == .rightBrace) = false ∧
      (kind == .semicolon || kind == .comma) = false ∧
      (kind == .comment || kind == .blockComment) = false := by decide
  obtain ⟨hnewline, hbrace, hseparator, hcomment⟩ := hkinds _ ht
  have hcategories : itemCategories t tokens = [category] := by
    rw [itemCategories, hcomment, hcategory]
    exact (apply_ite (fun category => [category]) _ _ _).symm
  rw [allItems_eq, Lookahead.significant_cons hnewline]
  simp only [hbrace, hseparator, Bool.false_eq_true, if_false, hcategories, hitem, withItem, andThen_some,
    hmore]

/-- The items of a resource are read up to the closing brace. -/
theorem Members.allItems_eq {closing : Token} (h : Members ps w) (hclosing : closing.kind = .rightBrace)
    (rest : List Token) : allItems (w ++ closing :: rest) = .ok (some (ps, rest)) := by
  induction h with
  | done =>
    rw [List.nil_append, Plain.allItems_eq, Lookahead.significant_cons (by simp [hclosing, newlines])]
    simp [hclosing]
  | @newline ps t w ht _ ih =>
    rw [← ih, List.cons_append, ← allItems_significant, ← allItems_significant (w ++ _)]
    simp [Lookahead.significant, Token.isOneOf, newlines, ht]
  | @title titles ps colon v w values hcolon _ ih =>
    have hpair := values.not_atPair hcolon (w ++ closing :: rest)
    have hread := choose_title values hcolon .resource (w ++ closing :: rest)
    obtain ⟨t, v, rfl, ht⟩ := values.opens
    rw [List.cons_append] at hpair hread
    rw [List.append_assoc, List.cons_append, List.cons_append]
    exact allItems_item ht (by rw [hpair]; rfl) hread ih
  | @pair p ps comma v w hp first hcomma _ ih =>
    have hended : Ended (comma :: (w ++ closing :: rest)) := ended_cons hcomma (by decide)
    have hread := first.rereads (comma :: (w ++ closing :: rest)) (by rw [hp]; exact hended)
    have hmore : allItems (comma :: (w ++ closing :: rest)) = .ok (some (ps, rest)) := by
      rw [Plain.allItems_eq, Lookahead.significant_cons (by rw [hcomma]; decide)]
      simp [hcomma, ih]
    rw [List.append_assoc, List.cons_append]
    cases first with
    | @pair key arrow value u hkey harrow =>
      have hpair : atPair (key :: arrow :: (u ++ comma :: (w ++ closing :: rest))) = true := by
        rw [atPair, fits_cons (not_newline_of_mem hkey (by decide)),
          fits_cons (not_newline_of_mem harrow (by decide))]
        simp [Lookahead.fits, hkey, harrow]
      have hopens : keyKinds ⊆ expressionOpens := by decide
      rw [List.cons_append, List.cons_append] at hread ⊢
      refine allItems_item (hopens hkey) (by rw [if_pos hpair]) ?_ hmore
      rw [full_choose, chooseFrom_here ?_]
      · exact hread
      · simpa [accepts, atPattern, Category.rule, atPair] using hpair
    | _ => cases hp

end

section

variable {parent category : Category} {t name : Token} {tokens : List Token}

/-- Statements that are recognised by a word of their own. -/
def wordedStatements : List Category :=
  [.comment, .blockComment, .classBlock, .defineBlock, .nodeBlock, .branch, .caseBlock, .inclusion,
    .assignment]

/-- A statement with a word of its own is not recognised where another token stands. -/
theorem not_accepts_worded (hcategory : category ∈ wordedStatements)
    (ht : t.kind ∉ newlines ++ opens category) :
    accepts full category parent (t :: tokens) = false := by
  have hrules : ∀ c ∈ wordedStatements, c.rule.skip = newlines ∧
      ∃ more ∈ [[], [[Kind.name]], [[.equals, .plusEquals]]], c.rule.patterns = [opens c :: more] := by
    decide
  obtain ⟨hskip, more, -, hpatterns⟩ := hrules _ hcategory
  have haccepts : accepts full category parent (t :: tokens) =
      atPattern category.rule (t :: tokens) := by
    cases category <;> first | rfl | exact absurd hcategory (by decide)
  rw [List.mem_append, not_or] at ht
  have hfirst : (opens category).contains t.kind = false := by simpa using ht.2
  rw [haccepts, atPattern, hpatterns, hskip, List.any_cons, fits_cons ht.1, hfirst]
  rfl

/-- Where no case option can stand, none is recognised. -/
theorem not_accepts_caseOption (hparent : parent ≠ .caseBlock) (tokens : List Token) :
    accepts full .caseOption parent tokens = false := by
  rw [accepts, beq_false_of_ne hparent, Bool.false_and]

/-- The categories that are tried before another are passed over. -/
theorem chooseFrom_worded {before after : List Category}
    (hbefore : before ⊆ .caseOption :: wordedStatements) (hparent : parent ≠ .caseBlock)
    (ht : ∀ c ∈ before, c ≠ .caseOption → t.kind ∉ newlines ++ opens c) :
    chooseFrom full (before ++ after) parent (t :: tokens) =
      chooseFrom full after parent (t :: tokens) := by
  refine chooseFrom_append fun c hc => ?_
  rcases List.mem_cons.mp (hbefore hc) with rfl | hworded
  · exact not_accepts_caseOption hparent _
  · have hne : c ≠ .caseOption := fun heq => absurd (heq ▸ hworded) (by decide)
    exact not_accepts_worded hworded (ht c hc hne)

/-- A statement with a word of its own is chosen where it is recognised. -/
theorem choose_worded (hcategory : category ∈ wordedStatements) (hparent : parent ≠ .caseBlock)
    (ht : t.kind ∈ opens category) (hhere : accepts full category parent (t :: tokens) = true) :
    full.choose Grammar.statements parent (t :: tokens) = phrase full category (t :: tokens) := by
  let before (c : Category) := Grammar.statements.takeWhile (· != c)
  have hsplit : ∀ c ∈ wordedStatements, before c ++ [c] <+: Grammar.statements ∧
      before c ⊆ .caseOption :: wordedStatements ∧
        ∀ kind ∈ opens c, ∀ c' ∈ before c, c' ≠ .caseOption → kind ∉ newlines ++ opens c' := by
    decide
  obtain ⟨⟨after, hafter⟩, hbefore, hkinds⟩ := hsplit _ hcategory
  rw [full_choose, ← hafter, List.append_assoc, chooseFrom_worded hbefore hparent (hkinds _ ht)]
  exact chooseFrom_here hhere

/-- Where one word is enough to recognise a statement. -/
theorem choose_of_word (hcategory : category ∈ wordedStatements)
    (hpatterns : category.rule.patterns = [[opens category]]) (hparent : parent ≠ .caseBlock)
    (ht : t.kind ∈ opens category) (tokens : List Token) :
    full.choose Grammar.statements parent (t :: tokens) = phrase full category (t :: tokens) := by
  have hskip : ∀ c ∈ wordedStatements, c.rule.skip = newlines := by decide
  refine choose_worded hcategory hparent ht ?_
  rw [accepts_first (not_newline_of_opens ht) hpatterns (hskip _ hcategory)]
  simpa using ht

/-- A name without a brace after it starts no resource. -/
theorem not_atResource_name (hname : name.kind = .name)
    (htokens : Lookahead.startsWith [.leftBrace] newlines tokens = false) :
    atResource (name :: tokens) = false := by
  have hnewline : name.kind ∉ newlines := by rw [hname]; decide
  have hsigil : Lookahead.startsWith [.atSign] newlines (name :: tokens) = false :=
    startsWith_of_not_mem (by rw [hname]; decide)
  have hbrace : Lookahead.fits newlines [resourceTypes, [.leftBrace]] (name :: tokens) = false := by
    rw [fits_cons hnewline, fits_single, htokens, Bool.and_false]
  have hcollector : Lookahead.fits newlines [[.classRef], collectorOpens] (name :: tokens) = false := by
    rw [fits_cons hnewline, hname]
    rfl
  have hoverride : atOverride (name :: tokens) = false := by
    have hlength : subjectLength (name :: tokens) = some 1 := by
      simp [subjectLength, Token.isOneOf, hname, newlines, simpleKinds, referenceHeads]
    simp [atOverride, hlength, hname]
  rw [atResource, hsigil, hbrace, hcollector, hoverride]
  rfl

/-- A name with a parenthesis after it is a call. -/
theorem choose_call {opening : Token} (hparent : parent ≠ .caseBlock) (hname : name.kind = .name)
    (hopening : opening.kind = .leftParen) (tokens : List Token) :
    full.choose Grammar.statements parent (name :: opening :: tokens) =
      phrase full .call (name :: opening :: tokens) := by
  have hbefore : ∀ c ∈ .caseOption :: wordedStatements, c ≠ .caseOption →
      Kind.name ∉ newlines ++ opens c := by decide
  -- a chain is recognised by reading its first member
  have hresource (parent : Category) :
      accepts full .resource parent (name :: opening :: tokens) = false :=
    not_atResource_name hname (startsWith_of_not_mem (by rw [hopening]; decide))
  have hreference : accepts full .reference parent (name :: opening :: tokens) = false := by
    have hfits : Lookahead.fits [] [referenceHeads, [.leftBracket]] (name :: opening :: tokens) =
        false := by
      rw [fits_cons (by simp), hname]
      rfl
    simp [accepts, atPattern, Category.rule, hfits]
  have hchain : accepts full .chain parent (name :: opening :: tokens) = false := by
    have hmember : full.choose chainMembers parent (name :: opening :: tokens) = .ok none := by
      rw [full_choose, chainMembers, chooseFrom_full_cons, hresource, if_neg (by simp),
        chooseFrom_full_cons, hreference]
      rfl
    simp only [accepts, Lookahead.significant_cons (show name.kind ∉ newlines by rw [hname]; decide),
      hmember]
  have hhere : accepts full .call parent (name :: opening :: tokens) = true := by
    have hfits : Lookahead.fits [] [[.name], [.leftParen]] (name :: opening :: tokens) = true := by
      rw [fits_cons (by simp), fits_cons (by simp)]
      simp [Lookahead.fits, hopening, hname]
    simp [accepts, atPattern, Category.rule, hfits]
  have hlate : full.choose Grammar.statements parent (name :: opening :: tokens) =
      chooseFrom full [.chain, .resource, .call] parent (name :: opening :: tokens) := by
    have hsub : Reopening.otherStatements ⊆ .caseOption :: wordedStatements := by decide
    rw [full_choose]
    exact chooseFrom_worded hsub hparent fun c hc => hname ▸ hbefore c (hsub hc)
  rw [hlate, chooseFrom_full_cons, hchain, if_neg (by simp), chooseFrom_full_cons, hresource,
    if_neg (by simp), chooseFrom_here hhere]

end

section

variable {p : Phrase} {ps : List Phrase} {parent category : Category} {opening keyword : Token}
  {v w rest tokens : List Token} {form : List Phrase → Form Phrase}

/-- A call or an assignment is read as a statement. -/
theorem Written.choose_statement (h : Written (.phrase p) w)
    (hp : p.category ∈ [Category.assignment, .call]) (hparent : parent ≠ .caseBlock)
    (hrest : Ended rest) :
    full.choose Grammar.statements parent (w ++ rest) = .ok (some (p, rest)) := by
  have hread := h.rereads rest
  cases h with
  | @assignment name operator value w hname hoperator =>
    have hnewline : name.kind ∉ newlines := by rw [hname]; decide
    have hhere : accepts full .assignment parent (name :: operator :: (w ++ rest)) = true := by
      have hfits : Lookahead.fits newlines [[.dollarVar], [.equals, .plusEquals]]
          (name :: operator :: (w ++ rest)) = true := by
        rw [fits_cons hnewline, fits_single,
          startsWith_cons (not_newline_of_mem hoperator (by decide)), hname]
        simpa using hoperator
      simpa [accepts, atPattern, Category.rule] using hfits
    exact (choose_worded (by decide) hparent (List.mem_singleton.mpr hname) hhere).trans (hread hrest)
  | emptyCall hname hopening | call hname hopening =>
    exact (choose_call hparent hname hopening _).trans (hread trivial)
  | _ => exact absurd hp (by simp [Phrase.category, Form.category])

/-- An inclusion is read as a statement. -/
theorem choose_inclusion {args : List Phrase} (hkeyword : keyword.kind ∈ [Kind.kwInclude, .kwImport])
    (row : Row args w) (hparent : parent ≠ .caseBlock) (hrest : RowEnded rest) :
    full.choose Grammar.statements parent (keyword :: (w ++ rest)) =
      .ok (some (⟨keyword.line, .inclusion keyword args⟩, rest)) := by
  obtain ⟨trace, hjoined, hread⟩ := row.inOrder_eq hrest "args" .inclusion []
  rw [choose_of_word (show Category.inclusion ∈ wordedStatements by decide) rfl hparent hkeyword]
  refine phrase_of_schema (.inclusion hkeyword hjoined) (by decide)
    (not_newline_of_mem hkeyword (by decide)) ?_
  refine inOrder_token rfl (lead_of_mem hkeyword (by decide) _ _) hkeyword ?_
  rw [List.append_nil] at hread
  exact hread.trans (by simp [inOrder])

/-- A resource without an edge after it is read as a statement. -/
theorem choose_resource {r : Reopening} {items : List Phrase} {closing : Token}
    (members : Members items w) (hclosing : closing.kind = .rightBrace)
    (hrest : Lookahead.startsWith edges newlines rest = false) (parent : Category) :
    full.choose Grammar.statements parent (r.tokens (w ++ closing :: rest)) =
      .ok (some (⟨r.first.line, .resource (sigilText r.sigils) (.type r.type) none true items⟩, rest)) := by
  have hitems : Plain.items full ((w ++ closing :: rest).length + 1) (w ++ closing :: rest) =
      .ok (some (items, rest)) := by
    rw [items_eq_allItems (by simp), members.allItems_eq hclosing]
  have hchain : accepts full .chain parent (r.tokens (w ++ closing :: rest)) = false := by
    rw [r.accepts_chain_reopened, hitems]
    exact hrest
  rw [r.choose_reopened _ hchain, hitems]
  rfl

/-- A branch with a condition is read up to its block. -/
theorem inOrder_condition {condition : Phrase} (hkeyword : keyword.kind ∈ [Kind.kwIf, .kwElsif])
    (hcondition : condition.category = .expression) (value : Written (.phrase condition) w)
    (hrest : Ended rest) :
    inOrder full .branch Category.branch.rule.steps.dropLast (keyword :: (w ++ rest)) =
      .ok (some ([named "keyword" keyword, sub "condition" condition], rest)) := by
  have hread : inOrder full .branch [(Step.expect [.kwIf, .kwElsif]).named "keyword",
      (Step.oneOf [.expression]).named "condition"] (keyword :: (w ++ rest)) =
        .ok (some ([named "keyword" keyword, sub "condition" condition], rest)) :=
    inOrder_token rfl (lead_of_mem hkeyword (by decide) _ _) hkeyword
      (inOrder_node rfl (value.reads_expression hcondition value.rereads hrest _) rfl)
  show inOrder full .branch [Step.firstOf _] _ = _
  rw [inOrder_single rfl rfl, Step.firstOf, once, lead_of_mem hkeyword (by decide), firstOf_here hread]
  rfl

/-- A branch without a condition is read up to its block, after no condition was found. -/
theorem inOrder_else (hkeyword : keyword.kind = .kwElse) (rest : List Token) :
    inOrder full .branch Category.branch.rule.steps.dropLast (keyword :: rest) =
      .ok (some ([named "keyword" keyword], rest)) := by
  have hlead := lead_of_eq hkeyword (show Kind.kwElse ≠ .newline by decide)
  have hstop : once full .branch ((Step.expect [.kwIf, .kwElsif]).named "keyword") (keyword :: rest) =
      .ok none := by
    refine once_token_stop fun t rest ht => ?_
    rw [hlead] at ht
    cases ht
    rw [hkeyword]
    decide
  have hnot : inOrder full .branch [(Step.expect [.kwIf, .kwElsif]).named "keyword",
      (Step.oneOf [.expression]).named "condition"] (keyword :: rest) = .ok none := by
    rw [inOrder_single rfl rfl, hstop, andThen_none]
  have hread : inOrder full .branch [(Step.expect [.kwElse]).named "keyword"] (keyword :: rest) =
      .ok (some ([named "keyword" keyword], rest)) :=
    inOrder_token rfl (hlead _ _) (List.mem_singleton.mpr hkeyword) rfl
  show inOrder full .branch [Step.firstOf _] _ = _
  rw [inOrder_single rfl rfl, Step.firstOf, once, hlead, firstOf_next hnot, firstOf_here hread]
  rfl

/-- What stands in front of a block is read up to the brace. -/
theorem Headed.inOrder_eq (h : Headed category form v) (hopening : opening.kind = .leftBrace)
    (tokens : List Token) :
    ∃ trace, (∀ ps, Schema Phrase.category category (form ps) (trace ++ [body ps])) ∧
      inOrder full category category.rule.steps.dropLast (v ++ opening :: tokens) =
        .ok (some (trace, opening :: tokens)) := by
  have hended : Ended (opening :: tokens) := ended_cons hopening (by decide)
  have hskip {owner : Category} {usage first : Usage} {kinds : List Kind} {steps : List Step}
      (hline : usage.sameLine = false) (hsingle : first = { label := first.label })
      (hkinds : .leftBrace ∉ newlines ++ kinds) :
      once full owner (.group usage (.token first kinds :: steps)) (opening :: tokens) = .ok none :=
    once_group_stop hline hsingle (startsWith_of_not_mem (by rwa [hopening]))
  have hkeyword {keyword : Token} {kind : Kind} (h : keyword.kind = kind) : keyword.kind ∈ [kind] :=
    List.mem_singleton.mpr h
  cases h with
  | @classBlock keyword name hclass hname =>
    refine ⟨[word keyword, named "name" name], fun ps => .classBlock hclass hname .none .none, ?_⟩
    refine inOrder_token rfl (lead_of_eq hclass (by decide) _ _) (hkeyword hclass) ?_
    refine inOrder_token rfl (lead_of_eq hname (by decide) _ _) (hkeyword hname) ?_
    exact (inOrder_skip rfl (hskip rfl rfl (by decide))).trans
      (inOrder_skip rfl (hskip rfl rfl (by decide)))
  | @defineBlock keyword name hdefine hname =>
    refine ⟨[word keyword, named "name" name], fun ps => .defineBlock hdefine hname .none, ?_⟩
    refine inOrder_token rfl (lead_of_eq hdefine (by decide) _ _) (hkeyword hdefine) ?_
    refine inOrder_token rfl (lead_of_eq hname (by decide) _ _) (hkeyword hname) ?_
    exact inOrder_skip rfl (hskip rfl rfl (by decide))
  | @nodeBlock keyword name hnode hname =>
    refine ⟨[word keyword, named "names" name], fun ps => .nodeBlock hnode hname .nil .none, ?_⟩
    refine inOrder_token rfl (lead_of_eq hnode (by decide) _ _) (hkeyword hnode) ?_
    refine inOrder_token rfl (lead_of_mem hname (by decide) _ _) hname ?_
    refine (inOrder_runs rfl rfl (.stop (hskip rfl rfl (by decide)))).trans ?_
    exact congrArg (andThen · _) (inOrder_skip rfl (hskip rfl rfl (by decide)))
  | branch hbranch hcondition value =>
    exact ⟨_, fun ps => .branch hbranch hcondition,
      inOrder_condition hbranch hcondition value hended⟩
  | elseBranch helse => exact ⟨_, fun ps => .elseBranch helse, inOrder_else helse _⟩
  | @caseBlock keyword subject w hcase hsubject value =>
    refine ⟨[word keyword, sub "subject" subject], fun ps => .caseBlock hcase hsubject, ?_⟩
    exact inOrder_token rfl (lead_of_eq hcase (by decide) _ _) (hkeyword hcase)
      (inOrder_node rfl (value.reads_expression hsubject value.rereads hended _) rfl)
  | @caseOption values colon w row hcolon =>
    obtain ⟨trace, hjoined, hread⟩ := row.inOrder_colon hcolon "values" .caseOption (opening :: tokens)
    refine ⟨trace ++ [word colon], fun ps => ?_, ?_⟩
    · have schema : Schema Phrase.category .caseOption (.caseOption values ps) _ :=
        .caseOption hjoined hcolon
      simpa using schema
    · rw [List.append_assoc]
      exact hread

/-- A statement with a block is read with the statements in it. -/
theorem phrase_block {closing : Token} (h : Headed category form v)
    (hopening : opening.kind = .leftBrace)
    (hbody : full.statements category (some .rightBrace) (w ++ closing :: rest) =
      .ok (ps, closing :: rest)) :
    phrase full category (v ++ opening :: (w ++ closing :: rest)) =
      .ok (some (⟨firstLine v, form ps⟩, rest)) := by
  obtain ⟨trace, schema, hhead⟩ := h.inOrder_eq hopening (w ++ closing :: rest)
  have hhasBody : category.hasBody = true := by cases h <;> rfl
  obtain ⟨init, hsteps, -⟩ := steps_of_hasBody hhasBody
  have hblock : once full category (Step.braces.named "body") (opening :: (w ++ closing :: rest)) =
      .ok (some ([body ps], rest)) := by
    show once full category (.block _) _ = _
    simp [once, lead_of_eq hopening, hopening, hbody]
  have hread : inOrder full category category.rule.steps (v ++ opening :: (w ++ closing :: rest)) =
      .ok (some (trace ++ [body ps], rest)) := by
    rw [hsteps, List.dropLast_concat] at hhead
    rw [hsteps, inOrder_append, hhead, andThen_some, inOrder_single rfl rfl, hblock]
    rfl
  have hresource : category ≠ .resource := by cases h <;> simp
  obtain ⟨t, v, rfl, ht⟩ := h.opens
  exact phrase_of_schema (schema ps) hresource (not_newline_of_opens ht) hread

/-- A statement with a block is recognised by what stands in front of it. -/
theorem Headed.choose_eq (h : Headed category form v)
    (hparent : category = .caseOption ↔ parent = .caseBlock) (tokens : List Token) :
    full.choose Grammar.statements parent (v ++ tokens) = phrase full category (v ++ tokens) := by
  have hopens := h.opens
  have hword (hcategory : category ∈ wordedStatements)
      (hpatterns : category.rule.patterns = [[Plain.opens category]]) :
      full.choose Grammar.statements parent (v ++ tokens) = phrase full category (v ++ tokens) := by
    have hne : parent ≠ .caseBlock := fun heq =>
      absurd (hparent.mpr heq ▸ hcategory) (by decide)
    obtain ⟨t, v, rfl, ht⟩ := hopens
    exact choose_of_word hcategory hpatterns hne ht _
  cases h with
  | @classBlock keyword name hkeyword hname =>
    have hne : parent ≠ .caseBlock := by simpa using hparent
    refine choose_worded (by decide) hne (List.mem_singleton.mpr hkeyword) ?_
    have hfits : Lookahead.fits newlines [[.kwClass], [.name]] (keyword :: name :: tokens) = true := by
      rw [fits_cons (by rw [hkeyword]; decide), fits_single, startsWith_cons (by rw [hname]; decide),
        hkeyword, hname]
      rfl
    simpa [accepts, atPattern, Category.rule] using hfits
  | @caseOption values colon w row hcolon =>
    obtain ⟨trace, -, hread⟩ := row.inOrder_colon hcolon "values" parent tokens
    rw [List.append_assoc, List.singleton_append]
    obtain ⟨t, v, rfl, ht⟩ := row.opens
    have hkinds : ∀ kind ∈ expressionOpens, ∀ c ∈ [Category.comment, .blockComment],
        c ∈ wordedStatements ∧ kind ∉ newlines ++ Plain.opens c := by decide
    have hhere : accepts full .caseOption parent (t :: v ++ colon :: tokens) = true := by
      rw [accepts, List.cons_append,
        Lookahead.significant_cons (not_newline_of_opens (c := .expression) ht), ← List.cons_append,
        show inOrder full parent caseValues (t :: v ++ colon :: tokens) = _ from hread,
        hparent.mp rfl]
      rfl
    rw [full_choose]
    exact (chooseFrom_append fun c hc => not_accepts_worded (hkinds _ ht c hc).1 (hkinds _ ht c hc).2).trans
      (chooseFrom_here hhere)
  | _ => exact hword (by decide) rfl

end

section

variable {p : Phrase} {ps : List Phrase} {parent : Category} {closing : Option Kind} {t : Token}
  {v w rest tokens : List Token}

/-- Kinds of token that continue a statement; only case options start with some of them. -/
def followers : List Kind :=
  .question :: .comma :: .leftBracket :: (edges ++ binaryOperators)

/-- Nothing in the tokens after a statement continues it. -/
structure Apart (rest : List Token) : Prop extends RowEnded rest where
  edge : Lookahead.startsWith edges newlines rest = false

/-- A newline keeps a statement apart from what follows. -/
theorem apart_newline (ht : t.kind = .newline)
    (hnext : Lookahead.startsWith followers newlines tokens = false) : Apart (t :: tokens) := by
  have hnot {kinds : List Kind} (hkinds : kinds ⊆ followers) :
      Lookahead.startsWith kinds newlines (t :: tokens) = false := by
    rw [startsWith_newline ht]
    exact startsWith_mono hkinds hnext
  have hdirect : Lookahead.startsWith [.leftParen, .leftBracket] [] (t :: tokens) = false :=
    startsWith_of_not_mem (by rw [ht]; decide)
  exact ⟨⟨⟨⟨⟨hdirect, hnot (by decide)⟩, hnot (by decide)⟩, hnot (by decide)⟩, hnot (by decide)⟩,
    hnot (by decide)⟩

/-- Where statements end: at a closing brace, or with the text. -/
def Finished (closing : Option Kind) (rest : List Token) : Prop :=
  match closing with
  | none => rest = []
  | some kind => kind = .rightBrace ∧ ∃ t tokens, rest = t :: tokens ∧ t.kind = .rightBrace

/-- Tokens are read as the statements that they stand for. -/
def RereadsIn : Sentence → List Token → Prop
  | .statement p, w => ∀ parent rest, (p.category = .caseOption ↔ parent = .caseBlock) →
      p.category.hasBody = true ∨ Apart rest →
        full.choose Grammar.statements parent (w ++ rest) = .ok (some (p, rest))
  | .body parent ps, w => ∀ closing rest, Finished closing rest →
      full.statements parent closing (w ++ rest) = .ok (ps, rest) ∧
        (parent ≠ .caseBlock → Lookahead.startsWith followers newlines (w ++ rest) = false)

/-- Statements end where the text or a brace does. -/
theorem Finished.statements_eq (h : Finished closing rest) (parent : Category) :
    full.statements parent closing rest = .ok ([], rest) := by
  rw [full_statements_eq]
  cases closing with
  | none =>
    obtain rfl : rest = [] := h
    rfl
  | some kind =>
    obtain ⟨rfl, t, tokens, rfl, ht⟩ := h
    rw [Lookahead.significant_cons (by simp [ht])]
    simp [ht]

/-- Where statements end, nothing else starts. -/
theorem Finished.startsWith_eq (h : Finished closing rest) :
    Lookahead.startsWith followers newlines rest = false := by
  cases closing with
  | none =>
    obtain rfl : rest = [] := h
    rfl
  | some kind =>
    obtain ⟨-, t, tokens, rfl, ht⟩ := h
    exact startsWith_of_not_mem (by rw [ht]; decide)

/-- Statements are closed by a brace, if by anything. -/
theorem Finished.closing_eq (h : Finished closing rest) : ∀ kind ∈ closing, kind = .rightBrace := by
  rintro kind hkind
  rw [Option.mem_def.mp hkind] at h
  exact h.1

/-- Newlines in front of a statement are skipped. -/
theorem statements_newline (ht : t.kind = .newline) (parent : Category) (closing : Option Kind)
    (tokens : List Token) :
    full.statements parent closing (t :: tokens) = full.statements parent closing tokens := by
  have hskip : Lookahead.significant [.newline, .semicolon] (t :: tokens) =
      Lookahead.significant [.newline, .semicolon] tokens := by
    simp [Lookahead.significant, Token.isOneOf, ht]
  rw [full_statements_eq, hskip, ← full_statements_eq]

/-- A statement and those after it. -/
theorem statements_cons (first : Stated (.statement p) v)
    (hclosing : ∀ kind ∈ closing, kind = .rightBrace)
    (hread : full.choose Grammar.statements parent (v ++ tokens) = .ok (some (p, tokens)))
    (hmore : full.statements parent closing tokens = .ok (ps, rest)) :
    full.statements parent closing (v ++ tokens) = .ok (p :: ps, rest) := by
  have hopens : ∀ c ∈ basicStatements, ∀ kind ∈ Plain.opens c,
      kind ∉ [Kind.newline, .semicolon] ∧ kind ≠ .rightBrace := by decide
  obtain ⟨t, v, rfl, ht⟩ := first.opens
  obtain ⟨hskip, hbrace⟩ := hopens _ first.category_mem _ ht
  have hne : (some t.kind == closing) = false := by
    rw [beq_eq_false_iff_ne]
    exact fun heq => hbrace (hclosing t.kind heq.symm)
  rw [List.cons_append] at hread ⊢
  rw [full_statements_eq, Lookahead.significant_cons hskip]
  simp only [hne, Bool.false_eq_true, if_false, hread, thenStatements, hmore]

/-- Nothing that starts a statement continues the one before it. -/
theorem Stated.startsWith_eq (h : Stated (.statement p) w)
    (hp : p.category = .caseOption ↔ parent = .caseBlock) (hparent : parent ≠ .caseBlock)
    (rest : List Token) : Lookahead.startsWith followers newlines (w ++ rest) = false := by
  have hopens : ∀ c ∈ basicStatements, c ≠ .caseOption → ∀ kind ∈ Plain.opens c,
      kind ∉ newlines ++ followers := by decide
  obtain ⟨t, v, rfl, ht⟩ := h.opens
  exact startsWith_of_not_mem (hopens _ h.category_mem (mt hp.mp hparent) _ ht)

/-- Statements are read as they are stated. -/
theorem Stated.rereads {r : Sentence} (h : Stated r w) : RereadsIn r w := by
  have hapart {p : Phrase} {rest : List Token} {c : Category} (hp : p.category = c)
      (hc : c.hasBody = false) (hrest : p.category.hasBody = true ∨ Apart rest) : Apart rest :=
    hrest.resolve_left (by simp [hp, hc])
  have hoption {c parent : Category} (hp : c = .caseOption ↔ parent = .caseBlock)
      (hc : c ≠ .caseOption) : parent ≠ .caseBlock := fun heq => hc (hp.mpr heq)
  induction h with
  | value hvalue h =>
    intro parent rest hp hrest
    have hbody : ∀ c ∈ [Category.assignment, .call], c.hasBody = false ∧ c ≠ .caseOption := by decide
    obtain ⟨hhasBody, hne⟩ := hbody _ hvalue
    exact h.choose_statement hvalue (hoption hp hne) (hapart rfl hhasBody hrest).toEnded
  | inclusion hkeyword row =>
    intro parent rest hp hrest
    exact choose_inclusion hkeyword row (hoption hp (by simp [Phrase.category, Form.category]))
      (hapart rfl rfl hrest).toRowEnded
  | @resource r items closing w members hclosing =>
    intro parent rest _ hrest
    have htokens : r.tokens (w ++ [closing]) ++ rest = r.tokens (w ++ closing :: rest) := by
      simp [Reopening.tokens]
    rw [htokens]
    exact choose_resource members hclosing (hapart rfl rfl hrest).edge parent
  | @block category form ps opening closing v w head hopening _ hclosing ih =>
    intro parent rest hp _
    have hbody := (ih (some .rightBrace) (closing :: rest) ⟨rfl, closing, rest, rfl, hclosing⟩).1
    have htokens : v ++ opening :: (w ++ [closing]) ++ rest =
        v ++ opening :: (w ++ closing :: rest) := by simp
    rw [Phrase.category, Phrase.form_mk, head.category_eq] at hp
    rw [htokens, head.choose_eq hp, phrase_block head hopening hbody]
  | done => exact fun closing rest hrest => ⟨hrest.statements_eq _, fun _ => hrest.startsWith_eq⟩
  | pause ht _ ih =>
    intro closing rest hrest
    obtain ⟨hread, hstarts⟩ := ih closing rest hrest
    exact ⟨(statements_newline ht _ _ _).trans hread,
      fun hparent => (startsWith_newline ht _).trans (hstarts hparent)⟩
  | @statement parent p ps t v w hp first ht _ ihfirst ihmore =>
    intro closing rest hrest
    obtain ⟨hmore, hstarts⟩ := ihmore closing rest hrest
    have hnext : p.category.hasBody = true ∨ Apart (t :: (w ++ rest)) := by
      -- what follows an option may start with a sign, but an option has a block
      by_cases hparent : parent = .caseBlock
      · exact .inl (by rw [hp.mpr hparent]; rfl)
      · exact .inr (apart_newline ht (hstarts hparent))
    rw [List.append_assoc, List.cons_append]
    exact ⟨statements_cons first hrest.closing_eq (ihfirst parent _ hp hnext)
      ((statements_newline ht _ _ _).trans hmore), fun hparent => first.startsWith_eq hp hparent _⟩
  | @joined parent p ps v w hp hbranch first _ ihfirst ihmore =>
    intro closing rest hrest
    have hbody : p.category.hasBody = true := by rw [hbranch]; rfl
    rw [List.append_assoc]
    exact ⟨statements_cons first hrest.closing_eq (ihfirst parent _ hp (.inl hbody))
      (ihmore closing rest hrest).1, fun hparent => first.startsWith_eq hp hparent _⟩

end

end TidyManifest.Plain
