import TidyManifest.Proofs.Plain.Evaluate
import TidyManifest.Proofs.Plain.First

/-!
# A resource head that is read again

When a resource is cut in front of a title, its sigils, its type and an opening brace are put in
front of that title.  This module says how these tokens are read: as a statement they are a
resource whose items are those from the title on (`choose_reopened`), unless a dependency edge
follows, in which case the whole is a chain (`accepts_chain_reopened`).
-/

namespace TidyManifest.Plain

open Parse Grammar

/-- The head of a typed resource with its brace. -/
structure Reopening where
  sigils : List Token
  type : Token
  opening : Token
  hsigils : ∀ s ∈ sigils, s.kind = .atSign
  htype : type.kind ∈ resourceTypes
  hopening : opening.kind = .leftBrace

/-- A resource is a member of a chain if an edge follows it. -/
theorem accepts_chain_of_resource {parent : Category} {tokens : List Token}
    (hfix : Lookahead.significant newlines tokens = tokens) (hresource : atResource tokens = true) :
    accepts full .chain parent tokens =
      match phrase full .resource tokens with
      | .ok (some (_, rest)) => Lookahead.startsWith edges newlines rest
      | _ => false := by
  have hmember : full.choose chainMembers parent tokens = phrase full .resource tokens := by
    rw [full_choose]
    exact chooseFrom_here hresource
  rw [accepts, hfix]
  exact congrArg (fun o => match o with
    | .ok (some (_, rest)) => Lookahead.startsWith edges newlines rest
    | _ => false) hmember

namespace Reopening

variable (r : Reopening) (tail : List Token)

/-- The tokens of the head, followed by others. -/
def tokens : List Token :=
  r.sigils ++ r.type :: r.opening :: tail

/-- What is read of the head. -/
def trace : Trace Phrase :=
  r.sigils.map (named "sigil") ++ [named "type" r.type]

/-- The first token. -/
def first : Token :=
  r.sigils.headD r.type

/-- A head that is put in is the head of a resource. -/
theorem headSchema : HeadSchema Phrase.category r.sigils (.type r.type) none r.trace :=
  .type r.hsigils r.htype .none

/-- A head that is put in stands in front of the rest. -/
theorem tokens_eq : ∃ more, r.tokens tail = r.first :: more := by
  unfold tokens first
  cases r.sigils with
  | nil => exact ⟨_, rfl⟩
  | cons s sigils => exact ⟨_, rfl⟩

/-- A head that is put in starts with a sigil or a type. -/
theorem first_mem : r.first.kind ∈ Kind.atSign :: resourceTypes := by
  unfold first
  cases h : r.sigils with
  | nil => simpa using .inr r.htype
  | cons s sigils => simp [r.hsigils s (by simp [h])]

/-- A head that is put in does not start with a newline. -/
theorem first_not_newline : r.first.kind ∉ newlines := by
  have hkinds : ∀ kind ∈ Kind.atSign :: resourceTypes, kind ∉ newlines := by decide
  exact hkinds _ r.first_mem

/-- Nothing of a head that is put in is skipped. -/
theorem significant_tokens {kinds : List Kind} (h : ∀ kind ∈ Kind.atSign :: resourceTypes, kind ∉ kinds) :
    Lookahead.significant kinds (r.tokens tail) = r.tokens tail := by
  obtain ⟨more, hmore⟩ := r.tokens_eq tail
  rw [hmore, Lookahead.significant_cons (h _ r.first_mem)]

/-- The type that is put in is no newline. -/
theorem type_not_newline : r.type.kind ≠ .newline := by
  have hkinds : ∀ kind ∈ resourceTypes, kind ≠ .newline := by decide
  exact hkinds _ r.htype

/-- The sigils that are put in are read again. -/
theorem runs_sigils :
    Runs (fun tokens => once full .resource ((Step.expect [.atSign]).named "sigil").many.maybe tokens)
      (r.tokens tail) (r.sigils.map (named "sigil")) (r.type :: r.opening :: tail) := by
  unfold tokens
  have hsigils := r.hsigils
  generalize r.sigils = sigils at hsigils
  induction sigils with
  | nil =>
    refine .stop (once_token_stop fun t rest hlead => ?_)
    rw [List.nil_append, lead_cons r.type_not_newline] at hlead
    cases hlead
    have hkinds : ∀ kind ∈ resourceTypes, kind ∉ [Kind.atSign] := by decide
    exact hkinds _ r.htype
  | cons s sigils ih =>
    have hs : s.kind = .atSign := hsigils s (by simp)
    have hread : once full .resource ((Step.expect [.atSign]).named "sigil").many.maybe
        (s :: (sigils ++ r.type :: r.opening :: tail)) =
          .ok (some ([named "sigil" s], sigils ++ r.type :: r.opening :: tail)) :=
      once_token (lead_cons (by simp [hs]) _ _) (by simp [hs])
    exact .step hread (by simp) (ih fun s hs => hsigils s (by simp [hs]))

/-- Neither a reference nor a collector stands here. -/
theorem choose_type :
    full.choose [.reference] .resource (r.type :: r.opening :: tail) = .ok none ∧
      full.choose [.collector] .resource (r.opening :: tail) = .ok none := by
  have hbrace : r.opening.kind ∉ newlines := by simp [r.hopening, newlines]
  have hdetached : Lookahead.startsWith [.leftParen, .leftBracket] [] (r.opening :: tail) = false := by
    rw [startsWith_cons (by simp), r.hopening]
    rfl
  constructor
  · rw [full_choose, chooseFrom, (accepts_bracket rfl hdetached).2]
    rfl
  · rw [full_choose, chooseFrom, accepts_first hbrace rfl rfl, r.hopening]
    rfl

/-- The head that is put in is read again. -/
theorem inOrder_head :
    inOrder full .resource resourceHead (r.tokens tail) =
      .ok (some (r.trace, r.opening :: tail)) := by
  obtain ⟨hreference, hcollector⟩ := r.choose_type tail
  have hbrace : r.opening.kind ≠ .newline := by simp [r.hopening]
  have hskip : once full .resource ((Step.oneOf [.collector]).named "collector").maybe
      (r.opening :: tail) = .ok none := by
    refine once_node_stop ?_
    rw [lead_cons hbrace]
    exact hcollector
  have htype : once full .resource (Step.firstOf
      [[(Step.oneOf [.reference]).named "reference"], [(Step.expect resourceTypes).named "type"]])
      (r.type :: r.opening :: tail) = .ok (some ([named "type" r.type], r.opening :: tail)) := by
    have hnone : inOrder full .resource [(Step.oneOf [.reference]).named "reference"]
        (r.type :: r.opening :: tail) = .ok none := by
      rw [inOrder_single rfl rfl, Step.oneOf, Step.named, Step.withUsage, once_node_stop]
      · rfl
      · rw [lead_cons r.type_not_newline]
        exact hreference
    have hsome : inOrder full .resource [(Step.expect resourceTypes).named "type"]
        (r.type :: r.opening :: tail) = .ok (some ([named "type" r.type], r.opening :: tail)) := by
      rw [inOrder_single rfl rfl, Step.expect, Step.named, Step.withUsage,
        once_token (lead_cons r.type_not_newline _ _) r.htype]
      rfl
    show firstOf full .resource _ (lead _ _) = _
    rw [lead_cons r.type_not_newline, firstOf_next hnone, firstOf_here hsome]
  unfold resourceHead
  rw [inOrder_runs rfl rfl (r.runs_sigils tail), inOrder_single rfl rfl, htype, andThen_some,
    inOrder_skip rfl hskip]
  rfl

/-- A resource whose head is given is read by reading its items. -/
theorem phrase_reopened :
    phrase full .resource (r.tokens tail) =
      andThen (items full (tail.length + 1) tail) fun items rest =>
        .ok (some (⟨r.first.line, .resource (sigilText r.sigils) (.type r.type) none true items⟩,
          rest)) := by
  obtain ⟨more, hmore⟩ := r.tokens_eq tail
  have hhead : inOrder full .resource Category.resource.rule.steps (r.tokens tail) = _ :=
    r.inOrder_head tail
  have hbrace : r.opening.kind ∉ newlines := by simp [r.hopening, newlines]
  have hbody : resource full r.trace (r.opening :: tail) =
      andThen (items full (tail.length + 1) tail) fun items rest =>
        .ok (some (.resource (sigilText r.sigils) (.type r.type) none true items, rest)) := by
    simp only [resource, r.headSchema.head_eq, r.headSchema.sigils_eq, r.headSchema.collector_eq,
      Lookahead.significant_cons hbrace, r.hopening, beq_self_eq_true, if_true]
    rfl
  simp only [phrase, r.significant_tokens tail (show ∀ kind ∈ _, kind ∉ newlines by decide), hhead,
    andThen_some, beq_self_eq_true, if_true, hbody]
  rw [hmore]
  rcases items full (tail.length + 1) tail with _ | _ | _ <;> rfl

/-- Where a head is put in, a resource is recognised. -/
theorem atResource_tokens : atResource (r.tokens tail) = true := by
  unfold tokens atResource
  cases h : r.sigils with
  | nil =>
    have htype : r.type.kind ∉ newlines := by simpa [newlines] using r.type_not_newline
    have hbrace : r.opening.kind ∉ newlines := by simp [r.hopening, newlines]
    have hfits : Lookahead.fits newlines [resourceTypes, [.leftBrace]]
        (r.type :: r.opening :: tail) = true := by
      rw [fits_cons htype, fits_single, startsWith_cons hbrace]
      simpa [r.hopening] using r.htype
    simp [hfits]
  | cons s sigils =>
    have hs : s.kind = .atSign := r.hsigils s (by simp [h])
    have hstarts : Lookahead.startsWith [.atSign] newlines
        (s :: sigils ++ r.type :: r.opening :: tail) = true := by
      rw [List.cons_append, startsWith_cons (by simp [hs, newlines]), hs]
      rfl
    rw [hstarts]
    rfl

/-- Whatever expression the type may be, a brace follows it and no colon. -/
theorem inOrder_caseValues_type (parent : Category) (htype : r.type.kind ∈ simpleKinds) :
    inOrder full parent caseValues (r.type :: r.opening :: tail) = .ok none := by
  have hbrace : r.opening.kind ∉ newlines := by simp [r.hopening, newlines]
  have hstarts (skip kinds : List Kind) (hskip : Kind.leftBrace ∉ skip)
      (hkinds : Kind.leftBrace ∉ kinds) :
      Lookahead.startsWith kinds skip (r.opening :: tail) = false := by
    rw [startsWith_cons (by rwa [r.hopening]), r.hopening]
    simpa using hkinds
  have hdetached : Detached (r.opening :: tail) :=
    ⟨hstarts _ _ (by decide) (by decide), hstarts _ _ (by decide) (by decide)⟩
  obtain ⟨x, hx⟩ : ∃ x, full.choose [.expression] parent (r.type :: r.opening :: tail) =
      .ok (some (x, r.opening :: tail)) :=
    ⟨_, choose_expression (by simpa [newlines] using r.type_not_newline)
      (choose_simple rfl htype hdetached)
      (.stop (once_group_stop rfl rfl (hstarts _ _ (by decide) (by decide))))⟩
  have hfirst : once full parent ((Step.oneOf [.expression]).named "values")
      (r.type :: r.opening :: tail) = .ok (some ([sub "values" x], r.opening :: tail)) := by
    refine once_node ?_
    rw [lead_cons r.type_not_newline]
    exact hx
  have hfurther : once full parent (further "values") (r.opening :: tail) = .ok none :=
    once_group_stop rfl rfl (hstarts _ _ (by decide) (by decide))
  have hcolon : once full parent (Step.expect [.colon]) (r.opening :: tail) = .ok none :=
    once_token_stop fun t rest hlead =>
      startsWith_lead rfl (hstarts newlines [.colon] (by decide) (by decide)) hlead
  show inOrder full parent [(Step.oneOf [.expression]).named "values", further "values",
    Step.expect [.colon]] _ = _
  rw [inOrder_single rfl rfl, hfirst, andThen_some, inOrder_skip rfl hfurther,
    inOrder_single rfl rfl, hcolon]
  rfl

/-- No value of a case option starts here. -/
theorem not_accepts_caseOption (parent : Category) :
    accepts full .caseOption parent (r.tokens tail) = false := by
  suffices h : inOrder full parent caseValues (r.tokens tail) = .ok none by
    rw [accepts, r.significant_tokens tail (by decide), h, Bool.and_false]
  by_cases hopens : r.first.kind ∈ expressionOpens
  · cases hsigils : r.sigils with
    | nil =>
      have hkinds : ∀ kind ∈ resourceTypes, kind ∈ expressionOpens → kind ∈ simpleKinds := by decide
      rw [first, hsigils] at hopens
      rw [tokens, hsigils]
      exact r.inOrder_caseValues_type tail parent (hkinds _ r.htype hopens)
    | cons s sigils =>
      rw [first, hsigils, List.headD_cons, r.hsigils s (by simp [hsigils])] at hopens
      exact absurd hopens (by decide)
  · obtain ⟨more, hmore⟩ := r.tokens_eq tail
    have hnone : once full parent ((Step.oneOf [.expression]).named "values") (r.first :: more) =
        .ok none := by
      refine once_node_stop ?_
      rw [lead_cons (by simpa [newlines] using r.first_not_newline)]
      exact choose_expression_none r.first_not_newline hopens
    rw [hmore]
    show inOrder full parent (_ :: _) _ = _
    rw [inOrder_single rfl rfl, hnone, andThen_none]

/-- What is tried before chains and resources. -/
def otherStatements : List Category :=
  [.comment, .blockComment, .caseOption, .classBlock, .defineBlock, .nodeBlock, .branch, .caseBlock,
    .inclusion, .assignment]

/-- A statement that starts with the head of a resource is a chain or a resource. -/
theorem not_accepts (parent : Category) :
    ∀ c ∈ otherStatements, accepts full c parent (r.tokens tail) = false := by
  obtain ⟨more, hmore⟩ := r.tokens_eq tail
  have hfirst {category : Category} {kinds : List Kind}
      (hpatterns : category.rule.patterns = [[kinds]]) (hskip : category.rule.skip = newlines)
      (hkinds : ∀ kind ∈ Kind.atSign :: resourceTypes, kind ∉ kinds) :
      accepts full category parent (r.tokens tail) = false := by
    rw [hmore, accepts_first r.first_not_newline hpatterns hskip]
    simpa using hkinds _ r.first_mem
  have hclass : accepts full .classBlock parent (r.tokens tail) = false := by
    show (Lookahead.fits newlines [[.kwClass], [.name]] (r.tokens tail) || false) = false
    have hname : Lookahead.startsWith [.name] newlines (r.opening :: tail) = false := by
      rw [startsWith_cons (by simp [r.hopening, newlines]), r.hopening]
      rfl
    unfold tokens
    cases h : r.sigils with
    | nil =>
      have htype : r.type.kind ∉ newlines := by simpa [newlines] using r.type_not_newline
      rw [List.nil_append, fits_cons htype, fits_single, hname, Bool.and_false]
      rfl
    | cons s sigils =>
      have hs : s.kind = .atSign := r.hsigils s (by simp [h])
      rw [List.cons_append, fits_cons (by simp [hs, newlines]), hs]
      rfl
  have hassignment : accepts full .assignment parent (r.tokens tail) = false := by
    show (Lookahead.fits newlines [[.dollarVar], [.equals, .plusEquals]] (r.tokens tail) || false) =
      false
    have hkinds : ∀ kind ∈ Kind.atSign :: resourceTypes, [Kind.dollarVar].contains kind = false := by
      decide
    rw [hmore, fits_cons r.first_not_newline, hkinds _ r.first_mem]
    rfl
  simp only [otherStatements, List.forall_mem_cons, List.not_mem_nil, false_implies, implies_true,
    and_true]
  exact ⟨hfirst rfl rfl (by decide), hfirst rfl rfl (by decide), r.not_accepts_caseOption tail parent,
    hclass, hfirst rfl rfl (by decide), hfirst rfl rfl (by decide), hfirst rfl rfl (by decide),
    hfirst rfl rfl (by decide), hfirst rfl rfl (by decide), hassignment⟩

/-- The head is a member of a chain if an edge follows the resource. -/
theorem accepts_chain_reopened (parent : Category) :
    accepts full .chain parent (r.tokens tail) =
      match items full (tail.length + 1) tail with
      | .ok (some (_, rest)) => Lookahead.startsWith edges newlines rest
      | _ => false := by
  rw [accepts_chain_of_resource (r.significant_tokens tail (by decide)) (r.atResource_tokens tail),
    r.phrase_reopened tail]
  rcases items full (tail.length + 1) tail with _ | _ | _ <;> rfl

/-- Without an edge the head is read as a resource. -/
theorem choose_reopened {parent : Category}
    (h : accepts full .chain parent (r.tokens tail) = false) :
    full.choose Grammar.statements parent (r.tokens tail) =
      andThen (items full (tail.length + 1) tail) fun items rest =>
        .ok (some (⟨r.first.line, .resource (sigilText r.sigils) (.type r.type) none true items⟩,
          rest)) :=
  calc full.choose Grammar.statements parent (r.tokens tail)
    _ = chooseFrom full (otherStatements ++ [.chain, .resource, .call]) parent (r.tokens tail) :=
      full_choose _ _ _
    _ = chooseFrom full [.chain, .resource, .call] parent (r.tokens tail) :=
      chooseFrom_append (r.not_accepts tail parent)
    _ = chooseFrom full [.resource, .call] parent (r.tokens tail) :=
      show chooseFrom full ([.chain] ++ [.resource, .call]) parent _ = _ from
        chooseFrom_append (by simpa using h)
    _ = phrase full .resource (r.tokens tail) := chooseFrom_here (r.atResource_tokens tail)
    _ = _ := r.phrase_reopened tail

end Reopening

end TidyManifest.Plain
