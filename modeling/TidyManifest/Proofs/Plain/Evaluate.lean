import TidyManifest.Proofs.Plain.First
import TidyManifest.Proofs.Plain.Sufficient

/-!
# Reading given tokens

How reading goes on is decided by the next token at almost every place.  The lemmas of this module
carry a reading over one step of a rule, when the next token or the next phrase is known.  A step
that is repeated is read as often as `Runs` says.
-/

namespace TidyManifest

/-- Tokens that are not to be skipped stay. -/
theorem Lookahead.significant_cons {kinds : List Kind} {t : Token} (h : t.kind ∉ kinds)
    (rest : List Token) : significant kinds (t :: rest) = t :: rest := by
  have : t.isOneOf kinds = false := by simpa [Token.isOneOf] using h
  simp [significant, this]

/-- Nothing is left to skip where more has been skipped. -/
theorem Lookahead.significant_of_subset {kinds kinds' : List Kind} (hsub : kinds ⊆ kinds')
    (tokens : List Token) :
    significant kinds (significant kinds' tokens) = significant kinds' tokens := by
  induction tokens with
  | nil => rfl
  | cons t rest ih =>
    by_cases h : t.isOneOf kinds' = true
    · simpa [significant, h] using ih
    · have hnot : ¬t.isOneOf kinds = true := by
        simp only [Token.isOneOf, List.contains_iff_mem] at h ⊢
        exact fun hmem => h (hsub hmem)
      simp [significant, h, hnot]

theorem Lookahead.significant_significant (kinds : List Kind) (tokens : List Token) :
    significant kinds (significant kinds tokens) = significant kinds tokens :=
  significant_of_subset (List.Subset.refl _) tokens

namespace Plain

open Parse Grammar

/-- A token that is no newline is where a step starts. -/
theorem lead_cons {t : Token} (h : t.kind ≠ .newline) (usage : Usage) (rest : List Token) :
    lead usage (t :: rest) = t :: rest := by
  unfold lead
  split
  · rfl
  · exact Lookahead.significant_cons (by simpa [newlines] using h) rest

/-- Going on with nothing else to read changes nothing. -/
theorem andThen_ok {α : Type} (o : Outcome α) :
    andThen o (fun a rest => .ok (some (a, rest))) = o := by
  rcases o with _ | _ | _ <;> rfl

section

variable {d : Oracle} {owner : Category} {usage : Usage} {steps : List Step} {step : Step}
  {tokens rest : List Token}

/-- A step that is used once is read once. -/
theorem used_single {rounds : List Token → Nat} {reading : List Token → Outcome (Trace Phrase)}
    (ho : usage.optional = false) (hm : usage.many = false) (tokens : List Token) :
    used usage rounds reading tokens = reading tokens := by
  unfold used
  rw [ho, hm]
  rcases reading tokens with _ | _ | _ <;> rfl

/-- A step that has to be read once is read, and then the steps after it. -/
theorem inOrder_single (ho : step.usage.optional = false) (hm : step.usage.many = false) :
    inOrder d owner (step :: steps) tokens =
      andThen (once d owner step tokens) fun trace rest =>
        andThen (inOrder d owner steps rest) fun more rest => .ok (some (trace ++ more, rest)) := by
  rw [inOrder, used_single ho hm]

/-- A token that is there is read. -/
theorem once_token {kinds : List Kind} {t : Token} (hlead : lead usage tokens = t :: rest)
    (ht : t.kind ∈ kinds) :
    once d owner (.token usage kinds) tokens = .ok (some ([(usage.label, .token t)], rest)) := by
  have : t.isOneOf kinds = true := by simpa [Token.isOneOf] using ht
  simp [once, hlead, this]

/-- A token that is not there is not read. -/
theorem once_token_stop {kinds : List Kind}
    (h : ∀ t rest, lead usage tokens = t :: rest → t.kind ∉ kinds) :
    once d owner (.token usage kinds) tokens = .ok none := by
  simp only [once]
  split
  · rfl
  · rename_i t rest hlead
    have : t.isOneOf kinds = false := by simpa [Token.isOneOf] using h t rest hlead
    simp [this]

/-- A phrase that can be read is read. -/
theorem once_node {categories : List Category} {p : Phrase}
    (h : d.choose categories owner (lead usage tokens) = .ok (some (p, rest))) :
    once d owner (.node usage categories) tokens =
      .ok (some ([(usage.label, .node p)], rest)) := by
  simp [once, h]

/-- A phrase that is not there is not read. -/
theorem once_node_stop {categories : List Category}
    (h : d.choose categories owner (lead usage tokens) = .ok none) :
    once d owner (.node usage categories) tokens = .ok none := by
  simp [once, h]

/-- A step that may be left out is left out. -/
theorem inOrder_skip (ho : step.usage.optional = true) (h : once d owner step tokens = .ok none) :
    inOrder d owner (step :: steps) tokens = inOrder d owner steps tokens := by
  simp only [inOrder, used, h, ho, if_true, andThen_some, List.nil_append]
  exact andThen_ok _

/-- A step that may be left out is read if it can be. -/
theorem inOrder_maybe {trace : Trace Phrase} (hm : step.usage.many = false)
    (h : once d owner step tokens = .ok (some (trace, rest))) :
    inOrder d owner (step :: steps) tokens =
      andThen (inOrder d owner steps rest) fun more rest => .ok (some (trace ++ more, rest)) := by
  simp [inOrder, used, h, hm]

/-- A token that is there is read first, and then the steps after it. -/
theorem inOrder_token {kinds : List Kind} {t : Token} {middle : List Token} {trace : Trace Phrase}
    (hm : usage.many = false) (hlead : lead usage tokens = t :: middle) (ht : t.kind ∈ kinds)
    (hmore : inOrder d owner steps middle = .ok (some (trace, rest))) :
    inOrder d owner (.token usage kinds :: steps) tokens =
      .ok (some ((usage.label, .token t) :: trace, rest)) := by
  rw [inOrder_maybe (show (Step.token usage kinds).usage.many = false from hm) (once_token hlead ht), hmore]
  rfl

/-- A phrase that can be read is read first, and then the steps after it. -/
theorem inOrder_node {categories : List Category} {p : Phrase} {middle : List Token}
    {trace : Trace Phrase} (hm : usage.many = false)
    (hp : d.choose categories owner (lead usage tokens) = .ok (some (p, middle)))
    (hmore : inOrder d owner steps middle = .ok (some (trace, rest))) :
    inOrder d owner (.node usage categories :: steps) tokens =
      .ok (some ((usage.label, .node p) :: trace, rest)) := by
  rw [inOrder_maybe (show (Step.node usage categories).usage.many = false from hm) (once_node hp), hmore]
  rfl

/-- The first branch is taken if it can be read. -/
theorem firstOf_here {branch : List Step} {branches : List (List Step)} {trace : Trace Phrase}
    (h : inOrder d owner branch tokens = .ok (some (trace, rest))) :
    firstOf d owner (branch :: branches) tokens = .ok (some (trace, rest)) := by
  simp [firstOf, h]

/-- A branch that cannot be read is passed over. -/
theorem firstOf_next {branch : List Step} {branches : List (List Step)}
    (h : inOrder d owner branch tokens = .ok none) :
    firstOf d owner (branch :: branches) tokens = firstOf d owner branches tokens := by
  simp [firstOf, h]

end

/-- What is read by reading something as often as possible. -/
inductive Runs (reading : List Token → Outcome (Trace Phrase)) :
    List Token → Trace Phrase → List Token → Prop
  | stop {tokens : List Token} (h : reading tokens = .ok none) : Runs reading tokens [] tokens
  | step {tokens middle rest : List Token} {first more : Trace Phrase}
      (h : reading tokens = .ok (some (first, middle))) (hlt : middle.length < tokens.length)
      (runs : Runs reading middle more rest) : Runs reading tokens (first ++ more) rest

section

variable {reading : List Token → Outcome (Trace Phrase)} {tokens middle rest : List Token}
  {trace first more : Trace Phrase}

/-- As many readings as there are, and then no more, are what repetition reads. -/
theorem again_of_runs {n : Nat} (h : Runs reading tokens trace rest) (hn : tokens.length < n) :
    again reading n tokens = .ok (trace, rest) := by
  induction h generalizing n with
  | stop h =>
    obtain ⟨n, rfl⟩ : ∃ m, n = m + 1 := ⟨n - 1, by omega⟩
    simp [again, h]
  | step h hlt _ ih =>
    obtain ⟨n, rfl⟩ : ∃ m, n = m + 1 := ⟨n - 1, by omega⟩
    simp [again, h, Nat.ne_of_lt hlt, ih (show _ < n by omega)]

/-- A step that is read at least once. -/
theorem used_of_runs {usage : Usage} (hm : usage.many = true)
    (h : reading tokens = .ok (some (first, middle))) (hmore : Runs reading middle more rest) :
    used usage full.rounds reading tokens = .ok (some (first ++ more, rest)) := by
  simp only [used, h, hm, if_true]
  rw [again_of_runs hmore (show middle.length < full.rounds middle from Nat.lt_succ_self _)]

/-- A step that has to be read, and is. -/
theorem used_of_runs_ne_nil {usage : Usage} (hm : usage.many = true) (h : Runs reading tokens trace rest)
    (hne : trace ≠ []) : used usage full.rounds reading tokens = .ok (some (trace, rest)) := by
  cases h with
  | stop => exact absurd rfl hne
  | step h _ hmore => exact used_of_runs hm h hmore

/-- A step that is read any number of times. -/
theorem used_of_runs_maybe {usage : Usage} (ho : usage.optional = true) (hm : usage.many = true)
    (h : Runs reading tokens trace rest) :
    used usage full.rounds reading tokens = .ok (some (trace, rest)) := by
  cases h with
  | stop h => simp [used, h, ho]
  | step h _ hmore => exact used_of_runs hm h hmore

end

/-- A step that is repeated reads its run, and the steps after it go on from there. -/
theorem inOrder_runs {owner : Category} {step : Step} {steps : List Step}
    {tokens rest : List Token} {trace : Trace Phrase} (ho : step.usage.optional = true)
    (hm : step.usage.many = true)
    (h : Runs (fun tokens => once full owner step tokens) tokens trace rest) :
    inOrder full owner (step :: steps) tokens =
      andThen (inOrder full owner steps rest) fun more rest => .ok (some (trace ++ more, rest)) := by
  rw [inOrder, used_of_runs_maybe ho hm h, andThen_some]

/-- A phrase is what the schema of its trace says. -/
theorem phrase_of_schema {category : Category} {form : Form Phrase} {trace : Trace Phrase} {t : Token}
    {tokens rest : List Token} (schema : Schema Phrase.category category form trace)
    (hresource : category ≠ .resource) (ht : t.kind ∉ newlines)
    (h : inOrder full category category.rule.steps (t :: tokens) = .ok (some (trace, rest))) :
    phrase full category (t :: tokens) = .ok (some (⟨t.line, form⟩, rest)) := by
  simp only [phrase, Lookahead.significant_cons ht, h, andThen_some, beq_iff_eq, hresource, if_false,
    schema.ofCaptures?_eq]
  rfl

section

variable {parent : Category} {t u : Token} {rest : List Token}

/-- A simple value is one token. -/
theorem phrase_simple (ht : t.kind ∈ simpleKinds) (rest : List Token) :
    phrase full .simple (t :: rest) = .ok (some (⟨t.line, .simple t⟩, rest)) := by
  have hnewline : t.kind ≠ .newline := by
    rintro h
    rw [h] at ht
    revert ht
    decide
  have hstep : once full .simple ((Step.expect simpleKinds).named "token") (t :: rest) =
      .ok (some ([(some "token", .token t)], rest)) :=
    once_token (lead_cons hnewline _ rest) ht
  have hsteps : inOrder full .simple Category.simple.rule.steps (t :: rest) =
      .ok (some ([(some "token", .token t)], rest)) := by
    show inOrder full .simple [(Step.expect simpleKinds).named "token"] _ = _
    rw [inOrder_single rfl rfl, hstep]
    rfl
  simp only [phrase, Lookahead.significant_cons (show t.kind ∉ newlines by simpa [newlines]),
    hsteps, andThen_some]
  rfl

/-- Nothing in the tokens after a value makes it the start of a call, a reference or a selector. -/
structure Detached (rest : List Token) : Prop where
  bracket : Lookahead.startsWith [.leftParen, .leftBracket] [] rest = false
  question : Lookahead.startsWith [.question] newlines rest = false

theorem startsWith_nil (kinds skip : List Kind) : Lookahead.startsWith kinds skip [] = false := rfl

/-- Whether tokens start with a kind is decided by the first one that is not skipped. -/
theorem startsWith_cons {skip kinds : List Kind} (h : t.kind ∉ skip) :
    Lookahead.startsWith kinds skip (t :: rest) = kinds.contains t.kind := by
  simp [Lookahead.startsWith, Lookahead.peek, Lookahead.significant_cons h, Token.isOneOf]

/-- A pattern fits if its first set has the next token and the rest fits. -/
theorem fits_cons {skip kinds : List Kind} {pattern : List (List Kind)} (h : t.kind ∉ skip) :
    Lookahead.fits skip (kinds :: pattern) (t :: rest) =
      (kinds.contains t.kind && Lookahead.fits skip pattern rest) := by
  simp [Lookahead.fits, Lookahead.significant_cons h, Token.isOneOf]

/-- A pattern of one set fits where tokens start with one of its kinds. -/
theorem fits_single (skip kinds : List Kind) :
    Lookahead.fits skip [kinds] rest = Lookahead.startsWith kinds skip rest := by
  simp only [Lookahead.fits, Lookahead.startsWith, Lookahead.peek]
  cases Lookahead.significant skip rest <;> simp

/-- Tokens that start with none of some kinds start with none of fewer. -/
theorem startsWith_mono {skip kinds kinds' : List Kind} (hsub : kinds' ⊆ kinds)
    (h : Lookahead.startsWith kinds skip rest = false) :
    Lookahead.startsWith kinds' skip rest = false := by
  simp only [Lookahead.startsWith] at h ⊢
  split
  · rename_i t ht
    rw [ht] at h
    simp only [Token.isOneOf, List.contains_eq_mem, decide_eq_false_iff_not] at h ⊢
    exact fun hmem => h (hsub hmem)
  · rfl

/-- Without a bracket directly ahead there are no groups. -/
theorem groupsLength_of_startsWith
    (h : Lookahead.startsWith [.leftParen, .leftBracket] [] rest = false) :
    groupsLength rest = some 0 := by
  cases rest with
  | nil => rw [groupsLength]
  | cons t rest =>
    rw [startsWith_cons (by simp)] at h
    have : (t.kind == .leftBracket) = false := by
      cases hk : t.kind <;> simp_all
    rw [groupsLength, this]
    rfl

/-- A simple value without brackets after it is a subject of one token. -/
theorem subjectLength_simple (ht : t.kind ∈ simpleKinds)
    (h : Lookahead.startsWith [.leftParen, .leftBracket] [] rest = false) :
    subjectLength (t :: rest) = some 1 := by
  have hsimple : t.isOneOf simpleKinds = true := by simpa [Token.isOneOf] using ht
  have hnewline : t.isOneOf newlines = false := by
    cases hk : t.kind <;> simp_all [Token.isOneOf, newlines, simpleKinds]
  simp [subjectLength, hnewline, hsimple, groupsLength_of_startsWith h]

/-- Categories that are not recognised are passed over. -/
theorem chooseFrom_append {before after : List Category} {tokens : List Token}
    (h : ∀ c ∈ before, accepts full c parent tokens = false) :
    chooseFrom full (before ++ after) parent tokens = chooseFrom full after parent tokens := by
  induction before with
  | nil => rfl
  | cons c before ih =>
    rw [List.cons_append, chooseFrom_full_cons, h c (by simp)]
    exact ih fun c hc => h c (by simp [hc])

/-- A category that is recognised is read. -/
theorem chooseFrom_here {category : Category} {after : List Category} {tokens : List Token}
    (h : accepts full category parent tokens = true) :
    chooseFrom full (category :: after) parent tokens = phrase full category tokens := by
  rw [chooseFrom_full_cons, h, if_pos rfl]

/-- Most categories are recognised by their first token alone. -/
theorem accepts_first {d : Oracle} {category : Category} {kinds : List Kind} (ht : t.kind ∉ newlines)
    (hpatterns : category.rule.patterns = [[kinds]]) (hskip : category.rule.skip = newlines) :
    accepts d category parent (t :: rest) = kinds.contains t.kind := by
  have hpattern : atPattern category.rule (t :: rest) = kinds.contains t.kind := by
    simp [atPattern, hpatterns, hskip, fits_single, startsWith_cons ht]
  cases category <;> first
    | exact hpattern
    | cases hpatterns

/-- A call and a reference are recognised by a bracket that follows directly. -/
theorem accepts_bracket (hparent : parent.takesStatements = false)
    (h : Lookahead.startsWith [.leftParen, .leftBracket] [] rest = false) :
    accepts full .call parent (t :: rest) = false ∧
      accepts full .reference parent (t :: rest) = false := by
  have hfits (kinds : List Kind) {kind : Kind} (hkind : kind ∈ [Kind.leftParen, .leftBracket]) :
      Lookahead.fits [] [kinds, [kind]] (t :: rest) = false := by
    rw [fits_cons (by simp), fits_single, startsWith_mono (by simpa using hkind) h, Bool.and_false]
  constructor
  · simp [accepts, hparent, atPattern, Category.rule, hfits]
  · simp [accepts, atPattern, Category.rule, hfits]

/-- Selectors, calls and references start with a value of one token. -/
theorem accepts_not_simple (hparent : parent.takesStatements = false) (ht : t.kind ∉ newlines)
    (hsimple : t.kind ∉ simpleKinds) :
    ∀ c ∈ [Category.selector, .call, .reference], accepts full c parent (t :: rest) = false := by
  have hselector : accepts full .selector parent (t :: rest) = false := by
    have hsimple : t.isOneOf simpleKinds = false := by simpa [Token.isOneOf] using hsimple
    have hnewline : t.isOneOf newlines = false := by simpa [Token.isOneOf] using ht
    simp [accepts, atSelector, subjectLength, hsimple, hnewline]
  have hfits {kinds kinds' : List Kind} (hsub : ∀ kind ∈ kinds, kind ∈ simpleKinds) :
      Lookahead.fits [] [kinds, kinds'] (t :: rest) = false := by
    have hnot : kinds.contains t.kind = false := by
      simpa using fun hmem => hsimple (hsub _ hmem)
    rw [fits_cons (by simp), hnot, Bool.false_and]
  have hcall : accepts full .call parent (t :: rest) = false := by
    have hpattern : Lookahead.fits [] [[.name], [.leftParen]] (t :: rest) = false :=
      hfits (by decide)
    simp [accepts, hparent, atPattern, Category.rule, hpattern]
  have hreference : accepts full .reference parent (t :: rest) = false := by
    have hpattern : Lookahead.fits [] [referenceHeads, [.leftBracket]] (t :: rest) = false :=
      hfits (by decide)
    simp [accepts, atPattern, Category.rule, hpattern]
  simp only [List.forall_mem_cons, List.not_mem_nil, false_implies, implies_true, and_true]
  exact ⟨hselector, hcall, hreference⟩

/-- The other terms are recognised by their first token. -/
theorem accepts_known (ht : t.kind ∉ newlines) {category : Category} {kinds : List Kind}
    (hpatterns : category.rule.patterns = [[kinds]]) (hskip : category.rule.skip = newlines)
    (hkinds : t.kind ∉ kinds) : accepts full category parent (t :: rest) = false := by
  rw [accepts_first ht hpatterns hskip]
  simpa using hkinds

/-- A token that no expression starts with is no term. -/
theorem choose_terms_none (hparent : parent.takesStatements = false) (ht : t.kind ∉ newlines)
    (hopens : t.kind ∉ expressionOpens) : full.choose terms parent (t :: rest) = .ok none := by
  have hnot {kinds : List Kind} (hsub : ∀ kind ∈ kinds, kind ∈ expressionOpens) : t.kind ∉ kinds :=
    fun hmem => hopens (hsub _ hmem)
  have hvalue : ∀ c ∈ [Category.selector, .call, .reference],
      accepts full c parent (t :: rest) = false :=
    accepts_not_simple hparent ht (hnot (by decide))
  have hother : ∀ c ∈ [Category.hash, .list, .parens, .unary, .simple],
      accepts full c parent (t :: rest) = false := by
    simp only [List.forall_mem_cons, List.not_mem_nil, false_implies, implies_true, and_true]
    exact ⟨accepts_known ht rfl rfl (hnot (by decide)), accepts_known ht rfl rfl (hnot (by decide)),
      accepts_known ht rfl rfl (hnot (by decide)), accepts_known ht rfl rfl (hnot (by decide)),
      accepts_known ht rfl rfl (hnot (by decide))⟩
  have hnone : chooseFrom full (terms ++ []) parent (t :: rest) = .ok none :=
    chooseFrom_append (List.forall_mem_append.mpr ⟨hvalue, hother⟩)
  rw [full_choose]
  exact hnone

/-- Terms in brackets or after a sign, with their first tokens. -/
def opened : List (Category × List Kind) :=
  [(.hash, [.leftBrace]), (.list, [.leftBracket]), (.parens, [.leftParen]), (.unary, [.bang, .minus])]

/-- A term in brackets, or after a sign, is known by its first token. -/
theorem choose_terms_opened {category : Category} {kinds : List Kind}
    (hparent : parent.takesStatements = false) (hmem : (category, kinds) ∈ opened)
    (ht : t.kind ∈ kinds) :
    full.choose terms parent (t :: rest) = phrase full category (t :: rest) := by
  have hclear : ∀ e ∈ opened, ∀ kind ∈ e.2, kind ∉ newlines ∧ kind ∉ simpleKinds := by decide
  have hapart : ∀ e ∈ opened, ∀ e' ∈ opened, e.1 ≠ e'.1 → ∀ kind ∈ e.2, kind ∉ e'.2 := by decide
  have hrule : ∀ e ∈ opened, e.1.rule.patterns = [[e.2]] ∧ e.1.rule.skip = newlines := by decide
  obtain ⟨hnewline, hsimple⟩ := hclear _ hmem _ ht
  have hhere : accepts full category parent (t :: rest) = true := by
    rw [accepts_first hnewline (hrule _ hmem).1 (hrule _ hmem).2]
    simpa using ht
  have hvalue : ∀ c ∈ [Category.selector, .call, .reference],
      accepts full c parent (t :: rest) = false := accepts_not_simple hparent hnewline hsimple
  have hother : ∀ c ∈ opened.map (·.1), c ≠ category → accepts full c parent (t :: rest) = false := by
    rw [List.forall_mem_map]
    intro e he hne
    exact accepts_known hnewline (hrule e he).1 (hrule e he).2
      (hapart _ hmem e he (Ne.symm hne) _ ht)
  -- the categories before this one are values or other terms of this sort
  have hsplit : ∀ c ∈ opened.map (·.1), ∃ before after, terms = before ++ c :: after ∧
      ∀ c' ∈ before, c' ∈ [Category.selector, .call, .reference] ∨
        c' ∈ opened.map (·.1) ∧ c' ≠ c := by
    simp only [opened, List.map_cons, List.map_nil, List.forall_mem_cons, List.not_mem_nil,
      false_implies, implies_true, and_true]
    exact ⟨⟨[.selector, .call, .reference], [.list, .parens, .unary, .simple], rfl, by decide⟩,
      ⟨[.selector, .call, .reference, .hash], [.parens, .unary, .simple], rfl, by decide⟩,
      ⟨[.selector, .call, .reference, .hash, .list], [.unary, .simple], rfl, by decide⟩,
      ⟨[.selector, .call, .reference, .hash, .list, .parens], [.simple], rfl, by decide⟩⟩
  obtain ⟨before, after, hterms, hbefore⟩ :=
    hsplit category (List.mem_map.mpr ⟨_, hmem, rfl⟩)
  rw [full_choose, hterms, chooseFrom_append, chooseFrom_here hhere]
  exact fun c hc => (hbefore c hc).elim (hvalue c) fun h => hother c h.1 h.2

/-- A value of one token is a term, unless something joins it from the right. -/
theorem choose_simple (hparent : parent.takesStatements = false) (ht : t.kind ∈ simpleKinds)
    (h : Detached rest) :
    full.choose terms parent (t :: rest) = .ok (some (⟨t.line, .simple t⟩, rest)) := by
  have hselector : accepts full .selector parent (t :: rest) = false := by
    simp only [accepts, atSelector, subjectLength_simple ht h.bracket, List.drop_succ_cons, List.drop_zero,
      h.question]
  obtain ⟨hcall, hreference⟩ := accepts_bracket (t := t) hparent h.bracket
  have hnewline : t.kind ∉ newlines := by
    intro hmem
    cases hk : t.kind <;> simp_all [newlines, simpleKinds]
  have hsimple : accepts full .simple parent (t :: rest) = true := by
    rw [accepts_first hnewline rfl rfl]
    simpa using ht
  have hbefore : ∀ c ∈ [Category.selector, .call, .reference, .hash, .list, .parens, .unary],
      accepts full c parent (t :: rest) = false := by
    simp only [List.forall_mem_cons, List.not_mem_nil, false_implies, implies_true, and_true]
    have hother : ∀ kinds ∈ opened.map (·.2), t.kind ∉ kinds := by
      have hapart : ∀ kind ∈ simpleKinds, ∀ kinds ∈ opened.map (·.2), kind ∉ kinds := by decide
      exact hapart _ ht
    exact ⟨hselector, hcall, hreference, accepts_known hnewline rfl rfl (hother _ (by decide)),
      accepts_known hnewline rfl rfl (hother _ (by decide)),
      accepts_known hnewline rfl rfl (hother _ (by decide)),
      accepts_known hnewline rfl rfl (hother _ (by decide))⟩
  calc full.choose terms parent (t :: rest)
    _ = chooseFrom full [.simple] parent (t :: rest) := by
      rw [full_choose]
      exact chooseFrom_append hbefore
    _ = phrase full .simple (t :: rest) := chooseFrom_here hsimple
    _ = _ := phrase_simple ht rest

end

/-- A comma and the expression after it. -/
def further (label : String) : Step :=
  (Step.inOrder [Step.expect [.comma], (Step.oneOf [.expression]).named label]).many.maybe

/-- An operator and the term after it. -/
def operation : Step :=
  (Step.inOrder [(Step.expect binaryOperators).named "parts",
    (Step.oneOf terms).named "parts"]).many.maybe

/-- Where tokens start with none of some kinds, neither does a step. -/
theorem startsWith_lead {kinds : List Kind} {usage : Usage} (hline : usage.sameLine = false)
    {tokens rest : List Token} {t : Token}
    (h : Lookahead.startsWith kinds newlines tokens = false) (hlead : lead usage tokens = t :: rest) :
    t.kind ∉ kinds := by
  simp only [lead, hline, Bool.false_eq_true, if_false] at hlead
  simpa [Lookahead.startsWith, Lookahead.peek, hlead, Token.isOneOf] using h

/-- Going to where a step starts a second time changes nothing. -/
theorem lead_lead {usage usage' : Usage} (hline : usage'.sameLine = false) (tokens : List Token) :
    lead usage (lead usage' tokens) = lead usage' tokens := by
  simp only [lead, hline, Bool.false_eq_true, if_false]
  split
  · rfl
  · exact Lookahead.significant_significant _ _

/-- A group that starts with a token is not read if the token is not there. -/
theorem once_group_stop {owner : Category} {usage first : Usage} {kinds : List Kind}
    {steps : List Step} {tokens : List Token} (hline : usage.sameLine = false)
    (hsingle : first = { label := first.label })
    (h : Lookahead.startsWith kinds newlines tokens = false) :
    once full owner (.group usage (.token first kinds :: steps)) tokens = .ok none := by
  rw [hsingle]
  have hstop : once full owner (.token { label := first.label } kinds) (lead usage tokens) =
      .ok none := by
    refine once_token_stop fun t rest hlead => ?_
    rw [lead_lead hline] at hlead
    exact startsWith_lead hline h hlead
  rw [once, inOrder_single rfl rfl, hstop, andThen_none]

/-- Whether something is an expression is found out by reading it. -/
theorem choose_eq_phrase_expression (parent : Category) (tokens : List Token) :
    full.choose [.expression] parent tokens = phrase full .expression tokens := by
  rw [full_choose]
  exact chooseFrom_here rfl

/-- An expression is a term with the operations after it. -/
theorem choose_expression {parent : Category} {t : Token} {tokens middle rest : List Token}
    {p : Phrase} {trace : Trace Phrase} (ht : t.kind ∉ newlines)
    (hterm : full.choose terms .expression (t :: tokens) = .ok (some (p, middle)))
    (hruns : Runs (fun tokens => once full .expression operation tokens) middle trace rest) :
    full.choose [.expression] parent (t :: tokens) =
      .ok (some (⟨t.line, .expression
        (.term p :: (Captures.all ⟨logOf trace⟩ "parts").filterMap Capture.part?)⟩, rest)) := by
  have hfirst : once full .expression ((Step.oneOf terms).named "parts") (t :: tokens) =
      .ok (some ([(some "parts", .node p)], middle)) := by
    refine once_node ?_
    rw [lead_cons (by simpa [newlines] using ht)]
    exact hterm
  have hsteps : inOrder full .expression Category.expression.rule.steps (t :: tokens) =
      .ok (some ((some "parts", .node p) :: trace, rest)) := by
    show inOrder full .expression [(Step.oneOf terms).named "parts", operation] _ = _
    rw [inOrder_single rfl rfl, hfirst, andThen_some, inOrder_runs rfl rfl hruns]
    simp [inOrder]
  rw [choose_eq_phrase_expression]
  simp only [phrase, Lookahead.significant_cons ht, hsteps, andThen_some]
  rfl

/-- A token that no expression starts with is no expression. -/
theorem choose_expression_none {parent : Category} {t : Token} {rest : List Token}
    (ht : t.kind ∉ newlines) (hopens : t.kind ∉ expressionOpens) :
    full.choose [.expression] parent (t :: rest) = .ok none := by
  have hfirst : once full .expression ((Step.oneOf terms).named "parts") (t :: rest) = .ok none := by
    refine once_node_stop ?_
    rw [lead_cons (by simpa [newlines] using ht)]
    exact choose_terms_none rfl ht hopens
  have hsteps : inOrder full .expression Category.expression.rule.steps (t :: rest) = .ok none := by
    show inOrder full .expression [(Step.oneOf terms).named "parts", operation] _ = _
    rw [inOrder_single rfl rfl, hfirst, andThen_none]
  rw [choose_eq_phrase_expression]
  simp only [phrase, Lookahead.significant_cons ht, hsteps, andThen_none]

end Plain

end TidyManifest
