import TidyManifest.Proofs.Plain.Evaluate
import TidyManifest.Proofs.Plain.Numbering

/-!
# What reading finds

`Spells` says which tokens a phrase can be read from, but not which of several readings is preferred.
`Found` says that a phrase was indeed read, below a parent of some category.  Whatever is found has
children that are found below it (`Found.child`), so what is true of everything that is found is true
at every depth.

The first such fact is about calls.  The rule of calls has a second branch, without parentheses; it is
for statements only.  Where a call is recognised by the parenthesis after its name, the first branch
can be read whenever the second one can (`Found.parenthesized`).
-/

namespace TidyManifest.Plain

open Parse Grammar

/-- A phrase that is read below a parent of some category. -/
def Found (parent : Category) (p : Phrase) : Prop :=
  ∃ categories tokens rest, full.choose categories parent tokens = .ok (some (p, rest))

section

variable {owner : Category} {tokens rest : List Token} {trace : Trace Phrase}

/-- What has been read was found. -/
def Finds (owner : Category) (trace : Trace Phrase) : Prop :=
  ∀ q ∈ treesOf trace, Found owner q

theorem finds_nil (owner : Category) : Finds owner [] :=
  fun _ hq => absurd hq List.not_mem_nil

/-- What is found in two steps is found together. -/
theorem Finds.append {more : Trace Phrase} (h : Finds owner trace) (h' : Finds owner more) :
    Finds owner (trace ++ more) := by
  rw [Finds, treesOf_append, List.forall_mem_append]
  exact ⟨h, h'⟩

/-- What is read again and again is found in the source. -/
theorem again_finds {reading : List Token → Outcome (Trace Phrase)} {n : Nat}
    (hreading : ∀ {tokens trace rest}, reading tokens = .ok (some (trace, rest)) → Finds owner trace)
    (h : again reading n tokens = .ok (trace, rest)) : Finds owner trace := by
  induction n generalizing tokens trace with
  | zero => cases h
  | succ n ih =>
    unfold again at h
    split at h
    · cases h
    · cases h
      exact finds_nil owner
    · rename_i first middle hfirst
      split at h
      · cases h
        exact hreading hfirst
      · split at h
        · cases h
        · rename_i more rest hmore
          cases h
          exact (hreading hfirst).append (ih hmore)

/-- What a step reads as its rule says is found in the source. -/
theorem used_finds {usage : Usage} {rounds : List Token → Nat}
    {reading : List Token → Outcome (Trace Phrase)}
    (hreading : ∀ {tokens trace rest}, reading tokens = .ok (some (trace, rest)) → Finds owner trace)
    (h : used usage rounds reading tokens = .ok (some (trace, rest))) : Finds owner trace := by
  unfold used at h
  split at h
  · cases h
  · split at h
    · cases h
      exact finds_nil owner
    · cases h
  · rename_i first middle hfirst
    split at h
    · split at h
      · cases h
      · rename_i more rest hmore
        cases h
        exact (hreading hfirst).append (again_finds hreading hmore)
    · cases h
      exact hreading hfirst

/-- Statements that are read are found in the source. -/
theorem statements_finds {closing : Option Kind} {n : Nat} {ps : List Phrase}
    (h : statements full owner closing n tokens = .ok (ps, rest)) : ∀ q ∈ ps, Found owner q := by
  induction n generalizing tokens ps with
  | zero => cases h
  | succ n ih =>
    rw [statements] at h
    split at h
    · split at h
      · cases h
      · cases h
        exact List.forall_mem_nil _
    · split at h
      · cases h
        exact List.forall_mem_nil _
      · split at h
        · cases h
        · cases h
        · rename_i p rest' hp
          split at h
          · cases h
          · split at h
            · cases h
            · rename_i qs rest hqs
              cases h
              exact List.forall_mem_cons.mpr ⟨⟨_, _, _, hp⟩, ih hqs⟩

mutual

/-- What one step reads is found in the source. -/
theorem once_finds (step : Step) {tokens rest : List Token} {trace : Trace Phrase}
    (h : once full owner step tokens = .ok (some (trace, rest))) : Finds owner trace := by
  cases step with
  | token usage kinds =>
    simp only [once] at h
    split at h
    · cases h
    · split at h
      · cases h
        exact finds_nil owner
      · cases h
  | node usage categories =>
    obtain ⟨p, _, hp, heq⟩ := andThen_eq_some (by simpa only [once] using h)
    cases heq
    exact fun q hq => List.mem_singleton.mp hq ▸ ⟨_, _, _, hp⟩
  | group usage steps =>
    simp only [once] at h
    exact inOrder_finds steps h
  | choice usage branches =>
    simp only [once] at h
    exact firstOf_finds branches h
  | block usage =>
    simp only [once] at h
    split at h
    · cases h
    · split at h
      · split at h
        · cases h
        · rename_i ps after hps
          cases h
          rw [full_statements] at hps
          exact fun q hq => statements_finds hps q (by simpa [treesOf] using hq)
      · cases h

/-- What steps read is found in the source. -/
theorem inOrder_finds (steps : List Step) {tokens rest : List Token} {trace : Trace Phrase}
    (h : inOrder full owner steps tokens = .ok (some (trace, rest))) : Finds owner trace := by
  cases steps with
  | nil =>
    simp only [inOrder] at h
    cases h
    exact finds_nil owner
  | cons step steps =>
    simp only [inOrder] at h
    obtain ⟨first, _, hfirst, h₁⟩ := andThen_eq_some h
    obtain ⟨more, _, hmore, h₂⟩ := andThen_eq_some h₁
    cases h₂
    exact (used_finds (once_finds step) hfirst).append (inOrder_finds steps hmore)

/-- What one of several sequences of steps reads is found in the source. -/
theorem firstOf_finds (branches : List (List Step)) {tokens rest : List Token} {trace : Trace Phrase}
    (h : firstOf full owner branches tokens = .ok (some (trace, rest))) : Finds owner trace := by
  cases branches with
  | nil => simp only [firstOf] at h; cases h
  | cons branch branches =>
    simp only [firstOf] at h
    split at h
    · exact firstOf_finds branches h
    · exact inOrder_finds branch h

end

/-- The items of a resource are found in the source. -/
theorem items_finds {n : Nat} {ps : List Phrase} (h : items full n tokens = .ok (some (ps, rest))) :
    ∀ q ∈ ps, Found .resource q := by
  induction n generalizing tokens ps with
  | zero => cases h
  | succ n ih =>
    rw [items] at h
    split at h
    · cases h
    · split at h
      · cases h
        exact List.forall_mem_nil _
      · split at h
        · exact ih h
        · obtain ⟨p, _, hp, h⟩ := andThen_eq_some h
          obtain ⟨more, _, hmore, h⟩ := andThen_eq_some h
          cases h
          exact List.forall_mem_cons.mpr ⟨⟨_, _, _, hp⟩, ih hmore⟩

end

section

variable {parent category : Category} {tokens rest : List Token} {p : Phrase}

/-- What is chosen is recognised and read. -/
theorem chooseFrom_eq_some {d : Oracle} {categories : List Category}
    (h : chooseFrom d categories parent tokens = .ok (some (p, rest))) :
    ∃ category ∈ categories, accepts d category parent tokens = true ∧
      phrase d category tokens = .ok (some (p, rest)) := by
  induction categories with
  | nil => cases h
  | cons category categories ih =>
    obtain ⟨haccepts, h⟩ | ⟨-, h⟩ := chooseFrom_cons_eq_ok h
    · exact ⟨category, List.mem_cons_self, haccepts, h⟩
    · obtain ⟨c, hc, hfound⟩ := ih h
      exact ⟨c, List.mem_cons_of_mem _ hc, hfound⟩

/-- What is chosen with enough levels is recognised and read. -/
theorem choose_eq_some {categories : List Category}
    (h : full.choose categories parent tokens = .ok (some (p, rest))) :
    ∃ category ∈ categories, accepts full category parent tokens = true ∧
      phrase full category tokens = .ok (some (p, rest)) := by
  rw [full_choose] at h
  exact chooseFrom_eq_some h

/-- What is read is what the steps of its rule read, apart from resources. -/
theorem phrase_eq_some {d : Oracle} (hd : Sound d) (hresource : category ≠ .resource)
    (h : phrase d category tokens = .ok (some (p, rest))) :
    ∃ trace, inOrder d category category.rule.steps (Lookahead.significant newlines tokens) =
        .ok (some (trace, rest)) ∧ Schema Phrase.category category p.form trace := by
  obtain ⟨trace, middle, htrace, h₁⟩ := andThen_eq_some h
  obtain ⟨hfits, -⟩ := inOrder_sound hd _ htrace
  rw [if_neg (by simpa using hresource)] at h₁
  have hmanifest : category ≠ .manifest := by
    rintro rfl
    cases h₁
  obtain ⟨form, schema⟩ := schema_of_fits hmanifest hresource hfits
  rw [schema.ofCaptures?_eq] at h₁
  cases h₁
  exact ⟨trace, htrace, schema⟩

/-- What a resource holds was read with its head or as an item. -/
theorem resource_finds {trace : Trace Phrase} {form : Form Phrase} {middle : List Token}
    (hfits : Fits Phrase.category Category.resource.rule.steps trace)
    (htrace : Finds .resource trace) (h : resource full trace middle = .ok (some (form, rest))) :
    form.category = .resource ∧ ∀ q ∈ form.children, Found .resource q := by
  obtain ⟨sigils, head, collector, schema⟩ := headSchema_of_fits hfits
  have hchildren (sigil : String) (hasBlock : Bool) {items : List Phrase}
      (hitems : ∀ q ∈ items, Found .resource q) :
      ∀ q ∈ (Form.resource sigil head collector hasBlock items).children, Found .resource q := by
    rw [schema.children_eq, List.forall_mem_append]
    exact ⟨htrace, hitems⟩
  have hnil : ∀ q ∈ ([] : List Phrase), Found .resource q := List.forall_mem_nil _
  simp only [resource, schema.head_eq, schema.collector_eq] at h
  split at h
  · split at h
    · obtain ⟨items, _, hitems, heq⟩ := andThen_eq_some h
      cases heq
      exact ⟨rfl, hchildren _ _ (items_finds hitems)⟩
    · split at h
      · cases h
        exact ⟨rfl, hchildren _ _ hnil⟩
      · cases h
  · split at h
    · cases h
      exact ⟨rfl, hchildren _ _ hnil⟩
    · cases h

/-- What is found has children that are found. -/
theorem Found.child (h : Found parent p) {q : Phrase} (hq : q ∈ p.children) : Found p.category q := by
  obtain ⟨categories, tokens, rest, hp⟩ := h
  obtain ⟨category, -, -, hp⟩ := choose_eq_some hp
  by_cases hresource : category = .resource
  · subst hresource
    obtain ⟨trace, middle, htrace, h₁⟩ := andThen_eq_some hp
    obtain ⟨hfits, -⟩ := inOrder_sound full_sound _ htrace
    obtain ⟨form, _, hform, heq⟩ := andThen_eq_some h₁
    cases heq
    obtain ⟨hcategory, hchildren⟩ := resource_finds hfits (inOrder_finds _ htrace) hform
    rw [Phrase.category, Phrase.form_mk, hcategory]
    exact hchildren q hq
  · obtain ⟨trace, htrace, schema⟩ := phrase_eq_some full_sound hresource hp
    rw [Phrase.category, schema.category_eq]
    exact inOrder_finds _ htrace q (schema.children_eq ▸ hq)

/-- The columns of pairs are set after reading. -/
theorem Found.width_eq {key arrow : Token} {value : Phrase} {width : Nat} (h : Found parent p)
    (hp : p.form = .pair key arrow value width) : width = 0 := by
  obtain ⟨categories, tokens, rest, hp'⟩ := h
  obtain ⟨-, w, -, hspells⟩ := full_sound.choose hp'
  obtain ⟨line, form⟩ := p
  cases hspells with
  | rule schema =>
    cases hp
    cases schema
    rfl
  | collected => cases hp
  | resource => cases hp

end

section

variable {d : Oracle} {owner : Category} {usage : Usage} {steps : List Step}
  {tokens rest : List Token} {trace : Trace Phrase}

/-- Steps that start with a token start where it stands. -/
theorem inOrder_token_inv {kinds : List Kind} (ho : usage.optional = false)
    (hm : usage.many = false)
    (h : inOrder d owner (.token usage kinds :: steps) tokens = .ok (some (trace, rest))) :
    ∃ t middle more, lead usage tokens = t :: middle ∧ t.kind ∈ kinds ∧
      inOrder d owner steps middle = .ok (some (more, rest)) ∧
        trace = (usage.label, .token t) :: more := by
  rw [inOrder_single (show (Step.token usage kinds).usage.optional = false from ho) hm] at h
  obtain ⟨first, middle, hfirst, h⟩ := andThen_eq_some h
  obtain ⟨more, _, hmore, h⟩ := andThen_eq_some h
  cases h
  rw [once] at hfirst
  split at hfirst
  · cases hfirst
  · rename_i t after hlead
    split at hfirst
    · rename_i ht
      cases hfirst
      exact ⟨t, middle, more, hlead, by simpa [Token.isOneOf] using ht, hmore, rfl⟩
    · cases hfirst

/-- Steps that start with a node start with a phrase that is chosen. -/
theorem inOrder_node_inv {categories : List Category} (ho : usage.optional = false)
    (hm : usage.many = false)
    (h : inOrder d owner (.node usage categories :: steps) tokens = .ok (some (trace, rest))) :
    ∃ p middle more, d.choose categories owner (lead usage tokens) = .ok (some (p, middle)) ∧
      inOrder d owner steps middle = .ok (some (more, rest)) ∧
        trace = (usage.label, .node p) :: more := by
  rw [inOrder_single (show (Step.node usage categories).usage.optional = false from ho) hm] at h
  obtain ⟨first, middle, hfirst, h⟩ := andThen_eq_some h
  obtain ⟨more, _, hmore, h⟩ := andThen_eq_some h
  cases h
  rw [once] at hfirst
  obtain ⟨p, _, hp, heq⟩ := andThen_eq_some hfirst
  cases heq
  exact ⟨p, middle, more, hp, hmore, rfl⟩

/-- A rule that is a choice reads what the choice reads. -/
theorem inOrder_firstOf_inv {branches : List (List Step)}
    (h : inOrder d owner [Step.firstOf branches] tokens = .ok (some (trace, rest))) :
    firstOf d owner branches (lead {} tokens) = .ok (some (trace, rest)) := by
  rw [inOrder_single rfl rfl] at h
  obtain ⟨first, _, hfirst, h⟩ := andThen_eq_some h
  obtain ⟨more, _, hmore, h⟩ := andThen_eq_some h
  rw [inOrder] at hmore
  cases hmore
  rw [List.append_nil] at h
  cases h
  rw [Step.firstOf, once] at hfirst
  exact hfirst

end

/-- Where a pattern of two tokens skips nothing, they stand next to each other. -/
theorem fits_pair {kinds kinds' : List Kind} {tokens : List Token}
    (h : Lookahead.fits [] [kinds, kinds'] tokens = true) :
    ∃ t t' rest, tokens = t :: t' :: rest ∧ t.kind ∈ kinds ∧ t'.kind ∈ kinds' := by
  rcases tokens with _ | ⟨t, _ | ⟨t', tokens⟩⟩
  · cases h
  · rw [fits_cons (by simp), fits_single, startsWith_nil, Bool.and_false] at h
    cases h
  · rw [fits_cons (by simp), fits_cons (by simp)] at h
    exact ⟨t, t', tokens, rfl, by simpa [Lookahead.fits] using h⟩

/-- The branch of a call with parentheses. -/
def parenthesizedCall : List Step :=
  [(Step.expect [.name]).named "name",
   ((Step.expect [.leftParen]).named "open").sameLine,
   ((Step.oneOf [.expression]).named "args").maybe,
   further "args",
   (Step.expect [.comma]).maybe,
   Step.expect [.rightParen]]

/-- The branch of a call without parentheses. -/
def bareCall : List Step :=
  [(Step.expect [.name]).named "name",
   ((Step.oneOf [.expression]).named "args").sameLine,
   further "args"]

section

variable {name opening : Token} {tokens rest : List Token} {trace : Trace Phrase}

/-- An expression that starts with a parenthesis starts with an expression in parentheses. -/
theorem inner_of_expression {parent : Category} {p : Phrase} (hopening : opening.kind = .leftParen)
    (h : full.choose [.expression] parent (opening :: tokens) = .ok (some (p, rest))) :
    ∃ inner middle closing after,
      phrase full .expression (Lookahead.significant newlines tokens) = .ok (some (inner, middle)) ∧
        Lookahead.significant newlines middle = closing :: after ∧ closing.kind = .rightParen := by
  have hnewline : opening.kind ∉ newlines := by rw [hopening]; decide
  rw [choose_eq_phrase_expression] at h
  obtain ⟨_, hsteps, -⟩ := phrase_eq_some full_sound (by decide) h
  rw [Lookahead.significant_cons hnewline] at hsteps
  obtain ⟨term, _, _, hterm, -, -⟩ := inOrder_node_inv rfl rfl hsteps
  rw [lead_cons (by simpa [newlines] using hnewline),
    choose_terms_opened rfl (show (Category.parens, [Kind.leftParen]) ∈ opened by decide)
      (by simp [hopening])] at hterm
  obtain ⟨_, hparens, -⟩ := phrase_eq_some full_sound (by decide) hterm
  rw [Lookahead.significant_cons hnewline] at hparens
  obtain ⟨t, _, _, hlead, -, hparens, -⟩ := inOrder_token_inv rfl rfl hparens
  rw [lead_cons (by simpa [newlines] using hnewline)] at hlead
  cases hlead
  obtain ⟨inner, middle, _, hinner, hparens, -⟩ := inOrder_node_inv rfl rfl hparens
  obtain ⟨closing, after, _, hlead, hclosing, -⟩ := inOrder_token_inv rfl rfl hparens
  rw [choose_eq_phrase_expression] at hinner
  exact ⟨inner, middle, closing, after, hinner, hlead, by simpa using hclosing⟩

/-- Where a parenthesis follows the name, the arguments can be read in parentheses whenever they can
be read without. -/
theorem parenthesizedCall_of_bareCall (hname : name.kind = .name)
    (hopening : opening.kind = .leftParen)
    (h : inOrder full .call bareCall (name :: opening :: tokens) = .ok (some (trace, rest))) :
    ∃ trace' rest', inOrder full .call parenthesizedCall (name :: opening :: tokens) =
      .ok (some (trace', rest')) := by
  have hlead (usage : Usage) (rest : List Token) : lead usage (name :: rest) = name :: rest :=
    lead_cons (by simp [hname]) usage rest
  obtain ⟨_, _, _, heq, -, h, -⟩ := inOrder_token_inv rfl rfl h
  rw [hlead] at heq
  cases heq
  obtain ⟨p, _, _, hp, -, -⟩ := inOrder_node_inv rfl rfl h
  obtain ⟨inner, middle, closing, after, hinner, hclosing, hkind⟩ :=
    inner_of_expression hopening (show full.choose [.expression] .call (opening :: tokens) = _ from hp)
  have hstop {kinds : List Kind} (hkinds : Kind.rightParen ∉ kinds) :
      Lookahead.startsWith kinds newlines middle = false := by
    simpa [Lookahead.startsWith, Lookahead.peek, hclosing, Token.isOneOf, hkind] using hkinds
  have hcomma : once full .call (Step.expect [.comma]).maybe middle = .ok none :=
    once_token_stop fun t rest ht => startsWith_lead rfl (hstop (by decide)) ht
  have hfurther : once full .call (further "args") middle = .ok none :=
    once_group_stop rfl rfl (hstop (by decide))
  have hlast : inOrder full .call [Step.expect [.rightParen]] middle =
      .ok (some ([(none, .token closing)], after)) :=
    inOrder_token rfl hclosing (by simp [hkind]) rfl
  have hargs : inOrder full .call
      [further "args", (Step.expect [.comma]).maybe, Step.expect [.rightParen]] middle =
        .ok (some ([(none, .token closing)], after)) := by
    rw [inOrder_skip rfl hfurther, inOrder_skip rfl hcomma, hlast]
  have hexpression : full.choose [.expression] .call (lead { label := some "args", optional := true } tokens) =
      .ok (some (inner, middle)) := by
    rw [choose_eq_phrase_expression]
    exact hinner
  exact ⟨_, _, inOrder_token rfl (hlead _ _) (by simp [hname])
    (inOrder_token rfl rfl (by simp [hopening]) (inOrder_node rfl hexpression hargs))⟩

end

/-- A call that is recognised by the parenthesis after its name is read with parentheses. -/
theorem parenthesized_of_pattern {tokens rest : List Token} {p : Phrase}
    (h : phrase full .call tokens = .ok (some (p, rest)))
    (hpattern : atPattern Category.call.rule tokens = true) {name : Token} {args : List Phrase}
    {parenthesized : Bool} (hp : p.form = .call name args parenthesized) : parenthesized = true := by
  obtain ⟨trace, hsteps, schema⟩ := phrase_eq_some full_sound (by decide) h
  obtain ⟨name', opening, tokens, rfl, hname, hopening⟩ : ∃ name' opening rest,
      tokens = name' :: opening :: rest ∧ name'.kind = .name ∧ opening.kind = .leftParen := by
    have hfits : Lookahead.fits [] [[.name], [.leftParen]] tokens = true := by
      simpa [atPattern, Category.rule] using hpattern
    simpa using fits_pair hfits
  rw [hp] at schema
  cases schema with
  | call => rfl
  | @bareCall _ _ trace' hname' hargs =>
    -- a trace of the second branch, although the first one can be read
    exfalso
    rw [Lookahead.significant_cons (by rw [hname]; decide)] at hsteps
    have hfirst : firstOf full .call [parenthesizedCall, bareCall] (name' :: opening :: tokens) =
        .ok (some (named "name" name :: trace', rest)) := by
      have hchoice := inOrder_firstOf_inv hsteps
      rwa [lead_cons (by rw [hname]; decide)] at hchoice
    rw [firstOf] at hfirst
    split at hfirst
    · rename_i hnone
      rw [firstOf] at hfirst
      split at hfirst
      · cases hfirst
      · obtain ⟨_, _, h⟩ := parenthesizedCall_of_bareCall hname hopening hfirst
        cases hnone.symm.trans h
    · obtain ⟨_, _, _, -, -, hmore, heq⟩ := inOrder_token_inv rfl rfl hfirst
      obtain ⟨_, _, _, -, -, -, hopen⟩ := inOrder_token_inv rfl rfl hmore
      cases hargs with
      | intro hx more =>
        rw [hopen] at heq
        simp at heq

/-- A call that is found was recognised as a call and read as one. -/
theorem Found.call {parent : Category} {p : Phrase} (h : Found parent p)
    (hp : p.category = .call) :
    ∃ tokens rest, accepts full .call parent tokens = true ∧
      phrase full .call tokens = .ok (some (p, rest)) := by
  obtain ⟨categories, tokens, rest, hchoose⟩ := h
  obtain ⟨category, -, haccepts, hphrase⟩ := choose_eq_some hchoose
  obtain rfl : category = .call := by
    rw [← (phrase_sound full_sound (recognised_of_accepts haccepts) hphrase).1, hp]
  exact ⟨tokens, rest, haccepts, hphrase⟩

/-- Where no statement is expected, a call that is found has parentheses. -/
theorem Found.parenthesized {parent : Category} {p : Phrase}
    (h : Found parent p) (hparent : parent.takesStatements = false) {name : Token}
    {args : List Phrase} {parenthesized : Bool} (hp : p.form = .call name args parenthesized) :
    parenthesized = true := by
  obtain ⟨tokens, rest, haccepts, hphrase⟩ := h.call (by rw [Phrase.category, hp]; rfl)
  exact parenthesized_of_pattern hphrase (by simpa [accepts, hparent] using haccepts) hp

end TidyManifest.Plain
