import TidyManifest.Proofs.Plain.Schema

/-!
# The steps of the grammar, interpreted

Whatever the steps of a rule read follows the schema of its category, and makes up the contents of
a node: no rule can be read and then lack something that its contents need
(`schema_of_fits`).
-/

namespace TidyManifest.Plain

open Grammar
open List (mem_singleton)

variable {ι : Type}

section

variable {categoryOf : ι → Category} {steps : List Step} {trace : Trace ι} {label : String}
  {kinds : List Kind} {categories : List Category}

/-- A step that is read once has one reading. -/
theorem fitsUsed_single {usage : Usage} {fits : Trace ι → Prop} (ho : usage.optional = false)
    (hm : usage.many = false) : FitsUsed usage fits trace ↔ fits trace := by
  simp [FitsUsed, ho, hm]

/-- A step that may be left out has a reading or none. -/
theorem fitsUsed_maybe {usage : Usage} {fits : Trace ι → Prop} (ho : usage.optional = true)
    (hm : usage.many = false) : FitsUsed usage fits trace ↔ trace = [] ∨ fits trace := by
  simp [FitsUsed, ho, hm]

/-- A step that may be left out and repeated has any number of readings. -/
theorem fitsUsed_star {usage : Usage} {fits : Trace ι → Prop} (ho : usage.optional = true)
    (hm : usage.many = true) :
    FitsUsed usage fits trace ↔
      ∃ pieces, trace = List.flatten pieces ∧ ∀ piece ∈ pieces, fits piece := by
  simp only [FitsUsed, ho, hm, true_and, if_true]
  constructor
  · rintro (rfl | ⟨first, more, rfl, hfirst, hmore⟩)
    · exact ⟨[], rfl, by simp⟩
    · exact ⟨first :: more, rfl, by simpa using ⟨hfirst, hmore⟩⟩
  · rintro ⟨pieces, rfl, h⟩
    cases pieces with
    | nil => exact .inl rfl
    | cons first more =>
      exact .inr ⟨first, more, rfl, h first (by simp), fun x hx => h x (by simp [hx])⟩

/-- A step that is repeated has a first reading and any number of further ones. -/
theorem fitsUsed_plus {usage : Usage} {fits : Trace ι → Prop} (ho : usage.optional = false)
    (hm : usage.many = true) :
    FitsUsed usage fits trace ↔
      ∃ first more, trace = first ++ List.flatten more ∧ fits first ∧
        ∀ piece ∈ more, fits piece := by
  simp [FitsUsed, ho, hm]

/-- The steps of a rule that are not repeated, opened up. -/
theorem fits_token {usage : Usage} (ho : usage.optional = false) (hm : usage.many = false)
    (h : Fits categoryOf (.token usage kinds :: steps) trace) :
    ∃ t more, t.kind ∈ kinds ∧ trace = (usage.label, .token t) :: more ∧
      Fits categoryOf steps more := by
  obtain ⟨_, more, rfl, hfirst, hmore⟩ := h
  obtain ⟨t, ht, rfl⟩ := (fitsUsed_single ho hm).mp hfirst
  exact ⟨t, more, ht, rfl, hmore⟩

/-- A node that is asked for stands first in the trace. -/
theorem fits_node {usage : Usage} (ho : usage.optional = false) (hm : usage.many = false)
    (h : Fits categoryOf (.node usage categories :: steps) trace) :
    ∃ x more, categoryOf x ∈ categories ∧ trace = (usage.label, .node x) :: more ∧
      Fits categoryOf steps more := by
  obtain ⟨_, more, rfl, hfirst, hmore⟩ := h
  obtain ⟨x, hx, rfl⟩ := (fitsUsed_single ho hm).mp hfirst
  exact ⟨x, more, hx, rfl, hmore⟩

/-- A block in braces is one entry of the trace. -/
theorem fits_block (h : Fits categoryOf [Step.braces.named "body"] trace) :
    ∃ xs, trace = [body xs] := by
  obtain ⟨_, _, rfl, hfirst, rfl⟩ := h
  obtain ⟨xs, rfl⟩ := (fitsUsed_single rfl rfl).mp hfirst
  exact ⟨xs, rfl⟩

/-- A node that may be left out is there or not. -/
theorem fits_possible (h : Fits categoryOf (((Step.oneOf categories).named label).maybe :: steps)
    trace) :
    ∃ x first more, Possible categoryOf label categories x first ∧ trace = first ++ more ∧
      Fits categoryOf steps more := by
  obtain ⟨_, more, rfl, hfirst, hmore⟩ := h
  rcases (fitsUsed_maybe rfl rfl).mp hfirst with rfl | ⟨x, hx, rfl⟩
  · exact ⟨none, [], more, .none, rfl, hmore⟩
  · exact ⟨some x, _, more, .some hx, rfl, hmore⟩

/-- A comma that may be left out is there or not. -/
theorem fits_possibleComma (h : Fits categoryOf ((Step.expect [.comma]).maybe :: steps) trace) :
    ∃ first more, PossibleComma first ∧ trace = first ++ more ∧ Fits categoryOf steps more := by
  obtain ⟨_, more, rfl, hfirst, hmore⟩ := h
  rcases (fitsUsed_maybe rfl rfl).mp hfirst with rfl | ⟨t, ht, rfl⟩
  · exact ⟨[], more, .none, rfl, hmore⟩
  · exact ⟨_, more, .some (by simpa using ht), rfl, hmore⟩

/-- Items with commas after them, whatever name they have. -/
theorem fits_listed
    (h : Fits categoryOf
      ((Step.inOrder [(Step.oneOf categories).named label, (Step.expect [.comma]).maybe]).many.maybe
        :: steps) trace) :
    ∃ xs first more, Listed categoryOf label categories xs first ∧ trace = first ++ more ∧
      Fits categoryOf steps more := by
  obtain ⟨_, more, rfl, hfirst, hmore⟩ := h
  obtain ⟨pieces, rfl, hpieces⟩ := (fitsUsed_star rfl rfl).mp hfirst
  suffices ∃ xs, Listed categoryOf label categories xs pieces.flatten by
    obtain ⟨xs, hxs⟩ := this
    exact ⟨xs, _, more, hxs, rfl, hmore⟩
  clear hfirst
  induction pieces with
  | nil => exact ⟨[], .nil⟩
  | cons piece pieces ih =>
    obtain ⟨xs, hxs⟩ := ih fun x hx => hpieces x (by simp [hx])
    obtain ⟨x, rest, hx, rfl, hrest⟩ := fits_node rfl rfl (hpieces piece (by simp))
    obtain ⟨comma, _, hcomma, rfl, rfl⟩ := fits_possibleComma hrest
    cases hcomma with
    | none => exact ⟨x :: xs, .plain hx hxs⟩
    | some ht => exact ⟨x :: xs, .comma hx ht hxs⟩

/-- What follows the first expression of a list is a comma and an expression, any number of times.
-/
theorem fits_further
    (h : Fits categoryOf
      ((Step.inOrder [Step.expect [.comma], (Step.oneOf [.expression]).named label]).many.maybe
        :: steps) trace) :
    ∃ xs first more, Further categoryOf label xs first ∧ trace = first ++ more ∧
      Fits categoryOf steps more := by
  obtain ⟨_, more, rfl, hfirst, hmore⟩ := h
  obtain ⟨pieces, rfl, hpieces⟩ := (fitsUsed_star rfl rfl).mp hfirst
  suffices ∃ xs, Further categoryOf label xs pieces.flatten by
    obtain ⟨xs, hxs⟩ := this
    exact ⟨xs, _, more, hxs, rfl, hmore⟩
  clear hfirst
  induction pieces with
  | nil => exact ⟨[], .nil⟩
  | cons piece pieces ih =>
    obtain ⟨xs, hxs⟩ := ih fun x hx => hpieces x (by simp [hx])
    obtain ⟨t, rest, ht, rfl, hrest⟩ := fits_token rfl rfl (hpieces piece (by simp))
    obtain ⟨x, _, hx, rfl, rfl⟩ := fits_node rfl rfl hrest
    exact ⟨x :: xs, .cons (by simpa using ht) (by simpa using hx) hxs⟩

/-- The steps of a list of expressions read such a list. -/
theorem fits_joined (h : Fits categoryOf (expressions label ++ steps) trace) :
    ∃ xs first more, Joined categoryOf label xs first ∧ trace = first ++ more ∧
      Fits categoryOf steps more := by
  obtain ⟨x, rest, hx, rfl, hrest⟩ := fits_node rfl rfl h
  obtain ⟨xs, first, more, hxs, rfl, hmore⟩ := fits_further hrest
  exact ⟨x :: xs, _, more, .intro (by simpa using hx) hxs, rfl, hmore⟩

/-- The step for parameters reads a parameter list, if there is one. -/
theorem fits_parameters (h : Fits categoryOf (parameters :: steps) trace) :
    ∃ xs first more, Parameters categoryOf xs first ∧ trace = first ++ more ∧
      Fits categoryOf steps more := by
  obtain ⟨_, more, rfl, hfirst, hmore⟩ := h
  rcases (fitsUsed_maybe rfl rfl).mp hfirst with rfl | hfirst
  · exact ⟨[], [], more, .none, rfl, hmore⟩
  · obtain ⟨opening, rest, hopening, rfl, hrest⟩ := fits_token rfl rfl hfirst
    obtain ⟨xs, first, last, hxs, rfl, hlast⟩ := fits_listed hrest
    obtain ⟨closing, _, hclosing, rfl, rfl⟩ := fits_token rfl rfl hlast
    exact ⟨xs, _, more, .list (by simpa using hopening) hxs (by simpa using hclosing), rfl, hmore⟩

/-- The step for inheritance reads a keyword and a name, if they are there. -/
theorem fits_inheriting
    (h : Fits categoryOf
      ((Step.inOrder [Step.expect [.kwInherits], (Step.expect kinds).named "inherits"]).maybe
        :: steps) trace) :
    ∃ t first more, Inheriting kinds t first ∧ trace = first ++ more ∧
      Fits categoryOf steps more := by
  obtain ⟨_, more, rfl, hfirst, hmore⟩ := h
  rcases (fitsUsed_maybe rfl rfl).mp hfirst with rfl | hfirst
  · exact ⟨none, [], more, .none, rfl, hmore⟩
  · obtain ⟨t, rest, ht, rfl, hrest⟩ := fits_token rfl rfl hfirst
    obtain ⟨name, _, hname, rfl, rfl⟩ := fits_token rfl rfl hrest
    exact ⟨some name, _, more, .some (by simpa using ht) hname, rfl, hmore⟩

/-- What follows the first name of a node is a comma and a name, any number of times. -/
theorem fits_furtherNames
    (h : Fits categoryOf
      ((Step.inOrder [Step.expect [.comma], (Step.expect nodeNameKinds).named "names"]).many.maybe
        :: steps) trace) :
    ∃ names first more, FurtherNames names first ∧ trace = first ++ more ∧
      Fits categoryOf steps more := by
  obtain ⟨_, more, rfl, hfirst, hmore⟩ := h
  obtain ⟨pieces, rfl, hpieces⟩ := (fitsUsed_star rfl rfl).mp hfirst
  suffices ∃ names, FurtherNames names pieces.flatten by
    obtain ⟨names, hnames⟩ := this
    exact ⟨names, _, more, hnames, rfl, hmore⟩
  clear hfirst
  induction pieces with
  | nil => exact ⟨[], .nil⟩
  | cons piece pieces ih =>
    obtain ⟨names, hnames⟩ := ih fun x hx => hpieces x (by simp [hx])
    obtain ⟨t, rest, ht, rfl, hrest⟩ := fits_token rfl rfl (hpieces piece (by simp))
    obtain ⟨name, _, hname, rfl, rfl⟩ := fits_token rfl rfl hrest
    exact ⟨name :: names, .cons (mem_singleton.mp ht) hname hnames⟩

/-- What follows the first term of an expression is an operator and a term, any number of times. -/
theorem fits_operated
    (h : Fits categoryOf
      [(Step.inOrder [(Step.expect binaryOperators).named "parts",
        (Step.oneOf terms).named "parts"]).many.maybe] trace) :
    ∃ parts, Operated categoryOf parts trace := by
  obtain ⟨_, _, rfl, hfirst, rfl⟩ := h
  obtain ⟨pieces, rfl, hpieces⟩ := (fitsUsed_star rfl rfl).mp hfirst
  rw [List.append_nil]
  clear hfirst
  induction pieces with
  | nil => exact ⟨[], .nil⟩
  | cons piece pieces ih =>
    obtain ⟨parts, hparts⟩ := ih fun x hx => hpieces x (by simp [hx])
    obtain ⟨t, rest, ht, rfl, hrest⟩ := fits_token rfl rfl (hpieces piece (by simp))
    obtain ⟨x, _, hx, rfl, rfl⟩ := fits_node rfl rfl hrest
    exact ⟨_, .cons ht hx hparts⟩

/-- What follows the first member of a chain is an edge and a member, at least once. -/
theorem fits_linked
    (h : Fits categoryOf
      [(Step.inOrder [(Step.expect edges).named "edges",
        (Step.oneOf chainMembers).named "members"]).many] trace) :
    ∃ xs t ts, Linked categoryOf xs (t :: ts) trace := by
  obtain ⟨_, _, rfl, hfirst, rfl⟩ := h
  obtain ⟨piece, pieces, rfl, hpiece, hpieces⟩ := (fitsUsed_plus rfl rfl).mp hfirst
  rw [List.append_nil]
  obtain ⟨xs, ts, hxs⟩ : ∃ xs ts, Linked categoryOf xs ts pieces.flatten := by
    clear hfirst
    induction pieces with
    | nil => exact ⟨[], [], .nil⟩
    | cons piece pieces ih =>
      obtain ⟨xs, ts, hxs⟩ := ih fun x hx => hpieces x (by simp [hx])
      obtain ⟨t, rest, ht, rfl, hrest⟩ := fits_token rfl rfl (hpieces piece (by simp))
      obtain ⟨x, _, hx, rfl, rfl⟩ := fits_node rfl rfl hrest
      exact ⟨_, _, .cons ht hx hxs⟩
  obtain ⟨t, rest, ht, rfl, hrest⟩ := fits_token rfl rfl hpiece
  obtain ⟨x, _, hx, rfl, rfl⟩ := fits_node rfl rfl hrest
  exact ⟨_, _, _, .cons ht hx hxs⟩

/-- A reference has at least one index list. -/
theorem fits_indexes
    (h : Fits categoryOf [((Step.oneOf [.list]).named "indexes").many.sameLine] trace) :
    ∃ x xs, (∀ y ∈ x :: xs, categoryOf y = .list) ∧ trace = (x :: xs).map (sub "indexes") := by
  obtain ⟨_, _, rfl, hfirst, rfl⟩ := h
  obtain ⟨piece, pieces, rfl, ⟨x, hx, rfl⟩, hpieces⟩ := (fitsUsed_plus rfl rfl).mp hfirst
  rw [List.append_nil]
  obtain ⟨xs, hxs, heq⟩ : ∃ xs : List ι, (∀ y ∈ xs, categoryOf y = .list) ∧
      pieces.flatten = xs.map (sub "indexes") := by
    clear hfirst
    induction pieces with
    | nil => exact ⟨[], by simp, rfl⟩
    | cons piece pieces ih =>
      obtain ⟨xs, hxs, heq⟩ := ih fun x hx => hpieces x (by simp [hx])
      obtain ⟨y, hy, rfl⟩ := hpieces piece (by simp)
      exact ⟨y :: xs, by simpa using ⟨mem_singleton.mp hy, hxs⟩, by rw [List.flatten_cons, heq]; rfl⟩
  exact ⟨x, xs, by simpa using ⟨mem_singleton.mp hx, hxs⟩, by rw [heq]; rfl⟩

/-- The step for a default reads a sign and an expression, if they are there. -/
theorem fits_defaulted
    (h : Fits categoryOf
      [(Step.inOrder [Step.expect [.equals], (Step.oneOf [.expression]).named "default"]).maybe]
      trace) :
    ∃ x, Defaulted categoryOf x trace := by
  obtain ⟨_, _, rfl, hfirst, rfl⟩ := h
  rw [List.append_nil]
  rcases (fitsUsed_maybe rfl rfl).mp hfirst with rfl | hfirst
  · exact ⟨none, .none⟩
  · obtain ⟨t, rest, ht, rfl, hrest⟩ := fits_token rfl rfl hfirst
    obtain ⟨x, _, hx, rfl, rfl⟩ := fits_node rfl rfl hrest
    exact ⟨some x, .some (mem_singleton.mp ht) (mem_singleton.mp hx)⟩

end

section

variable {categoryOf : ι → Category} {trace : Trace ι}

/-- What the rule of a class reads makes a class. -/
theorem schema_classBlock (h : Fits categoryOf Category.classBlock.rule.steps trace) :
    ∃ form, Schema categoryOf .classBlock form trace := by
  obtain ⟨keyword, _, hkeyword, rfl, h₁⟩ := fits_token rfl rfl h
  obtain ⟨name, _, hname, rfl, h₂⟩ := fits_token rfl rfl h₁
  obtain ⟨params, _, _, hparams, rfl, h₃⟩ := fits_parameters h₂
  obtain ⟨inherits, _, _, hinherits, rfl, h₄⟩ := fits_inheriting h₃
  obtain ⟨statements, rfl⟩ := fits_block h₄
  exact ⟨_, .classBlock (mem_singleton.mp hkeyword) (mem_singleton.mp hname) hparams hinherits⟩

/-- What the rule of a define reads makes a define. -/
theorem schema_defineBlock (h : Fits categoryOf Category.defineBlock.rule.steps trace) :
    ∃ form, Schema categoryOf .defineBlock form trace := by
  obtain ⟨keyword, _, hkeyword, rfl, h₁⟩ := fits_token rfl rfl h
  obtain ⟨name, _, hname, rfl, h₂⟩ := fits_token rfl rfl h₁
  obtain ⟨params, _, _, hparams, rfl, h₃⟩ := fits_parameters h₂
  obtain ⟨statements, rfl⟩ := fits_block h₃
  exact ⟨_, .defineBlock (mem_singleton.mp hkeyword) (mem_singleton.mp hname) hparams⟩

/-- What the rule of a node block reads makes a node block. -/
theorem schema_nodeBlock (h : Fits categoryOf Category.nodeBlock.rule.steps trace) :
    ∃ form, Schema categoryOf .nodeBlock form trace := by
  obtain ⟨keyword, _, hkeyword, rfl, h₁⟩ := fits_token rfl rfl h
  obtain ⟨name, _, hname, rfl, h₂⟩ := fits_token rfl rfl h₁
  obtain ⟨names, _, _, hnames, rfl, h₃⟩ := fits_furtherNames h₂
  obtain ⟨inherits, _, _, hinherits, rfl, h₄⟩ := fits_inheriting h₃
  obtain ⟨statements, rfl⟩ := fits_block h₄
  exact ⟨_, .nodeBlock (mem_singleton.mp hkeyword) hname hnames hinherits⟩

/-- What the rule of a parameter reads makes a parameter. -/
theorem schema_parameter (h : Fits categoryOf Category.parameter.rule.steps trace) :
    ∃ form, Schema categoryOf .parameter form trace := by
  obtain ⟨_, _, rfl, hfirst, hmore⟩ := h
  obtain ⟨value, hvalue⟩ := fits_defaulted hmore
  rcases (fitsUsed_single rfl rfl).mp hfirst with htyped | huntyped | hnever
  · obtain ⟨type, _, htype, rfl, h₁⟩ := fits_node rfl rfl htyped
    obtain ⟨name, _, hname, rfl, rfl⟩ := fits_token rfl rfl h₁
    exact ⟨_, .parameter (.some htype) (mem_singleton.mp hname) hvalue⟩
  · obtain ⟨name, _, hname, rfl, rfl⟩ := fits_token rfl rfl huntyped
    exact ⟨_, .parameter .none (mem_singleton.mp hname) hvalue⟩
  · exact hnever.elim

/-- What the rule of a title reads makes a title. -/
theorem schema_title (h : Fits categoryOf Category.title.rule.steps trace) :
    ∃ form, Schema categoryOf .title form trace := by
  obtain ⟨titles, _, _, htitles, rfl, h₁⟩ := fits_joined h
  obtain ⟨colon, _, hcolon, rfl, rfl⟩ := fits_token rfl rfl h₁
  exact ⟨_, .title htitles (mem_singleton.mp hcolon)⟩

/-- What the rule of a collector reads makes a collector. -/
theorem schema_collector (h : Fits categoryOf Category.collector.rule.steps trace) :
    ∃ form, Schema categoryOf .collector form trace := by
  obtain ⟨opening, _, hopening, rfl, h₁⟩ := fits_token rfl rfl h
  obtain ⟨query, _, _, hquery, rfl, h₂⟩ := fits_possible h₁
  obtain ⟨closing, _, hclosing, rfl, rfl⟩ := fits_token rfl rfl h₂
  exact ⟨_, .collector hopening hquery hclosing⟩

/-- What the rule of a branch reads makes a branch, with a condition unless it is `else`. -/
theorem schema_branch (h : Fits categoryOf Category.branch.rule.steps trace) :
    ∃ form, Schema categoryOf .branch form trace := by
  obtain ⟨_, _, rfl, hfirst, hmore⟩ := h
  obtain ⟨statements, rfl⟩ := fits_block hmore
  rcases (fitsUsed_single rfl rfl).mp hfirst with hif | helse | hnever
  · obtain ⟨keyword, _, hkeyword, rfl, h₁⟩ := fits_token rfl rfl hif
    obtain ⟨condition, _, hcondition, rfl, rfl⟩ := fits_node rfl rfl h₁
    exact ⟨_, .branch hkeyword (mem_singleton.mp hcondition)⟩
  · obtain ⟨keyword, _, hkeyword, rfl, rfl⟩ := fits_token rfl rfl helse
    exact ⟨_, .elseBranch (mem_singleton.mp hkeyword)⟩
  · exact hnever.elim

/-- What the rule of a case block reads makes a case block. -/
theorem schema_caseBlock (h : Fits categoryOf Category.caseBlock.rule.steps trace) :
    ∃ form, Schema categoryOf .caseBlock form trace := by
  obtain ⟨keyword, _, hkeyword, rfl, h₁⟩ := fits_token rfl rfl h
  obtain ⟨subject, _, hsubject, rfl, h₂⟩ := fits_node rfl rfl h₁
  obtain ⟨statements, rfl⟩ := fits_block h₂
  exact ⟨_, .caseBlock (mem_singleton.mp hkeyword) (mem_singleton.mp hsubject)⟩

/-- What the rule of a case option reads makes a case option. -/
theorem schema_caseOption (h : Fits categoryOf Category.caseOption.rule.steps trace) :
    ∃ form, Schema categoryOf .caseOption form trace := by
  obtain ⟨values, _, _, hvalues, rfl, h₁⟩ := fits_joined h
  obtain ⟨colon, _, hcolon, rfl, h₂⟩ := fits_token rfl rfl h₁
  obtain ⟨statements, rfl⟩ := fits_block h₂
  exact ⟨_, .caseOption hvalues (mem_singleton.mp hcolon)⟩

/-- What the rule of a selector reads makes a selector. -/
theorem schema_selector (h : Fits categoryOf Category.selector.rule.steps trace) :
    ∃ form, Schema categoryOf .selector form trace := by
  obtain ⟨subject, _, hsubject, rfl, h₁⟩ := fits_node rfl rfl h
  obtain ⟨question, _, hquestion, rfl, h₂⟩ := fits_token rfl rfl h₁
  obtain ⟨opening, _, hopening, rfl, h₃⟩ := fits_token rfl rfl h₂
  obtain ⟨items, _, _, hitems, rfl, h₄⟩ := fits_listed h₃
  obtain ⟨closing, _, hclosing, rfl, rfl⟩ := fits_token rfl rfl h₄
  exact ⟨_, .selector hsubject (mem_singleton.mp hquestion) (mem_singleton.mp hopening) hitems
    (mem_singleton.mp hclosing)⟩

/-- What the rule of an inclusion reads makes an inclusion. -/
theorem schema_inclusion (h : Fits categoryOf Category.inclusion.rule.steps trace) :
    ∃ form, Schema categoryOf .inclusion form trace := by
  obtain ⟨keyword, _, hkeyword, rfl, h₁⟩ := fits_token rfl rfl h
  have h₂ : Fits categoryOf (expressions "args" ++ []) _ := h₁
  obtain ⟨args, _, _, hargs, rfl, rfl⟩ := fits_joined h₂
  exact ⟨_, by simpa using Schema.inclusion hkeyword hargs⟩

/-- What the rule of a call reads makes a call, with parentheses or without. -/
theorem schema_call (h : Fits categoryOf Category.call.rule.steps trace) :
    ∃ form, Schema categoryOf .call form trace := by
  obtain ⟨_, _, rfl, hfirst, rfl⟩ := h
  rw [List.append_nil]
  rcases (fitsUsed_single rfl rfl).mp hfirst with hparens | hbare | hnever
  · obtain ⟨name, _, hname, rfl, h₁⟩ := fits_token rfl rfl hparens
    obtain ⟨opening, _, hopening, rfl, h₂⟩ := fits_token rfl rfl h₁
    obtain ⟨arg, _, _, harg, rfl, h₃⟩ := fits_possible h₂
    obtain ⟨args, _, _, hargs, rfl, h₄⟩ := fits_further h₃
    obtain ⟨_, _, hcomma, rfl, h₅⟩ := fits_possibleComma h₄
    obtain ⟨closing, _, hclosing, rfl, rfl⟩ := fits_token rfl rfl h₅
    exact ⟨_, .call (mem_singleton.mp hname) (mem_singleton.mp hopening) harg hargs hcomma
      (mem_singleton.mp hclosing)⟩
  · obtain ⟨name, _, hname, rfl, h₁⟩ := fits_token rfl rfl hbare
    obtain ⟨arg, _, harg, rfl, h₂⟩ := fits_node rfl rfl h₁
    obtain ⟨args, _, _, hargs, rfl, rfl⟩ := fits_further h₂
    rw [List.append_nil]
    exact ⟨_, .bareCall (mem_singleton.mp hname) (.intro (mem_singleton.mp harg) hargs)⟩
  · exact hnever.elim

/-- What the rule of a chain reads makes a chain. -/
theorem schema_chain (h : Fits categoryOf Category.chain.rule.steps trace) :
    ∃ form, Schema categoryOf .chain form trace := by
  obtain ⟨member, _, hmember, rfl, h₁⟩ := fits_node rfl rfl h
  obtain ⟨members, edge, edges, hmembers⟩ := fits_linked h₁
  exact ⟨_, .chain hmember hmembers⟩

/-- What the rule of a reference reads makes a reference. -/
theorem schema_reference (h : Fits categoryOf Category.reference.rule.steps trace) :
    ∃ form, Schema categoryOf .reference form trace := by
  obtain ⟨head, _, hhead, rfl, h₁⟩ := fits_token rfl rfl h
  obtain ⟨index, indexes, hindexes, rfl⟩ := fits_indexes h₁
  exact ⟨_, .reference hhead hindexes⟩

/-- What the rule of a hash reads makes a hash. -/
theorem schema_hash (h : Fits categoryOf Category.hash.rule.steps trace) :
    ∃ form, Schema categoryOf .hash form trace := by
  obtain ⟨opening, _, hopening, rfl, h₁⟩ := fits_token rfl rfl h
  obtain ⟨items, _, _, hitems, rfl, h₂⟩ := fits_listed h₁
  obtain ⟨closing, _, hclosing, rfl, rfl⟩ := fits_token rfl rfl h₂
  exact ⟨_, .hash (mem_singleton.mp hopening) hitems (mem_singleton.mp hclosing)⟩

/-- What the rule of a list reads makes a list. -/
theorem schema_list (h : Fits categoryOf Category.list.rule.steps trace) :
    ∃ form, Schema categoryOf .list form trace := by
  obtain ⟨opening, _, hopening, rfl, h₁⟩ := fits_token rfl rfl h
  obtain ⟨items, _, _, hitems, rfl, h₂⟩ := fits_listed h₁
  obtain ⟨closing, _, hclosing, rfl, rfl⟩ := fits_token rfl rfl h₂
  exact ⟨_, .list (mem_singleton.mp hopening) hitems (mem_singleton.mp hclosing)⟩

/-- Whatever the steps of a rule read follows the schema of its category. -/
theorem schema_of_fits {category : Category} (hm : category ≠ .manifest) (hr : category ≠ .resource)
    (h : Fits categoryOf category.rule.steps trace) :
    ∃ form, Schema categoryOf category form trace := by
  cases category with
  | manifest => exact absurd rfl hm
  | resource => exact absurd rfl hr
  | classBlock => exact schema_classBlock h
  | defineBlock => exact schema_defineBlock h
  | nodeBlock => exact schema_nodeBlock h
  | parameter => exact schema_parameter h
  | title => exact schema_title h
  | collector => exact schema_collector h
  | branch => exact schema_branch h
  | caseBlock => exact schema_caseBlock h
  | caseOption => exact schema_caseOption h
  | selector => exact schema_selector h
  | inclusion => exact schema_inclusion h
  | assignment =>
    obtain ⟨name, _, hname, rfl, h₁⟩ := fits_token rfl rfl h
    obtain ⟨operator, _, hoperator, rfl, h₂⟩ := fits_token rfl rfl h₁
    obtain ⟨value, _, hvalue, rfl, rfl⟩ := fits_node rfl rfl h₂
    exact ⟨_, .assignment (mem_singleton.mp hname) hoperator (mem_singleton.mp hvalue)⟩
  | call => exact schema_call h
  | chain => exact schema_chain h
  | reference => exact schema_reference h
  | hash => exact schema_hash h
  | list => exact schema_list h
  | pair =>
    obtain ⟨key, _, hkey, rfl, h₁⟩ := fits_token rfl rfl h
    obtain ⟨arrow, _, harrow, rfl, h₂⟩ := fits_token rfl rfl h₁
    obtain ⟨value, _, hvalue, rfl, rfl⟩ := fits_node rfl rfl h₂
    exact ⟨_, .pair hkey harrow (mem_singleton.mp hvalue)⟩
  | expression =>
    obtain ⟨term, _, hterm, rfl, h₁⟩ := fits_node rfl rfl h
    obtain ⟨parts, hparts⟩ := fits_operated h₁
    exact ⟨_, .expression hterm hparts⟩
  | parens =>
    obtain ⟨opening, _, hopening, rfl, h₁⟩ := fits_token rfl rfl h
    obtain ⟨inner, _, hinner, rfl, h₂⟩ := fits_node rfl rfl h₁
    obtain ⟨closing, _, hclosing, rfl, rfl⟩ := fits_token rfl rfl h₂
    exact ⟨_, .parens (mem_singleton.mp hopening) (mem_singleton.mp hinner)
      (mem_singleton.mp hclosing)⟩
  | unary =>
    obtain ⟨operator, _, hoperator, rfl, h₁⟩ := fits_token rfl rfl h
    obtain ⟨operand, _, hoperand, rfl, rfl⟩ := fits_node rfl rfl h₁
    exact ⟨_, .unary hoperator hoperand⟩
  | comment =>
    obtain ⟨t, _, ht, rfl, rfl⟩ := fits_token rfl rfl h
    exact ⟨_, .comment (mem_singleton.mp ht)⟩
  | blockComment =>
    obtain ⟨t, _, ht, rfl, rfl⟩ := fits_token rfl rfl h
    exact ⟨_, .blockComment (mem_singleton.mp ht)⟩
  | simple =>
    obtain ⟨t, _, ht, rfl, rfl⟩ := fits_token rfl rfl h
    exact ⟨_, .simple ht⟩

/-- A resource starts with any number of sigils. -/
theorem fits_sigils {steps : List Step}
    (h : Fits categoryOf (((Step.expect [.atSign]).named "sigil").many.maybe :: steps) trace) :
    ∃ (sigils : List Token) (more : Trace ι), (∀ s ∈ sigils, s.kind = Kind.atSign) ∧
      trace = sigils.map (named "sigil") ++ more ∧ Fits categoryOf steps more := by
  obtain ⟨_, more, rfl, hfirst, hmore⟩ := h
  obtain ⟨pieces, rfl, hpieces⟩ := (fitsUsed_star rfl rfl).mp hfirst
  suffices ∃ sigils : List Token, (∀ s ∈ sigils, s.kind = Kind.atSign) ∧
      pieces.flatten = sigils.map (named "sigil") by
    obtain ⟨sigils, hsigils, heq⟩ := this
    exact ⟨sigils, more, hsigils, by rw [heq], hmore⟩
  clear hfirst
  induction pieces with
  | nil => exact ⟨[], by simp, rfl⟩
  | cons piece pieces ih =>
    obtain ⟨sigils, hsigils, heq⟩ := ih fun x hx => hpieces x (by simp [hx])
    obtain ⟨t, ht, rfl⟩ := hpieces piece (by simp)
    exact ⟨t :: sigils, by simpa using ⟨mem_singleton.mp ht, hsigils⟩,
      by rw [List.flatten_cons, heq]; rfl⟩

/-- What the steps of a resource's rule read is the head of a resource. -/
theorem headSchema_of_fits (h : Fits categoryOf Category.resource.rule.steps trace) :
    ∃ sigils head collector, HeadSchema categoryOf sigils head collector trace := by
  obtain ⟨sigils, _, hsigils, rfl, h₁⟩ := fits_sigils h
  obtain ⟨_, _, rfl, hhead, h₂⟩ := h₁
  obtain ⟨collector, _, _, hcollector, rfl, rfl⟩ := fits_possible h₂
  rw [List.append_nil]
  rcases (fitsUsed_single rfl rfl).mp hhead with hreference | htype | hnever
  · obtain ⟨x, _, hx, rfl, rfl⟩ := fits_node rfl rfl hreference
    exact ⟨_, _, _, .reference hsigils (mem_singleton.mp hx) hcollector⟩
  · obtain ⟨t, _, ht, rfl, rfl⟩ := fits_token rfl rfl htype
    exact ⟨_, _, _, .type hsigils ht hcollector⟩
  · exact hnever.elim

end

end TidyManifest.Plain
