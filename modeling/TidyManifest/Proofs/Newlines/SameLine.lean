import TidyManifest.Proofs.Conservation.Manifest
import TidyManifest.Proofs.Plain.Found
import TidyManifest.Proofs.Progress.Descent

/-!
# Steps that have to stand on the same line

A step of a rule may have to stand on the line of what comes before it.  A step that reads a token
keeps to this, and so the name of a call stands directly before its parenthesis; the head of a
reference stands directly before its first bracket, because its pattern skips nothing.

A step that reads a node does not keep to it: the node is recognised behind newlines and skips them.
So the first argument of a call without parentheses, and every index list but the first, may stand on
a later line (`sameLine_steps`, `format_joins_lines`).
-/

namespace TidyManifest

/-- The contents that a log makes are of the category that was asked for. -/
theorem Form.category_ofCaptures? {ι : Type} {category : Category} {log : Captures ι} {form : Form ι}
    (h : Form.ofCaptures? category log = some form) : form.category = category := by
  cases category <;> simp only [Form.ofCaptures?, Option.bind_eq_bind, Option.pure_def,
    Option.bind_eq_some_iff, Option.some.injEq, reduceCtorEq] at h <;> grind [Form.category]

namespace Parse

open Grammar

section

variable {mode : SplitMode} {d : Descent} {parent id : NodeId} {s s' : State} {category : Category}

/-- The contents of a resource are those of a resource. -/
theorem category_readResource {log : Captures} {form : Form}
    (h : readResource mode d id log s = .ok (some form) s') : form.category = .resource := by
  unfold readResource at h
  cases hhead : resourceHead? log with
  | none =>
    rw [hhead] at h
    cases h
  | some head =>
    rw [hhead] at h
    simp only [bind_apply, get_apply, modify_apply] at h
    split at h
    · split at h
      · cases h
        rfl
      · cases h
    · simp only [bind_apply, modify_apply] at h
      generalize readItems d id log _ d.rounds false _ = r at h
      rcases r with ⟨_ | ids, s₁⟩ | ⟨e, s₁⟩
      all_goals cases h
      rfl

/-- Completing a node gives it its contents, if there is such a node. -/
theorem form_completed (category : Category) (id : NodeId) (form : Form) (s : State) :
    (completed category id form s).tree.form id = form ∨
      (completed category id form s).tree.form id = Node.root.form := by
  have hupdate (t : Tree) (change : Node → Node) :
      (t.update id change).nodes[id]? = (t.nodes[id]?).map change := by
    simp [Tree.update, Array.getElem?_modify]
  unfold completed Tree.form Tree.node
  cases hnode : s.tree.nodes[id]? with
  | none =>
    right
    split <;> simp [Tree.setSpacing, Tree.complete, hupdate, hnode]
  | some node =>
    left
    split <;> simp [Tree.setSpacing, Tree.complete, hupdate, hnode]

/-- A node that is read has contents of its category, if it has contents at all. -/
theorem category_readCategory (h : readCategory mode d category parent s = .ok (some id) s') :
    id = s.tree.size ∧
      ((s'.tree.form id).category = category ∨ s'.tree.form id = Node.root.form) := by
  rw [readCategory_apply] at h
  rcases hr : readSteps d s.tree.size category.rule.steps {} (entered category parent s)
    with ⟨⟨_ | _, log⟩, s₁⟩ | ⟨e, s₁⟩
  all_goals rw [hr] at h
  · cases h
  · dsimp only at h
    generalize hform : (if !true then pure none
      else if category == .resource then readResource mode d s.tree.size log
      else pure (Form.ofCaptures? category log) : Reader (Option Form)) s₁ = r at h
    rcases r with ⟨_ | form, s₂⟩ | ⟨e, s₂⟩
    all_goals cases h
    have hcategory : form.category = category := by
      rw [if_neg (by decide)] at hform
      split at hform
      · rename_i hresource
        rw [category_readResource hform]
        exact (eq_of_beq hresource).symm
      · exact Form.category_ofCaptures? (EStateM.Result.ok.inj hform).1
    refine ⟨rfl, ?_⟩
    rcases form_completed category s.tree.size form s₂ with heq | heq
    · exact .inl (by rw [heq, hcategory])
    · exact .inr heq
  · cases h

end

section

variable {mode : SplitMode} {d : Descent} {parent id : NodeId} {s s' : State} {category : Category}

/-- Skipping twice is skipping once. -/
theorem skip_skip (s : State) (kinds : List Kind) : (s.skip kinds).skip kinds = s.skip kinds := by
  have hcount : (s.cursor.skip kinds).countLeading kinds = 0 := by
    rw [Cursor.countLeading, Cursor.ahead_skip, Lookahead.significant]
    cases hdrop : s.cursor.ahead.dropWhile (·.isOneOf kinds) with
    | nil => rfl
    | cons t rest =>
      have ht := Plain.significant_head hdrop
      rw [List.takeWhile_cons_of_neg (by simpa [Token.isOneOf] using ht), List.length_nil]
  rw [State.skip, State.skip, Cursor.skip, hcount]
  rfl

/-- Newlines in front of a node that is read make no difference. -/
theorem readCategory_skip :
    readCategory mode d category parent (s.skip newlines) = .ok (some id) s' ↔
      readCategory mode d category parent s = .ok (some id) s' := by
  have hentered : entered category parent (s.skip newlines) = entered category parent s := by
    simp only [entered, skip_skip]
  rw [readCategory_apply, readCategory_apply, hentered, show (s.skip newlines).tree = s.tree from rfl]
  rcases readSteps d s.tree.size category.rule.steps {} (entered category parent s)
    with ⟨⟨matched, log⟩, s₁⟩ | ⟨e, s₁⟩
  · dsimp only
    generalize (if !matched then pure none
      else if category == .resource then readResource mode d s.tree.size log
      else pure (Form.ofCaptures? category log) : Reader (Option Form)) s₁ = r
    rcases r with ⟨_ | form, s₂⟩ | ⟨e, s₂⟩
    · simp [concluded]
    · rfl
    · rfl
  · rfl

/-- The categories that are read by steps which have to stand on the same line. -/
def lineCategories : List Category := [.expression, .list]

/-- An expression and a list are recognised by what stands behind newlines. -/
theorem accepts_significant (o : Plain.Oracle) (hcategory : category ∈ lineCategories)
    (parent : Category) (tokens : List Token) :
    Plain.accepts o category parent (Lookahead.significant newlines tokens) =
      Plain.accepts o category parent tokens := by
  obtain rfl | rfl : category = .expression ∨ category = .list := by
    simpa [lineCategories] using hcategory
  · rfl
  · simp [Plain.accepts, atPattern, Category.rule, Lookahead.fits,
      Lookahead.significant_significant]

variable {n : Nat} {categories : List Category}

/-- Newlines in front of an expression or a list make no difference to the choice. -/
theorem chooseFrom_skip (hparent : parent < s.tree.size)
    (hcategories : ∀ c ∈ categories, c ∈ lineCategories) :
    chooseFrom mode (descent mode n) categories parent (s.skip newlines) = .ok (some id) s' ↔
      chooseFrom mode (descent mode n) categories parent s = .ok (some id) s' := by
  induction categories with
  | nil => simp [chooseFrom]
  | cons category categories ih =>
    have hskip : parent < (s.skip newlines).tree.size := hparent
    have hfollows := descent_follows mode n
    have htried : ∀ c ∈ lineCategories, c ≠ .caseOption ∧ c ≠ .chain := by decide
    obtain ⟨hoption, hchain⟩ := htried category (hcategories category (by simp))
    rw [chooseFrom_apply hfollows category categories (.of_lt hparent),
      chooseFrom_apply hfollows category categories (.of_lt hskip), ahead_skip,
      accepts_significant _ (hcategories category (by simp)),
      show (s.skip newlines).tree = s.tree from rfl, Plain.runsOut_of_ne hoption hchain,
      Plain.runsOut_of_ne hoption hchain, if_neg Bool.false_ne_true, if_neg Bool.false_ne_true]
    split
    · exact readCategory_skip
    · exact ih fun c hc => hcategories c (by simp [hc])

/-- Newlines in front of an expression or a list that is read make no difference. -/
theorem choose_skip (hparent : parent < s.tree.size)
    (hcategories : ∀ c ∈ categories, c ∈ lineCategories) :
    (descent mode n).choose categories parent (s.skip newlines) = .ok (some id) s' ↔
      (descent mode n).choose categories parent s = .ok (some id) s' := by
  cases n with
  | zero => simp [descent]
  | succ n => exact chooseFrom_skip hparent hcategories

/-- A token that has to stand on the same line stands directly ahead. -/
theorem readOnce_token_adjacent {usage : Usage} {kinds : List Kind} {log kept : Captures}
    (hline : usage.sameLine = true)
    (h : readOnce d parent (.token usage kinds) log s = .ok (true, kept) s') :
    ∃ t, s.ahead = t :: s'.ahead ∧ t.kind ∈ kinds := by
  have hstrict := readToken_strict parent 0 .manifest (Plain.level 0) usage kinds log s
  rw [readOnce] at h
  rw [h, Plain.once, Plain.lead, if_pos hline] at hstrict
  cases hahead : s.ahead with
  | nil =>
    rw [hahead] at hstrict
    cases hstrict
  | cons t rest =>
    rw [hahead] at hstrict
    dsimp only at hstrict
    split at hstrict
    · rename_i hkind
      generalize ho : (Except.ok (some ([(usage.label, Capture.token t)], rest)) :
        Plain.Outcome (Plain.Trace Phrase)) = o at hstrict
      cases hstrict with
      | some hadvanced =>
        cases ho
        exact ⟨t, by rw [hadvanced.ahead], by simpa [Token.isOneOf] using hkind⟩
    · cases hstrict

/-- A step for a node reads one of its categories, from where it starts. -/
theorem readOnce_node_iff {usage : Usage} {log kept : Captures} :
    readOnce d parent (.node usage categories) log s = .ok (true, kept) s' ↔
      ∃ id, d.choose categories parent (atLead usage s) = .ok (some id) s' ∧
        kept = log.addIf usage.label (.node id) := by
  rw [readOnce, attempt_apply, readNode, bind_apply]
  rcases d.choose categories parent (atLead usage s) with ⟨_ | id, s₁⟩ | ⟨e, s₁⟩
  · simp
  · simp only [pure_apply]
    constructor
    · rintro h
      cases h
      exact ⟨id, rfl, rfl⟩
    · rintro ⟨_, h, rfl⟩
      cases h
      rfl
  · simp

end

mutual

/-- A property of a step and of all steps in it. -/
def everyStep (p : Step → Bool) : Step → Bool
  | .group usage steps => p (.group usage steps) && everySteps p steps
  | .choice usage branches => p (.choice usage branches) && everyBranch p branches
  | step => p step

/-- A property of all steps, at any depth. -/
def everySteps (p : Step → Bool) : List Step → Bool
  | [] => true
  | step :: steps => everyStep p step && everySteps p steps

/-- A property of all steps of all branches, at any depth. -/
def everyBranch (p : Step → Bool) : List (List Step) → Bool
  | [] => true
  | branch :: branches => everySteps p branch && everyBranch p branches

end

section

variable {p : Step → Bool} {step : Step} {steps : List Step}

/-- What holds of every step holds of one of them. -/
theorem everyStep_of_mem (h : everySteps p steps = true) (hmem : step ∈ steps) :
    everyStep p step = true := by
  induction steps with
  | nil => cases hmem
  | cons first steps ih =>
    rw [everySteps, Bool.and_eq_true] at h
    rcases List.mem_cons.mp hmem with rfl | hmem
    · exact h.1
    · exact ih h.2 hmem

/-- What holds of every branch holds of one of them. -/
theorem everySteps_of_mem {branches : List (List Step)} (h : everyBranch p branches = true)
    (hmem : steps ∈ branches) : everySteps p steps = true := by
  induction branches with
  | nil => cases hmem
  | cons first branches ih =>
    rw [everyBranch, Bool.and_eq_true] at h
    rcases List.mem_cons.mp hmem with rfl | hmem
    · exact h.1
    · exact ih h.2 hmem

/-- What holds of a step and the steps inside it holds of the step. -/
theorem everyStep_self (h : everyStep p step = true) : p step = true := by
  cases step <;> simp_all [everyStep]

/-- What holds of every step holds of a step that occurs. -/
theorem Occurs.of_everySteps (hoccurs : Occurs step steps) (h : everySteps p steps = true) :
    p step = true := by
  induction hoccurs with
  | here hmem => exact everyStep_self (everyStep_of_mem h hmem)
  | group hmem _ ih =>
    have hinner := everyStep_of_mem h hmem
    rw [everyStep, Bool.and_eq_true] at hinner
    exact ih hinner.2
  | choice hmem hbranch _ ih =>
    have hinner := everyStep_of_mem h hmem
    rw [everyStep, Bool.and_eq_true] at hinner
    exact ih (everySteps_of_mem hinner.2 hbranch)

end

/-- Whether a step that has to stand on the same line reads a token, an expression or a list. -/
def keepsLine : Step → Bool
  | .token _ _ => true
  | .node usage categories =>
    !usage.sameLine || categories.all fun c => lineCategories.contains c
  | step => !step.usage.sameLine

/-- A step of the grammar that has to stand on the same line reads a token, an expression or a list.
-/
theorem keepsLine_rule (category : Category) : everySteps keepsLine category.rule.steps = true := by
  cases category <;> decide

end Parse

namespace Plain

open Parse Grammar

variable {d : Oracle} {tokens rest : List Token} {p : Phrase}

/-- A step that starts where newlines have been skipped skips nothing. -/
theorem lead_significant (usage : Usage) (tokens : List Token) :
    lead usage (Lookahead.significant newlines tokens) = Lookahead.significant newlines tokens := by
  unfold lead
  split
  · rfl
  · exact Lookahead.significant_significant _ _

/-- The name of a call with parentheses stands directly before them. -/
theorem phrase_call_adjacent (hd : Sound d) (h : phrase d .call tokens = .ok (some (p, rest))) :
    ∃ name args parenthesized, p.form = .call name args parenthesized ∧
      (parenthesized = true → ∃ opening more,
        Lookahead.significant newlines tokens = name :: opening :: more ∧
          opening.kind = .leftParen) := by
  obtain ⟨trace, hsteps, schema⟩ := phrase_eq_some hd (by decide) h
  have hfirst : firstOf d .call [parenthesizedCall, bareCall]
      (Lookahead.significant newlines tokens) = .ok (some (trace, rest)) := by
    rw [← lead_significant {}]
    exact inOrder_firstOf_inv hsteps
  generalize p.form = form at schema
  cases schema with
  | bareCall => exact ⟨_, _, _, rfl, fun h => by cases h⟩
  | call =>
    refine ⟨_, _, _, rfl, fun _ => ?_⟩
    rw [firstOf] at hfirst
    split at hfirst
    · -- the branch without parentheses reads an expression in the place of the parenthesis
      rw [firstOf] at hfirst
      split at hfirst
      · cases hfirst
      · obtain ⟨_, _, _, -, -, hargs, heq⟩ := inOrder_token_inv rfl rfl hfirst
        obtain ⟨_, _, _, -, -, hnode⟩ := inOrder_node_inv rfl rfl hargs
        rw [hnode] at heq
        simp at heq
    · obtain ⟨t, middle, _, hname, -, hopen, heq⟩ := inOrder_token_inv rfl rfl hfirst
      obtain ⟨opening, more, _, hlead, hkind, -, -⟩ := inOrder_token_inv rfl rfl hopen
      rw [lead_significant] at hname
      cases (List.cons.inj heq).1
      exact ⟨opening, more, by rw [hname]; exact congrArg _ hlead, List.mem_singleton.mp hkind⟩

/-- The head of a reference stands directly before its first index list. -/
theorem phrase_reference_adjacent (hd : Sound d)
    (h : phrase d .reference tokens = .ok (some (p, rest)))
    (hpattern : atPattern Category.reference.rule tokens = true) :
    ∃ head indexes, p.form = .reference head indexes ∧
      ∃ opening more, tokens = head :: opening :: more ∧ opening.kind = .leftBracket := by
  obtain ⟨t, opening, more, rfl, ht, hopening⟩ :=
    fits_pair (by simpa [atPattern, Category.rule] using hpattern)
  have hkinds : ∀ k ∈ referenceHeads, k ∉ newlines := by decide
  have hnewline := hkinds t.kind ht
  obtain ⟨trace, hsteps, schema⟩ := phrase_eq_some hd (by decide) h
  rw [Lookahead.significant_cons hnewline] at hsteps
  obtain ⟨_, _, _, hlead, -, -, heq⟩ := inOrder_token_inv rfl rfl hsteps
  rw [lead_cons (by simpa [newlines] using hnewline)] at hlead
  cases hlead
  generalize p.form = form at schema
  cases schema with
  | reference =>
    cases (List.cons.inj heq).1
    exact ⟨_, _, rfl, opening, more, rfl, List.mem_singleton.mp hopening⟩

end Plain

namespace Parse

open Grammar

section

variable {mode : SplitMode} {n : Nat} {parent id : NodeId} {s s' : State}
  {categories : List Category}

/-- A node that is chosen was recognised and read. -/
theorem chooseFrom_eq_ok (hparent : parent < s.tree.size)
    (h : chooseFrom mode (descent mode n) categories parent s = .ok (some id) s') :
    ∃ category ∈ categories,
      Plain.accepts (Plain.level n) category (s.tree.category parent) s.ahead = true ∧
        readCategory mode (descent mode n) category parent s = .ok (some id) s' := by
  rcases chooseFrom_read (descent_follows mode n) categories (.of_lt hparent) with
    hnone | hout | ⟨category, hmem, haccepts, hread⟩
  · rw [hnone] at h
    cases h
  · rw [hout] at h
    cases h
  · exact ⟨category, hmem, haccepts, hread.symm.trans h⟩

/-- The contents of a phrase that was added, with the numbers of its children. -/
theorem Advanced.form_eq {owner : NodeId} {level : Int} {p : Phrase} {rest : List Token}
    (h : Advanced owner level s [p] rest s') :
    s'.tree.form s.tree.size =
      p.form.withChildren 0 (Phrase.starts (s.tree.size + 1) p.children) := by
  have hnode := Tree.node_grow_add s.tree (Phrase.forest s.tree.size owner level [p]) 0
  rw [Nat.add_zero, ← h.tree, Phrase.forest_cons, Phrase.nodes_eq] at hnode
  rw [Tree.form, hnode]
  rfl

/-- A node of a category that holds no resource to split, next to the phrase that it is. -/
theorem choose_phrase (hparent : parent < s.tree.size)
    (h : (descent mode n).choose categories parent s = .ok (some id) s') {category : Category}
    (hcategory : (s'.tree.form id).category = category)
    (hkeeps : keepsWhole (s.tree.category parent) category = true) :
    ∃ m p rest, Plain.accepts (Plain.level m) category (s.tree.category parent) s.ahead = true ∧
      Plain.phrase (Plain.level m) category s.ahead = .ok (some (p, rest)) ∧
        s'.tree.form id = p.form.withChildren 0 (Phrase.starts (s.tree.size + 1) p.children) := by
  cases n with
  | zero => cases h
  | succ n =>
    obtain ⟨c, -, haccepts, hread⟩ := chooseFrom_eq_ok hparent h
    obtain ⟨rfl, hform⟩ := category_readCategory hread
    have hroot : keepsWhole (s.tree.category parent) Node.root.form.category = false := rfl
    obtain rfl : c = category := by
      rcases hform with hform | hform
      · rw [← hcategory, hform]
      · rw [← hcategory, hform, hroot] at hkeeps
        cases hkeeps
    have hchosen := readCategory_chosen (descent_follows mode n) (Plain.level_sound n)
      (Owns.of_lt hparent) (.inr hkeeps)
    rw [hread] at hchosen
    generalize ho : Plain.phrase (Plain.level n) c s.ahead = o at hchosen
    cases hchosen with
    | @some p rest _ hadvanced => exact ⟨n, p, rest, haccepts, ho, hadvanced.form_eq⟩

end

/-- The name of a call stands directly before its parenthesis, and the head of a reference directly
before the first bracket, wherever they are read.  A step that reads a token and has to stand on the
same line reads the token directly ahead.  But every step of the grammar that reads a node reads the
same node whether or not it has to stand on the same line. -/
theorem sameLine_steps (mode : SplitMode) (n : Nat) {parent : NodeId} {s : State}
    (hparent : parent < s.tree.size) :
    (∀ categories id s', (descent mode n).choose categories parent s = .ok (some id) s' →
      (∀ name args, s'.tree.form id = .call name args true → ∃ opening rest,
        Lookahead.significant newlines s.ahead = name :: opening :: rest ∧
          opening.kind = .leftParen) ∧
      ∀ head indexes, s'.tree.form id = .reference head indexes → ∃ opening rest,
        s.ahead = head :: opening :: rest ∧ opening.kind = .leftBracket) ∧
    (∀ usage kinds, usage.sameLine = true → ∀ log kept s',
      readOnce (descent mode n) parent (.token usage kinds) log s = .ok (true, kept) s' →
        ∃ t, s.ahead = t :: s'.ahead ∧ t.kind ∈ kinds) ∧
    ∀ (category : Category) usage categories, Occurs (.node usage categories) category.rule.steps →
      usage.sameLine = true → ∀ log kept s',
        readOnce (descent mode n) parent (.node usage categories) log s = .ok (true, kept) s' ↔
          readOnce (descent mode n) parent (.node { usage with sameLine := false } categories) log s =
            .ok (true, kept) s' := by
  refine ⟨fun categories id s' h => ⟨fun name args hform => ?_, fun head indexes hform => ?_⟩,
    fun usage kinds hline log kept s' h => ?_,
    fun category usage categories hoccurs hline log kept s' => ?_⟩
  · have hcategory : (s'.tree.form id).category = .call := by rw [hform]; rfl
    obtain ⟨m, p, rest, -, hphrase, hp⟩ := choose_phrase hparent h hcategory rfl
    obtain ⟨name', args', parenthesized, hcontents, hadjacent⟩ :=
      Plain.phrase_call_adjacent (Plain.level_sound m) hphrase
    rw [hform, hcontents] at hp
    cases hp
    exact hadjacent rfl
  · have hcategory : (s'.tree.form id).category = .reference := by rw [hform]; rfl
    obtain ⟨m, p, rest, haccepts, hphrase, hp⟩ := choose_phrase hparent h hcategory rfl
    obtain ⟨head', indexes', hcontents, hadjacent⟩ :=
      Plain.phrase_reference_adjacent (Plain.level_sound m) hphrase
        (by simpa [Plain.accepts, Category.rule] using haccepts)
    rw [hform, hcontents] at hp
    cases hp
    exact hadjacent
  · exact readOnce_token_adjacent hline h
  · have hcategories : ∀ c ∈ categories, c ∈ lineCategories := by
      have hkeeps := hoccurs.of_everySteps (keepsLine_rule category)
      simpa [keepsLine, hline] using hkeeps
    rw [readOnce_node_iff, readOnce_node_iff, atLead, atLead, if_pos hline,
      if_neg (by decide : ¬ false = true)]
    simp only [choose_skip hparent hcategories]

/-- A call behind a newline, and an index list behind a newline. -/
theorem sameLine_steps_of_call :
    let tokens : List Token :=
      [⟨.newline, "\n", 1⟩, ⟨.name, "fail", 2⟩, ⟨.leftParen, "(", 2⟩, ⟨.number, "1", 2⟩,
       ⟨.rightParen, ")", 2⟩]
    let index : List Token :=
      [⟨.newline, "\n", 1⟩, ⟨.leftBracket, "[", 2⟩, ⟨.number, "2", 2⟩, ⟨.rightBracket, "]", 2⟩]
    let usage : Usage := { label := some "indexes", many := true, sameLine := true }
    (∃ s', (descent .splice 20).choose [.call] Tree.root (.start tokens) = .ok (some 1) s' ∧
      s'.tree.form 1 = .call ⟨.name, "fail", 2⟩ [2] true ∧
      ∃ opening rest, Lookahead.significant newlines tokens = ⟨.name, "fail", 2⟩ :: opening :: rest ∧
        opening.kind = .leftParen) ∧
    ∃ kept s', readOnce (descent .splice 20) Tree.root (.node usage [.list]) {} (.start index) =
        .ok (true, kept) s' ∧
      readOnce (descent .splice 20) Tree.root (.node { usage with sameLine := false } [.list]) {}
        (.start index) = .ok (true, kept) s' := by
  intro tokens index usage
  have hchosen : ((descent .splice 20).choose [.call] Tree.root).run' (.start tokens) =
      some (some 1) := by decide +kernel
  have hform : (ending ((descent .splice 20).choose [.call] Tree.root (.start tokens))).tree.form 1 =
      .call ⟨.name, "fail", 2⟩ [2] true := by decide +kernel
  have hread : ((readOnce (descent .splice 20) Tree.root (.node usage [.list]) {}).run'
      (.start index)).map (·.1) = some true := by decide +kernel
  obtain ⟨s₁, h₁⟩ := ok_of_run' hchosen
  rw [h₁] at hform
  obtain ⟨⟨_, kept⟩, hkept, rfl⟩ := Option.map_eq_some_iff.mp hread
  obtain ⟨s₂, h₂⟩ := ok_of_run' hkept
  refine ⟨⟨s₁, h₁, hform, ?_⟩, kept, s₂, h₂, ?_⟩
  · exact ((sameLine_steps .splice 20 Nat.one_pos).1 _ _ _ h₁).1 _ _ hform
  · exact ((sameLine_steps .splice 20 Nat.one_pos).2.2 .reference usage [.list]
      (.here (.tail _ (.head _))) rfl _ _ _).mp h₂

end Parse

/-- The first argument of a call without parentheses and the second index list of a reference are
read on a later line, and the layout puts them on the same one. -/
theorem format_joins_lines :
    Source.format "notice\n'a'" {} = .ok "notice 'a'\n" ∧
      Source.format "$x = [$a[1]\n[2]]" {} = .ok "$x = [$a[1][2]]\n" :=
  ⟨ok_of_toOption (by decide +kernel), ok_of_toOption (by decide +kernel)⟩

end TidyManifest
