import TidyManifest.Proofs.Splitting.Statements

/-!
# Failed readings leave no trace

Going back to a mark moves the cursor and shrinks the tree.  It does not take out tokens that a
split resource has put in, and it does not restore a node that stood before the mark.  Nevertheless
a reading that finds nothing leaves cursor, tree and log exactly as they were.

Where no resource is split this is part of the agreement with plain reading.  Elsewhere the argument
is that nothing which holds a split resource can still fail:

* the brace that is put in closes the resource at once (`readItems_none`),
* a rule with a body ends with the body, reading statements gives a list or an error, and the log of
  such a rule makes a node (`ofCaptures?_body`),
* in the groups and choices of the grammar, a step that may hold a split resource comes last
  (`yields_rule`).

Recognising a category is stronger still: whatever is read on trial, an error included, the state
afterwards is the state before.
-/

namespace TidyManifest

namespace Plain

/-- The log of a rule with a body makes a node, whatever statements the body has. -/
theorem ofCaptures?_body {c : Category} {init : List Step} {trace : Trace Phrase}
    (hbody : c.hasBody = true) (hsteps : c.rule.steps = init ++ [Step.braces.named "body"])
    (hfits : Fits Phrase.category init trace) (first : NodeId) (ids : List NodeId) :
    ∃ form, Form.ofCaptures? c
      (⟨logOf (numbers first trace ++ [body ids])⟩ : Captures) = some form := by
  have hm : c ≠ .manifest := by rintro rfl; cases hbody
  have hr : c ≠ .resource := by rintro rfl; cases hbody
  -- the statements are known by their numbers only, and any phrase can stand in for them
  let pairs : List (NodeId × Phrase) := ids.map fun id => (id, default)
  have hfirst : pairs.map Prod.fst = ids := by simp [pairs, Function.comp_def]
  have hinit : Fits (Phrase.category ∘ Prod.snd) init (numbered first trace) :=
    fits_of_relabel Prod.snd _ (by rwa [relabel_snd_numbered])
  have hall := fits_append hinit (fits_body pairs)
  rw [← hsteps] at hall
  obtain ⟨form, hform⟩ := schema_of_fits hm hr hall
  refine ⟨form.map Prod.fst, ?_⟩
  have hrelabel : numbers first trace ++ [body ids] =
      relabel Prod.fst (numbered first trace ++ [body pairs]) := by
    rw [← hfirst, numbers, relabel, relabel, mapTrace_append]
    rfl
  rw [hrelabel, logOf_relabel, ofCaptures?_relabel, hform.ofCaptures?_eq, Option.map_some]

end Plain

namespace Parse

open Plain (Oracle Sound)

section

variable {mode : SplitMode} {d : Descent} {p : Oracle} {owner : NodeId} {level : Int} {s s' : State}

/-- One item and those after it, where nothing is found. -/
theorem item_none (hd : Follows mode d p) (ho : Owns s owner .resource level)
    {categories : List Category} (hcategories : categories.all (keepsWhole .resource) = true)
    {more : Reader (Option (List NodeId))}
    (hmore : ∀ {s s'}, Owns s owner .resource level → more s = .ok none s' → Extends s s')
    (h : (do
        match ← d.choose categories owner with
        | none => return none
        | some item =>
          let rest ← more
          return rest.map (item :: ·) : Reader (Option (List NodeId))) s = .ok none s') :
    Extends s s' := by
  have hchosen : Chosen owner level s (p.choose categories .resource _)
      (d.choose categories owner _) := hd.choose ho (.inr hcategories)
  simp only [bind_apply] at h
  generalize d.choose categories owner s = r at h hchosen
  generalize p.choose categories .resource s.ahead = o at hchosen
  cases hchosen with
  | error => cases h
  | none hsame =>
    cases h
    exact hsame.extends
  | @some _ _ s₁ hsome =>
    simp only [bind_apply] at h
    rcases hrest : more s₁ with ⟨_ | ids, s₂⟩ | ⟨e, s₂⟩
    all_goals
      rw [hrest] at h
      cases h
    exact hsome.extends_.trans (hmore (ho.of_extends hsome.extends_) hrest)

/-- Items are not found only where nothing has been put in: after a split the next token closes
the resource. -/
theorem readItems_none (hd : Follows mode d p) {log : Captures} {maySplit seen : Bool} {n : Nat}
    (ho : Owns s owner .resource level)
    (h : readItems d owner log maySplit n seen s = .ok none s') : Extends s s' := by
  induction n generalizing s s' seen with
  | zero => cases h
  | succ n ih =>
    rw [readItems] at h
    simp only [bind_apply, modify_apply, get_apply] at h
    have hskip := extends_skip s Grammar.newlines
    refine hskip.trans ?_
    replace ho := ho.of_extends hskip
    generalize s.skip Grammar.newlines = s at ho h ⊢
    have more (seen : Bool) {s₁ s₂ : State} (ho : Owns s₁ owner .resource level)
        (h : readItems d owner log maySplit n seen s₁ = .ok none s₂) : Extends s₁ s₂ := ih ho h
    have item {categories : List Category} {s' : State}
        (hcategories : categories.all (keepsWhole .resource) = true) (seen : Bool) :
        _ → Extends s s' := item_none hd ho hcategories (more seen)
    cases hkind : s.cursor.currentKind with
    | none =>
      rw [hkind] at h
      cases h
    | some kind =>
      rw [hkind] at h
      dsimp only at h
      split at h
      · cases h
      split at h
      · have hadvance := extends_advance s
        exact hadvance.trans (ih (ho.of_extends hadvance) h)
      split at h
      · exact item (show Grammar.comments.all _ = true from rfl) seen h
      split at h
      · exact item (show [Category.pair].all _ = true from rfl) seen h
      split at h
      · rename_i hsplit
        obtain ⟨rfl, rfl⟩ : seen = true ∧ maySplit = true := by simpa using hsplit
        have hchosen : Chosen owner level s (p.choose [.title] .resource _)
            (d.choose [.title] owner _) := hd.choose ho (.inr rfl)
        simp only [bind_apply] at h
        generalize d.choose [.title] owner s = r at h hchosen
        generalize p.choose [.title] .resource s.ahead = o at hchosen
        cases hchosen with
        | error => cases h
        | none hsame =>
          cases h
          exact hsame.extends
        | @some _ _ s₁ _ =>
          exfalso
          simp only [bind_apply, modify_apply] at h
          cases n with
          | zero => cases h
          | succ n =>
            generalize s₁.returnTo s.mark = s₂ at h
            obtain ⟨s₃, hs₃, -⟩ := readItems_closing d owner level true log n
              (s := { s₂ with cursor := s₂.cursor.insert (splitTokens log s₂.line) }) rfl rfl
            rw [hs₃] at h
            cases h
      · exact item (show [Category.title].all _ = true from rfl) true h

/-- The contents of a resource are not found only where nothing has been put in. -/
theorem readResource_none (hd : Follows mode d p) {log : Captures}
    (ho : Owns s owner .resource level)
    (h : readResource mode d owner log s = .ok none s') : Extends s s' := by
  unfold readResource at h
  cases hhead : resourceHead? log with
  | none =>
    rw [hhead] at h
    cases h
    exact .refl s
  | some head =>
    rw [hhead] at h
    simp only [bind_apply, get_apply, modify_apply] at h
    have hskip := extends_skip s Grammar.newlines
    split at h
    · split at h
      · cases h
      · cases h
        exact hskip.trans (same_recordFailure _).extends
    · have hadvance := hskip.trans (extends_advance (s.skip Grammar.newlines))
      simp only [bind_apply, modify_apply] at h
      generalize hitems : readItems d owner log _ d.rounds false _ = r at h
      rcases r with ⟨_ | ids, s₁⟩ | ⟨e, s₁⟩
      all_goals cases h
      exact hadvance.trans (readItems_none hd (ho.of_extends hadvance) hitems)

end

section

variable {mode : SplitMode} {d : Descent} {p : Oracle} {owner : NodeId} {level : Int}
  {category parent : Category} {s s' : State} {log kept : Captures}

/-- A failed attempt takes back all that was added since. -/
theorem attempt_none {usage : Usage} {reading : Captures → Reader (Bool × Captures)}
    (hreading : ∀ {kept s'}, reading log (atLead usage s) = .ok (false, kept) s' →
      Extends (atLead usage s) s' ∧ kept.take log.size = log)
    (h : attempt usage reading log s = .ok (false, kept) s') : Same s s' ∧ kept = log := by
  rw [attempt_apply] at h
  rcases hr : reading log (atLead usage s) with ⟨⟨_ | _, kept'⟩, s₁⟩ | ⟨e, s₁⟩
  all_goals
    rw [hr] at h
    cases h
  obtain ⟨hextends, hlog⟩ := hreading hr
  exact ⟨((extends_atLead usage s).trans hextends).returnTo, hlog⟩

/-- A body is not found only if there is no brace: statements are a list or an error. -/
theorem readBlock_none {usage : Usage} (h : readBlock d owner usage log s = .ok (false, kept) s') :
    Extends s s' ∧ kept.take log.size = log := by
  unfold readBlock at h
  simp only [bind_apply, get_apply] at h
  split at h
  · simp only [bind_apply, modify_apply] at h
    rcases hr : d.statements owner (some .rightBrace) s.advance with ⟨ids, s₁⟩ | ⟨e, s₁⟩
    all_goals
      rw [hr] at h
      cases h
  · cases h
    exact ⟨(same_recordFailure s).extends, take_size log⟩

/-- A body that is found is kept under its name. -/
theorem readBody_some (h : readSteps d owner [Step.braces.named "body"] log s = .ok (true, kept) s') :
    ∃ ids, kept = ⟨log.entries ++ Plain.logOf [Plain.body ids]⟩ := by
  rw [readSteps_single d owner log s rfl rfl] at h
  unfold Step.braces Step.named Step.withUsage at h
  rw [readOnce, attempt_apply] at h
  simp only [readBlock, bind_apply, get_apply] at h
  generalize atLead _ s = s at h
  split at h
  · cases h
  · rename_i heq
    split at heq
    · simp only [bind_apply, modify_apply] at heq
      rcases hr : d.statements owner (some .rightBrace) s.advance with ⟨ids, s₁⟩ | ⟨e, s₁⟩
      all_goals
        rw [hr] at heq
        cases heq
      cases h
      exact ⟨ids, addIf_eq _ _ _⟩
    · cases heq
  · cases h

/-- Outside the rules with a body, the steps of a rule hold no resource that may be split. -/
theorem stepsKeep_or_hasBody (category : Category) :
    stepsKeep category category.rule.steps = true ∨ category.hasBody = true := by
  cases category <;> decide

/-- A node that is not found leaves no trace. -/
theorem readCategory_none (hd : Follows mode d p) (hp : Sound p) (ho : Owns s owner parent level)
    (h : readCategory mode d category owner s = .ok none s') : Same s s' := by
  have hentered := extends_entered category ho
  rw [readCategory_apply] at h
  rcases stepsKeep_or_hasBody category with hkeep | hbody
  · have hsteps := readSteps_loose hd category.rule.steps {} (owns_entered ho) (.inr hkeep)
    generalize readSteps d s.tree.size category.rule.steps {} _ = r at h hsteps
    generalize Plain.inOrder p category category.rule.steps _ = o at hsteps
    cases hsteps with
    | error => cases h
    | none hextends =>
      cases h
      exact (hentered.trans hextends).returnTo
    | @some _ _ s₁ hsome =>
      have hextends := hentered.trans hsome.extends_
      simp only [Bool.not_true, Bool.false_eq_true, if_false] at h
      by_cases hresource : category = .resource
      · subst hresource
        simp only [beq_self_eq_true, if_true] at h
        generalize hr : readResource mode d s.tree.size _ s₁ = r at h
        rcases r with ⟨_ | form, s₂⟩ | ⟨e, s₂⟩
        all_goals cases h
        exact (hextends.trans
          (readResource_none hd ((owns_entered ho).of_extends hsome.extends_) hr)).returnTo
      · have hne : (category == .resource) = false := by simpa using hresource
        simp only [hne, Bool.false_eq_true, if_false, pure_apply] at h
        generalize Form.ofCaptures? category _ = form? at h
        cases form? with
        | none =>
          cases h
          exact hextends.returnTo
        | some form => cases h
  · obtain ⟨init, hinit, hkeep, -⟩ := Plain.steps_of_hasBody hbody
    have hsteps := readSteps_loose hd init {} (owns_entered ho) (.inr hkeep)
    rw [hinit, readSteps_append] at h
    generalize readSteps d s.tree.size init {} _ = r at h hsteps
    generalize hplain : Plain.inOrder p category init _ = o at hsteps
    cases hsteps with
    | error => cases h
    | none hextends =>
      cases h
      exact (hentered.trans hextends).returnTo
    | @some trace _ s₁ hsome =>
      obtain ⟨hfits, -⟩ := Plain.inOrder_sound hp _ hplain
      simp only [Plain.beq_resource_of_hasBody hbody, Bool.false_eq_true, if_false] at h
      rcases hr : readSteps d s.tree.size [Step.braces.named "body"] _ s₁ with
        ⟨⟨_ | _, kept⟩, s₂⟩ | ⟨e, s₂⟩
      · rw [hr] at h
        cases h
        rw [readSteps_single d _ _ s₁ rfl rfl] at hr
        unfold Step.braces Step.named Step.withUsage at hr
        rw [readOnce] at hr
        obtain ⟨hsame, -⟩ := attempt_none readBlock_none hr
        exact (hentered.trans (hsome.extends_.trans hsame.extends)).returnTo
      · obtain ⟨ids, rfl⟩ := readBody_some hr
        obtain ⟨form, hform⟩ := Plain.ofCaptures?_body hbody hinit hfits
          (entered category owner s).tree.size ids
        rw [hr] at h
        simp only [List.nil_append, ← Plain.logOf_append, hform, Bool.not_true, Bool.false_eq_true,
          if_false, pure_apply] at h
        cases h
      · rw [hr] at h
        cases h

/-- Candidates of which none is found leave no trace. -/
theorem chooseFrom_none (hd : Follows mode d p) (hp : Sound p) {categories : List Category}
    (ho : Owns s owner parent level) (h : chooseFrom mode d categories owner s = .ok none s') :
    Same s s' := by
  induction categories with
  | nil =>
    cases h
    exact .refl s
  | cons category categories ih =>
    rw [chooseFrom_apply hd category categories ho] at h
    split at h
    · cases h
    split at h
    · exact readCategory_none hd hp ho h
    · exact ih h

/-- A level that finds no node leaves no trace. -/
theorem choose_none {n : Nat} {categories : List Category} (ho : Owns s owner parent level)
    (h : (descent mode n).choose categories owner s = .ok none s') : Same s s' := by
  cases n with
  | zero => cases h
  | succ n => exact chooseFrom_none (descent_follows mode n) (Plain.level_sound n) ho h

end

mutual

/-- Whether a step that is not found takes nothing with it: in its groups, what may hold a split
resource comes last. -/
def yields (owner : Category) : Step → Bool
  | .group _ steps => yieldsInOrder owner steps
  | .choice _ branches => yieldsOne owner branches
  | _ => true

/-- The same for steps in order. -/
def yieldsInOrder (owner : Category) : List Step → Bool
  | [] => true
  | step :: steps =>
    yields owner step && (steps.isEmpty || stepKeeps owner step) && yieldsInOrder owner steps

/-- The same for every branch of a choice. -/
def yieldsOne (owner : Category) : List (List Step) → Bool
  | [] => true
  | branch :: branches => yieldsInOrder owner branch && yieldsOne owner branches

end

/-- A step of a list of steps, at any depth. -/
inductive Occurs (step : Step) : List Step → Prop
  | here {steps : List Step} (h : step ∈ steps) : Occurs step steps
  | group {usage : Usage} {inner steps : List Step} (hmem : .group usage inner ∈ steps)
      (h : Occurs step inner) : Occurs step steps
  | choice {usage : Usage} {branches : List (List Step)} {branch steps : List Step}
      (hmem : .choice usage branches ∈ steps) (hbranch : branch ∈ branches)
      (h : Occurs step branch) : Occurs step steps

section

variable {owner : Category} {step : Step} {steps : List Step}

/-- Steps that leave no trace when they fail do so one by one. -/
theorem yields_of_mem (h : yieldsInOrder owner steps = true) (hmem : step ∈ steps) :
    yields owner step = true := by
  induction steps with
  | nil => simp at hmem
  | cons first steps ih =>
    simp only [yieldsInOrder, Bool.and_eq_true] at h
    rcases List.mem_cons.mp hmem with rfl | hmem
    · exact h.1.1
    · exact ih h.2 hmem

/-- Branches that leave no trace when they fail do so one by one. -/
theorem yieldsInOrder_of_mem {branches : List (List Step)} (h : yieldsOne owner branches = true)
    (hmem : steps ∈ branches) : yieldsInOrder owner steps = true := by
  induction branches with
  | nil => simp at hmem
  | cons branch branches ih =>
    simp only [yieldsOne, Bool.and_eq_true] at h
    rcases List.mem_cons.mp hmem with rfl | hmem
    · exact h.1
    · exact ih h.2 hmem

/-- A step that occurs leaves no trace when it fails, if all steps do so. -/
theorem Occurs.yields (hoccurs : Occurs step steps)
    (h : ∀ step ∈ steps, Parse.yields owner step = true) : Parse.yields owner step = true := by
  induction hoccurs with
  | here hmem => exact h _ hmem
  | group hmem _ ih =>
    have hinner := h _ hmem
    rw [Parse.yields] at hinner
    exact ih fun _ => yields_of_mem hinner
  | choice hmem hbranch _ ih =>
    have hinner := h _ hmem
    rw [Parse.yields] at hinner
    exact ih fun _ => yields_of_mem (yieldsInOrder_of_mem hinner hbranch)

/-- Every step of the grammar yields, whatever owner it is read for. -/
theorem yields_rule (owner category : Category) :
    ∀ step ∈ category.rule.steps, yields owner step = true := by
  have hall : category.rule.steps.all (yields owner) = true := by
    cases category <;> rfl
  simpa using hall

end

section

variable {mode : SplitMode} {n : Nat} {owner : NodeId} {level : Int} {category : Category}

/-- A log that is cut back twice is cut back to the shorter size. -/
theorem take_of_take {log log' kept : Captures} (h : log'.take log.size = log)
    (h' : kept.take log'.size = log') (hle : log.size ≤ log'.size) : kept.take log.size = log := by
  rw [← h'] at h
  rwa [Captures.take, Captures.take, List.take_take, Nat.min_eq_left hle] at h

mutual

/-- A step that is not found leaves no trace. -/
theorem readOnce_none {step : Step} {log kept : Captures} {s s' : State}
    (ho : Owns s owner category level) (hstep : yields category step = true)
    (h : readOnce (descent mode n) owner step log s = .ok (false, kept) s') :
    Same s s' ∧ kept = log := by
  cases step with
  | token usage kinds =>
    have hstrict := readToken_strict owner level category (Plain.level n) usage kinds log s
    rw [readOnce] at h
    rw [h] at hstrict
    generalize Plain.once _ _ _ _ = o at hstrict
    cases hstrict with
    | none hsame => exact ⟨hsame, rfl⟩
  | node usage categories =>
    rw [readOnce] at h
    refine attempt_none (fun {kept s'} h => ?_) h
    unfold readNode at h
    simp only [bind_apply] at h
    rcases hr : (descent mode n).choose categories owner (atLead usage s) with
      ⟨_ | id, s₁⟩ | ⟨e, s₁⟩
    all_goals
      rw [hr] at h
      cases h
    have hsame := choose_none (ho.of_extends (extends_atLead usage s)) hr
    exact ⟨(hsame.trans (same_recordFailure s₁)).extends, take_size log⟩
  | group usage steps =>
    rw [readOnce] at h
    rw [yields] at hstep
    exact attempt_none
      (fun h => readSteps_none (ho.of_extends (extends_atLead usage s)) hstep h) h
  | choice usage branches =>
    rw [readOnce] at h
    rw [yields] at hstep
    exact attempt_none
      (fun h => readFirst_none (ho.of_extends (extends_atLead usage s)) hstep h) h
  | block usage =>
    rw [readOnce] at h
    exact attempt_none readBlock_none h

/-- Steps that are not found can be taken back. -/
theorem readSteps_none {steps : List Step} {log kept : Captures} {s s' : State}
    (ho : Owns s owner category level) (hsteps : yieldsInOrder category steps = true)
    (h : readSteps (descent mode n) owner steps log s = .ok (false, kept) s') :
    Extends s s' ∧ kept.take log.size = log := by
  cases steps with
  | nil => cases h
  | cons step steps =>
    simp only [yieldsInOrder, Bool.and_eq_true, Bool.or_eq_true] at hsteps
    obtain ⟨⟨hstep, hlast | hkeep⟩, hmore⟩ := hsteps
    · -- the last step is found or not, and then so is the whole
      obtain rfl : steps = [] := List.isEmpty_iff.mp hlast
      rw [readSteps] at h
      simp only [bind_apply, asUsed] at h
      rcases hr : readOnce (descent mode n) owner step log s with ⟨⟨_ | _, kept'⟩, s₁⟩ | ⟨e, s₁⟩
      · obtain ⟨hsame, rfl⟩ := readOnce_none ho hstep hr
        rw [hr] at h
        cases hoptional : step.usage.optional
        all_goals
          simp only [hoptional, Bool.not_false, if_true] at h
          cases h
        exact ⟨hsame.extends, take_size kept'⟩
      · rw [hr] at h
        simp only [Bool.not_true, Bool.false_eq_true, if_false] at h
        cases hmany : step.usage.many
        · rw [hmany] at h
          cases h
        · simp only [hmany, if_true, bind_apply] at h
          rcases hrepeated : repeatedly (fun log => readOnce (descent mode n) owner step log)
            (descent mode n).rounds kept' s₁ with ⟨kept'', s₂⟩ | ⟨e, s₂⟩
          all_goals
            rw [hrepeated] at h
            cases h
      · rw [hr] at h
        cases h
    · rw [readSteps] at h
      have hstrict := asUsed_strict
        (fun log _ ho hw => readOnce_strict (descent_follows mode n) step log ho hw) step.usage
        (descent_follows mode n).rounds log ho (.inr hkeep)
      simp only [bind_apply] at h
      generalize asUsed step.usage _ _ log s = r at h hstrict
      generalize Plain.used _ _ _ _ = o at hstrict
      cases hstrict with
      | error => cases h
      | none hsame =>
        cases h
        exact ⟨hsame.extends, take_size log⟩
      | @some trace _ s₁ hsome =>
        simp only [if_true] at h
        obtain ⟨hextends, hkept⟩ := readSteps_none (ho.of_extends hsome.extends_) hmore h
        refine ⟨hsome.extends_.trans hextends, take_of_take (take_size_append log _) hkept ?_⟩
        simp [Captures.size]

/-- Branches of which none is found can be taken back. -/
theorem readFirst_none {branches : List (List Step)} {log kept : Captures} {s s' : State}
    (ho : Owns s owner category level) (hbranches : yieldsOne category branches = true)
    (h : readFirst (descent mode n) owner branches log s = .ok (false, kept) s') :
    Extends s s' ∧ kept.take log.size = log := by
  cases branches with
  | nil =>
    cases h
    exact ⟨.refl s, take_size log⟩
  | cons branch branches =>
    simp only [yieldsOne, Bool.and_eq_true] at hbranches
    rw [readFirst] at h
    simp only [bind_apply, get_apply] at h
    rcases hr : readSteps (descent mode n) owner branch log s with ⟨⟨_ | _, kept'⟩, s₁⟩ | ⟨e, s₁⟩
    · obtain ⟨hextends, hlog⟩ := readSteps_none ho hbranches.1 hr
      have hsame := hextends.returnTo
      rw [hr] at h
      simp only [Bool.false_eq_true, if_false, bind_apply, modify_apply, hlog] at h
      obtain ⟨hmore, hkept⟩ := readFirst_none (ho.of_extends hsame.extends) hbranches.2 h
      exact ⟨hsame.extends.trans hmore, hkept⟩
    · rw [hr] at h
      cases h
    · rw [hr] at h
      cases h

end

end

/-- A reading that finds nothing leaves no trace: a node that cannot be read below any parent, of any
candidates, and any step of the grammar, at whatever depth of its rule. -/
theorem failure_leaves_no_trace (mode : SplitMode) (n : Nat) {parent : NodeId} {s : State}
    (hparent : parent < s.tree.size) :
    (∀ categories s', (descent mode n).choose categories parent s = .ok none s' → Same s s') ∧
    ∀ (category : Category) step, Occurs step category.rule.steps → ∀ log kept s',
      readOnce (descent mode n) parent step log s = .ok (false, kept) s' →
        Same s s' ∧ kept = log := by
  have ho : Owns s parent (s.tree.category parent) ((s.tree.node parent).level + 1) :=
    ⟨hparent, rfl, rfl⟩
  constructor
  · intro categories s' h
    exact choose_none ho h
  · intro category step hoccurs log kept s' h
    exact readOnce_none ho (hoccurs.yields (yields_rule _ category)) h

/-- A run with a result is a success with it. -/
theorem ok_of_run' {α : Type} {reading : Reader α} {s : State} {a : α}
    (h : reading.run' s = some a) : ∃ s', reading s = .ok a s' := by
  unfold EStateM.run' EStateM.run at h
  rcases hr : reading s with ⟨a', s'⟩ | ⟨e, s'⟩
  all_goals
    rw [hr] at h
    cases h
  exact ⟨s', rfl⟩

/-- A run without a result is an error. -/
theorem error_of_run' {α : Type} {reading : Reader α} {s : State}
    (h : reading.run' s = none) : ∃ e s', reading s = .error e s' := by
  unfold EStateM.run' EStateM.run at h
  rcases hr : reading s with ⟨a', s'⟩ | ⟨e, s'⟩
  all_goals
    rw [hr] at h
    cases h
  exact ⟨e, s', rfl⟩

/-- A resource whose title has no colon, and an edge without a member after it. -/
theorem failure_leaves_no_trace_of_title :
    let tokens : List Token :=
      [⟨.name, "f", 1⟩, ⟨.leftBrace, "\x7b", 1⟩, ⟨.name, "a", 1⟩, ⟨.name, "b", 1⟩,
       ⟨.rightBrace, "\x7d", 1⟩]
    let edge : List Token := [⟨.newline, "\n", 1⟩, ⟨.edgeRight, "->", 2⟩, ⟨.number, "1", 2⟩]
    let step := Step.many (Step.inOrder
      [(Step.expect Grammar.edges).named "edges", (Step.oneOf Grammar.chainMembers).named "members"])
    (∃ s', (descent .splice 9).choose [.resource] Tree.root (.start tokens) = .ok none s' ∧
      Same (.start tokens) s') ∧
    ∃ kept s', readOnce (descent .splice 9) Tree.root step {} (.start edge) = .ok (false, kept) s' ∧
      Same (.start edge) s' ∧ kept = {} := by
  intro tokens edge step
  have hchosen : ((descent .splice 9).choose [.resource] Tree.root).run' (.start tokens) =
      some none := by decide +kernel
  have hread : ((readOnce (descent .splice 9) Tree.root step {}).run' (.start edge)).map (·.1) =
      some false := by decide +kernel
  obtain ⟨s₁, h₁⟩ := ok_of_run' hchosen
  obtain ⟨⟨_, kept⟩, hkept, rfl⟩ := Option.map_eq_some_iff.mp hread
  obtain ⟨s₂, h₂⟩ := ok_of_run' hkept
  refine ⟨⟨s₁, h₁, ?_⟩, kept, s₂, h₂, ?_⟩
  · exact (failure_leaves_no_trace .splice 9 Nat.one_pos).1 _ _ h₁
  · exact (failure_leaves_no_trace .splice 9 Nat.one_pos).2 .chain step
      (.here (.tail _ (.head _))) _ _ _ h₂

/-- Recognising a category leaves the state as it was.  It gives an answer, which depends on the tokens
ahead and on the category of the parent, and never an error, whatever the trial in it came to; only
levels that do not suffice for the tokens ahead leave it without an answer. -/
theorem accepts_leaves_state (mode : SplitMode) (n : Nat) (category : Category) {parent : NodeId}
    {s : State} (hparent : parent < s.tree.size) :
    (accepts (descent mode n) category parent s = .error .exhausted s ∨
      accepts (descent mode n) category parent s =
        .ok (Plain.accepts (Plain.level n) category (s.tree.category parent) s.ahead) s) ∧
    (8 * s.ahead.length + Plain.rank category ≤ n →
      accepts (descent mode n) category parent s =
        .ok (Plain.accepts Plain.full category (s.tree.category parent) s.ahead) s) := by
  have happly := accepts_apply category (descent_follows mode n) ⟨hparent, rfl, rfl⟩
  refine ⟨?_, fun hn => ?_⟩
  · rw [happly]
    split
    · exact .inl rfl
    · exact .inr rfl
  · have hagrees := Plain.agrees_full n
    have hsound := Plain.level_sound n
    rw [happly, (Plain.not_runsOut hagrees hsound category _ hn).1, if_neg Bool.false_ne_true,
      Plain.accepts_agrees hagrees hsound category _ hn]

/-- A resource that does not end: reading it is an error, and asking for a chain is not. -/
theorem accepts_leaves_state_of_error :
    let tokens : List Token :=
      [⟨.name, "f", 1⟩, ⟨.leftBrace, "\x7b", 1⟩, ⟨.name, "a", 1⟩, ⟨.colon, ":", 1⟩]
    (∃ e s', (descent .splice 37).choose Grammar.chainMembers Tree.root (.start tokens) =
      .error e s') ∧
    accepts (descent .splice 37) .chain Tree.root (.start tokens) = .ok false (.start tokens) := by
  intro tokens
  have hchosen : ((descent .splice 37).choose Grammar.chainMembers Tree.root).run' (.start tokens) =
      none := by decide +kernel
  have hplain : Plain.accepts Plain.full .chain .manifest tokens = false := by decide +kernel
  have hlevels : 8 * (State.start tokens).ahead.length + Plain.rank .chain ≤ 37 := by decide
  exact ⟨error_of_run' hchosen,
    ((accepts_leaves_state .splice 37 .chain Nat.one_pos).2 hlevels).trans
      (congrArg (EStateM.Result.ok · _) hplain)⟩

end Parse

end TidyManifest
