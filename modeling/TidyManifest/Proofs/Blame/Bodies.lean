import TidyManifest.Proofs.Blame.Reopened

/-!
# Where a token is refused

Only a list of statements refuses a token.  A reading of anything else is found or not, or it gives
up because the tokens or the levels end (`descent_quieted`).  So if a statement is refused, then the
statement has a body, and it is in the body that a statement was refused (`readCategory_error`).
-/

namespace TidyManifest.Parse

open Plain (Oracle)
open Grammar (newlines)

/-- No token is refused. -/
def Quiet (e : ParseError) : Prop :=
  ∀ line text, e ≠ .unexpectedToken line text

theorem quiet_exhausted : Quiet .exhausted := by simp [Quiet]

theorem quiet_unexpectedEnd : Quiet .unexpectedEnd := by simp [Quiet]

theorem quiet_stalled (line : Nat) : Quiet (.stalled line) := by simp [Quiet]

/-- A descent that refuses no token where it reads no statements. -/
structure Quieted (d : Descent) : Prop where
  choose : ∀ {categories owner s e s'}, (∀ c ∈ categories, c.hasBody = false) →
    d.choose categories owner s = .error e s' → Quiet e

section

variable {d : Descent} {owner : NodeId} {parent : Category} {log : Captures} {e : ParseError}
  {s s' : State}

/-- What keeps resources whole has no body. -/
theorem hasBody_of_keepsWhole {categories : List Category}
    (h : categories.all (keepsWhole parent) = true) : ∀ c ∈ categories, c.hasBody = false := by
  intro c hc
  cases hbody : c.hasBody with
  | false => rfl
  | true =>
    have hkeeps := List.all_eq_true.mp h c hc
    rw [keepsWhole_of_hasBody hbody] at hkeeps
    cases hkeeps

/-- An error of an attempt is an error of its reading. -/
theorem attempt_error {usage : Usage} {reading : Captures → Reader (Bool × Captures)}
    (h : attempt usage reading log s = .error e s') :
    reading log (atLead usage s) = .error e s' := by
  rw [attempt_apply] at h
  rcases hr : reading log (atLead usage s) with ⟨⟨_ | _, kept⟩, s₁⟩ | ⟨e₁, s₁⟩
  all_goals
    rw [hr] at h
    cases h
  rfl

/-- Reading a token is never an error. -/
theorem readToken_ok (usage : Usage) (kinds : List Kind) (log : Captures) (s : State) :
    ∃ r s', readToken usage kinds log s = .ok r s' := by
  unfold readToken
  simp only [bind_apply, get_apply]
  cases s.cursor.current with
  | none => exact ⟨_, _, rfl⟩
  | some t =>
    dsimp only
    split <;> exact ⟨_, _, rfl⟩

/-- Reading a node without a body refuses no token. -/
theorem readNode_quiet (hd : Quieted d) {usage : Usage} {categories : List Category}
    (hcategories : ∀ c ∈ categories, c.hasBody = false)
    (h : readNode d owner usage categories log s = .error e s') : Quiet e := by
  unfold readNode at h
  simp only [bind_apply] at h
  rcases hr : d.choose categories owner s with ⟨_ | id, s₁⟩ | ⟨e₁, s₁⟩
  all_goals
    rw [hr] at h
    cases h
  exact hd.choose hcategories hr

section

variable {reading : Captures → Reader (Bool × Captures)}
  (hreading : ∀ {log s e s'}, reading log s = .error e s' → Quiet e)

include hreading

/-- Repeating a reading refuses no token if the reading does not. -/
theorem repeatedly_quiet {n : Nat} (h : repeatedly reading n log s = .error e s') : Quiet e := by
  induction n generalizing log s with
  | zero =>
    cases h
    exact quiet_exhausted
  | succ n ih =>
    simp only [repeatedly, bind_apply, get_apply] at h
    rcases hr : reading log s with ⟨⟨matched, kept⟩, s₁⟩ | ⟨e₁, s₁⟩
    · rw [hr] at h
      dsimp only at h
      split at h
      · exact ih h
      · cases h
    · rw [hr] at h
      cases h
      exact hreading hr

/-- Using a step refuses no token if the step does not. -/
theorem asUsed_quiet {usage : Usage} {rounds : Nat}
    (h : asUsed usage rounds reading log s = .error e s') : Quiet e := by
  simp only [asUsed, bind_apply] at h
  rcases hr : reading log s with ⟨⟨_ | _, kept⟩, s₁⟩ | ⟨e₁, s₁⟩
  · rw [hr] at h
    cases h
  · rw [hr] at h
    simp only [Bool.not_true, Bool.false_eq_true, if_false] at h
    cases hmany : usage.many
    · rw [hmany] at h
      cases h
    · simp only [hmany, if_true, bind_apply] at h
      rcases hrepeated : repeatedly reading rounds kept s₁ with ⟨kept', s₂⟩ | ⟨e₂, s₂⟩
      all_goals
        rw [hrepeated] at h
        cases h
      exact repeatedly_quiet hreading hrepeated
  · rw [hr] at h
    cases h
    exact hreading hr

end

end

section

variable {d : Descent} {owner : NodeId} {parent : Category}

mutual

/-- A step without a body refuses no token. -/
theorem readOnce_quiet (hd : Quieted d) (step : Step) (hkeeps : stepKeeps parent step = true)
    {log : Captures} {e : ParseError} {s s' : State}
    (h : readOnce d owner step log s = .error e s') : Quiet e := by
  cases step with
  | token usage kinds =>
    rw [readOnce] at h
    obtain ⟨r, s₁, hr⟩ := readToken_ok usage kinds log (atLead usage s)
    rw [attempt_error h] at hr
    cases hr
  | node usage categories =>
    rw [readOnce] at h
    exact readNode_quiet hd (hasBody_of_keepsWhole hkeeps) (attempt_error h)
  | group usage steps =>
    rw [readOnce] at h
    exact readSteps_quiet hd steps hkeeps (attempt_error h)
  | choice usage branches =>
    rw [readOnce] at h
    exact readFirst_quiet hd branches hkeeps (attempt_error h)
  | block usage => cases hkeeps

/-- Steps without a body refuse no token. -/
theorem readSteps_quiet (hd : Quieted d) (steps : List Step)
    (hkeeps : stepsKeep parent steps = true) {log : Captures} {e : ParseError} {s s' : State}
    (h : readSteps d owner steps log s = .error e s') : Quiet e := by
  cases steps with
  | nil => cases h
  | cons step steps =>
    rw [stepsKeep, Bool.and_eq_true] at hkeeps
    rw [readSteps] at h
    simp only [bind_apply] at h
    rcases hr : asUsed step.usage d.rounds (fun log => readOnce d owner step log) log s with
      ⟨⟨matched, kept⟩, s₁⟩ | ⟨e₁, s₁⟩
    · rw [hr] at h
      dsimp only at h
      split at h
      · exact readSteps_quiet hd steps hkeeps.2 h
      · cases h
    · rw [hr] at h
      cases h
      exact asUsed_quiet (fun h => readOnce_quiet hd step hkeeps.1 h) hr

/-- Branches without a body refuse no token. -/
theorem readFirst_quiet (hd : Quieted d) (branches : List (List Step))
    (hkeeps : branchesKeep parent branches = true) {log : Captures} {e : ParseError} {s s' : State}
    (h : readFirst d owner branches log s = .error e s') : Quiet e := by
  cases branches with
  | nil => cases h
  | cons branch branches =>
    rw [branchesKeep, Bool.and_eq_true] at hkeeps
    rw [readFirst] at h
    simp only [bind_apply, get_apply] at h
    rcases hr : readSteps d owner branch log s with ⟨⟨_ | _, kept⟩, s₁⟩ | ⟨e₁, s₁⟩
    · rw [hr] at h
      simp only [Bool.false_eq_true, if_false, bind_apply, modify_apply] at h
      exact readFirst_quiet hd branches hkeeps.2 h
    · rw [hr] at h
      cases h
    · rw [hr] at h
      cases h
      exact readSteps_quiet hd branch hkeeps.1 hr

end

end

section

variable {mode : SplitMode} {d : Descent} {owner : NodeId} {category parent : Category}
  {log : Captures} {maySplit seen : Bool} {e : ParseError} {s s' : State}

/-- One item of a resource and those after it. -/
theorem item_quiet (hd : Quieted d) {categories : List Category}
    (hcategories : categories.all (keepsWhole .resource) = true)
    {more : Reader (Option (List NodeId))} (hmore : ∀ {s s'}, more s = .error e s' → Quiet e)
    (h : (do
        match ← d.choose categories owner with
        | none => return none
        | some item =>
          let rest ← more
          return rest.map (item :: ·) : Reader (Option (List NodeId))) s = .error e s') :
    Quiet e := by
  simp only [bind_apply] at h
  rcases hr : d.choose categories owner s with ⟨_ | id, s₁⟩ | ⟨e₁, s₁⟩
  all_goals rw [hr] at h
  · cases h
  · simp only [bind_apply] at h
    rcases hrest : more s₁ with ⟨found, s₂⟩ | ⟨e₂, s₂⟩
    all_goals
      rw [hrest] at h
      cases h
    exact hmore hrest
  · cases h
    exact hd.choose (hasBody_of_keepsWhole hcategories) hr

/-- The items of a resource refuse no token. -/
theorem readItems_quiet (hd : Quieted d) {n : Nat}
    (h : readItems d owner log maySplit n seen s = .error e s') : Quiet e := by
  induction n generalizing s s' seen with
  | zero =>
    cases h
    exact quiet_exhausted
  | succ n ih =>
    rw [readItems] at h
    simp only [bind_apply, modify_apply, get_apply] at h
    generalize s.skip newlines = s at h
    cases hkind : s.cursor.currentKind with
    | none =>
      rw [hkind] at h
      cases h
      exact quiet_unexpectedEnd
    | some kind =>
      rw [hkind] at h
      dsimp only at h
      split at h
      · cases h
      split at h
      · exact ih h
      split at h
      · exact item_quiet hd (show Grammar.comments.all _ = true from rfl) ih h
      split at h
      · exact item_quiet hd (show [Category.pair].all _ = true from rfl) ih h
      split at h
      · simp only [bind_apply] at h
        rcases hr : d.choose [.title] owner s with ⟨_ | id, s₁⟩ | ⟨e₁, s₁⟩
        · rw [hr] at h
          cases h
        · rw [hr] at h
          simp only [bind_apply, modify_apply] at h
          exact ih h
        · rw [hr] at h
          cases h
          exact hd.choose (hasBody_of_keepsWhole
            (show [Category.title].all (keepsWhole .resource) = true from rfl)) hr
      · exact item_quiet hd (show [Category.title].all _ = true from rfl) ih h

/-- Reading the body of a resource refuses no token. -/
theorem readResource_quiet (hd : Quieted d) (h : readResource mode d owner log s = .error e s') :
    Quiet e := by
  unfold readResource at h
  cases hhead : resourceHead? log with
  | none =>
    rw [hhead] at h
    cases h
  | some head =>
    rw [hhead] at h
    simp only [bind_apply, get_apply, modify_apply] at h
    split at h
    · split at h <;> cases h
    · simp only [bind_apply, modify_apply] at h
      generalize hitems : readItems d owner log _ d.rounds false _ = r at h
      rcases r with ⟨ids, s₁⟩ | ⟨e₁, s₁⟩
      all_goals cases h
      exact readItems_quiet hd hitems

/-- A node without a body refuses no token. -/
theorem readCategory_quiet (hd : Quieted d) (hbody : category.hasBody = false)
    (h : readCategory mode d category owner s = .error e s') : Quiet e := by
  have hkeep : stepsKeep category category.rule.steps = true :=
    (stepsKeep_or_hasBody category).resolve_right (by simp [hbody])
  rw [readCategory_apply] at h
  rcases hr : readSteps d s.tree.size category.rule.steps {} (entered category owner s) with
    ⟨⟨matched, log⟩, s₁⟩ | ⟨e₁, s₁⟩
  · rw [hr] at h
    dsimp only at h
    generalize hform : (if !matched then pure none
      else if category == .resource then readResource mode d s.tree.size log
      else pure (Form.ofCaptures? category log) : Reader (Option Form)) s₁ = r at h
    rcases r with ⟨_ | form, s₂⟩ | ⟨e₂, s₂⟩
    all_goals cases h
    split at hform
    · cases hform
    split at hform
    · exact readResource_quiet hd hform
    · cases hform
  · rw [hr] at h
    cases h
    exact readSteps_quiet hd _ hkeep hr

/-- A trial refuses no token: the only error that it passes on is that the levels do not suffice. -/
theorem onTrial_quiet {reading : Reader Bool} (h : onTrial reading s = .error e s') : Quiet e := by
  unfold onTrial at h
  dsimp only at h
  split at h
  all_goals cases h
  exact quiet_exhausted

/-- Recognising a category refuses no token. -/
theorem accepts_quiet {category : Category} (h : accepts d category owner s = .error e s') :
    Quiet e := by
  unfold accepts at h
  simp only [bind_apply, get_apply] at h
  split at h
  case h_4 =>
    split at h
    · exact onTrial_quiet h
    · cases h
  case h_5 => exact onTrial_quiet h
  all_goals cases h

/-- Choosing among categories without a body refuses no token. -/
theorem chooseFrom_quiet (hd : Quieted d) {categories : List Category}
    (hcategories : ∀ c ∈ categories, c.hasBody = false)
    (h : chooseFrom mode d categories owner s = .error e s') : Quiet e := by
  induction categories generalizing s with
  | nil => cases h
  | cons category categories ih =>
    rw [chooseFrom, bind_apply] at h
    rcases haccepts : accepts d category owner s with ⟨answer, s₁⟩ | ⟨e₁, s₁⟩
    · simp only [haccepts] at h
      split at h
      · exact readCategory_quiet hd (hcategories category List.mem_cons_self) h
      · exact ih (fun c hc => hcategories c (List.mem_cons_of_mem _ hc)) h
    · simp only [haccepts] at h
      cases h
      exact accepts_quiet haccepts

/-- Every level of the descent refuses no token where it reads no statements. -/
theorem descent_quieted (mode : SplitMode) (n : Nat) : Quieted (descent mode n) := by
  induction n with
  | zero =>
    refine ⟨fun _ h => ?_⟩
    cases h
    exact quiet_exhausted
  | succ n ih => exact ⟨fun hcategories h => chooseFrom_quiet ih hcategories h⟩

end

/-- The state in front of the brace of a statement with a body, when what stands before the body has
been read. -/
structure Opens (d : Descent) (category : Category) (parent : NodeId) (s b : State) : Prop where
  read : ∃ init log s₁, category.rule.steps = init ++ [Step.braces.named "body"] ∧
    readSteps d s.tree.size init {} (entered category parent s) = .ok (true, log) s₁ ∧
    b = s₁.skip newlines
  brace : b.cursor.currentKind = some .leftBrace

section

variable {mode : SplitMode} {d : Descent} {p : Oracle} {owner : NodeId} {level : Int}
  {category parent : Category} {log kept : Captures} {e : ParseError} {s s' b : State}

/-- A body is refused if one of its statements is. -/
theorem readBody_error (h : readSteps d owner [Step.braces.named "body"] log s = .error e s') :
    (s.skip newlines).cursor.currentKind = some .leftBrace ∧
      d.statements owner (some .rightBrace) (s.skip newlines).advance = .error e s' := by
  rw [readSteps_single d owner log s rfl rfl] at h
  unfold Step.braces Step.named Step.withUsage at h
  rw [readOnce] at h
  replace h := attempt_error h
  simp only [readBlock, atLead, Bool.false_eq_true, if_false, bind_apply, get_apply] at h
  split at h
  · rename_i hbrace
    simp only [bind_apply, modify_apply] at h
    rcases hr : d.statements owner (some .rightBrace) (s.skip newlines).advance with
      ⟨ids, s₁⟩ | ⟨e₁, s₁⟩
    all_goals
      rw [hr] at h
      cases h
    exact ⟨eq_of_beq hbrace, rfl⟩
  · cases h

/-- A body that is found has been read from brace to brace. -/
theorem readBody_found
    (h : readSteps d owner [Step.braces.named "body"] log s = .ok (true, kept) s') :
    (s.skip newlines).cursor.currentKind = some .leftBrace ∧
      ∃ ids s₁, d.statements owner (some .rightBrace) (s.skip newlines).advance = .ok ids s₁ ∧
        s' = s₁.advance := by
  rw [readSteps_single d owner log s rfl rfl] at h
  unfold Step.braces Step.named Step.withUsage at h
  rw [readOnce, attempt_apply] at h
  simp only [readBlock, atLead, Bool.false_eq_true, if_false, bind_apply, get_apply] at h
  by_cases hbrace : (s.skip newlines).cursor.currentKind = some .leftBrace
  · simp only [hbrace, beq_self_eq_true, if_true, bind_apply, modify_apply] at h
    rcases hr : d.statements owner (some .rightBrace) (s.skip newlines).advance with
      ⟨ids, s₁⟩ | ⟨e₁, s₁⟩
    all_goals
      rw [hr] at h
      cases h
    exact ⟨hbrace, ids, s₁, rfl, rfl⟩
  · have hne : ((s.skip newlines).cursor.currentKind == some .leftBrace) = false := by
      simpa using hbrace
    simp only [hne, Bool.false_eq_true, if_false, bind_apply, modify_apply, pure_apply] at h
    cases h

/-- What stands before a body puts no tokens in. -/
theorem Opens.extends (h : Opens d category owner s b) (hd : Follows mode d p)
    (hbody : category.hasBody = true) (ho : Owns s owner parent level) :
    Extends (entered category owner s) b := by
  obtain ⟨⟨init, log, s₁, hsteps, hread, rfl⟩, -⟩ := h
  obtain ⟨init', hsteps', hkeep, -⟩ := Plain.steps_of_hasBody hbody
  obtain rfl : init = init' := List.append_cancel_right (hsteps.symm.trans hsteps')
  have hloose := readSteps_loose hd init {} (owns_entered ho) (.inr hkeep)
  rw [hread] at hloose
  exact hloose.extends.trans (extends_skip s₁ newlines)

/-- If a node is refused, it has a body in which a statement is refused. -/
theorem readCategory_error (hq : Quieted d)
    (h : readCategory mode d category owner s = .error e s') :
    Quiet e ∨ category.hasBody = true ∧ ∃ b, Opens d category owner s b ∧
      d.statements s.tree.size (some .rightBrace) b.advance = .error e s' := by
  cases hbody : category.hasBody with
  | false => exact .inl (readCategory_quiet hq hbody h)
  | true =>
    obtain ⟨init, hinit, hkeep, -⟩ := Plain.steps_of_hasBody hbody
    rw [readCategory_apply, hinit, readSteps_append] at h
    rcases hr : readSteps d s.tree.size init {} (entered category owner s) with
      ⟨⟨_ | _, log⟩, s₁⟩ | ⟨e₁, s₁⟩
    all_goals rw [hr] at h
    · cases h
    · dsimp only at h
      rcases hlast : readSteps d s.tree.size [Step.braces.named "body"] log s₁ with
        ⟨⟨matched, kept⟩, s₂⟩ | ⟨e₂, s₂⟩
      · rw [hlast] at h
        simp only [Plain.beq_resource_of_hasBody hbody, Bool.false_eq_true, if_false] at h
        generalize hform : (if !matched then pure none
          else pure (Form.ofCaptures? category kept) : Reader (Option Form)) s₂ = r at h
        rcases r with ⟨_ | form, s₃⟩ | ⟨e₃, s₃⟩
        · cases h
        · cases h
        · cases matched <;> cases hform
      · rw [hlast] at h
        cases h
        obtain ⟨hbrace, hstatements⟩ := readBody_error hlast
        exact .inr ⟨rfl, _, ⟨⟨init, log, s₁, hinit, hr, rfl⟩, hbrace⟩, hstatements⟩
    · cases h
      exact .inl (readSteps_quiet hq init hkeep hr)

/-- A node with a body that is found has been read up to the brace which ends the body. -/
theorem readCategory_found (hbody : category.hasBody = true) {id : NodeId}
    (h : readCategory mode d category owner s = .ok (some id) s') :
    ∃ b ids s₁, Opens d category owner s b ∧
      d.statements s.tree.size (some .rightBrace) b.advance = .ok ids s₁ ∧
      s'.ahead = s₁.advance.ahead := by
  obtain ⟨init, hinit, -, -⟩ := Plain.steps_of_hasBody hbody
  obtain ⟨log, form, s₂, hsteps, rfl⟩ := readCategory_some (Plain.beq_resource_of_hasBody hbody) h
  rw [hinit] at hsteps
  obtain ⟨log₁, s₁, hr, hlast⟩ := readSteps_append_true hsteps
  obtain ⟨hbrace, ids, s₃, hstatements, rfl⟩ := readBody_found hlast
  exact ⟨_, ids, s₃, ⟨⟨init, log₁, s₁, hinit, hr, rfl⟩, hbrace⟩, hstatements, ahead_completed ..⟩

end

end TidyManifest.Parse
