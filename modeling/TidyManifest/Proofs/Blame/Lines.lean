import TidyManifest.Proofs.Blame.Notes

/-!
# Failures at the end of a line

Only calls and references have steps that have to stand on the same line.  Such a step comes after the
first token of the rule, or after an index list.  A call is recognised by its name or by the parenthesis
directly after it, a reference by the bracket directly after its head, and an index list ends in a
bracket.  So wherever such a step finds a newline, the token before it holds the line, and these rules
take notes too (`rule_notes`).
-/

namespace TidyManifest.Parse

open Plain (Oracle)
open Grammar (newlines)

section

variable {mode : SplitMode} {d : Descent} {owner : NodeId} {usage : Usage} {kinds : List Kind}
  {log kept : Captures} {s s' : State}

/-- A token that is found is the next one. -/
theorem readOnce_token (h : readOnce d owner (.token usage kinds) log s = .ok (true, kept) s') :
    (∃ t, (atLead usage s).cursor.current = some t ∧ t.isOneOf kinds = true) ∧
      s' = (atLead usage s).advance := by
  rw [readOnce, attempt_apply] at h
  simp only [readToken, bind_apply, get_apply] at h
  cases hcurrent : (atLead usage s).cursor.current with
  | none =>
    rw [hcurrent] at h
    cases h
  | some t =>
    cases ht : t.isOneOf kinds with
    | false =>
      simp only [hcurrent, ht, Bool.false_eq_true, if_false, bind_apply, modify_apply,
        pure_apply] at h
      cases h
    | true =>
      simp only [hcurrent, ht, if_true, bind_apply, modify_apply, pure_apply] at h
      cases h
      exact ⟨⟨t, rfl, ht⟩, rfl⟩

/-- A token that is asked for is the next one past newlines, and is stepped past. -/
theorem readSteps_token
    (h : readSteps d owner [Step.expect kinds] log s = .ok (true, kept) s') :
    (∃ t, (s.skip newlines).cursor.current = some t ∧ t.isOneOf kinds = true) ∧
      s' = (s.skip newlines).advance := by
  rw [readSteps_single d owner log s rfl rfl] at h
  exact readOnce_token h

/-- Steps one after the other that are found. -/
theorem readSteps_append_true {first second : List Step}
    (h : readSteps d owner (first ++ second) log s = .ok (true, kept) s') :
    ∃ log₁ s₁, readSteps d owner first log s = .ok (true, log₁) s₁ ∧
      readSteps d owner second log₁ s₁ = .ok (true, kept) s' := by
  rw [readSteps_append] at h
  rcases hr : readSteps d owner first log s with ⟨⟨_ | _, log₁⟩, s₁⟩ | ⟨e, s₁⟩
  all_goals rw [hr] at h
  · cases h
  · exact ⟨log₁, s₁, rfl, h⟩
  · cases h

/-- A node that is found, if it is no resource: its steps have been read. -/
theorem readCategory_some {category : Category} {id : NodeId}
    (hr : (category == .resource) = false)
    (h : readCategory mode d category owner s = .ok (some id) s') :
    ∃ log form s₁, readSteps d s.tree.size category.rule.steps {} (entered category owner s) =
      .ok (true, log) s₁ ∧ s' = completed category s.tree.size form s₁ := by
  rw [readCategory_apply] at h
  rcases hsteps : readSteps d s.tree.size category.rule.steps {} (entered category owner s) with
    ⟨⟨_ | _, log⟩, s₁⟩ | ⟨e, s₁⟩
  all_goals rw [hsteps] at h
  · cases h
  · simp only [hr, Bool.not_true, Bool.false_eq_true, if_false, pure_apply] at h
    cases hform : Form.ofCaptures? category log with
    | none =>
      rw [hform] at h
      cases h
    | some form =>
      rw [hform] at h
      cases h
      exact ⟨log, form, s₁, rfl, rfl⟩
  · cases h

/-- The token that is stepped past is the last one behind the cursor. -/
theorem passed_advance {t : Token} (h : s.cursor.current = some t) :
    s.advance.cursor.passed.head? = some t := by
  obtain ⟨rest, hahead⟩ := List.head?_eq_some_iff.mp h
  simp [State.advance, Cursor.advance, hahead]

/-- A list that is read ends in a bracket. -/
theorem passed_of_list {id : NodeId}
    (h : readCategory mode d .list owner s = .ok (some id) s') :
    ∃ t, s'.cursor.passed.head? = some t ∧ t.kind = .rightBracket := by
  obtain ⟨log, form, s₁, hsteps, rfl⟩ := readCategory_some rfl h
  obtain ⟨_, s₂, -, hlast⟩ := readSteps_append_true
    (show readSteps d _ (Category.list.rule.steps.dropLast ++ [Step.expect [.rightBracket]]) _ _ = _
      from hsteps)
  obtain ⟨⟨t, hcurrent, ht⟩, rfl⟩ := readSteps_token hlast
  refine ⟨t, ?_, by simpa [Token.isOneOf] using ht⟩
  rw [cursor_completed]
  exact passed_advance hcurrent

end

/-- If the next token is of one of the kinds, a newline behind it stands behind a token that holds the
line. -/
def LeadsLine (kinds : List Kind) (s : State) : Prop :=
  ∀ t, (s.skip newlines).cursor.current = some t → t.isOneOf kinds = true →
    OnLine (s.skip newlines).advance

section

variable {mode : SplitMode} {d : Descent} {p : Oracle} {owner : NodeId} {level : Int}
  {category : Category} {usage : Usage} {kinds : List Kind} {log kept : Captures} {found : Bool}
  {s s' : State}

/-- The same state has the same line ahead. -/
theorem LeadsLine.of_same (h : LeadsLine kinds s) (hsame : Same s s') : LeadsLine kinds s' := by
  unfold LeadsLine OnLine State.skip State.advance at h ⊢
  rw [hsame.cursor]
  exact h

/-- What leads a line does so past newlines. -/
theorem LeadsLine.skip (h : LeadsLine kinds s) : LeadsLine kinds (s.skip newlines) := by
  unfold LeadsLine
  rw [skip_skip]
  exact h

/-- Behind the next token there may be no newline. -/
theorem leadsLine_of_next {t t' : Token} {rest : List Token}
    (hahead : Lookahead.significant newlines s.ahead = t :: t' :: rest) (ht : t'.kind ≠ .newline) :
    LeadsLine kinds s := by
  intro _ _ _ t₁ hcurrent hnewline
  have hnext : (s.skip newlines).advance.ahead = t' :: rest := by
    rw [ahead_advance, ahead_skip, hahead, List.tail_cons]
  obtain rfl : t' = t₁ := Option.some.inj ((congrArg List.head? hnext).symm.trans hcurrent)
  exact absurd hnewline ht

/-- The next token may hold the line itself. -/
theorem leadsLine_of_holds {t : Token} {rest : List Token}
    (hahead : Lookahead.significant newlines s.ahead = t :: rest) (ht : HoldsLine t) :
    LeadsLine kinds s := by
  intro t₁ hcurrent _
  have hskip : (s.skip newlines).ahead = t :: rest := (ahead_skip s newlines).trans hahead
  obtain rfl : t = t₁ := Option.some.inj ((congrArg List.head? hskip).symm.trans hcurrent)
  exact onLine_of_passed (passed_advance hcurrent) ht

/-- A step that is used once is read once. -/
theorem asUsed_single {rounds : Nat} {reading : Captures → Reader (Bool × Captures)}
    (ho : usage.optional = false) (hm : usage.many = false) :
    asUsed usage rounds reading log s = reading log s := by
  simp only [asUsed, bind_apply]
  rcases reading log s with ⟨⟨_ | _, kept⟩, s'⟩ | ⟨e, s'⟩ <;> simp [ho, hm]

/-- A step for a token notes that token at most. -/
theorem readOnce_token_notes (hline : OnLine s)
    (h : readOnce d owner (.token usage kinds) log s = .ok (found, kept) s') : Notes s s' := by
  rw [readOnce] at h
  exact attempt_notes (readToken_notes (onLine_atLead fun _ => hline)) h

/-- A step for a node takes the notes of the node. -/
theorem readOnce_node_notes (hd : Follows mode d p) (hn : Noting d) {categories : List Category}
    (ho : Owns s owner category level) (hkeeps : categories.all (keepsWhole category) = true)
    (hline : OnLine s) (h : readOnce d owner (.node usage categories) log s = .ok (found, kept) s') :
    Notes s s' := by
  rw [readOnce] at h
  have hlead := ho.of_extends (extends_atLead usage s)
  exact attempt_notes (readNode_notes hd hn hlead hkeeps (onLine_atLead fun _ => hline)) h

/-- A token, a step on its line, and steps that skip newlines. -/
theorem readSteps_lead_notes (hd : Follows mode d p) (hn : Noting d) {label : String}
    {second : Step} {rest : List Step} (ho : Owns s owner category level)
    (hleads : LeadsLine kinds s) (hkeeps : stepsKeep category (second :: rest) = true)
    (hskips : everySteps skipsNewlines rest = true)
    (hsecond : ∀ {log s}, Owns s owner category level → OnLine s → ∀ {found kept s'},
      asUsed second.usage d.rounds (fun log => readOnce d owner second log) log s =
        .ok (found, kept) s' → Notes s s')
    (h : readSteps d owner ((Step.expect kinds).named label :: second :: rest) log s =
      .ok (found, kept) s') : Notes s s' := by
  rw [stepsKeep, Bool.and_eq_true] at hkeeps
  refine readSteps_cons_notes hd ho rfl (fun {_ _ _} hr => ?_) (fun {_ s₁} hr ho {_ _ _} h => ?_) h
  · rw [asUsed_single rfl rfl] at hr
    exact readOnce_notes hd hn _ ho rfl rfl hr
  · rw [asUsed_single rfl rfl] at hr
    obtain ⟨⟨t, hcurrent, ht⟩, rfl⟩ := readOnce_token hr
    exact readSteps_cons_notes hd ho hkeeps.1 (hsecond ho (hleads t hcurrent ht))
      (fun {_ _} _ ho {_ _ _} h => readSteps_notes hd hn rest ho hkeeps.2 hskips h) h

/-- The first branch that is found takes notes with those before it, if each branch does wherever
the cursor stands here. -/
theorem readFirst_notes_of {branches : List (List Step)} {I : State → Prop}
    (hsame : ∀ {s s'}, I s → Same s s' → I s')
    (hbranches : ∀ branch ∈ branches, ∀ {log found kept s s'}, I s →
      readSteps d owner branch log s = .ok (found, kept) s' → Notes s s' ∧ Extends s s')
    (hs : I s) (h : readFirst d owner branches log s = .ok (found, kept) s') : Notes s s' := by
  induction branches generalizing log s with
  | nil =>
    rw [readFirst] at h
    cases h
    exact .refl _
  | cons branch branches ih =>
    obtain ⟨hbranch, hrest⟩ := List.forall_mem_cons.mp hbranches
    rw [readFirst] at h
    simp only [bind_apply, get_apply] at h
    rcases hr : readSteps d owner branch log s with ⟨⟨_ | _, kept'⟩, s₁⟩ | ⟨e, s₁⟩
    all_goals rw [hr] at h
    · obtain ⟨hnotes, hextends⟩ := hbranch hs hr
      simp only [Bool.false_eq_true, if_false, bind_apply, modify_apply] at h
      exact hnotes.returnTo.trans (ih hrest (hsame hs hextends.returnTo) h)
    · cases h
      exact (hbranch hs hr).1
    · cases h

end

section

variable {mode : SplitMode} {d : Descent} {p : Oracle} {owner : NodeId} {level : Int}
  {category parent : Category} {log kept : Captures} {found : Bool} {s s' : State}

/-- The parenthesis of a call and the first argument of one without stand on the line of its name. -/
theorem call_notes (hd : Follows mode d p) (hn : Noting d) (ho : Owns s owner .call level)
    (hleads : LeadsLine [.name] s)
    (h : readSteps d owner Category.call.rule.steps log s = .ok (found, kept) s') : Notes s s' := by
  let I (s : State) : Prop := Owns s owner .call level ∧ LeadsLine [.name] s
  have hparenthesized {log found kept s s'} (hs : I s)
      (h : readSteps d owner Plain.parenthesizedCall log s = .ok (found, kept) s') : Notes s s' := by
    refine readSteps_lead_notes hd hn hs.1 hs.2 rfl rfl (fun {_ _} _ hline {_ _ _} h => ?_) h
    rw [asUsed_single rfl rfl] at h
    exact readOnce_token_notes hline h
  have hbare {log found kept s s'} (hs : I s)
      (h : readSteps d owner Plain.bareCall log s = .ok (found, kept) s') : Notes s s' := by
    refine readSteps_lead_notes hd hn hs.1 hs.2 rfl rfl (fun {_ _} ho hline {_ _ _} h => ?_) h
    rw [asUsed_single rfl rfl] at h
    exact readOnce_node_notes hd hn ho rfl hline h
  have hextends {branch : List Step} (hkeeps : stepsKeep .call branch = true) {log found kept s s'}
      (hs : I s) (h : readSteps d owner branch log s = .ok (found, kept) s') : Extends s s' :=
    (h ▸ readSteps_loose hd branch log hs.1 (.inr hkeeps) :
      Loose owner level log s _ (.ok (found, kept) s')).extends
  rw [show Category.call.rule.steps = [.choice {} [Plain.parenthesizedCall, Plain.bareCall]] from rfl,
    readSteps_single d owner log s rfl rfl, readOnce] at h
  refine attempt_notes (fun {_ _} h => readFirst_notes_of (I := I) ?_ ?_ ?_ h) h
  · exact fun hs hsame => ⟨hs.1.of_extends hsame.extends, hs.2.of_same hsame⟩
  · intro branch hbranch log found kept s s' hs h
    obtain rfl | rfl : branch = Plain.parenthesizedCall ∨ branch = Plain.bareCall := by
      simpa using hbranch
    · exact ⟨hparenthesized hs h, hextends rfl hs h⟩
    · exact ⟨hbare hs h, hextends rfl hs h⟩
  · exact ⟨ho.of_extends (extends_atLead {} s), hleads.skip⟩

/-- The index lists of a reference stand on the lines of its head and of each other. -/
theorem reference_notes (hd : Follows mode d p) (hn : Noting d) (ho : Owns s owner .reference level)
    (hleads : LeadsLine Grammar.referenceHeads s)
    (h : readSteps d owner Category.reference.rule.steps log s = .ok (found, kept) s') :
    Notes s s' := by
  refine readSteps_lead_notes hd hn ho hleads rfl rfl (fun {_ _} ho hline {_ _ _} h => ?_) h
  refine asUsed_notes (I := fun s => Owns s owner .reference level ∧ OnLine s)
    (fun hs h => readOnce_node_notes hd hn hs.1 rfl hs.2 h) (fun _ {log kept s s'} hs h => ?_)
    ⟨ho, hline⟩ h
  have hkeeps : stepKeeps .reference
      (.node { label := some "indexes", many := true, sameLine := true } [.list]) = true := rfl
  have hstrict := readOnce_strict hd _ log hs.1 (.inr hkeeps)
  obtain ⟨id, hlist, -⟩ := readOnce_node_iff.mp h
  obtain ⟨t, hpassed, ht⟩ := hn.list (hs.1.of_extends (extends_atLead _ s)) hlist
  rw [h] at hstrict
  exact ⟨hs.1.of_extends hstrict.extends, onLine_of_passed hpassed (.inl ht)⟩

/-- Only calls and references have a step that does not skip newlines. -/
theorem skipsNewlines_rule (category : Category) :
    everySteps skipsNewlines category.rule.steps = true ∨ category = .call ∨
      category = .reference := by
  cases category <;> decide

/-- The steps of a node that was recognised take notes, if it holds no resource that may be split. -/
theorem rule_notes (hd : Follows mode d p) (hn : Noting d) (ho : Owns s owner parent level)
    (haccepts : Plain.accepts p category parent s.ahead = true)
    (hkeeps : stepsKeep category category.rule.steps = true)
    (h : readSteps d s.tree.size category.rule.steps log (entered category owner s) =
      .ok (found, kept) s') : Notes (entered category owner s) s' := by
  have hahead : Lookahead.significant newlines (entered category owner s).ahead =
      Lookahead.significant newlines s.ahead :=
    (congrArg _ (ahead_skip s newlines)).trans (Lookahead.significant_significant _ _)
  -- where a pattern of two tokens is looked for without skipping, they are the next two
  have hpair {kinds : List Kind} {kind : Kind} (hkinds : ∀ k ∈ kinds, k ∉ newlines)
      (hkind : kind ≠ .newline) (hfits : Lookahead.fits [] [kinds, [kind]] s.ahead = true) :
      LeadsLine kinds (entered category owner s) := by
    obtain ⟨t, t', rest, hnext, ht, ht'⟩ := Plain.fits_pair hfits
    have hsignificant : Lookahead.significant newlines s.ahead = t :: t' :: rest := by
      rw [hnext]
      exact Lookahead.significant_cons (hkinds t.kind ht) _
    exact leadsLine_of_next (hahead.trans hsignificant) (List.mem_singleton.mp ht' ▸ hkind)
  rcases skipsNewlines_rule category with hskips | rfl | rfl
  · exact readSteps_notes hd hn _ (owns_entered ho) hkeeps hskips h
  · refine call_notes hd hn (owns_entered ho) ?_ h
    rcases Bool.or_eq_true_iff.mp haccepts with hpattern | hbare
    · have hfits : Lookahead.fits [] [[.name], [.leftParen]] s.ahead = true := by
        simpa [atPattern, Category.rule] using hpattern
      exact hpair (by decide) (by decide) hfits
    · obtain ⟨-, hbare⟩ := Bool.and_eq_true_iff.mp hbare
      obtain ⟨t, hpeek, ht⟩ := (Option.any_eq_true _ _).mp hbare
      obtain ⟨rest, hsignificant⟩ := List.head?_eq_some_iff.mp hpeek
      refine leadsLine_of_holds (hahead.trans hsignificant) (.inr ?_)
      simpa using ht
  · have hfits : Lookahead.fits [] [Grammar.referenceHeads, [.leftBracket]] s.ahead = true := by
      simpa [Plain.accepts, atPattern, Category.rule] using haccepts
    exact reference_notes hd hn (owns_entered ho) (hpair (by decide) (by decide) hfits) h

end

end TidyManifest.Parse
