import TidyManifest.Proofs.Newlines.SameLine

/-!
# What a reading remembers

A step that fails is remembered, if no later failure is known.  `Notes` relates the states before
and after a reading that puts no tokens in: what it has remembered stands ahead of where it started,
and no later failure has been forgotten for it.

A step skips newlines before it looks at a token, unless it has to stand on the same line.  So a
newline is remembered only directly behind a token after which such a step is tried (`HoldsLine`).

The tree plays no part in this, and neither do trials, which leave no trace.  This module follows
steps that skip newlines; `Proofs.Blame.Lines` adds those that do not, and `Proofs.Blame.Nodes` goes on
to nodes.
-/

namespace TidyManifest.Parse

open Plain (Oracle)
open Grammar (newlines)

/-- A token after which a step may have to stand on the same line: a closing bracket, after which
another index list can follow, and the name of a function that may be called without parentheses. -/
def HoldsLine (t : Token) : Prop :=
  t.kind = .rightBracket ∨ t.kind = .name ∧ t.text ∈ Grammar.bareFunctions

/-- If a newline is ahead, it stands directly behind a token that holds the line. -/
def OnLine (s : State) : Prop :=
  ∀ t, s.cursor.current = some t → t.kind = .newline →
    ∃ t', s.cursor.passed.head? = some t' ∧ HoldsLine t'

/-- A failure at a token ahead, with the position of the token.  A newline is missed only directly
behind a token that holds the line. -/
structure Remembers (s : State) (known : Nat × Token) : Prop where
  onward : s.cursor.position ≤ known.1
  token : s.cursor.toList[known.1]? = some known.2
  newline : known.2.kind = .newline →
    ∃ i t, known.1 = i + 1 ∧ s.cursor.toList[i]? = some t ∧ HoldsLine t

/-- A later state of a reading without splits, as far as failures are concerned. -/
structure Notes (s s' : State) : Prop where
  tokens : s'.cursor.toList = s.cursor.toList
  onward : s.cursor.position ≤ s'.cursor.position
  remembers : ∀ known ∈ s'.furthest, known ∈ s.furthest ∨ Remembers s known
  grows : ∀ known ∈ s.furthest, ∃ known' ∈ s'.furthest, known.1 ≤ known'.1

section

variable {s s' s'' : State}

theorem Notes.refl (s : State) : Notes s s :=
  ⟨rfl, Nat.le_refl _, fun _ h => .inl h, fun known h => ⟨known, h, Nat.le_refl _⟩⟩

/-- Notes that are taken in two steps are taken together. -/
theorem Notes.trans (h : Notes s s') (h' : Notes s' s'') : Notes s s'' where
  tokens := h'.tokens.trans h.tokens
  onward := Nat.le_trans h.onward h'.onward
  remembers known hknown := by
    rcases h'.remembers known hknown with hmem | ⟨honward, htoken, hnewline⟩
    · exact h.remembers known hmem
    · exact .inr ⟨Nat.le_trans h.onward honward, h.tokens ▸ htoken, h.tokens ▸ hnewline⟩
  grows known hknown := by
    obtain ⟨middle, hmiddle, hle⟩ := h.grows known hknown
    obtain ⟨last, hlast, hle'⟩ := h'.grows middle hmiddle
    exact ⟨last, hlast, Nat.le_trans hle hle'⟩

/-- Moving on in the same tokens, without a failure. -/
theorem Notes.of_furthest (htokens : s'.cursor.toList = s.cursor.toList)
    (honward : s.cursor.position ≤ s'.cursor.position) (h : s'.furthest = s.furthest) :
    Notes s s' where
  tokens := htokens
  onward := honward
  remembers _ hknown := .inl (h ▸ hknown)
  grows known hknown := ⟨known, h ▸ hknown, Nat.le_refl _⟩

theorem notes_skip (s : State) (kinds : List Kind) : Notes s (s.skip kinds) :=
  .of_furthest (by simp [State.skip]) (extends_skip s kinds).position_le rfl

theorem notes_advance (s : State) : Notes s s.advance :=
  .of_furthest (by simp [State.advance]) (extends_advance s).position_le rfl

/-- The token at the cursor is the one at its position. -/
theorem getElem?_position {t : Token} (h : s.cursor.current = some t) :
    s.cursor.toList[s.cursor.position]? = some t := by
  rw [Cursor.toList, s.cursor.position_eq, ← List.length_reverse, List.getElem?_append_right
    (Nat.le_refl _), Nat.sub_self, ← List.head?_eq_getElem?]
  exact h

/-- The token before the cursor is the one before its position. -/
theorem getElem?_passed {t : Token} (h : s.cursor.passed.head? = some t) :
    ∃ i, s.cursor.position = i + 1 ∧ s.cursor.toList[i]? = some t := by
  obtain ⟨before, hpassed⟩ := List.head?_eq_some_iff.mp h
  refine ⟨before.length, by rw [s.cursor.position_eq, hpassed, List.length_cons], ?_⟩
  rw [Cursor.toList, hpassed]
  simp

/-- The token that is noted as the place of a failure is the current one. -/
theorem notes_recordFailure (hline : OnLine s) : Notes s s.recordFailure := by
  unfold State.recordFailure
  cases hcurrent : s.cursor.current with
  | none => exact .refl s
  | some t =>
    dsimp only
    split
    · rename_i hall
      refine ⟨rfl, Nat.le_refl _, fun known hknown => .inr ?_, fun known hknown => ?_⟩
      · obtain rfl := Option.some.inj hknown
        refine ⟨Nat.le_refl _, getElem?_position hcurrent, fun hnewline => ?_⟩
        obtain ⟨t', hpassed, hholds⟩ := hline t hcurrent hnewline
        obtain ⟨i, hi, htoken⟩ := getElem?_passed hpassed
        exact ⟨i, t', hi, htoken, hholds⟩
      · refine ⟨_, rfl, ?_⟩
        rw [Option.mem_def.mp hknown] at hall
        simpa using hall
    · exact .refl s

/-- Going back keeps what is remembered. -/
theorem Notes.returnTo (h : Notes s s') : Notes s (s'.returnTo s.mark) where
  tokens := by
    rw [State.returnTo]
    exact (Cursor.toList_goTo _ _).trans h.tokens
  onward := by
    refine Nat.le_of_eq (Cursor.position_goTo ?_).symm
    rw [h.tokens, Cursor.length_toList]
    exact Nat.le_add_right _ _
  remembers := h.remembers
  grows := h.grows

/-- Behind newlines there is none. -/
theorem onLine_skip (s : State) : OnLine (s.skip newlines) := by
  intro t hcurrent hnewline
  obtain ⟨rest, hahead⟩ := List.head?_eq_some_iff.mp hcurrent
  have hsignificant : Lookahead.significant newlines s.ahead = t :: rest :=
    (ahead_skip s newlines).symm.trans hahead
  exact absurd hnewline (by simpa [newlines] using Plain.significant_head hsignificant)

/-- The same state stands on the same line. -/
theorem OnLine.of_same (h : OnLine s) (hsame : Same s s') : OnLine s' := by
  unfold OnLine
  rw [hsame.cursor]
  exact h

/-- Behind a token that holds the line. -/
theorem onLine_of_passed {t : Token} (hpassed : s.cursor.passed.head? = some t)
    (h : HoldsLine t) : OnLine s :=
  fun _ _ _ => ⟨t, hpassed, h⟩

end

/-- A descent that takes notes wherever it cannot split a resource, and stops directly behind the
bracket of a list. -/
structure Noting (d : Descent) : Prop where
  choose : ∀ {categories owner category level s found s'}, Owns s owner category level →
    categories.all (keepsWhole category) = true → d.choose categories owner s = .ok found s' →
    Notes s s'
  list : ∀ {owner category level s id s'}, Owns s owner category level →
    d.choose [.list] owner s = .ok (some id) s' →
    ∃ t, s'.cursor.passed.head? = some t ∧ t.kind = .rightBracket

/-- Whether a step skips newlines. -/
def skipsNewlines (step : Step) : Bool :=
  !step.usage.sameLine

section

variable {mode : SplitMode} {p : Oracle} {usage : Usage} {log kept : Captures} {found : Bool}
  {s s' : State}

/-- Going to where a step starts takes no notes. -/
theorem notes_atLead (usage : Usage) (s : State) : Notes s (atLead usage s) := by
  unfold atLead
  split
  · exact .refl s
  · exact notes_skip s _

/-- A step starts at a token that is no newline, unless it has to stay on its line. -/
theorem onLine_atLead (h : usage.sameLine = true → OnLine s) : OnLine (atLead usage s) := by
  unfold atLead
  split
  · rename_i hline
    exact h hline
  · exact onLine_skip s

/-- An attempt takes the notes of its reading. -/
theorem attempt_notes {reading : Captures → Reader (Bool × Captures)}
    (hreading : ∀ {kept s'}, reading log (atLead usage s) = .ok (found, kept) s' →
      Notes (atLead usage s) s')
    (h : attempt usage reading log s = .ok (found, kept) s') : Notes s s' := by
  rw [attempt_apply] at h
  rcases hr : reading log (atLead usage s) with ⟨⟨_ | _, kept'⟩, s₁⟩ | ⟨e, s₁⟩
  all_goals
    rw [hr] at h
    cases h
  · exact ((notes_atLead usage s).trans (hreading hr)).returnTo
  · exact (notes_atLead usage s).trans (hreading hr)

/-- Reading a token notes that token at most. -/
theorem readToken_notes {kinds : List Kind} (hline : OnLine s)
    (h : readToken usage kinds log s = .ok (found, kept) s') : Notes s s' := by
  unfold readToken at h
  simp only [bind_apply, get_apply] at h
  cases hcurrent : s.cursor.current with
  | none =>
    rw [hcurrent] at h
    cases h
    exact notes_recordFailure hline
  | some t =>
    rw [hcurrent] at h
    dsimp only at h
    split at h
    · cases h
      exact notes_advance s
    · cases h
      exact notes_recordFailure hline

/-- Reading a node takes the notes of the node. -/
theorem readNode_notes {d : Descent} (hd : Follows mode d p) (hn : Noting d) {owner : NodeId}
    {category : Category} {level : Int} {categories : List Category}
    (ho : Owns s owner category level) (hkeeps : categories.all (keepsWhole category) = true)
    (hline : OnLine s) (h : readNode d owner usage categories log s = .ok (found, kept) s') :
    Notes s s' := by
  have hchosen : Chosen owner level s (p.choose categories category _)
      (d.choose categories owner _) := hd.choose ho (.inr hkeeps)
  unfold readNode at h
  simp only [bind_apply] at h
  rcases hr : d.choose categories owner s with ⟨_ | id, s₁⟩ | ⟨e, s₁⟩
  all_goals
    rw [hr] at h hchosen
    cases h
  · -- the cursor is where it was
    generalize p.choose categories category s.ahead = o at hchosen
    cases hchosen with
    | none hsame => exact (hn.choose ho hkeeps hr).trans (notes_recordFailure (hline.of_same hsame))
  · exact hn.choose ho hkeeps hr

/-- A body that is not found is missed at its brace. -/
theorem readBlock_none_notes {d : Descent} {owner : NodeId} (hline : OnLine s)
    (h : readBlock d owner usage log s = .ok (false, kept) s') : Notes s s' := by
  unfold readBlock at h
  simp only [bind_apply, get_apply] at h
  split at h
  · simp only [bind_apply, modify_apply] at h
    rcases hr : d.statements owner (some .rightBrace) s.advance with ⟨ids, s₁⟩ | ⟨e, s₁⟩
    all_goals
      rw [hr] at h
      cases h
  · cases h
    exact notes_recordFailure hline

end

section

variable {mode : SplitMode} {d : Descent} {p : Oracle} {owner : NodeId} {level : Int}
  {category : Category} {log kept : Captures} {found : Bool} {s s' : State}

/-- A reading of steps that are found or not has moved on in the same tokens and the same tree. -/
theorem Strict.extends {o : Plain.Outcome (Plain.Trace Phrase)}
    (h : Strict owner level log s o (.ok (found, kept) s')) : Extends s s' := by
  cases h with
  | none hsame => exact hsame.extends
  | some hadvanced => exact hadvanced.extends_

/-- Steps that are read, or fail without an error, extend the state. -/
theorem Loose.extends {o : Plain.Outcome (Plain.Trace Phrase)}
    (h : Loose owner level log s o (.ok (found, kept) s')) : Extends s s' := by
  cases h with
  | none hextends => exact hextends
  | some hadvanced => exact hadvanced.extends_

/-- A step has not been found, or it has been read once, or as often as it can be. -/
theorem asUsed_ok {usage : Usage} {rounds : Nat} {reading : Captures → Reader (Bool × Captures)}
    (h : asUsed usage rounds reading log s = .ok (found, kept) s') :
    reading log s = .ok (false, kept) s' ∨
      reading log s = .ok (true, kept) s' ∧ usage.many = false ∨
      usage.many = true ∧ ∃ log₁ s₁, reading log s = .ok (true, log₁) s₁ ∧
        repeatedly reading rounds log₁ s₁ = .ok kept s' := by
  simp only [asUsed, bind_apply] at h
  rcases hr : reading log s with ⟨⟨_ | _, log₁⟩, s₁⟩ | ⟨e, s₁⟩
  · rw [hr] at h
    cases h
    exact .inl rfl
  · rw [hr] at h
    simp only [Bool.not_true, Bool.false_eq_true, if_false] at h
    cases hmany : usage.many
    · rw [hmany] at h
      cases h
      exact .inr (.inl ⟨rfl, rfl⟩)
    · simp only [hmany, if_true, bind_apply] at h
      rcases hrepeated : repeatedly reading rounds log₁ s₁ with ⟨kept', s₂⟩ | ⟨e, s₂⟩
      all_goals
        rw [hrepeated] at h
        cases h
      exact .inr (.inr ⟨rfl, log₁, s₁, rfl, hrepeated⟩)
  · rw [hr] at h
    cases h

section

variable {usage : Usage} {reading : Captures → Reader (Bool × Captures)} {I : State → Prop}
  (hreading : ∀ {log found kept s s'}, I s → reading log s = .ok (found, kept) s' → Notes s s')

include hreading

/-- Repeating a reading takes the notes of all its rounds. -/
theorem repeatedly_notes
    (hagain : ∀ {log kept s s'}, I s → reading log s = .ok (true, kept) s' → I s') {n : Nat}
    (hs : I s) (h : repeatedly reading n log s = .ok kept s') : Notes s s' := by
  induction n generalizing log s with
  | zero => cases h
  | succ n ih =>
    simp only [repeatedly, bind_apply, get_apply] at h
    rcases hr : reading log s with ⟨⟨matched, kept'⟩, s₁⟩ | ⟨e, s₁⟩
    · rw [hr] at h
      dsimp only at h
      split at h
      · rename_i hmoved
        obtain rfl : matched = true := (Bool.and_eq_true_iff.mp hmoved).1
        exact (hreading hs hr).trans (ih (hagain hs hr) h)
      · cases h
        exact hreading hs hr
    · rw [hr] at h
      cases h

/-- A step takes notes if each reading does; what they need must hold again if there may be more. -/
theorem asUsed_notes {rounds : Nat}
    (hagain : usage.many = true →
      ∀ {log kept s s'}, I s → reading log s = .ok (true, kept) s' → I s')
    (hs : I s) (h : asUsed usage rounds reading log s = .ok (found, kept) s') : Notes s s' := by
  rcases asUsed_ok h with hr | ⟨hr, -⟩ | ⟨hmany, log₁, s₁, hr, hrepeated⟩
  · exact hreading hs hr
  · exact hreading hs hr
  · exact (hreading hs hr).trans
      (repeatedly_notes hreading (hagain hmany) (hagain hmany hs hr) hrepeated)

end

/-- A step takes notes, and then those after it do. -/
theorem readSteps_cons_notes (hd : Follows mode d p) {step : Step} {steps : List Step}
    (ho : Owns s owner category level) (hkeeps : stepKeeps category step = true)
    (hfirst : ∀ {found kept s'}, asUsed step.usage d.rounds
      (fun log => readOnce d owner step log) log s = .ok (found, kept) s' → Notes s s')
    (hmore : ∀ {log₁ s₁}, asUsed step.usage d.rounds
      (fun log => readOnce d owner step log) log s = .ok (true, log₁) s₁ →
      Owns s₁ owner category level → ∀ {found kept s'},
        readSteps d owner steps log₁ s₁ = .ok (found, kept) s' → Notes s₁ s')
    (h : readSteps d owner (step :: steps) log s = .ok (found, kept) s') : Notes s s' := by
  have hstrict := asUsed_strict (fun log _ ho hw => readOnce_strict hd step log ho hw) step.usage
    hd.rounds log ho (.inr hkeeps)
  rw [readSteps] at h
  simp only [bind_apply] at h
  rcases hr : asUsed step.usage d.rounds (fun log => readOnce d owner step log) log s with
    ⟨⟨_ | _, kept'⟩, s₁⟩ | ⟨e, s₁⟩
  · rw [hr] at h
    cases h
    exact hfirst hr
  · rw [hr] at h hstrict
    exact (hfirst hr).trans (hmore hr (ho.of_extends hstrict.extends) h)
  · rw [hr] at h
    cases h

mutual

/-- A step that skips newlines and holds no resource which may be split takes notes. -/
theorem readOnce_notes (hd : Follows mode d p) (hn : Noting d) (step : Step) {log kept : Captures}
    {found : Bool} {s s' : State} (ho : Owns s owner category level)
    (hkeeps : stepKeeps category step = true) (hskips : everyStep skipsNewlines step = true)
    (h : readOnce d owner step log s = .ok (found, kept) s') : Notes s s' := by
  have hlead := ho.of_extends (extends_atLead step.usage s)
  have hline : OnLine (atLead step.usage s) :=
    onLine_atLead fun hline => by simpa [skipsNewlines, hline] using everyStep_self hskips
  cases step with
  | token usage kinds =>
    rw [readOnce] at h
    exact attempt_notes (readToken_notes hline) h
  | node usage categories =>
    rw [readOnce] at h
    exact attempt_notes (readNode_notes hd hn hlead hkeeps hline) h
  | group usage steps =>
    rw [readOnce] at h
    rw [everyStep, Bool.and_eq_true] at hskips
    exact attempt_notes (readSteps_notes hd hn steps hlead hkeeps hskips.2) h
  | choice usage branches =>
    rw [readOnce] at h
    rw [everyStep, Bool.and_eq_true] at hskips
    exact attempt_notes (readFirst_notes hd hn branches hlead hkeeps hskips.2) h
  | block usage => cases hkeeps

/-- Steps in order take notes. -/
theorem readSteps_notes (hd : Follows mode d p) (hn : Noting d) (steps : List Step)
    {log kept : Captures} {found : Bool} {s s' : State} (ho : Owns s owner category level)
    (hkeeps : stepsKeep category steps = true) (hskips : everySteps skipsNewlines steps = true)
    (h : readSteps d owner steps log s = .ok (found, kept) s') : Notes s s' := by
  cases steps with
  | nil =>
    rw [readSteps] at h
    cases h
    exact .refl s
  | cons step steps =>
    rw [stepsKeep, Bool.and_eq_true] at hkeeps
    rw [everySteps, Bool.and_eq_true] at hskips
    refine readSteps_cons_notes hd ho hkeeps.1
      (asUsed_notes (I := fun s => Owns s owner category level)
        (fun ho h => readOnce_notes hd hn step ho hkeeps.1 hskips.1 h)
        (fun _ {log kept s s'} ho h => ho.of_extends
          (h ▸ readOnce_strict hd step log ho (.inr hkeeps.1) :
            Strict owner level log s _ (.ok (true, kept) s')).extends) ho)
      (fun {_ _} _ ho {_ _ _} h => readSteps_notes hd hn steps ho hkeeps.2 hskips.2 h) h

/-- The first branch that is found takes notes, with those before it. -/
theorem readFirst_notes (hd : Follows mode d p) (hn : Noting d) (branches : List (List Step))
    {log kept : Captures} {found : Bool} {s s' : State} (ho : Owns s owner category level)
    (hkeeps : branchesKeep category branches = true)
    (hskips : everyBranch skipsNewlines branches = true)
    (h : readFirst d owner branches log s = .ok (found, kept) s') : Notes s s' := by
  cases branches with
  | nil =>
    rw [readFirst] at h
    cases h
    exact .refl s
  | cons branch branches =>
    rw [branchesKeep, Bool.and_eq_true] at hkeeps
    rw [everyBranch, Bool.and_eq_true] at hskips
    rw [readFirst] at h
    simp only [bind_apply, get_apply] at h
    have hloose := readSteps_loose hd branch log ho (.inr hkeeps.1)
    rcases hr : readSteps d owner branch log s with ⟨⟨_ | _, kept'⟩, s₁⟩ | ⟨e, s₁⟩
    · rw [hr] at h hloose
      simp only [Bool.false_eq_true, if_false, bind_apply, modify_apply] at h
      have hsame := hloose.extends.returnTo
      exact (readSteps_notes hd hn branch ho hkeeps.1 hskips.1 hr).returnTo.trans
        (readFirst_notes hd hn branches (ho.of_extends hsame.extends) hkeeps.2 hskips.2 h)
    · rw [hr] at h
      cases h
      exact readSteps_notes hd hn branch ho hkeeps.1 hskips.1 hr
    · rw [hr] at h
      cases h

end

end

end TidyManifest.Parse
