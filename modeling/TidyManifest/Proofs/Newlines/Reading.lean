import TidyManifest.Proofs.Newlines.Collapse
import TidyManifest.Proofs.Plain.Mapped
import TidyManifest.Proofs.Plain.Sufficient

/-!
# Reading collapsed tokens

Plain reading of the collapsed tokens gives what it gives of the tokens, without lines, and leaves
the collapsed form of what it leaves of them (`level_steady`).  This is shown function by function
along the definition of plain reading.  Three places look at newlines or at the number of tokens:

* a step that stays on its line does not skip newlines, but none of the tokens that the grammar
  looks for there is a newline,
* repetition ends if nothing is taken up, but what the grammar repeats takes up tokens each time, in
  the collapsed tokens as well (`orderly`),
* a statement that takes up nothing is refused, but there is none.
-/

namespace TidyManifest

namespace Plain

open Parse Grammar

/-- The same trace without lines. -/
def unlinedTrace (trace : Trace Phrase) : Trace Phrase :=
  mapTrace Token.unlined Phrase.unlined trace

@[simp] theorem unlinedTrace_append (first more : Trace Phrase) :
    unlinedTrace (first ++ more) = unlinedTrace first ++ unlinedTrace more :=
  mapTrace_append _ _ first more

/-- The log of a trace without lines is its log without lines. -/
theorem logOf_unlinedTrace (trace : Trace Phrase) :
    (⟨logOf (unlinedTrace trace)⟩ : Captures Phrase) =
      Captures.map Token.unlined Phrase.unlined ⟨logOf trace⟩ :=
  logOf_mapTrace _ _ trace

section

variable {α β : Type}

/-- What is read, changed, with the collapsed form of the tokens after it. -/
def collapsed (f : α → β) : Outcome α → Outcome β
  | .error fault => .error fault
  | .ok none => .ok none
  | .ok (some (a, rest)) => .ok (some (f a, collapse rest))

/-- The same for a reading that does not fail without a fault. -/
def collapsedAll (f : α → β) : Except Fault (α × List Token) → Except Fault (β × List Token)
  | .error fault => .error fault
  | .ok (a, rest) => .ok (f a, collapse rest)

/-- Readings of collapsed tokens can be put together. -/
theorem andThen_collapsed {γ δ : Type} {f : α → β} {g : γ → δ} {o : Outcome α} {o' : Outcome β}
    {next : α → List Token → Outcome γ} {next' : β → List Token → Outcome δ}
    (h : o' = collapsed f o)
    (hnext : ∀ a rest, o = .ok (some (a, rest)) →
      next' (f a) (collapse rest) = collapsed g (next a rest)) :
    andThen o' next' = collapsed g (andThen o next) := by
  subst h
  rcases o with fault | _ | ⟨a, rest⟩
  · rfl
  · rfl
  · exact hnext a rest rfl

end

/-- A level that reads collapsed tokens as it reads the tokens. -/
structure Steady (d : Oracle) : Prop where
  choose : ∀ categories parent tokens,
    d.choose categories parent (collapse tokens) =
      collapsed Phrase.unlined (d.choose categories parent tokens)
  statements : ∀ parent closing tokens,
    d.statements parent closing (collapse tokens) =
      collapsedAll (List.map Phrase.unlined) (d.statements parent closing tokens)
  rounds : ∀ tokens, d.rounds (collapse tokens) = d.rounds tokens

/-- A step starts at the same place in the collapsed tokens. -/
theorem lead_collapse (usage : Usage) (tokens : List Token) :
    lead usage (collapse tokens) = collapse (lead usage tokens) := by
  unfold lead
  split
  · rfl
  · exact significant_collapse newline_mem tokens

section

variable {reading : List Token → Outcome (Trace Phrase)}
  (hreading : ∀ tokens, reading (collapse tokens) = collapsed unlinedTrace (reading tokens))

include hreading

/-- What takes up tokens each time is repeated as often. -/
theorem again_collapse
    (hprogress : ∀ {tokens trace rest}, reading tokens = .ok (some (trace, rest)) →
      rest.length < tokens.length) (n : Nat) (tokens : List Token) :
    again reading n (collapse tokens) = collapsedAll unlinedTrace (again reading n tokens) := by
  induction n generalizing tokens with
  | zero => rfl
  | succ n ih =>
    rw [again, again, hreading]
    rcases hr : reading tokens with fault | _ | ⟨trace, rest⟩
    · rfl
    · rfl
    · have hmoved := Nat.ne_of_lt (hprogress hr)
      have hr' : reading (collapse tokens) = .ok (some (unlinedTrace trace, collapse rest)) := by
        rw [hreading, hr]
        rfl
      have hmoved' := Nat.ne_of_lt (hprogress hr')
      simp only [collapsed, hmoved, hmoved', if_false, ih]
      rcases again reading n rest with fault | ⟨more, rest'⟩
      · rfl
      · simp [collapsedAll]

/-- A step is used on the collapsed tokens as it is used on the tokens. -/
theorem used_collapse {usage : Usage} {rounds : List Token → Nat}
    (hrounds : ∀ tokens, rounds (collapse tokens) = rounds tokens)
    (hprogress : usage.many = true → ∀ {tokens trace rest},
      reading tokens = .ok (some (trace, rest)) → rest.length < tokens.length)
    (tokens : List Token) :
    used usage rounds reading (collapse tokens) =
      collapsed unlinedTrace (used usage rounds reading tokens) := by
  rw [used, used, hreading]
  rcases reading tokens with fault | _ | ⟨trace, rest⟩
  · rfl
  · simp only [collapsed]
    split <;> rfl
  · simp only [collapsed]
    split
    · rename_i hmany
      rw [hrounds, again_collapse hreading (hprogress hmany)]
      rcases again reading (rounds rest) rest with fault | ⟨more, rest'⟩
      · rfl
      · simp [collapsedAll]
    · rfl

end

section

variable {d : Oracle} {owner : Category}

/-- A token step, where the tokens it looks for are no newlines. -/
theorem token_collapse {kinds : List Kind} (hkinds : Kind.newline ∉ kinds) (label : Option String)
    (tokens : List Token) :
    (match collapse tokens with
      | [] => .ok none
      | t :: rest => if t.isOneOf kinds then .ok (some ([(label, .token t)], rest)) else .ok none :
        Outcome (Trace Phrase)) =
    collapsed unlinedTrace (match tokens with
      | [] => .ok none
      | t :: rest =>
        if t.isOneOf kinds then .ok (some ([(label, .token t)], rest)) else .ok none) := by
  cases tokens with
  | nil => rfl
  | cons t rest =>
    by_cases ht : t.kind = .newline
    · obtain ⟨n, more, hcollapse, hn⟩ := collapse_newline ht rest
      rw [hcollapse]
      simp [Token.isOneOf, hn, ht, hkinds, collapsed]
    · rw [collapse_cons ht]
      by_cases hone : t.isOneOf kinds = true
      · simp only [Token.isOneOf_unlined, hone, if_true]
        rfl
      · simp only [Token.isOneOf_unlined, hone, Bool.false_eq_true, if_false]
        rfl

/-- A block of the collapsed tokens has the same statements, without lines. -/
theorem block_collapse (hd : Steady d) (hs : Sound d) (usage : Usage) (tokens : List Token) :
    once d owner (.block usage) (collapse tokens) =
      collapsed unlinedTrace (once d owner (.block usage) tokens) := by
  rw [once, once, lead_collapse]
  cases lead usage tokens with
  | nil => rfl
  | cons t rest =>
    by_cases ht : t.kind = .newline
    · obtain ⟨n, more, hcollapse, hn⟩ := collapse_newline ht rest
      rw [hcollapse]
      simp [hn, ht, collapsed]
    · rw [collapse_cons ht]
      by_cases hbrace : (t.kind == .leftBrace) = true
      · simp only [Token.kind_unlined, hbrace, if_true, hd.statements]
        rcases hbody : d.statements owner (some .rightBrace) rest with fault | ⟨ps, after⟩
        · rfl
        · -- the statements end at the closing brace, which is no newline
          have hclosing := (hs.statements hbody).2
          have htail : (collapse after).tail = collapse after.tail :=
            tail_collapse (by rw [hclosing]; decide)
          simp only [collapsedAll, collapsed, htail]
          rfl
      · simp only [Token.kind_unlined, hbrace, Bool.false_eq_true, if_false]
        rfl

mutual

/-- A step reads collapsed tokens as it reads the tokens. -/
theorem once_collapse (hd : Steady d) (hs : Sound d) (step : Step) (hstep : orderly step = true)
    (tokens : List Token) :
    once d owner step (collapse tokens) = collapsed unlinedTrace (once d owner step tokens) := by
  cases step with
  | token usage kinds =>
    rw [orderly] at hstep
    rw [once, once, lead_collapse]
    exact token_collapse (by simpa using hstep) usage.label _
  | node usage categories =>
    rw [once, once, lead_collapse]
    exact andThen_collapsed (hd.choose _ _ _) fun _ _ _ => rfl
  | group usage steps =>
    rw [orderly, Bool.and_eq_true] at hstep
    rw [once, once, lead_collapse]
    exact inOrder_collapse hd hs steps hstep.2 _
  | choice usage branches =>
    rw [orderly, Bool.and_eq_true] at hstep
    rw [once, once, lead_collapse]
    exact firstOf_collapse hd hs branches hstep.2 _
  | block usage => exact block_collapse hd hs usage tokens

/-- Steps in order read collapsed tokens as they read the tokens. -/
theorem inOrder_collapse (hd : Steady d) (hs : Sound d) (steps : List Step)
    (hsteps : allOrderly steps = true) (tokens : List Token) :
    inOrder d owner steps (collapse tokens) =
      collapsed unlinedTrace (inOrder d owner steps tokens) := by
  cases steps with
  | nil => rw [inOrder, inOrder]; rfl
  | cons step steps =>
    rw [allOrderly, Bool.and_eq_true] at hsteps
    rw [inOrder, inOrder]
    refine andThen_collapsed (used_collapse (fun tokens => once_collapse hd hs step hsteps.1 tokens)
      hd.rounds (fun hmany {tokens trace rest} hread => ?_) tokens) fun trace rest _ => ?_
    · have hreads := once_sound hs step hread
      exact hreads.length_lt (hreads.1.ne_nil (consumes_of_many hsteps.1 hmany))
    · refine andThen_collapsed (inOrder_collapse hd hs steps hsteps.2 rest) fun more rest' _ => ?_
      simp [collapsed]

/-- The branch that is read is the same. -/
theorem firstOf_collapse (hd : Steady d) (hs : Sound d) (branches : List (List Step))
    (hbranches : branchesOrderly branches = true) (tokens : List Token) :
    firstOf d owner branches (collapse tokens) =
      collapsed unlinedTrace (firstOf d owner branches tokens) := by
  cases branches with
  | nil => rw [firstOf, firstOf]; rfl
  | cons branch branches =>
    rw [branchesOrderly, Bool.and_eq_true] at hbranches
    rw [firstOf, firstOf, inOrder_collapse hd hs branch hbranches.1,
      firstOf_collapse hd hs branches hbranches.2]
    rcases inOrder d owner branch tokens with fault | _ | ⟨trace, rest⟩ <;> rfl

end

end

section

variable {d : Oracle}

/-- A resource body of the collapsed tokens has the same items, without lines. -/
theorem items_collapse (hd : Steady d) (n : Nat) (tokens : List Token) :
    items d n (collapse tokens) = collapsed (List.map Phrase.unlined) (items d n tokens) := by
  induction n generalizing tokens with
  | zero => rfl
  | succ n ih =>
    rw [items, items]
    cases heq : Lookahead.significant newlines tokens with
    | nil => rw [significant_collapse newline_mem, heq]; rfl
    | cons t rest =>
      have ht : t.kind ≠ .newline := fun hkind => significant_head heq (hkind ▸ newline_mem)
      have hall := collapse_cons ht rest
      rw [collapse_significant newline_mem heq]
      simp only [Token.kind_unlined, ← hall, atPair_collapse]
      split
      · rfl
      split
      · exact ih rest
      · refine andThen_collapsed (hd.choose _ _ _) fun item rest' _ => ?_
        exact andThen_collapsed (ih rest') fun _ _ _ => rfl

/-- A resource of the collapsed tokens has the same contents, without lines. -/
theorem resource_collapse (hd : Steady d) (trace : Trace Phrase) (tokens : List Token) :
    resource d (unlinedTrace trace) (collapse tokens) =
      collapsed (fun form : Form Phrase => (form.map Phrase.unlined).unlined)
        (resource d trace tokens) := by
  have hsigil (sigils : List Token) :
      (sigils.map Token.unlined).map (·.text) = sigils.map (·.text) := by
    rw [List.map_map]
    rfl
  unfold resource
  simp only [logOf_unlinedTrace, resourceHead?_map, Captures.tokens_map, Captures.node?_map,
    hsigil, Option.isSome_map]
  cases resourceHead? (⟨logOf trace⟩ : Captures Phrase) with
  | none => rfl
  | some head =>
    have bare (sigil : String) (collector : Option Phrase) :
        (if collector.isSome = true then
          .ok (some (.resource sigil ((head.map Phrase.unlined).mapToken Token.unlined)
            (collector.map Phrase.unlined) false [], collapse tokens))
        else .ok none : Outcome (Form Phrase)) =
        collapsed (fun form : Form Phrase => (form.map Phrase.unlined).unlined)
          (if collector.isSome = true then
            .ok (some (.resource sigil head collector false [], tokens))
          else .ok none) := by
      split <;> rfl
    simp only [Option.map_some]
    cases heq : Lookahead.significant newlines tokens with
    | nil =>
      rw [significant_collapse newline_mem, heq]
      exact bare _ _
    | cons t rest =>
      rw [collapse_significant newline_mem heq]
      by_cases hbrace : (t.kind == .leftBrace) = true
      · simp only [Token.kind_unlined, hbrace, if_true, hd.rounds]
        exact andThen_collapsed (items_collapse hd _ rest) fun _ _ _ => rfl
      · simp only [Token.kind_unlined, hbrace, Bool.false_eq_true, if_false]
        exact bare _ _

/-- A phrase of the collapsed tokens is the same phrase, without lines. -/
theorem phrase_collapse (hd : Steady d) (hs : Sound d) (category : Category) (tokens : List Token) :
    phrase d category (collapse tokens) = collapsed Phrase.unlined (phrase d category tokens) := by
  unfold phrase
  simp only [significant_collapse newline_mem, line_collapse]
  have horderly := allOrderly_rule category
  refine andThen_collapsed (inOrder_collapse hd hs _ horderly _) fun trace rest _ => ?_
  have hunlined (line : Nat) (form : Form Phrase) :
      (⟨0, (form.map Phrase.unlined).unlined⟩ : Phrase) = Phrase.unlined ⟨line, form⟩ := by
    rw [Phrase.unlined_eq, Phrase.form_mk]
  split
  · refine andThen_collapsed (resource_collapse hd trace rest) fun form rest' _ => ?_
    rw [hunlined]
    rfl
  · have htext (t : Token) : t.unlined.text = t.text := rfl
    rw [logOf_unlinedTrace, Form.ofCaptures?_map Phrase.unlined htext]
    cases Form.ofCaptures? category (⟨logOf trace⟩ : Captures Phrase) with
    | none => rfl
    | some form =>
      simp only [Option.map_some, collapsed]
      rw [← hunlined _ form, Form.unlined]

/-- The same categories are recognised. -/
theorem accepts_collapse (hd : Steady d) (hs : Sound d) (category parent : Category)
    (tokens : List Token) :
    accepts d category parent (collapse tokens) = accepts d category parent tokens := by
  cases category with
  | caseOption =>
    unfold accepts
    rw [significant_collapse newline_mem, inOrder_collapse hd hs caseValues (by decide)]
    rcases inOrder d parent caseValues (Lookahead.significant newlines tokens) with
      fault | _ | ⟨trace, rest⟩ <;> rfl
  | chain =>
    unfold accepts
    rw [significant_collapse newline_mem, hd.choose]
    rcases d.choose chainMembers parent (Lookahead.significant newlines tokens) with
      fault | _ | ⟨p, rest⟩
    · rfl
    · rfl
    · exact startsWith_collapse newline_mem edges rest
  | call => simp only [accepts, atPattern_collapse, atPlainCall_collapse]
  | resource => exact atResource_collapse tokens
  | selector => exact atSelector_collapse tokens
  | _ => simp only [accepts, atPattern_collapse]

/-- The same trials run out of levels. -/
theorem runsOut_collapse (hd : Steady d) (hs : Sound d) (category parent : Category)
    (tokens : List Token) :
    runsOut d category parent (collapse tokens) = runsOut d category parent tokens := by
  cases category with
  | caseOption =>
    unfold runsOut
    rw [significant_collapse newline_mem, inOrder_collapse hd hs caseValues (by decide)]
    rcases inOrder d parent caseValues (Lookahead.significant newlines tokens) with
      fault | _ | ⟨trace, rest⟩ <;> rfl
  | chain =>
    unfold runsOut
    rw [significant_collapse newline_mem, hd.choose]
    rcases d.choose chainMembers parent (Lookahead.significant newlines tokens) with
      fault | _ | ⟨p, rest⟩ <;> rfl
  | _ => rfl

/-- The same category is chosen for the collapsed tokens. -/
theorem chooseFrom_collapse (hd : Steady d) (hs : Sound d) (categories : List Category)
    (parent : Category) (tokens : List Token) :
    chooseFrom d categories parent (collapse tokens) =
      collapsed Phrase.unlined (chooseFrom d categories parent tokens) := by
  induction categories with
  | nil => rfl
  | cons category categories ih =>
    rw [chooseFrom, chooseFrom, runsOut_collapse hd hs, accepts_collapse hd hs,
      phrase_collapse hd hs, ih]
    split
    · rfl
    · split <;> rfl

/-- The statements of the collapsed tokens are the same, without lines. -/
theorem statements_collapse (hd : Steady d) (hs : Sound d) (parent : Category)
    (closing : Option Kind) (n : Nat) (tokens : List Token) :
    statements d parent closing n (collapse tokens) =
      collapsedAll (List.map Phrase.unlined) (statements d parent closing n tokens) := by
  induction n generalizing tokens with
  | zero => rfl
  | succ n ih =>
    have hmem : Kind.newline ∈ [Kind.newline, .semicolon] := by decide
    rw [statements, statements]
    cases heq : Lookahead.significant [.newline, .semicolon] tokens with
    | nil =>
      rw [significant_collapse hmem, heq]
      cases closing <;> rfl
    | cons t rest =>
      have ht : t.kind ≠ .newline := fun hkind => significant_head heq (hkind ▸ hmem)
      have hall := collapse_cons ht rest
      rw [collapse_significant hmem heq]
      simp only [Token.kind_unlined, ← hall]
      split
      · rfl
      have hchosen := hd.choose Grammar.statements parent (t :: rest)
      rw [hchosen]
      rcases hr : d.choose Grammar.statements parent (t :: rest) with fault | _ | ⟨p, rest'⟩
      · rfl
      · rfl
      · rw [hr] at hchosen
        have hmoved := Nat.ne_of_lt (hs.progress hr)
        have hmoved' := Nat.ne_of_lt (hs.progress hchosen)
        simp only [collapsed, hmoved, hmoved', if_false, ih]
        rcases statements d parent closing n rest' with fault | ⟨ps, rest''⟩ <;> rfl

end

/-- Every level reads collapsed tokens as it reads the tokens. -/
theorem level_steady (n : Nat) : Steady (level n) := by
  induction n with
  | zero => exact ⟨fun _ _ _ => rfl, fun _ _ _ => rfl, fun _ => rfl⟩
  | succ n ih =>
    exact ⟨chooseFrom_collapse ih (level_sound n),
      fun parent closing => statements_collapse ih (level_sound n) parent closing n, fun _ => rfl⟩

end Plain

end TidyManifest
