import TidyManifest.Proofs.Progress.Descent
import TidyManifest.Proofs.Tree.Parsed

/-!
# Parsing moves on and ends

Every node that is read and every repetition of a step takes up tokens, so no statement is read that
stays where it is (`readings_progress`).  Putting tokens in does not keep a parse from ending: there
are no more splits than colons, which bounds the tokens of a whole run, and the levels that a parse
takes are enough (`parse_ends`).
-/

namespace TidyManifest

namespace Parse

open Plain (orderly allOrderly branchesOrderly)

section

variable {step : Step} {steps : List Step}

/-- Steps are orderly if each of them is. -/
theorem allOrderly_iff : allOrderly steps = true ↔ ∀ step ∈ steps, orderly step = true := by
  induction steps with
  | nil => simp [allOrderly]
  | cons first steps ih => simp [allOrderly, ih]

/-- Branches are orderly if each of them is. -/
theorem branchesOrderly_iff {branches : List (List Step)} :
    branchesOrderly branches = true ↔ ∀ branch ∈ branches, allOrderly branch = true := by
  induction branches with
  | nil => simp [branchesOrderly]
  | cons branch branches ih => simp [branchesOrderly, ih]

/-- A step that occurs among orderly steps is orderly. -/
theorem Occurs.orderly (hoccurs : Occurs step steps) (h : allOrderly steps = true) :
    Plain.orderly step = true := by
  induction hoccurs with
  | here hmem => exact allOrderly_iff.mp h _ hmem
  | group hmem _ ih =>
    have hinner := allOrderly_iff.mp h _ hmem
    rw [Plain.orderly, Bool.and_eq_true] at hinner
    exact ih hinner.2
  | choice hmem hbranch _ ih =>
    have hinner := allOrderly_iff.mp h _ hmem
    rw [Plain.orderly, Bool.and_eq_true] at hinner
    exact ih (branchesOrderly_iff.mp hinner.2 _ hbranch)

end

/-- Reading a node leaves the cursor further on than it was, also if tokens were put in meanwhile,
and so does every step of a rule that is repeated.  So no parse stalls. -/
theorem readings_progress (mode : SplitMode) :
    (∀ n parent s, parent < s.tree.size →
      (∀ categories id s', (descent mode n).choose categories parent s = .ok (some id) s' →
        s.cursor.position < s'.cursor.position) ∧
      ∀ (category : Category) step, Occurs step category.rule.steps → step.usage.many = true →
        ∀ log kept s', readOnce (descent mode n) parent step log s = .ok (true, kept) s' →
          s.cursor.position < s'.cursor.position) ∧
    ∀ tokens line, parse mode tokens ≠ .error (.stalled line) := by
  refine ⟨fun n parent s hparent => ⟨?_, ?_⟩, ?_⟩
  · intro categories id s' h
    exact ((descent_progresses mode n).choose hparent).moved h
  · intro category step hoccurs hmany log kept s' h
    have hyields (c : Category) : yields c step = true := hoccurs.yields (yields_rule c category)
    have hconsumes := Plain.consumes_of_many
      (hoccurs.orderly (Plain.allOrderly_rule category)) hmany
    exact (readOnce_stepped (descent_progresses mode n) step hyields log hparent).moved hconsumes h
  · intro tokens line h
    obtain ⟨f, -, hexplains⟩ := parse_eq_error h
    exact not_explains_stalled hexplains

/-- A resource with two titles is split while it is read, and an edge is followed by a reference. -/
theorem readings_progress_of_titles :
    let tokens : List Token :=
      [⟨.name, "f", 1⟩, ⟨.leftBrace, "\x7b", 1⟩, ⟨.name, "a", 1⟩, ⟨.colon, ":", 1⟩,
       ⟨.semicolon, ";", 1⟩, ⟨.name, "b", 1⟩, ⟨.colon, ":", 1⟩, ⟨.rightBrace, "\x7d", 1⟩]
    let edge : List Token :=
      [⟨.newline, "\n", 1⟩, ⟨.edgeRight, "->", 2⟩, ⟨.classRef, "F", 2⟩, ⟨.leftBracket, "[", 2⟩,
       ⟨.name, "a", 2⟩, ⟨.rightBracket, "]", 2⟩]
    let step := Step.many (Step.inOrder
      [(Step.expect Grammar.edges).named "edges",
       (Step.oneOf Grammar.chainMembers).named "members"])
    (∃ s', (descent .splice 20).choose Grammar.statements Tree.root (.start tokens) =
        .ok (some 1) s' ∧ 0 < s'.cursor.position) ∧
      (∃ kept s', readOnce (descent .splice 20) Tree.root step {} (.start edge) =
        .ok (true, kept) s' ∧ 0 < s'.cursor.position) ∧
      parse .splice tokens ≠ .error (.stalled 1) := by
  intro tokens edge step
  have hchosen : ((descent .splice 20).choose Grammar.statements Tree.root).run' (.start tokens) =
      some (some 1) := by decide +kernel
  have hread : ((readOnce (descent .splice 20) Tree.root step {}).run' (.start edge)).map (·.1) =
      some true := by decide +kernel
  obtain ⟨s₁, h₁⟩ := ok_of_run' hchosen
  obtain ⟨⟨_, kept⟩, hkept, rfl⟩ := Option.map_eq_some_iff.mp hread
  obtain ⟨s₂, h₂⟩ := ok_of_run' hkept
  refine ⟨⟨s₁, h₁, ?_⟩, ⟨kept, s₂, h₂, ?_⟩, (readings_progress .splice).2 tokens 1⟩
  · exact ((readings_progress .splice).1 20 Tree.root (.start tokens) Nat.one_pos).1 _ _ _ h₁
  · exact ((readings_progress .splice).1 20 Tree.root (.start edge) Nat.one_pos).2 .chain step
      (.here (.tail _ (.head _))) rfl _ _ _ h₂

/-- A parse never runs out of levels, in neither way of splitting resources.  A trial that runs out of
them ends the parse, so no trial does either.  When a run ends, with whatever number of levels and
whether it succeeds or not, its tokens are those it started with and what its splits have put in.
There are at most as many splits as colons, and each puts in four tokens and a copy of some sigils.
No reading on the way takes tokens out, so there were never more of them than at the end. -/
theorem parse_ends (mode : SplitMode) (tokens : List Token) :
    parse mode tokens ≠ .error .exhausted ∧
    (∀ n, ∃ k,
      let stream :=
        (ending ((descent mode n).statements Tree.root none (.start tokens))).cursor.toList
      Inserted tokens k stream ∧ k ≤ colons tokens ∧
        stream.length ≤ tokens.length + colons tokens * (tokens.length + 4)) ∧
    ∀ n parent s, parent < s.tree.size →
      (∀ categories, ∃ k, Inserted s.cursor.toList k
        (ending ((descent mode n).choose categories parent s)).cursor.toList) ∧
      ∀ closing, ∃ k, Inserted s.cursor.toList k
        (ending ((descent mode n).statements parent closing s)).cursor.toList := by
  refine ⟨?_, ?_, ?_⟩
  · intro h
    obtain ⟨f, hf, hexplains⟩ := parse_eq_error h
    obtain rfl := hexplains.eq_exhausted
    have hsettled : Plain.Settled _ (Plain.full.statements .manifest none tokens) :=
      (Plain.full_agrees (8 * tokens.length + 7)).statements (by omega)
    rw [Plain.manifest_eq] at hf
    rcases hfull : Plain.full.statements .manifest none tokens with f | ⟨ps, rest⟩
    all_goals
      rw [hfull] at hf
      cases hf
    exact hsettled.2 hfull
  · intro n
    obtain ⟨k, hrun⟩ : Runs (.start tokens)
        (ending ((descent mode n).statements Tree.root none (.start tokens))) :=
      (descent_progresses mode n).statements Nat.one_pos
    have hk : k ≤ colons tokens := Nat.le_trans (Nat.le_add_right _ _) hrun.spends
    have hmul : k * tokens.length ≤ colons tokens * (tokens.length + 4) :=
      Nat.mul_le_mul hk (Nat.le_add_right _ _)
    refine ⟨k, hrun.inserted, hk, Nat.le_trans hrun.growth ?_⟩
    exact Nat.add_le_add_left hmul _
  · intro n parent s hparent
    have hd := descent_progresses mode n
    refine ⟨fun categories => ?_, fun closing => ?_⟩
    · have htaken : Taken s ((descent mode n).choose categories parent s) := hd.choose hparent
      obtain ⟨k, hrun⟩ := htaken.runs
      exact ⟨k, hrun.inserted⟩
    · obtain ⟨k, hrun⟩ := hd.statements hparent
      exact ⟨k, hrun.inserted⟩

/-- A resource with two titles and a sigil: one split puts five tokens in. -/
theorem parse_ends_of_titles :
    let tokens : List Token :=
      [⟨.atSign, "@", 1⟩, ⟨.name, "f", 1⟩, ⟨.leftBrace, "\x7b", 1⟩, ⟨.name, "a", 1⟩,
       ⟨.colon, ":", 1⟩, ⟨.semicolon, ";", 1⟩, ⟨.name, "b", 1⟩, ⟨.colon, ":", 1⟩,
       ⟨.rightBrace, "\x7d", 1⟩]
    let stream :=
      (ending ((descent .splice 80).statements Tree.root none (.start tokens))).cursor.toList
    stream.length = 14 ∧ parse .splice tokens ≠ .error .exhausted ∧
      (∃ k, Inserted tokens k stream ∧ k ≤ 2 ∧ stream.length ≤ 9 + 2 * (9 + 4)) ∧
      let chosen := (descent .splice 80).choose Grammar.statements Tree.root (.start tokens)
      ∃ k, Inserted tokens k (ending chosen).cursor.toList := by
  intro tokens stream
  have hlength : stream.length = 14 := by decide +kernel
  obtain ⟨hexhausted, hrun, hreading⟩ := parse_ends .splice tokens
  exact ⟨hlength, hexhausted, hrun 80, (hreading 80 Tree.root (.start tokens) Nat.one_pos).1 _⟩

end Parse

end TidyManifest
