import TidyManifest.Proofs.Newlines.SameLine

/-!
# Values, with few levels

Plain reading agrees with reading at full depth where the levels suffice.  For values more is true:
an expression holds no block and is recognised without a trial, so a level that reads one, or finds
that there is none, cannot be contradicted by a higher level (`phrase_eq_full`), whether it has
enough levels for all the tokens ahead or not.
-/

namespace TidyManifest.Plain

open Parse Grammar

/-- What an expression is made of. -/
def values : List Category :=
  [.expression, .selector, .call, .reference, .hash, .list, .pair, .parens, .unary, .simple,
   .comment, .blockComment]

/-- Whether a step reads tokens and values only. -/
def readsValues : Step → Bool
  | .node _ categories => categories.all fun c => values.contains c
  | .block _ => false
  | _ => true

/-- The parts of a value are values. -/
theorem readsValues_rule {category : Category} (h : category ∈ values) :
    everySteps readsValues category.rule.steps = true := by
  have hall : ∀ c ∈ values, everySteps readsValues c.rule.steps = true := by decide
  exact hall category h

/-- The second answer is the first one, unless the first ran out of levels. -/
def Stays {α : Type} (o o' : Except Fault α) : Prop :=
  o ≠ .error .exhausted → o' = o

section

variable {α β : Type}

theorem Stays.refl (o : Except Fault α) : Stays o o :=
  fun _ => rfl

/-- A reading that stays, and goes on with one that stays, stays. -/
theorem Stays.andThen {o o' : Outcome α} {next next' : α → List Token → Outcome β}
    (h : Stays o o') (hnext : ∀ a rest, Stays (next a rest) (next' a rest)) :
    Stays (andThen o next) (andThen o' next') := by
  intro hne
  have heq : o' = o := h fun ho => hne (by rw [ho]; rfl)
  rw [heq]
  rcases o with f | _ | ⟨a, rest⟩
  · rfl
  · rfl
  · exact hnext a rest hne

end

section

variable {reading reading' : List Token → Outcome (Trace Phrase)}
  (hreading : ∀ tokens, Stays (reading tokens) (reading' tokens))

include hreading

/-- Repetition stays if what is repeated does and the rounds grow. -/
theorem again_stays {k k' : Nat} (hk : k ≤ k') (tokens : List Token) :
    Stays (again reading k tokens) (again reading' k' tokens) := by
  induction k generalizing k' tokens with
  | zero => exact fun hne => absurd rfl hne
  | succ k ih =>
    obtain ⟨k', rfl⟩ : ∃ j, k' = j + 1 := ⟨k' - 1, by omega⟩
    intro hne
    have heq : reading' tokens = reading tokens :=
      hreading tokens fun ho => hne (by rw [again, ho])
    rw [again] at hne
    rw [again, again, heq]
    rcases hread : reading tokens with f | _ | ⟨trace, rest⟩
    · rfl
    · rfl
    · rw [hread] at hne
      dsimp only at hne ⊢
      by_cases hlength : rest.length = tokens.length
      · rw [if_pos hlength, if_pos hlength]
      · rw [if_neg hlength] at hne
        have hmore : again reading' k' rest = again reading k rest :=
          ih (by omega) rest fun ho => hne (by rw [ho])
        rw [if_neg hlength, if_neg hlength, hmore]

/-- A step stays however it is used. -/
theorem used_stays (usage : Usage) {rounds rounds' : List Token → Nat}
    (hrounds : ∀ rest, rounds rest ≤ rounds' rest) (tokens : List Token) :
    Stays (used usage rounds reading tokens) (used usage rounds' reading' tokens) := by
  intro hne
  have heq : reading' tokens = reading tokens :=
    hreading tokens fun ho => hne (by rw [used, ho])
  rw [used] at hne
  rw [used, used, heq]
  rcases hread : reading tokens with f | _ | ⟨trace, rest⟩
  · rfl
  · rfl
  · rw [hread] at hne
    dsimp only at hne ⊢
    by_cases hmany : usage.many = true
    · rw [if_pos hmany] at hne
      have hmore : again reading' (rounds' rest) rest = again reading (rounds rest) rest :=
        again_stays hreading (hrounds rest) rest fun ho => hne (by rw [ho])
      rw [if_pos hmany, if_pos hmany, hmore]
    · rw [if_neg hmany, if_neg hmany]

end

/-- What one level answers about values is what the other answers. -/
structure Stable (d d' : Oracle) : Prop where
  choose : ∀ {categories : List Category} (parent tokens), (∀ c ∈ categories, c ∈ values) →
    Stays (d.choose categories parent tokens) (d'.choose categories parent tokens)
  rounds : ∀ tokens, d.rounds tokens ≤ d'.rounds tokens

section

variable {d d' : Oracle}

mutual

/-- A step that reads values stays. -/
theorem once_stays (hd : Stable d d') (owner : Category) (step : Step)
    (hstep : everyStep readsValues step = true) (tokens : List Token) :
    Stays (once d owner step tokens) (once d' owner step tokens) := by
  cases step with
  | token usage kinds =>
    simp only [once]
    exact .refl _
  | node usage categories =>
    have hcategories : ∀ c ∈ categories, c ∈ values := by
      simpa [everyStep, readsValues] using hstep
    simp only [once]
    exact (hd.choose owner _ hcategories).andThen fun p rest => .refl _
  | group usage steps =>
    rw [everyStep, Bool.and_eq_true] at hstep
    simp only [once]
    exact inOrder_stays hd owner steps hstep.2 _
  | choice usage branches =>
    rw [everyStep, Bool.and_eq_true] at hstep
    simp only [once]
    exact firstOf_stays hd owner branches hstep.2 _
  | block usage => cases hstep

/-- Steps that read values stay. -/
theorem inOrder_stays (hd : Stable d d') (owner : Category) (steps : List Step)
    (hsteps : everySteps readsValues steps = true) (tokens : List Token) :
    Stays (inOrder d owner steps tokens) (inOrder d' owner steps tokens) := by
  cases steps with
  | nil =>
    simp only [inOrder]
    exact .refl _
  | cons step steps =>
    rw [everySteps, Bool.and_eq_true] at hsteps
    simp only [inOrder]
    refine (used_stays (once_stays hd owner step hsteps.1) step.usage hd.rounds tokens).andThen
      fun trace rest => ?_
    exact (inOrder_stays hd owner steps hsteps.2 rest).andThen fun more rest => .refl _

/-- The choice between sequences of steps that read values stays. -/
theorem firstOf_stays (hd : Stable d d') (owner : Category) (branches : List (List Step))
    (hbranches : everyBranch readsValues branches = true) (tokens : List Token) :
    Stays (firstOf d owner branches tokens) (firstOf d' owner branches tokens) := by
  cases branches with
  | nil =>
    simp only [firstOf]
    exact .refl _
  | cons branch branches =>
    rw [everyBranch, Bool.and_eq_true] at hbranches
    intro hne
    simp only [firstOf] at hne ⊢
    have hbranch : inOrder d' owner branch tokens = inOrder d owner branch tokens :=
      inOrder_stays hd owner branch hbranches.1 tokens fun ho => hne (by rw [ho])
    rw [hbranch]
    split at hne
    · exact firstOf_stays hd owner branches hbranches.2 tokens hne
    · rfl

end

/-- A phrase of a value category stays. -/
theorem phrase_stays (hd : Stable d d') {category : Category} (hcategory : category ∈ values)
    (tokens : List Token) :
    Stays (phrase d category tokens) (phrase d' category tokens) := by
  have hresource : ∀ c ∈ values, (c == .resource) = false := by decide
  refine (inOrder_stays hd category _ (readsValues_rule hcategory) _).andThen fun trace rest => ?_
  rw [hresource category hcategory]
  exact .refl _

/-- The choice among value categories stays. -/
theorem chooseFrom_stays (hd : Stable d d') {categories : List Category} (parent : Category)
    (tokens : List Token) (hcategories : ∀ c ∈ categories, c ∈ values) :
    Stays (chooseFrom d categories parent tokens) (chooseFrom d' categories parent tokens) := by
  induction categories with
  | nil => exact .refl _
  | cons category categories ih =>
    obtain ⟨hcategory, hrest⟩ := List.forall_mem_cons.mp hcategories
    -- a value is recognised without reading it
    have htried : ∀ c ∈ values, c ≠ .caseOption ∧ c ≠ .chain := by decide
    obtain ⟨hoption, hchain⟩ := htried category hcategory
    have haccepts : accepts d' category parent tokens = accepts d category parent tokens := by
      cases category with
      | caseOption => exact absurd rfl hoption
      | chain => exact absurd rfl hchain
      | _ => rfl
    rw [chooseFrom, chooseFrom, runsOut_of_ne hoption hchain, runsOut_of_ne hoption hchain, haccepts,
      if_neg Bool.false_ne_true, if_neg Bool.false_ne_true]
    split
    · exact phrase_stays hd hcategory tokens
    · exact ih hrest

end

/-- A higher level answers as a level does that did not run out. -/
theorem level_stable (n k : Nat) : Stable (level n) (level (n + k)) := by
  induction n with
  | zero => exact ⟨fun _ _ _ hne => absurd rfl hne, fun _ => Nat.zero_le _⟩
  | succ n ih =>
    rw [Nat.succ_add]
    exact ⟨chooseFrom_stays ih, fun _ => Nat.le_add_right n k⟩

/-- What any level reads as a value, reading with enough levels reads as well. -/
theorem phrase_eq_full {category : Category} (hcategory : category ∈ values) (n : Nat)
    {tokens : List Token} {found : Option (Phrase × List Token)}
    (h : phrase (level n) category tokens = .ok found) : phrase full category tokens = .ok found := by
  have hhigher := phrase_stays (level_stable n (8 * tokens.length + rank category)) hcategory tokens
    (by rw [h]; simp)
  have hfull := phrase_settled (agrees_full (n + (8 * tokens.length + rank category)))
    (level_sound _) category (Nat.le_add_left (8 * tokens.length + rank category) n)
  rw [← hfull.1, hhigher, h]

end TidyManifest.Plain
