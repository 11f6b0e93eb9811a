import TidyManifest.Proofs.Plain.Spells

/-!
# Enough levels

Plain reading is built from levels, and a level can run out of levels below it.  This module shows
that it does not, if there are eight levels for every token ahead and a few more: then the answer is
that of every higher level (`level_agrees`).

A phrase goes one level down for each of its parts.  Between two parts that start at the same token
the rank of the category falls, and otherwise the tokens ahead get fewer; so `8 * length + rank`
always falls.  Repetitions consume tokens too, so they need no more rounds than there are tokens.

Reading with enough levels is then a function of the tokens alone, `full`, and it satisfies the
equations of plain reading with itself as the level below (`full_choose`, `full_statements`).
-/

namespace TidyManifest.Plain

open Parse Grammar

/-- The rank of a category: a phrase starts with a phrase of lower rank or with a token. -/
def rank : Category → Nat
  | .title | .caseOption => 5
  | .expression | .chain => 4
  | .selector | .parameter | .resource => 3
  | _ => 2

/-- Ranks are bounded. -/
theorem rank_lt (category : Category) : rank category < 6 := by
  cases category <;> decide

/-- Every category has a rank above that of a step. -/
theorem one_lt_rank (category : Category) : 1 < rank category := by
  cases category <;> decide

mutual

/-- Whether a step reads something whenever it succeeds. -/
def consumes : Step → Bool
  | .token _ _ => true
  | .node _ _ => true
  | .group _ steps => consumesAny steps
  | .choice _ branches => consumesAll branches
  | .block _ => true

/-- Whether one of the steps reads something. -/
def consumesAny : List Step → Bool
  | [] => false
  | step :: steps => (consumes step && !step.usage.optional) || consumesAny steps

/-- Whether each of the branches reads something. -/
def consumesAll : List (List Step) → Bool
  | [] => true
  | branch :: branches => consumesAny branch && consumesAll branches

end

mutual

/-- Whether a step takes no newline, and whatever may be repeated, the step itself or a step inside
it, reads something each time. -/
def orderly : Step → Bool
  | .token _ kinds => !kinds.contains .newline
  | .node _ _ => true
  | .group usage steps => (!usage.many || consumesAny steps) && allOrderly steps
  | .choice usage branches => (!usage.many || consumesAll branches) && branchesOrderly branches
  | .block _ => true

/-- The same for steps in order. -/
def allOrderly : List Step → Bool
  | [] => true
  | step :: steps => orderly step && allOrderly steps

/-- The same for every branch of a choice. -/
def branchesOrderly : List (List Step) → Bool
  | [] => true
  | branch :: branches => allOrderly branch && branchesOrderly branches

end

/-- The steps of a rule are orderly. -/
theorem allOrderly_rule (category : Category) : allOrderly category.rule.steps = true := by
  cases category <;> decide

/-- A step that is repeated takes up tokens each time. -/
theorem consumes_of_many {step : Step} (h : orderly step = true) (hmany : step.usage.many = true) :
    consumes step = true := by
  cases step with
  | token => rfl
  | node => rfl
  | block => rfl
  | group usage steps =>
    rw [orderly, show usage.many = true from hmany] at h
    exact (Bool.and_eq_true_iff.mp h).1
  | choice usage branches =>
    rw [orderly, show usage.many = true from hmany] at h
    exact (Bool.and_eq_true_iff.mp h).1

mutual

/-- Whether a step starts with tokens or with phrases of a rank below `r`. -/
def startsBelow (r : Nat) : Step → Bool
  | .token _ _ => true
  | .node _ categories => categories.all (rank · < r)
  | .group _ steps => startBelow r steps
  | .choice _ branches => allStartBelow r branches
  | .block _ => true

/-- Whether steps in order start with tokens or with phrases of a rank below `r`. -/
def startBelow (r : Nat) : List Step → Bool
  | [] => true
  | step :: steps =>
    startsBelow r step && ((consumes step && !step.usage.optional) || startBelow r steps)

/-- Whether all branches start with tokens or with phrases of a rank below `r`. -/
def allStartBelow (r : Nat) : List (List Step) → Bool
  | [] => true
  | branch :: branches => startBelow r branch && allStartBelow r branches

end

/-- The steps of a rule start with tokens or with phrases of a lower rank. -/
theorem startBelow_rule (category : Category) :
    startBelow (rank category) category.rule.steps = true := by
  cases category <;> decide

mutual

/-- Below a rank that no category reaches every step starts. -/
theorem startsBelow_of_rank_lt {r : Nat} (hr : 6 ≤ r) (step : Step) :
    startsBelow r step = true := by
  cases step with
  | token => rfl
  | block => rfl
  | node usage categories =>
    simp only [startsBelow, List.all_eq_true, decide_eq_true_eq]
    exact fun c _ => Nat.lt_of_lt_of_le (rank_lt c) hr
  | group usage steps => simpa only [startsBelow] using startBelow_of_rank_lt hr steps
  | choice usage branches => simpa only [startsBelow] using allStartBelow_of_rank_lt hr branches

/-- Below a rank that no category reaches all steps start. -/
theorem startBelow_of_rank_lt {r : Nat} (hr : 6 ≤ r) (steps : List Step) :
    startBelow r steps = true := by
  cases steps with
  | nil => rfl
  | cons step steps =>
    simp [startBelow, startsBelow_of_rank_lt hr step, startBelow_of_rank_lt hr steps]

/-- Below a rank that no category reaches all branches start. -/
theorem allStartBelow_of_rank_lt {r : Nat} (hr : 6 ≤ r) (branches : List (List Step)) :
    allStartBelow r branches = true := by
  cases branches with
  | nil => rfl
  | cons branch branches =>
    simp [allStartBelow, startBelow_of_rank_lt hr branch, allStartBelow_of_rank_lt hr branches]

end

section

variable {ι : Type} {categoryOf : ι → Category}

mutual

/-- A step that takes up tokens leaves something in the trace. -/
theorem FitsOnce.ne_nil {step : Step} {trace : Trace ι} (h : FitsOnce categoryOf step trace)
    (hc : consumes step = true) : trace ≠ [] := by
  cases step with
  | token => obtain ⟨_, _, rfl⟩ := h; simp
  | node => obtain ⟨_, _, rfl⟩ := h; simp
  | block => obtain ⟨_, rfl⟩ := h; simp
  | group usage steps =>
    simp only [consumes] at hc
    simp only [FitsOnce] at h
    exact Fits.ne_nil h hc
  | choice usage branches =>
    simp only [consumes] at hc
    simp only [FitsOnce] at h
    exact FitsOne.ne_nil h hc

/-- Steps of which one takes up tokens leave something in the trace. -/
theorem Fits.ne_nil {steps : List Step} {trace : Trace ι} (h : Fits categoryOf steps trace)
    (hc : consumesAny steps = true) : trace ≠ [] := by
  cases steps with
  | nil => cases hc
  | cons step steps =>
    obtain ⟨first, more, rfl, hfirst, hmore⟩ := h
    simp only [consumesAny, Bool.or_eq_true, Bool.and_eq_true, Bool.not_eq_true'] at hc
    rcases hc with ⟨hstep, hoptional⟩ | hsteps
    · rcases hfirst with ⟨ho, -⟩ | hfirst
      · rw [hoptional] at ho
        cases ho
      · split at hfirst
        · obtain ⟨piece, others, rfl, hpiece, -⟩ := hfirst
          have := FitsOnce.ne_nil hpiece hstep
          simp [this]
        · have := FitsOnce.ne_nil hfirst hstep
          simp [this]
    · have := Fits.ne_nil hmore hsteps
      simp [this]

/-- Branches that all take up tokens leave something in the trace. -/
theorem FitsOne.ne_nil {branches : List (List Step)} {trace : Trace ι}
    (h : FitsOne categoryOf branches trace) (hc : consumesAll branches = true) : trace ≠ [] := by
  cases branches with
  | nil => exact h.elim
  | cons branch branches =>
    simp only [consumesAll, Bool.and_eq_true] at hc
    rcases h with h | h
    · exact Fits.ne_nil h hc.1
    · exact FitsOne.ne_nil h hc.2

end

end

/-- Two readings give the same, and the levels suffice. -/
def Settled {α : Type} (o o' : Except Fault α) : Prop :=
  o = o' ∧ o ≠ .error .exhausted

/-- Two levels agree on everything that needs less than `n`. -/
structure Agrees (n : Nat) (d d' : Oracle) : Prop where
  choose : ∀ {categories parent tokens}, 8 * List.length tokens < n →
    (∀ c ∈ categories, 8 * List.length tokens + rank c < n) →
    Settled (d.choose categories parent tokens) (d'.choose categories parent tokens)
  statements : ∀ {parent closing tokens}, 8 * List.length tokens + 6 < n →
    Settled (d.statements parent closing tokens) (d'.statements parent closing tokens)
  rounds : ∀ {tokens}, 8 * List.length tokens + 1 < n →
    List.length tokens < d.rounds tokens ∧ List.length tokens < d'.rounds tokens

section

variable {α β : Type}

theorem settled_ok (a : α) : Settled (.ok a : Except Fault α) (.ok a) :=
  ⟨rfl, nofun⟩

theorem settled_refused : Settled (.error .refused : Except Fault α) (.error .refused) :=
  ⟨rfl, nofun⟩

theorem settled_ended : Settled (.error .ended : Except Fault α) (.error .ended) :=
  ⟨rfl, nofun⟩

/-- A fault that is not for want of levels is settled. -/
theorem settled_error {o : Except Fault α} {f : Fault} (hne : o ≠ .error .exhausted)
    (hf : o = .error f) : Settled (.error f : Except Fault β) (.error f) := by
  refine ⟨rfl, fun h => hne ?_⟩
  cases h
  exact hf

/-- A settled reading that goes on with a settled one is settled. -/
theorem Settled.andThen {o o' : Outcome α} {next next' : α → List Token → Outcome β}
    (h : Settled o o') (hnext : ∀ a rest, o = .ok (some (a, rest)) →
      Settled (next a rest) (next' a rest)) :
    Settled (andThen o next) (andThen o' next') := by
  obtain ⟨rfl, hne⟩ := h
  match o, hne, hnext with
  | .error .refused, _, _ => exact settled_refused
  | .error .ended, _, _ => exact settled_ended
  | .error .exhausted, hne, _ => exact absurd rfl hne
  | .ok none, _, _ => exact settled_ok none
  | .ok (some (a, rest)), _, hnext => exact hnext a rest rfl

end

section

variable {owner : Category} {reading reading' : List Token → Outcome (Trace Phrase)} {m : Nat}
  (hreading : ∀ {tokens}, List.length tokens ≤ m → Settled (reading tokens) (reading' tokens))
  (hshrink : ∀ {tokens trace rest}, reading tokens = .ok (some (trace, rest)) →
    List.length rest ≤ List.length tokens)

include hreading hshrink

/-- Repetitions that agree, with enough rounds for the tokens. -/
theorem again_settled {k k' : Nat} {tokens : List Token} (hm : tokens.length ≤ m)
    (hk : tokens.length < k) (hk' : tokens.length < k') :
    Settled (again reading k tokens) (again reading' k' tokens) := by
  induction k generalizing tokens k' with
  | zero => omega
  | succ k ih =>
    obtain ⟨k', rfl⟩ : ∃ j, k' = j + 1 := ⟨k' - 1, by omega⟩
    obtain ⟨heq, hne⟩ := hreading hm
    rw [again, again, ← heq]
    split
    · rename_i f hf
      exact settled_error hne hf
    · exact settled_ok _
    · rename_i trace rest hread
      have hle := hshrink hread
      split
      · exact settled_ok _
      · have hagain : Settled (again reading k rest) (again reading' k' rest) :=
          ih (by omega) (by omega) (by omega)
        obtain ⟨hmore, hne'⟩ := hagain
        rw [← hmore]
        split
        · rename_i f hf
          exact settled_error hne' hf
        · exact settled_ok _

/-- A step that is settled is so however often it is used, if the rounds suffice. -/
theorem used_settled (usage : Usage) {rounds rounds' : List Token → Nat} {tokens : List Token}
    (hm : tokens.length ≤ m)
    (hrounds : ∀ {rest}, List.length rest ≤ tokens.length →
      List.length rest < rounds rest ∧ List.length rest < rounds' rest) :
    Settled (used usage rounds reading tokens) (used usage rounds' reading' tokens) := by
  obtain ⟨heq, hne⟩ := hreading hm
  rw [used, used, ← heq]
  split
  · rename_i f hf
    exact settled_error hne hf
  · split <;> exact settled_ok _
  · rename_i trace rest hread
    have hle := hshrink hread
    split
    · obtain ⟨hk, hk'⟩ := hrounds hle
      obtain ⟨hmore, hne'⟩ := again_settled hreading hshrink (Nat.le_trans hle hm) hk hk'
      rw [← hmore]
      split
      · rename_i f hf
        exact settled_error hne' hf
      · exact settled_ok _
    · exact settled_ok _

end

section

variable {owner : Category} {fits : Trace Phrase → Prop} {tokens rest : List Token}
  {trace : Trace Phrase}

/-- Reading never leaves more tokens than there were. -/
theorem Reads.length_le (h : Reads owner fits tokens trace rest) : rest.length ≤ tokens.length := by
  obtain ⟨-, w, rfl, -⟩ := h
  simp

/-- Reading something takes up tokens. -/
theorem Reads.length_lt (h : Reads owner fits tokens trace rest) (hne : trace ≠ []) :
    rest.length < tokens.length := by
  obtain ⟨-, w, rfl, hw⟩ := h
  have : 0 < w.length := hw.length_pos (List.length_pos_iff.mpr hne)
  simp only [List.length_append]
  omega

/-- Going to where a step starts adds no tokens. -/
theorem length_lead_le (usage : Usage) (tokens : List Token) :
    (lead usage tokens).length ≤ tokens.length := by
  obtain ⟨ns, -, heq⟩ := lead_eq usage tokens
  have := congrArg List.length heq
  rw [List.length_append] at this
  omega

theorem length_significant_le (kinds : List Kind) (tokens : List Token) :
    (Lookahead.significant kinds tokens).length ≤ tokens.length :=
  (List.dropWhile_sublist _).length_le

end

section

variable {n : Nat} {d d' : Oracle} {owner : Category}

/-- A block is settled: its statements start after a brace. -/
theorem block_settled (hd : Agrees n d d') (usage : Usage) {tokens : List Token}
    (hn : 8 * tokens.length ≤ n) :
    Settled (once d owner (.block usage) tokens) (once d' owner (.block usage) tokens) := by
  simp only [once]
  have hlead := length_lead_le usage tokens
  split
  · exact settled_ok _
  · rename_i t rest hrest
    rw [hrest, List.length_cons] at hlead
    split
    · have hrest : Settled (d.statements owner (some .rightBrace) rest)
          (d'.statements owner (some .rightBrace) rest) := hd.statements (by omega)
      obtain ⟨heq, hne⟩ := hrest
      rw [← heq]
      split
      · rename_i f hf
        exact settled_error hne hf
      · exact settled_ok _
    · exact settled_ok _

mutual

/-- Reading a step, with enough levels for the tokens and what the step starts with. -/
theorem once_settled (hd : Agrees n d d') (hs : Sound d) (step : Step) {r : Nat}
    {tokens : List Token} (hr : 1 < r) (hn : 8 * tokens.length + r ≤ n)
    (hstart : startsBelow r step = true) :
    Settled (once d owner step tokens) (once d' owner step tokens) := by
  have hlead := length_lead_le step.usage tokens
  cases step with
  | token usage kinds =>
    simp only [once]
    split
    · exact settled_ok _
    · split <;> exact settled_ok _
  | node usage categories =>
    simp only [startsBelow, List.all_eq_true, decide_eq_true_eq] at hstart
    simp only [Step.usage] at hlead
    simp only [once]
    refine (hd.choose (by omega) fun c hc => ?_).andThen fun p rest _ => settled_ok _
    have := hstart c hc
    omega
  | group usage steps =>
    simp only [startsBelow] at hstart
    simp only [Step.usage] at hlead
    simp only [once]
    exact inOrder_settled hd hs steps hr (by omega) hstart
  | choice usage branches =>
    simp only [startsBelow] at hstart
    simp only [Step.usage] at hlead
    simp only [once]
    exact firstOf_settled hd hs branches hr (by omega) hstart
  | block usage => exact block_settled hd usage (by omega)

/-- Reading steps in order, with enough levels. -/
theorem inOrder_settled (hd : Agrees n d d') (hs : Sound d) (steps : List Step) {r : Nat}
    {tokens : List Token} (hr : 1 < r) (hn : 8 * tokens.length + r ≤ n)
    (hstart : startBelow r steps = true) :
    Settled (inOrder d owner steps tokens) (inOrder d' owner steps tokens) := by
  cases steps with
  | nil => simp only [inOrder]; exact settled_ok _
  | cons step steps =>
    simp only [startBelow, Bool.and_eq_true, Bool.or_eq_true, Bool.not_eq_true'] at hstart
    obtain ⟨hstep, hsteps⟩ := hstart
    simp only [inOrder]
    have hfirst : Settled (used step.usage d.rounds (fun tokens => once d owner step tokens) tokens)
        (used step.usage d'.rounds (fun tokens => once d' owner step tokens) tokens) :=
      used_settled
        (fun {t} ht => once_settled hd hs step hr (show 8 * t.length + r ≤ n by omega) hstep)
        (fun h => (once_sound hs step h).length_le) step.usage (Nat.le_refl tokens.length)
        (fun {rest} hrest => hd.rounds (show 8 * rest.length + 1 < n by omega))
    refine hfirst.andThen fun trace rest hread => ?_
    have hreads := used_sound (fun h => once_sound hs step h) hread
    suffices Settled (inOrder d owner steps rest) (inOrder d' owner steps rest) from
      this.andThen fun more rest _ => settled_ok _
    have hle := hreads.length_le
    rcases Nat.lt_or_eq_of_le hle with hlt | heq
    · exact inOrder_settled hd hs steps (show 1 < 8 by decide) (by omega)
        (startBelow_of_rank_lt (by decide) steps)
    · rcases hsteps with ⟨hconsumes, hoptional⟩ | hsteps
      · have hne : trace ≠ [] := by
          have hfits : Fits Phrase.category [step] trace := ⟨trace, [], by simp, hreads.1, rfl⟩
          exact hfits.ne_nil (by simp [consumesAny, hconsumes, hoptional])
        have := hreads.length_lt hne
        omega
      · exact inOrder_settled hd hs steps hr (by omega) hsteps

/-- Reading the first of several sequences of steps, with enough levels. -/
theorem firstOf_settled (hd : Agrees n d d') (hs : Sound d) (branches : List (List Step)) {r : Nat}
    {tokens : List Token} (hr : 1 < r) (hn : 8 * tokens.length + r ≤ n)
    (hstart : allStartBelow r branches = true) :
    Settled (firstOf d owner branches tokens) (firstOf d' owner branches tokens) := by
  cases branches with
  | nil => simp only [firstOf]; exact settled_ok _
  | cons branch branches =>
    simp only [allStartBelow, Bool.and_eq_true] at hstart
    obtain ⟨heq, hne⟩ := inOrder_settled hd hs branch hr hn hstart.1
    simp only [firstOf, ← heq]
    split
    · exact firstOf_settled hd hs branches hr hn hstart.2
    · exact ⟨rfl, hne⟩

end

end

section

variable {n : Nat} {d d' : Oracle}

/-- The items of a resource, with enough levels and rounds. -/
theorem items_settled (hd : Agrees n d d') (hs : Sound d) {k k' : Nat} {tokens : List Token}
    (hn : 8 * tokens.length + 6 ≤ n) (hk : tokens.length < k) (hk' : tokens.length < k') :
    Settled (items d k tokens) (items d' k' tokens) := by
  induction k generalizing tokens k' with
  | zero => omega
  | succ k ih =>
    obtain ⟨k', rfl⟩ : ∃ j, k' = j + 1 := ⟨k' - 1, by omega⟩
    have hle := length_significant_le newlines tokens
    simp only [items]
    split
    · exact settled_ended
    · rename_i t rest hrest
      rw [hrest, List.length_cons] at hle
      split
      · exact settled_ok _
      split
      · exact ih (by omega) (by omega) (by omega)
      · have hchoose (categories : List Category) :
            Settled (d.choose categories .resource (t :: rest))
              (d'.choose categories .resource (t :: rest)) := by
          refine hd.choose (by rw [List.length_cons]; omega) fun c _ => ?_
          have := rank_lt c
          rw [List.length_cons]
          omega
        refine (hchoose _).andThen fun p rest' hp => ?_
        have hlt := hs.progress hp
        rw [List.length_cons] at hlt
        have hmore : Settled (items d k rest') (items d' k' rest') :=
          ih (by omega) (by omega) (by omega)
        exact hmore.andThen fun _ _ _ => settled_ok _

/-- The body of a resource is settled: its items start after a brace. -/
theorem resource_settled (hd : Agrees n d d') (hs : Sound d) (trace : Trace Phrase)
    {tokens : List Token} (hn : 8 * tokens.length ≤ n) :
    Settled (resource d trace tokens) (resource d' trace tokens) := by
  have hle := length_significant_le newlines tokens
  simp only [resource]
  split
  · exact settled_ok _
  split
  · rename_i t rest hrest
    rw [hrest, List.length_cons] at hle
    split
    · have hrounds := hd.rounds (show 8 * rest.length + 1 < n by omega)
      have hitems : Settled (items d (d.rounds rest) rest) (items d' (d'.rounds rest) rest) :=
        items_settled hd hs (by omega) hrounds.1 hrounds.2
      exact hitems.andThen fun _ _ _ => settled_ok _
    · split <;> exact settled_ok _
  · split <;> exact settled_ok _

/-- A phrase is settled if the levels suffice for its tokens and the rank of its category. -/
theorem phrase_settled (hd : Agrees n d d') (hs : Sound d) (category : Category)
    {tokens : List Token} (hn : 8 * tokens.length + rank category ≤ n) :
    Settled (phrase d category tokens) (phrase d' category tokens) := by
  have hle := length_significant_le newlines tokens
  have hsteps : Settled
      (inOrder d category category.rule.steps (Lookahead.significant newlines tokens))
      (inOrder d' category category.rule.steps (Lookahead.significant newlines tokens)) :=
    inOrder_settled hd hs _ (one_lt_rank category) (by omega) (startBelow_rule category)
  refine hsteps.andThen fun trace rest hread => ?_
  split
  · have hrest := (inOrder_sound hs _ hread).length_le
    have hform := resource_settled hd hs trace (show 8 * rest.length ≤ n by omega)
    exact hform.andThen fun _ _ _ => settled_ok _
  · split <;> exact settled_ok _

/-- The trial of a case option is settled: it reads the values of the option. -/
theorem caseValues_settled (hd : Agrees n d d') (hs : Sound d) (parent : Category)
    {tokens : List Token} (hn : 8 * tokens.length + rank .caseOption ≤ n) :
    Settled (inOrder d parent caseValues (Lookahead.significant newlines tokens))
      (inOrder d' parent caseValues (Lookahead.significant newlines tokens)) := by
  have hle := length_significant_le newlines tokens
  exact inOrder_settled hd hs _ (one_lt_rank .caseOption) (by omega)
    (show startBelow 5 caseValues = true by decide)

/-- The trial of a chain is settled: it reads the first member of the chain, at the same tokens, but of
a lower rank. -/
theorem chainMember_settled (hd : Agrees n d d') (parent : Category) {tokens : List Token}
    (hn : 8 * tokens.length + rank .chain ≤ n) :
    Settled (d.choose chainMembers parent (Lookahead.significant newlines tokens))
      (d'.choose chainMembers parent (Lookahead.significant newlines tokens)) := by
  have hle := length_significant_le newlines tokens
  have hrank : ∀ c ∈ chainMembers, rank c < rank .chain := by decide
  have hpos := one_lt_rank .chain
  refine hd.choose (by omega) fun c hc => ?_
  have := hrank c hc
  omega

/-- Enough levels give one answer to the question whether a category is recognised. -/
theorem accepts_agrees (hd : Agrees n d d') (hs : Sound d) (category parent : Category)
    {tokens : List Token} (hn : 8 * tokens.length + rank category ≤ n) :
    accepts d category parent tokens = accepts d' category parent tokens := by
  cases category with
  | caseOption => rw [accepts, accepts, (caseValues_settled hd hs parent hn).1]
  | chain => rw [accepts, accepts, (chainMember_settled hd parent hn).1]
  | _ => rfl

/-- No trial runs out of levels where they suffice for the category. -/
theorem not_runsOut (hd : Agrees n d d') (hs : Sound d) (category parent : Category)
    {tokens : List Token} (hn : 8 * tokens.length + rank category ≤ n) :
    runsOut d category parent tokens = false ∧ runsOut d' category parent tokens = false := by
  cases category with
  | caseOption =>
    obtain ⟨heq, hne⟩ := caseValues_settled hd hs parent hn
    rw [runsOut, runsOut, ← heq]
    split
    · rename_i hexhausted
      exact absurd hexhausted hne
    · simp
  | chain =>
    obtain ⟨heq, hne⟩ := chainMember_settled hd parent hn
    rw [runsOut, runsOut, ← heq]
    split
    · rename_i hexhausted
      exact absurd hexhausted hne
    · simp
  | _ => exact ⟨rfl, rfl⟩

/-- A choice is settled if the levels suffice for each category. -/
theorem chooseFrom_settled (hd : Agrees n d d') (hs : Sound d) {categories : List Category}
    (parent : Category) {tokens : List Token}
    (hn : ∀ c ∈ categories, 8 * tokens.length + rank c ≤ n) :
    Settled (chooseFrom d categories parent tokens) (chooseFrom d' categories parent tokens) := by
  induction categories with
  | nil => exact settled_ok _
  | cons category categories ih =>
    have hcategory := hn category List.mem_cons_self
    obtain ⟨hends, hends'⟩ := not_runsOut hd hs category parent hcategory
    rw [chooseFrom, chooseFrom, hends, hends', accepts_agrees hd hs category parent hcategory,
      if_neg Bool.false_ne_true, if_neg Bool.false_ne_true]
    split
    · exact phrase_settled hd hs category (hn category (by simp))
    · exact ih fun c hc => hn c (by simp [hc])

/-- Statements are settled: each of them leaves fewer tokens to the rest. -/
theorem statements_settled (hd : Agrees n d d') (hs : Sound d) (parent : Category)
    (closing : Option Kind) {k k' : Nat} {tokens : List Token} (hn : 8 * tokens.length + 6 ≤ n)
    (hk : tokens.length < k) (hk' : tokens.length < k') :
    Settled (statements d parent closing k tokens) (statements d' parent closing k' tokens) := by
  induction k generalizing tokens k' with
  | zero => omega
  | succ k ih =>
    obtain ⟨k', rfl⟩ : ∃ j, k' = j + 1 := ⟨k' - 1, by omega⟩
    have hle := length_significant_le [.newline, .semicolon] tokens
    rw [statements, statements]
    split
    · split
      · exact settled_ended
      · exact settled_ok _
    · rename_i t rest hrest
      rw [hrest] at hle
      split
      · exact settled_ok _
      · have hstatement : Settled (d.choose Grammar.statements parent (t :: rest))
            (d'.choose Grammar.statements parent (t :: rest)) := by
          refine hd.choose (by omega) fun c _ => ?_
          have := rank_lt c
          omega
        obtain ⟨heq, hne⟩ := hstatement
        rw [← heq]
        split
        · rename_i f hf
          exact settled_error hne hf
        · exact settled_refused
        · rename_i p rest' hp
          have hlt := hs.progress hp
          split
          · exact settled_refused
          · have hmore : Settled (statements d parent closing k rest')
                (statements d' parent closing k' rest') := ih (by omega) (by omega) (by omega)
            obtain ⟨heq', hne'⟩ := hmore
            rw [← heq']
            split
            · rename_i f hf
              exact settled_error hne' hf
            · exact settled_ok _

end

/-- A level agrees with every higher one on what needs less. -/
theorem level_agrees (n k : Nat) : Agrees n (level n) (level (n + k)) := by
  induction n with
  | zero => exact ⟨fun h => by omega, fun h => by omega, fun h => by omega⟩
  | succ n ih =>
    have hs := level_sound n
    rw [Nat.succ_add]
    refine ⟨fun _ hn => ?_, fun {_ _ tokens} hn => ?_, fun {tokens} hn => ?_⟩
    · exact chooseFrom_settled ih hs _ fun c hc => Nat.le_of_lt_succ (hn c hc)
    · exact statements_settled ih hs _ _ (by omega) (by omega) (by omega)
    · show tokens.length < n ∧ tokens.length < n + k
      omega

/-- Plain reading with as many levels as the tokens need. -/
def full : Oracle where
  choose categories parent tokens := (level (8 * tokens.length + 6)).choose categories parent tokens
  statements parent closing tokens := (level (8 * tokens.length + 7)).statements parent closing tokens
  rounds tokens := tokens.length + 1

/-- Every level agrees with reading at full depth on what it has enough levels for. -/
theorem agrees_full (n : Nat) : Agrees n (level n) full := by
  have settled {α : Type} {o o' o'' : Except Fault α} (h : Settled o o') (h' : o'' = o') :
      Settled o o'' := ⟨h.1.trans h'.symm, h.2⟩
  refine ⟨fun {categories parent tokens} hpos hn => ?_, fun {parent closing tokens} hn => ?_,
    fun {tokens} hn => ?_⟩
  · obtain ⟨m, hm⟩ : ∃ m, m = max n (8 * tokens.length + 6) := ⟨_, rfl⟩
    obtain ⟨i, hi⟩ := Nat.exists_eq_add_of_le (show n ≤ m by omega)
    obtain ⟨j, hj⟩ := Nat.exists_eq_add_of_le (show 8 * tokens.length + 6 ≤ m by omega)
    have hlevel : Settled ((level n).choose categories parent tokens)
        ((level (n + i)).choose categories parent tokens) := (level_agrees n i).choose hpos hn
    have hfull : Settled (full.choose categories parent tokens)
        ((level (8 * tokens.length + 6 + j)).choose categories parent tokens) := by
      refine (level_agrees (8 * tokens.length + 6) j).choose (by omega) fun c _ => ?_
      have := rank_lt c
      omega
    rw [← hi] at hlevel
    rw [← hj] at hfull
    exact settled hlevel hfull.1
  · obtain ⟨i, hi⟩ := Nat.exists_eq_add_of_le (show 8 * tokens.length + 7 ≤ n by omega)
    have hfull : Settled (full.statements parent closing tokens)
        ((level (8 * tokens.length + 7 + i)).statements parent closing tokens) :=
      (level_agrees (8 * tokens.length + 7) i).statements (by omega)
    rw [← hi] at hfull
    exact ⟨hfull.1.symm, hfull.1 ▸ hfull.2⟩
  · have hrounds := ((level_agrees n 0).rounds hn).1
    exact ⟨hrounds, Nat.lt_succ_self _⟩

/-- Reading at full depth only finds what the tokens spell. -/
theorem full_sound : Sound full where
  choose {_ _ tokens _ _} h := (level_sound (8 * tokens.length + 6)).choose h
  statements {_ _ tokens _ _} h := (level_sound (8 * tokens.length + 7)).statements h

/-- Reading a phrase with enough levels is choosing from the categories, one level down. -/
theorem full_choose (categories : List Category) (parent : Category) (tokens : List Token) :
    full.choose categories parent tokens = chooseFrom full categories parent tokens := by
  refine (chooseFrom_settled (agrees_full (8 * tokens.length + 5)) (level_sound _) parent
    fun c _ => ?_).1
  have := rank_lt c
  omega

/-- With enough levels, no trial runs out of them. -/
@[simp] theorem runsOut_full (category parent : Category) (tokens : List Token) :
    runsOut full category parent tokens = false :=
  (not_runsOut (agrees_full (8 * tokens.length + rank category)) (level_sound _) category parent
    (Nat.le_refl _)).2

/-- With enough levels, the first category is read if it is recognised, and the rest are tried if it is
not. -/
theorem chooseFrom_full_cons (category parent : Category) (categories : List Category)
    (tokens : List Token) :
    chooseFrom full (category :: categories) parent tokens =
      if accepts full category parent tokens then phrase full category tokens
      else chooseFrom full categories parent tokens := by
  rw [chooseFrom, runsOut_full, if_neg Bool.false_ne_true]

/-- Reading statements with enough levels is repeating statements, one level down. -/
theorem full_statements (parent : Category) (closing : Option Kind) (tokens : List Token) :
    full.statements parent closing tokens =
      statements full parent closing (tokens.length + 1) tokens :=
  (statements_settled (agrees_full (8 * tokens.length + 6)) (level_sound _) parent closing
    (Nat.le_refl _) (by omega) (by omega)).1

end TidyManifest.Plain
