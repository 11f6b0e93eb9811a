import TidyManifest.Proofs.Blame.Nodes

/-!
# What a title leaves behind

A title that is read leaves a failure at its colon, because the list of titles could have gone on
with a comma there (`title_failed`).  The argument works for all steps that start with a token and
are read as often as they can be: the last attempt fails at the token behind them
(`readListed_stopped`).
-/

namespace TidyManifest.Parse

open Grammar (newlines)

/-- A failure is remembered at one of the last `n` tokens. -/
def FailedIn (n : Nat) (s : State) : Prop :=
  ∃ known ∈ s.furthest, s.cursor.toList.length ≤ known.1 + n

section

variable {n k : Nat} {s s' : State}

/-- A failure among some tokens is one among more. -/
theorem FailedIn.mono (h : FailedIn n s) (hle : n ≤ k) : FailedIn k s := by
  obtain ⟨known, hknown, hlength⟩ := h
  exact ⟨known, hknown, by omega⟩

/-- Further notes do not move a failure back. -/
theorem FailedIn.of_notes (h : FailedIn n s) (h' : Notes s s') : FailedIn n s' := by
  obtain ⟨known, hknown, hlength⟩ := h
  obtain ⟨known', hknown', hle⟩ := h'.grows known hknown
  refine ⟨known', hknown', ?_⟩
  rw [h'.tokens]
  omega

/-- Taking readings back does not take back the notes. -/
theorem FailedIn.returnTo (h : FailedIn n s) (mark : Mark) : FailedIn n (s.returnTo mark) := by
  obtain ⟨known, hknown, hlength⟩ := h
  exact ⟨known, hknown, by simpa [State.returnTo] using hlength⟩

/-- A failure that is noted at the next token is one among those ahead. -/
theorem failedIn_recordFailure {t : Token} (h : s.cursor.current = some t) :
    FailedIn s.ahead.length s.recordFailure := by
  have hlength := Cursor.length_toList s.cursor
  unfold State.recordFailure
  rw [h]
  dsimp only
  split
  · refine ⟨_, rfl, ?_⟩
    rw [hlength]
    exact Nat.le_refl _
  · rename_i hall
    cases hfurthest : s.furthest with
    | none => simp [hfurthest] at hall
    | some known =>
      refine ⟨known, hfurthest, ?_⟩
      simp only [hfurthest, Option.all_some, decide_eq_true_eq] at hall
      rw [State.ahead]
      omega

end

section

variable {mode : SplitMode} {n : Nat} {owner : NodeId} {parent : Category} {level : Int}
  {log kept : Captures} {kinds : List Kind} {s s' : State}

/-- Reading one step is using it as its rule says. -/
theorem readSteps_one (d : Descent) (owner : NodeId) (step : Step) (log : Captures) (s : State) :
    readSteps d owner [step] log s =
      asUsed step.usage d.rounds (fun log => readOnce d owner step log) log s := by
  rw [readSteps]
  simp only [bind_apply]
  rcases asUsed step.usage d.rounds (fun log => readOnce d owner step log) log s with
    ⟨⟨_ | _, kept⟩, s'⟩ | ⟨e, s'⟩ <;> simp [readSteps]

/-- Steps that start with a token fail where another token stands, and the failure is remembered. -/
theorem readSteps_failed {d : Descent} {steps : List Step} {found : Bool} {t : Token}
    (hcurrent : (s.skip newlines).cursor.current = some t) (ht : t.isOneOf kinds = false)
    (h : readSteps d owner (Step.expect kinds :: steps) log s = .ok (found, kept) s') :
    found = false ∧ FailedIn (s.skip newlines).ahead.length s' := by
  have hfailed := failedIn_recordFailure hcurrent
  rw [readSteps] at h
  simp only [Step.expect, Step.usage, bind_apply, asUsed, readOnce, attempt_apply, readToken,
    get_apply, atLead, Bool.false_eq_true, if_false, hcurrent, ht, modify_apply, pure_apply,
    Bool.not_false, if_true] at h
  cases h
  exact ⟨rfl, hfailed.returnTo _⟩

/-- If the next token is of none of the given kinds, a step that could have gone on with one of them
has failed here. -/
def StoppedBy (kinds : List Kind) (s : State) : Prop :=
  ∀ t, (s.skip newlines).cursor.current = some t → t.isOneOf kinds = false →
    FailedIn (s.skip newlines).ahead.length s

/-- Steps that start with a token and are read as often as they can be. -/
def listed (kinds : List Kind) (steps : List Step) : Step :=
  (Step.inOrder (Step.expect kinds :: steps)).many.maybe

section

variable {reading : Captures → Reader (Bool × Captures)} {stopped : State → Prop}
  (hfails : ∀ {log kept s s'}, owner < s.tree.size → reading log s = .ok (false, kept) s' →
    stopped s')
  (hfinds : ∀ {log kept s s'}, owner < s.tree.size → reading log s = .ok (true, kept) s' →
    s.cursor.position < s'.cursor.position ∧ owner < s'.tree.size)

include hfails hfinds

/-- A reading that is repeated ends where it fails, if it moves on as long as it does not. -/
theorem repeatedly_stopped {rounds : Nat} (ho : owner < s.tree.size)
    (h : repeatedly reading rounds log s = .ok kept s') : stopped s' := by
  induction rounds generalizing log s with
  | zero => cases h
  | succ rounds ih =>
    simp only [repeatedly, bind_apply, get_apply] at h
    rcases hr : reading log s with ⟨⟨_ | _, kept'⟩, s₁⟩ | ⟨e, s₁⟩
    all_goals rw [hr] at h
    · cases h
      exact hfails ho hr
    · obtain ⟨hmoved, ho₁⟩ := hfinds ho hr
      simp only [Bool.true_and, bne_iff_ne, ne_eq, Nat.ne_of_gt hmoved, not_false_eq_true,
        if_true] at h
      exact ih ho₁ h
    · cases h

/-- A step that is repeated stops where it can be read no more. -/
theorem asUsed_stopped {rounds : Nat} {usage : Usage} (hmany : usage.many = true)
    (ho : owner < s.tree.size) {found : Bool}
    (h : asUsed usage rounds reading log s = .ok (found, kept) s') : stopped s' := by
  rcases asUsed_ok h with hr | ⟨-, honce⟩ | ⟨-, log₁, s₁, hr, hrepeated⟩
  · exact hfails ho hr
  · rw [honce] at hmany
    cases hmany
  · exact repeatedly_stopped hfails hfinds (hfinds ho hr).2 hrepeated

end

/-- A list stops where its separator is missing. -/
theorem listed_stopped {steps : List Step} (hyields : ∀ c, yields c (listed kinds steps) = true)
    (ho : owner < s.tree.size)
    (h : readOnce (descent mode n) owner (listed kinds steps) log s = .ok (false, kept) s') :
    StoppedBy kinds s' := by
  obtain ⟨hsame, -⟩ := readOnce_none (.of_lt ho) (hyields _) h
  have hskip : (s'.skip newlines).cursor = (s.skip newlines).cursor := by
    rw [State.skip, hsame.cursor, State.skip]
  intro t hcurrent ht
  rw [hskip] at hcurrent
  have hfix : ((s.skip newlines).skip newlines).ahead = (s.skip newlines).ahead := by
    rw [ahead_skip, ahead_skip, Lookahead.significant_significant]
  simp only [listed, Step.inOrder, Step.many, Step.maybe, Step.withUsage, readOnce, attempt_apply,
    atLead, Bool.false_eq_true, if_false] at h
  rcases hr : readSteps (descent mode n) owner (Step.expect kinds :: steps) log
    (s.skip newlines) with ⟨⟨found, kept'⟩, s₁⟩ | ⟨e, s₁⟩
  · obtain ⟨rfl, hfailed⟩ := readSteps_failed ((congrArg List.head? hfix).trans hcurrent) ht hr
    rw [hr] at h
    cases h
    rw [hfix] at hfailed
    rw [State.ahead, hskip]
    exact hfailed.returnTo _
  · rw [hr] at h
    cases h

/-- Behind a list the next token is where the list failed to go on. -/
theorem readListed_stopped {steps : List Step} (hyields : ∀ c, yields c (listed kinds steps) = true)
    (ho : owner < s.tree.size) {found : Bool}
    (h : readSteps (descent mode n) owner [listed kinds steps] log s = .ok (found, kept) s') :
    StoppedBy kinds s' := by
  rw [readSteps_one] at h
  refine asUsed_stopped (fun ho h => listed_stopped hyields ho h) (fun {log kept s s'} ho h => ?_)
    rfl ho h
  have hstepped := readOnce_stepped (descent_progresses mode n) (listed kinds steps) hyields log ho
  have hmoved := hstepped.moved rfl h
  rw [h] at hstepped
  exact ⟨hmoved, Nat.lt_of_lt_of_le ho hstepped.runs.size_le⟩

/-- A title that is read leaves a failure at its colon. -/
theorem title_failed (ho : Owns s owner parent level) {id : NodeId}
    (h : (descent mode n).choose [.title] owner s = .ok (some id) s') :
    FailedIn s.ahead.length s' := by
  cases n with
  | zero => cases h
  | succ n =>
    have hd := descent_follows mode n
    have hread : chooseFrom mode (descent mode n) [.title] owner s = _ :=
      chooseFrom_of_accepts hd (by decide) (by decide) ho rfl []
    replace h := hread.symm.trans h
    obtain ⟨log, form, s₃, hsteps, rfl⟩ := readCategory_some rfl h
    let first : Step := (Step.oneOf [.expression]).named "titles"
    let more : Step := listed [.comma] [first]
    obtain ⟨log₁, s₁, h₁, hsteps⟩ := readSteps_append_true
      (show readSteps _ _ ([first] ++ ([more] ++ [Step.expect [.colon]])) _ _ = _ from hsteps)
    obtain ⟨log₂, s₂, h₂, h₃⟩ := readSteps_append_true hsteps
    have ho₀ : Owns (entered .title owner s) s.tree.size .title (level + 1) := owns_entered ho
    have hextends₁ := (h₁ ▸ readSteps_loose hd [first] {} ho₀ (.inr rfl) :
      Loose s.tree.size (level + 1) {} _ _ (.ok (true, log₁) s₁)).extends
    have ho₁ := ho₀.of_extends hextends₁
    have hextends₂ := (h₂ ▸ readSteps_loose hd [more] log₁ ho₁ (.inr rfl) :
      Loose s.tree.size (level + 1) log₁ _ _ (.ok (true, log₂) s₂)).extends
    obtain ⟨⟨t, hcurrent, ht⟩, rfl⟩ := readSteps_token h₃
    have hstopped : StoppedBy [.comma] s₂ := readListed_stopped (fun c => rfl) ho₁.lt h₂
    have hcomma : t.isOneOf [.comma] = false := by
      have hcolon : t.kind = .colon := by simpa [Token.isOneOf] using ht
      simp [Token.isOneOf, hcolon]
    have hfailed := hstopped t hcurrent hcomma
    have honward := ((extends_entered .title ho).trans (hextends₁.trans (hextends₂.trans
      (extends_skip s₂ newlines)))).onward
    exact ((hfailed.mono honward).of_notes ((notes_skip s₂ newlines).trans
      (notes_advance _))).of_notes (notes_completed ..)

end

end TidyManifest.Parse
