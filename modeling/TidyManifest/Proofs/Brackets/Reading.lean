import TidyManifest.Proofs.Brackets.Residue
import TidyManifest.Proofs.Tree.Parsed

/-!
# The brackets of what is read

A phrase takes up brackets in matched pairs, so reading it does not change which brackets of the
tokens ahead have no partner.  Where the tokens end inside a block, everything before the end has
been taken up by finished phrases and by the braces that are still open.

The steps of a rule are looked at once.  `effect` says which brackets they leave and whether they
can meet the end of the tokens, from the steps alone; it gives nothing if they could meet it behind
a bracket that is not yet closed.  Every rule has an effect (`effect_rule`), and plain reading does
what the effect says (`inOrder_holds`, `level_bracketed`).
-/

namespace TidyManifest

open Parse Grammar

/-- Whether phrases of a category can hold a block of statements or the body of a resource. -/
def Category.holdsBlock : Category → Bool
  | manifest | classBlock | defineBlock | nodeBlock | branch | caseBlock | caseOption | resource
  | chain => true
  | _ => false

namespace Plain

/-- What a reading does with brackets: those that it leaves, and whether it never meets the end of
the tokens inside a block. -/
structure Effect where
  net : List Kind
  quiet : Bool
deriving DecidableEq

namespace Effect

/-- The effect of a token of one of some kinds, if they all have the same. -/
def ofKinds (kinds : List Kind) : Option Effect :=
  if kinds.all (!·.isBracket) then some ⟨[], true⟩
  else match kinds with
    | [k] => some ⟨[k], true⟩
    | _ => none

/-- The effect of a phrase of one of some categories. -/
def ofCategories (categories : List Category) : Effect :=
  ⟨[], categories.all (!·.holdsBlock)⟩

/-- A step that may be left out or repeated must not leave brackets. -/
def used (usage : Usage) (e : Effect) : Option Effect :=
  if (usage.optional || usage.many) && e.net != [] then none else some e

/-- What may meet the end of the tokens must not stand behind brackets that are left. -/
def followedBy (first more : Effect) : Option Effect :=
  if more.quiet || first.net == [] then
    some ⟨first.net.foldr push more.net, first.quiet && more.quiet⟩
  else none

end Effect

mutual

/-- The effect of a step that is read one time. -/
def effectOnce : Step → Option Effect
  | .token _ kinds => Effect.ofKinds kinds
  | .node _ categories => some (.ofCategories categories)
  | .group _ steps => effect steps
  | .choice _ branches => effectOfEach branches
  | .block _ => some ⟨[], false⟩

/-- The effect of steps that are read in order. -/
def effect : List Step → Option Effect
  | [] => some ⟨[], true⟩
  | step :: steps =>
    match (effectOnce step).bind (·.used step.usage), effect steps with
    | some first, some more => first.followedBy more
    | _, _ => none

/-- The effect of whichever branch is read; none of them may leave brackets. -/
def effectOfEach : List (List Step) → Option Effect
  | [] => some ⟨[], true⟩
  | branch :: branches =>
    match effect branch, effectOfEach branches with
    | some ⟨[], quiet⟩, some ⟨[], quiet'⟩ => some ⟨[], quiet && quiet'⟩
    | _, _ => none

end

/-- The steps of a rule leave no brackets, and meet the end only where the category allows it. -/
theorem effect_rule (category : Category) :
    ∃ quiet, effect category.rule.steps = some ⟨[], quiet⟩ ∧
      (category.holdsBlock = false → quiet = true) := by
  cases category <;> exact ⟨_, rfl, by decide⟩

/-- An outcome that has an effect. -/
structure Effect.Holds {α : Type} (e : Effect) (tokens : List Token) (o : Outcome α) : Prop where
  read : ∀ {a rest}, o = .ok (some (a, rest)) →
    unmatched tokens = e.net.foldr push (unmatched rest)
  ended : o = .error .ended → e.quiet = false ∧ ∃ n, Unclosed (n + 1) tokens

/-- A level that reads phrases and statements without leaving brackets. -/
structure Bracketed (d : Oracle) : Prop where
  choose : ∀ categories parent tokens,
    (Effect.ofCategories categories).Holds tokens (d.choose categories parent tokens)
  read : ∀ {parent closing tokens ps rest}, d.statements parent closing tokens = .ok (ps, rest) →
    unmatched tokens = unmatched rest
  ended : ∀ {parent closing tokens}, d.statements parent closing tokens = .error .ended →
    ∃ n, Unclosed n tokens ∧ (closing = none → 0 < n)

section

variable {α β : Type} {e first more : Effect} {tokens : List Token}

theorem holds_none : e.Holds tokens (.ok none : Outcome α) :=
  ⟨by simp, by simp⟩

/-- What is read has the effect if the tokens that it takes up have it. -/
theorem holds_some {a : α} {rest : List Token}
    (h : unmatched tokens = e.net.foldr push (unmatched rest)) :
    e.Holds tokens (.ok (some (a, rest)) : Outcome α) :=
  ⟨fun heq => by cases heq; exact h, by simp⟩

/-- A fault has the effect if brackets are left open when the tokens end too early. -/
theorem holds_error {f : Fault}
    (h : f = .ended → e.quiet = false ∧ ∃ n, Unclosed (n + 1) tokens) :
    e.Holds tokens (.error f : Outcome α) :=
  ⟨by simp, fun heq => h (Except.error.inj heq)⟩

/-- A reading whose result is used in another way. -/
theorem Effect.Holds.map {o : Outcome α} (h : e.Holds tokens o) (f : α → β) :
    e.Holds tokens (andThen o fun a rest => .ok (some (f a, rest))) := by
  rcases o with fault | _ | ⟨a, rest⟩
  · exact holds_error fun hf => h.ended (by rw [hf])
  · exact holds_none
  · exact holds_some (h.read rfl)

/-- One reading after another. -/
theorem Effect.Holds.followedBy {o : Outcome α} {next : α → List Token → Outcome β}
    (h : first.Holds tokens o) (he : first.followedBy more = some e)
    (hnext : ∀ {a rest}, o = .ok (some (a, rest)) → more.Holds rest (next a rest)) :
    e.Holds tokens (andThen o next) := by
  unfold Effect.followedBy at he
  split at he
  next hguard =>
    cases he
    rcases o with fault | _ | ⟨a, rest⟩
    · refine holds_error fun hf => ?_
      obtain ⟨hquiet, hunclosed⟩ := h.ended (by rw [hf])
      exact ⟨by simp [hquiet], hunclosed⟩
    · exact holds_none
    · have hmore := hnext rfl
      have htokens := h.read rfl
      refine ⟨fun hread => ?_, fun hended => ?_⟩
      · rw [htokens, hmore.read hread, foldr_foldr_push]
      · obtain ⟨hquiet, n, hunclosed⟩ := hmore.ended hended
        have hnet : first.net = [] := by simpa [hquiet] using hguard
        rw [hnet] at htokens
        exact ⟨by simp [hquiet], n, htokens.trans hunclosed⟩
  next => cases he

/-- Going to where a step starts passes over no bracket. -/
theorem unmatched_lead (usage : Usage) (tokens : List Token) :
    unmatched (lead usage tokens) = unmatched tokens := by
  unfold lead
  split
  · rfl
  · exact unmatched_significant _ (by decide) tokens

/-- Of the tokens, only the brackets without a partner matter. -/
theorem Effect.Holds.of_unmatched {tokens' : List Token} {o : Outcome α}
    (heq : unmatched tokens' = unmatched tokens) (h : e.Holds tokens' o) : e.Holds tokens o := by
  refine ⟨fun hread => heq.symm.trans (h.read hread), fun hended => ?_⟩
  obtain ⟨hquiet, n, hunclosed⟩ := h.ended hended
  exact ⟨hquiet, n, heq.symm.trans hunclosed⟩

/-- A token has the effect of its kind. -/
theorem holds_token {kinds : List Kind} {t : Token} {rest : List Token} {a : α}
    (he : Effect.ofKinds kinds = some e) (ht : t.kind ∈ kinds) :
    e.Holds (t :: rest) (.ok (some (a, rest)) : Outcome α) := by
  apply holds_some
  unfold Effect.ofKinds at he
  split at he
  · rename_i hkinds
    cases he
    exact unmatched_cons_other (by simpa using List.all_eq_true.mp hkinds _ ht) rest
  · rename_i hkinds
    split at he
    · rename_i k _
      cases he
      obtain rfl := List.mem_singleton.mp ht
      exact unmatched_cons (by simpa using hkinds) rest
    · cases he

end

section

variable {e e' : Effect} {reading : List Token → Outcome (Trace Phrase)}
  (hreading : ∀ tokens, e.Holds tokens (reading tokens))

include hreading

/-- Repeating what leaves no brackets. -/
theorem again_holds (hnet : e.net = []) (n : Nat) (tokens : List Token) :
    (∀ {trace rest}, again reading n tokens = .ok (trace, rest) →
      unmatched tokens = unmatched rest) ∧
    (again reading n tokens = .error .ended → e.quiet = false ∧ ∃ n, Unclosed (n + 1) tokens) := by
  induction n generalizing tokens with
  | zero => simp [again]
  | succ n ih =>
    have hfirst := hreading tokens
    rw [again]
    rcases hr : reading tokens with f | _ | ⟨trace, rest⟩
    · exact ⟨by simp, fun h => hfirst.ended (by rw [hr]; cases h; rfl)⟩
    · exact ⟨fun h => by cases h; rfl, by simp⟩
    · have htokens := hfirst.read hr
      rw [hnet] at htokens
      obtain ⟨hread, hended⟩ := ih rest
      dsimp only
      split
      · exact ⟨fun h => by cases h; exact htokens, by simp⟩
      rcases hmore : again reading n rest with f | ⟨trace', rest'⟩
      · refine ⟨by simp, fun h => ?_⟩
        obtain ⟨hquiet, n, hunclosed⟩ := hended (by rw [hmore]; cases h; rfl)
        exact ⟨hquiet, n, htokens.trans hunclosed⟩
      · exact ⟨fun h => by cases h; exact htokens.trans (hread hmore), by simp⟩

/-- A step has its effect as often as it is used. -/
theorem used_holds {usage : Usage} (he : e.used usage = some e') (rounds : List Token → Nat)
    (tokens : List Token) : e'.Holds tokens (used usage rounds reading tokens) := by
  have hfirst := hreading tokens
  unfold Effect.used at he
  split at he
  · cases he
  rename_i hnet
  cases he
  have hempty (h : usage.optional = true ∨ usage.many = true) : e.net = [] := by
    simpa [h] using hnet
  rw [used]
  rcases hr : reading tokens with f | _ | ⟨trace, rest⟩
  · exact holds_error fun hf => hfirst.ended (by rw [hr, hf])
  · dsimp only
    split
    · rename_i hoptional
      apply holds_some
      rw [hempty (.inl hoptional)]
      rfl
    · exact holds_none
  · have htokens := hfirst.read hr
    dsimp only
    split
    · rename_i hmany
      have hnil := hempty (.inr hmany)
      obtain ⟨hread, hended⟩ := again_holds hreading hnil (rounds rest) rest
      rw [hnil] at htokens
      rcases hmore : again reading (rounds rest) rest with f | ⟨trace', rest'⟩
      · refine holds_error fun hf => ?_
        obtain ⟨hquiet, n, hunclosed⟩ := hended (by rw [hmore, hf])
        exact ⟨hquiet, n, htokens.trans hunclosed⟩
      · apply holds_some
        rw [hnil]
        exact htokens.trans (hread hmore)
    · exact holds_some htokens

end

section

variable {d : Oracle} {owner : Category}

/-- The braces of a block are a pair, and the end of the tokens leaves the first of them open. -/
theorem block_holds (hd : Bracketed d) (hs : Sound d) (usage : Usage) (tokens : List Token) :
    (⟨[], false⟩ : Effect).Holds tokens (once d owner (.block usage) tokens) := by
  apply Effect.Holds.of_unmatched (unmatched_lead usage tokens)
  rw [once]
  cases lead usage tokens with
  | nil => exact holds_none
  | cons t rest =>
    by_cases ht : t.kind = .leftBrace
    · simp only [ht, beq_self_eq_true, if_true]
      rcases hbody : d.statements owner (some .rightBrace) rest with f | ⟨ps, after⟩
      · refine holds_error fun hf => ⟨rfl, ?_⟩
        obtain ⟨n, hunclosed, -⟩ := hd.ended (hbody.trans (by rw [hf]))
        exact ⟨n, unclosed_cons ht hunclosed⟩
      · apply holds_some
        have hclosing := (hs.statements hbody).2
        cases after with
        | nil => cases hclosing
        | cons closing after =>
          exact unmatched_braces ht (by simpa using hclosing) (hd.read hbody)
    · simp only [beq_iff_eq, ht, if_false]
      exact holds_none

mutual

/-- A step does with brackets what its effect says. -/
theorem once_holds (hd : Bracketed d) (hs : Sound d) (step : Step) {e : Effect}
    (he : effectOnce step = some e) (tokens : List Token) :
    e.Holds tokens (once d owner step tokens) := by
  cases step with
  | token usage kinds =>
    rw [effectOnce] at he
    apply Effect.Holds.of_unmatched (unmatched_lead usage tokens)
    rw [once]
    cases lead usage tokens with
    | nil => exact holds_none
    | cons t rest =>
      dsimp only
      split
      · rename_i ht
        exact holds_token he (by simpa [Token.isOneOf] using ht)
      · exact holds_none
  | node usage categories =>
    rw [effectOnce] at he
    cases he
    apply Effect.Holds.of_unmatched (unmatched_lead usage tokens)
    rw [once]
    exact (hd.choose categories owner (lead usage tokens)).map _
  | group usage steps =>
    rw [effectOnce] at he
    apply Effect.Holds.of_unmatched (unmatched_lead usage tokens)
    rw [once]
    exact inOrder_holds hd hs steps he _
  | choice usage branches =>
    rw [effectOnce] at he
    apply Effect.Holds.of_unmatched (unmatched_lead usage tokens)
    rw [once]
    exact firstOf_holds hd hs branches he _
  | block usage =>
    rw [effectOnce] at he
    cases he
    exact block_holds hd hs usage tokens

/-- Steps in order do with brackets what their effect says. -/
theorem inOrder_holds (hd : Bracketed d) (hs : Sound d) (steps : List Step) {e : Effect}
    (he : effect steps = some e) (tokens : List Token) :
    e.Holds tokens (inOrder d owner steps tokens) := by
  cases steps with
  | nil =>
    rw [effect] at he
    cases he
    rw [inOrder]
    exact holds_some rfl
  | cons step steps =>
    rw [effect] at he
    split at he
    next first more hfirst hmore =>
      obtain ⟨e₁, honce, hused⟩ := Option.bind_eq_some_iff.mp hfirst
      rw [inOrder]
      refine Effect.Holds.followedBy (used_holds (fun tokens => once_holds hd hs step honce tokens)
        hused d.rounds tokens) he fun {trace rest} _ => ?_
      exact (inOrder_holds hd hs steps hmore rest).map _
    next => cases he

/-- The branch that is read does with brackets what the effect of all branches says. -/
theorem firstOf_holds (hd : Bracketed d) (hs : Sound d) (branches : List (List Step)) {e : Effect}
    (he : effectOfEach branches = some e) (tokens : List Token) :
    e.Holds tokens (firstOf d owner branches tokens) := by
  cases branches with
  | nil =>
    rw [firstOf]
    exact holds_none
  | cons branch branches =>
    rw [effectOfEach] at he
    split at he
    next quiet quiet' hbranch hothers =>
      cases he
      have hfirst : Effect.Holds ⟨[], quiet⟩ tokens (inOrder d owner branch tokens) :=
        inOrder_holds hd hs branch hbranch tokens
      have hrest : Effect.Holds ⟨[], quiet'⟩ tokens (firstOf d owner branches tokens) :=
        firstOf_holds hd hs branches hothers tokens
      rw [firstOf]
      split
      · refine ⟨hrest.read, fun hended => ?_⟩
        obtain ⟨hquiet, hunclosed⟩ := hrest.ended hended
        exact ⟨by simp_all, hunclosed⟩
      · refine ⟨hfirst.read, fun hended => ?_⟩
        obtain ⟨hquiet, hunclosed⟩ := hfirst.ended hended
        exact ⟨by simp_all, hunclosed⟩
    next => cases he

end

end

section

variable {d : Oracle}

/-- The items of a resource leave the brace that closes it, unless the tokens end before it. -/
theorem items_brackets (hd : Bracketed d) (n : Nat) (tokens : List Token) :
    (∀ {ps rest}, items d n tokens = .ok (some (ps, rest)) →
      unmatched tokens = push .rightBrace (unmatched rest)) ∧
    (items d n tokens = .error .ended → ∃ n, Unclosed n tokens) := by
  induction n generalizing tokens with
  | zero => simp [items]
  | succ n ih =>
    have hskip := unmatched_significant newlines (by decide) tokens
    simp only [Unclosed, ← hskip]
    rw [items]
    cases Lookahead.significant newlines tokens with
    | nil => exact ⟨by simp, fun _ => ⟨0, rfl⟩⟩
    | cons t rest =>
      dsimp only
      split
      · rename_i ht
        have hkind : t.kind = .rightBrace := by simpa using ht
        refine ⟨fun h => ?_, by simp⟩
        cases h
        rw [unmatched_cons (by rw [hkind]; rfl), hkind]
      split
      · rename_i ht
        have hbracket : t.kind.isBracket = false := by
          have hkind : t.kind = .semicolon ∨ t.kind = .comma := by simpa using ht
          rcases hkind with hkind | hkind <;> rw [hkind] <;> rfl
        rw [unmatched_cons_other hbracket]
        exact ih rest
      · -- no item can hold a block, so the tokens end between two items only
        obtain ⟨categories, hcategories, hquiet⟩ : ∃ categories, categories =
            (if t.kind == .comment || t.kind == .blockComment then comments
              else if atPair (t :: rest) then [.pair] else [.title]) ∧
            (Effect.ofCategories categories).quiet = true := by
          refine ⟨_, rfl, ?_⟩
          split
          · rfl
          · split <;> rfl
        rw [← hcategories]
        have hitem := hd.choose categories .resource (t :: rest)
        rcases hr : d.choose categories .resource (t :: rest) with f | _ | ⟨item, rest'⟩
        · refine ⟨by simp, fun h => ?_⟩
          obtain ⟨hfalse, -⟩ := hitem.ended (by rw [hr]; cases h; rfl)
          rw [hquiet] at hfalse
          cases hfalse
        · exact ⟨by simp, by simp⟩
        · have htokens : unmatched (t :: rest) = unmatched rest' := hitem.read hr
          rw [htokens, andThen_some]
          obtain ⟨hread, hended⟩ := ih rest'
          rcases hmore : items d n rest' with f | _ | ⟨ps, rest''⟩
          · exact ⟨by simp, fun h => hended (by rw [hmore]; cases h; rfl)⟩
          · exact ⟨by simp, by simp⟩
          · exact ⟨fun h => by cases h; exact hread hmore, by simp⟩

/-- What follows the head of a resource. -/
theorem resource_holds (hd : Bracketed d) (trace : Trace Phrase) (tokens : List Token) :
    (⟨[], false⟩ : Effect).Holds tokens (resource d trace tokens) := by
  have hskip := unmatched_significant newlines (by decide) tokens
  unfold resource
  dsimp only
  split
  · exact holds_none
  split
  · rename_i t rest hsignificant
    split
    · rename_i hbrace
      have ht : t.kind = .leftBrace := by simpa using hbrace
      obtain ⟨hread, hended⟩ := items_brackets hd (d.rounds rest) rest
      rw [hsignificant] at hskip
      suffices h : (⟨[], false⟩ : Effect).Holds tokens (items d (d.rounds rest) rest) from h.map _
      refine ⟨fun h => ?_, fun h => ⟨rfl, ?_⟩⟩
      · rw [← hskip, unmatched_cons (by rw [ht]; rfl), hread h, ht, push_push rfl]
        rfl
      · obtain ⟨n, hunclosed⟩ := hended h
        exact ⟨n, hskip.symm.trans (unclosed_cons ht hunclosed)⟩
    · split
      · exact holds_some rfl
      · exact holds_none
  · split
    · exact holds_some rfl
    · exact holds_none

/-- A phrase takes up its brackets in pairs. -/
theorem phrase_holds (hd : Bracketed d) (hs : Sound d) (category : Category) (tokens : List Token) :
    (⟨[], !category.holdsBlock⟩ : Effect).Holds tokens (phrase d category tokens) := by
  obtain ⟨quiet, heffect, hquiet⟩ := effect_rule category
  apply Effect.Holds.of_unmatched (unmatched_significant newlines (by decide) tokens)
  have hsteps : (⟨[], quiet⟩ : Effect).Holds (Lookahead.significant newlines tokens)
      (inOrder d category category.rule.steps (Lookahead.significant newlines tokens)) :=
    inOrder_holds hd hs _ heffect _
  unfold phrase
  dsimp only
  rcases hr : inOrder d category category.rule.steps (Lookahead.significant newlines tokens) with
    f | _ | ⟨trace, rest⟩
  · refine holds_error fun hf => ?_
    obtain ⟨hfalse, hunclosed⟩ := hsteps.ended (by rw [hr, hf])
    refine ⟨?_, hunclosed⟩
    cases hholds : category.holdsBlock with
    | true => rfl
    | false =>
      rw [hquiet hholds] at hfalse
      cases hfalse
  · exact holds_none
  · have htokens : unmatched (Lookahead.significant newlines tokens) = unmatched rest :=
      hsteps.read hr
    rw [andThen_some]
    split
    · rename_i hresource
      obtain rfl : category = .resource := by simpa using hresource
      have hbody (line : Nat) := (resource_holds hd trace rest).map fun form => Phrase.mk line form
      refine ⟨fun h => htokens.trans ((hbody _).read h), fun h => ?_⟩
      obtain ⟨-, n, hunclosed⟩ := (hbody _).ended h
      exact ⟨rfl, n, htokens.trans hunclosed⟩
    · split
      · exact holds_none
      · exact holds_some htokens

/-- Whichever category is chosen, it has the effect of the choice. -/
theorem chooseFrom_holds (hd : Bracketed d) (hs : Sound d) (categories : List Category)
    (parent : Category) (tokens : List Token) :
    (Effect.ofCategories categories).Holds tokens (chooseFrom d categories parent tokens) := by
  induction categories with
  | nil => exact holds_none
  | cons category categories ih =>
    rw [chooseFrom]
    split
    · exact holds_error fun h => by cases h
    split
    · have hphrase := phrase_holds hd hs category tokens
      refine ⟨hphrase.read, fun h => ?_⟩
      obtain ⟨hfalse, hunclosed⟩ := hphrase.ended h
      exact ⟨by simp_all [Effect.ofCategories], hunclosed⟩
    · refine ⟨ih.read, fun h => ?_⟩
      obtain ⟨hfalse, hunclosed⟩ := ih.ended h
      refine ⟨?_, hunclosed⟩
      simp only [Effect.ofCategories, List.all_cons] at hfalse ⊢
      rw [hfalse, Bool.and_false]

/-- Statements leave brackets as they found them, unless the tokens end too early. -/
theorem statements_brackets (hd : Bracketed d) (parent : Category) (closing : Option Kind) (n : Nat)
    (tokens : List Token) :
    (∀ {ps rest}, statements d parent closing n tokens = .ok (ps, rest) →
      unmatched tokens = unmatched rest) ∧
    (statements d parent closing n tokens = .error .ended →
      ∃ n, Unclosed n tokens ∧ (closing = none → 0 < n)) := by
  induction n generalizing tokens with
  | zero => simp [statements]
  | succ n ih =>
    have hskip := unmatched_significant [.newline, .semicolon] (by decide) tokens
    simp only [Unclosed, ← hskip]
    rw [statements]
    cases Lookahead.significant [.newline, .semicolon] tokens with
    | nil =>
      cases closing with
      | none => exact ⟨fun h => by cases h; rfl, by simp⟩
      | some kind => exact ⟨by simp, fun _ => ⟨0, rfl, by simp⟩⟩
    | cons t rest =>
      dsimp only
      split
      · exact ⟨fun h => by cases h; rfl, by simp⟩
      have hstatement := hd.choose Grammar.statements parent (t :: rest)
      rcases hr : d.choose Grammar.statements parent (t :: rest) with f | _ | ⟨p, rest'⟩
      · refine ⟨by simp, fun h => ?_⟩
        obtain ⟨-, n, hunclosed⟩ := hstatement.ended (by rw [hr]; cases h; rfl)
        exact ⟨n + 1, hunclosed, fun _ => Nat.succ_pos n⟩
      · exact ⟨by simp, by simp⟩
      · have htokens : unmatched (t :: rest) = unmatched rest' := hstatement.read hr
        dsimp only
        split
        · exact ⟨by simp, by simp⟩
        rw [htokens]
        obtain ⟨hread, hended⟩ := ih rest'
        rcases hmore : statements d parent closing n rest' with f | ⟨ps, rest''⟩
        · exact ⟨by simp, fun h => hended (by rw [hmore]; cases h; rfl)⟩
        · exact ⟨fun h => by cases h; exact hread hmore, by simp⟩

end

/-- Every level of plain reading takes up brackets in pairs. -/
theorem level_bracketed (n : Nat) : Bracketed (level n) := by
  induction n with
  | zero => exact ⟨fun _ _ _ => holds_error (by simp), by simp [level], by simp [level]⟩
  | succ n ih =>
    exact ⟨fun categories parent tokens =>
        chooseFrom_holds ih (level_sound n) categories parent tokens,
      (statements_brackets ih _ _ n _).1, (statements_brackets ih _ _ n _).2⟩

end Plain

/-- The brackets of tokens that parse are properly nested and all matched.  Where a parse meets the
end of the tokens, braces are all that is left of them when matched pairs are cancelled: they have
not been closed, and there is at least one. -/
theorem parse_brackets (mode : SplitMode) (tokens : List Token) :
    (∀ t, parse mode tokens = .ok t → Nested (brackets tokens)) ∧
    (parse mode tokens = .error .unexpectedEnd →
      ∃ n, residue (brackets tokens) = List.replicate (n + 1) .leftBrace) := by
  have hlevel := Plain.level_bracketed (Parse.levels tokens)
  constructor
  · intro t h
    obtain ⟨ps, hps, -⟩ := parse_eq_ok h
    unfold Plain.manifest at hps
    split at hps
    · cases hps
    · rename_i rest hstatements
      have hrest := ((Plain.level_sound _).statements hstatements).2
      obtain rfl : rest = [] := by simpa using hrest
      exact nested_of_residue (hlevel.read hstatements)
  · intro h
    obtain ⟨f, hf, hexplains⟩ := parse_eq_error h
    obtain rfl := hexplains.eq_ended
    unfold Plain.manifest at hf
    split at hf
    · rename_i f hstatements
      cases hf
      obtain ⟨n, hunclosed, hpos⟩ := hlevel.ended hstatements
      obtain ⟨m, rfl⟩ := Nat.exists_eq_succ_of_ne_zero (Nat.ne_of_gt (hpos rfl))
      exact ⟨m, hunclosed⟩
    · cases hf

/-- A call in a block that is not closed, and the same block with its closing brace. -/
theorem parse_brackets_of_block :
    let opened : List Token :=
      [⟨.kwElse, "else", 1⟩, ⟨.leftBrace, "\x7b", 1⟩, ⟨.name, "f", 1⟩, ⟨.leftParen, "(", 1⟩,
       ⟨.rightParen, ")", 1⟩]
    let closed := opened ++ [⟨.rightBrace, "\x7d", 1⟩]
    (parse .splice opened = .error .unexpectedEnd ∧
      ∃ n, residue (brackets opened) = List.replicate (n + 1) .leftBrace) ∧
    ∃ t, parse .splice closed = .ok t ∧ Nested (brackets closed) := by
  intro opened closed
  have hopened : (match parse .splice opened with
      | .error e => e == .unexpectedEnd
      | .ok _ => false) = true := by decide +kernel
  have hclosed : (parse .splice closed).toOption.isSome = true := by decide +kernel
  constructor
  · rcases hparse : parse .splice opened with e | t
    · rw [hparse] at hopened
      obtain rfl : e = .unexpectedEnd := by simpa using hopened
      exact ⟨rfl, (parse_brackets .splice opened).2 hparse⟩
    · rw [hparse] at hopened
      cases hopened
  · rcases hparse : parse .splice closed with e | t
    · rw [hparse] at hclosed
      cases hclosed
    · exact ⟨t, rfl, (parse_brackets .splice closed).1 t hparse⟩

end TidyManifest
