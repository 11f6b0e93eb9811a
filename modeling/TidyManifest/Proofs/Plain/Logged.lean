import TidyManifest.Proofs.Plain.Numbering
import TidyManifest.Proofs.Splitting.Failures

/-!
# What the steps of a rule leave in the log

A rule and the contents of its category are written down in two places that share nothing but the
names in the log.  This module says that they go together: whenever the parser gets through the
steps of a rule, in whatever state it starts, the log has everything the contents of the category
need (`readSteps_complete`).

The log is grown by steps that fail halfway, and cut back behind them.  What is left of it, if all
steps are read, is one of the sequences that the steps can read (`Logged`), with numbers for nodes.
A number alone does not say what was read there, so each stands with one of the categories that its
step asks for.
-/

namespace TidyManifest.Parse

open Plain (Trace Fits FitsOnce FitsOne FitsUsed logOf relabel)

/-- The number of a node that was read, and a category that was asked for there. -/
abbrev Reading := NodeId × Category

/-- The category that was asked for. -/
def asked (reading : Reading) : Category :=
  reading.2

/-- The log with what was read after it. -/
def after (log : Captures) (trace : Trace Reading) : Captures :=
  ⟨log.entries ++ logOf (relabel Prod.fst trace)⟩

@[simp] theorem after_nil (log : Captures) : after log [] = log := by
  simp [after, relabel]

/-- Keeping two traces one after the other is keeping both. -/
@[simp] theorem after_after (log : Captures) (first more : Trace Reading) :
    after (after log first) more = after log (first ++ more) := by
  simp [after, relabel]

/-- A node is found only where some category is asked for. -/
def Descent.Asks (d : Descent) : Prop :=
  ∀ owner s id s', d.choose [] owner s ≠ .ok (some id) s'

/-- What a reading that may fail halfway does to the log. -/
inductive Logged (fits : Trace Reading → Prop) (log : Captures) :
    EStateM.Result ParseError State (Bool × Captures) → Prop
  | error {e : ParseError} {s : State} : Logged fits log (.error e s)
  | missing {entries : List (String × Capture)} {s : State} :
      Logged fits log (.ok (false, ⟨log.entries ++ entries⟩) s)
  | found {trace : Trace Reading} {s : State} (h : fits trace) :
      Logged fits log (.ok (true, after log trace) s)

/-- What a reading that takes everything back does to the log. -/
inductive LoggedWhole (fits : Trace Reading → Prop) (log : Captures) :
    EStateM.Result ParseError State (Bool × Captures) → Prop
  | error {e : ParseError} {s : State} : LoggedWhole fits log (.error e s)
  | missing {s : State} : LoggedWhole fits log (.ok (false, log) s)
  | found {trace : Trace Reading} {s : State} (h : fits trace) :
      LoggedWhole fits log (.ok (true, after log trace) s)

section

variable {fits fits' : Trace Reading → Prop} {log : Captures} {s : State}
  {r : EStateM.Result ParseError State (Bool × Captures)}

/-- A reading that keeps all or nothing keeps what it reads. -/
theorem LoggedWhole.logged (h : LoggedWhole fits log r) : Logged fits log r := by
  cases h with
  | error => exact .error
  | @missing s =>
    have hmissing : Logged fits log (.ok (false, ⟨log.entries ++ []⟩) s) := .missing
    rwa [List.append_nil] at hmissing
  | found h => exact .found h

/-- What fits one description of a trace may fit a wider one. -/
theorem LoggedWhole.mono (h : LoggedWhole fits log r) (hfits : ∀ trace, fits trace → fits' trace) :
    LoggedWhole fits' log r := by
  cases h with
  | error => exact .error
  | missing => exact .missing
  | found h => exact .found (hfits _ h)

/-- An attempt cuts the log back. -/
theorem attempt_logged {usage : Usage} {reading : Captures → Reader (Bool × Captures)}
    (h : Logged fits log (reading log (atLead usage s))) :
    LoggedWhole fits log (attempt usage reading log s) := by
  rw [attempt_apply]
  generalize reading log (atLead usage s) = r at h
  cases h with
  | error => exact .error
  | missing =>
    dsimp only
    rw [take_size_append]
    exact .missing
  | found h => exact .found h

/-- Keeping one thing under a name is keeping a trace of one entry. -/
theorem addIf_eq_after (label : Option String) (value : Capture Reading) :
    log.addIf label (value.map id Prod.fst) = after log [(label, value)] :=
  addIf_eq log label (value.map id Prod.fst)

variable {d : Descent} {owner : NodeId}

/-- A token that is read is kept under the name of its step. -/
theorem readToken_logged (usage : Usage) (kinds : List Kind) :
    LoggedWhole (FitsOnce asked (.token usage kinds)) log (readToken usage kinds log s) := by
  unfold readToken
  simp only [bind_apply, get_apply]
  cases s.cursor.current with
  | none => exact .missing
  | some t =>
    dsimp only
    split
    · rename_i hkind
      have hread : FitsOnce asked (.token usage kinds) [(usage.label, .token t)] :=
        ⟨t, List.contains_iff_mem.mp hkind, rfl⟩
      simp only [show Capture.token t = (Capture.token t : Capture Reading).map id Prod.fst from rfl,
        addIf_eq_after]
      exact .found hread
    · exact .missing

/-- A node that is read is kept under the name of its step. -/
theorem readNode_logged (hd : d.Asks) (usage : Usage) (categories : List Category) :
    LoggedWhole (FitsOnce asked (.node usage categories)) log
      (readNode d owner usage categories log s) := by
  unfold readNode
  simp only [bind_apply]
  rcases hr : d.choose categories owner s with ⟨_ | found, s'⟩ | ⟨e, s'⟩
  · exact .missing
  · cases categories with
    | nil => exact absurd hr (hd owner s found s')
    | cons category categories =>
      have hread : FitsOnce asked (.node usage (category :: categories))
          [(usage.label, .node (found, category))] := ⟨(found, category), List.mem_cons_self, rfl⟩
      simp only [show Capture.node found = (Capture.node (found, category)).map id Prod.fst from rfl,
        addIf_eq_after]
      exact .found hread
  · exact .error

/-- A block that is read is kept under the name of its step. -/
theorem readBlock_logged (usage : Usage) :
    LoggedWhole (FitsOnce asked (.block usage)) log (readBlock d owner usage log s) := by
  unfold readBlock
  simp only [bind_apply, get_apply]
  split
  · simp only [bind_apply, modify_apply]
    rcases d.statements owner (some .rightBrace) s.advance with ⟨ids, s'⟩ | ⟨e, s'⟩
    · -- the members of a block are not asked for one by one, so any category does
      let block : Capture Reading := .block (ids.map fun id => (id, .manifest))
      have hread : FitsOnce asked (.block usage) [(usage.label, block)] := ⟨_, rfl⟩
      have hids : block.map id Prod.fst = .block ids := by simp [block, Capture.map, Function.comp_def]
      simp only [← hids, addIf_eq_after]
      exact .found hread
    · exact .error
  · exact .missing

section

variable {reading : Captures → Reader (Bool × Captures)}
  (hreading : ∀ log s, LoggedWhole fits log (reading log s))

include hreading

/-- What is read again and again is kept in order. -/
theorem repeatedly_logged {n : Nat} {log kept : Captures} {s s' : State}
    (h : repeatedly reading n log s = .ok kept s') :
    ∃ pieces, (∀ piece ∈ pieces, fits piece) ∧ kept = after log (List.flatten pieces) := by
  induction n generalizing log s with
  | zero => cases h
  | succ n ih =>
    simp only [repeatedly, bind_apply, get_apply] at h
    have hlog := hreading log s
    generalize reading log s = r at h hlog
    cases hlog with
    | error => cases h
    | missing =>
      cases h
      exact ⟨[], by simp, by simp⟩
    | @found trace s₁ htrace =>
      dsimp only at h
      split at h
      · obtain ⟨pieces, hpieces, rfl⟩ := ih h
        exact ⟨trace :: pieces, List.forall_mem_cons.mpr ⟨htrace, hpieces⟩, by simp⟩
      · cases h
        exact ⟨[trace], by simpa using htrace, by simp⟩

/-- A step keeps what it reads as its rule says. -/
theorem asUsed_logged (usage : Usage) (rounds : Nat) :
    LoggedWhole (FitsUsed usage fits) log (asUsed usage rounds reading log s) := by
  have hlog := hreading log s
  simp only [asUsed, bind_apply]
  generalize reading log s = r at hlog
  cases hlog with
  | error => exact .error
  | @missing s₁ =>
    simp only [Bool.not_false, if_true, pure_apply]
    cases hoptional : usage.optional with
    | false => exact .missing
    | true =>
      have hfound : LoggedWhole (FitsUsed usage fits) log (.ok (true, after log []) s₁) :=
        .found (.inl ⟨hoptional, rfl⟩)
      rwa [after_nil] at hfound
  | @found trace s₁ htrace =>
    simp only [Bool.not_true, Bool.false_eq_true, if_false]
    split
    · rename_i hmany
      simp only [bind_apply]
      rcases hr : repeatedly reading rounds (after log trace) s₁ with ⟨kept, s₂⟩ | ⟨e, s₂⟩
      · obtain ⟨pieces, hpieces, rfl⟩ := repeatedly_logged hreading hr
        simp only [after_after, pure_apply]
        refine .found (.inr ?_)
        rw [if_pos hmany]
        exact ⟨trace, pieces, rfl, htrace, hpieces⟩
      · exact .error
    · rename_i hmany
      exact .found (.inr (by rwa [if_neg hmany]))

end

end

section

variable {d : Descent} {owner : NodeId}

mutual

/-- What a step leaves in the log. -/
theorem readOnce_logged (hd : d.Asks) (step : Step) (log : Captures) (s : State) :
    LoggedWhole (FitsOnce asked step) log (readOnce d owner step log s) := by
  cases step with
  | token usage kinds => exact attempt_logged (readToken_logged usage kinds).logged
  | node usage categories => exact attempt_logged (readNode_logged hd usage categories).logged
  | group usage steps => exact attempt_logged (readSteps_logged hd steps log _)
  | choice usage branches => exact attempt_logged (readFirst_logged hd branches log _).logged
  | block usage => exact attempt_logged (readBlock_logged usage).logged

/-- What steps in order leave in the log. -/
theorem readSteps_logged (hd : d.Asks) (steps : List Step) (log : Captures) (s : State) :
    Logged (Fits asked steps) log (readSteps d owner steps log s) := by
  cases steps with
  | nil =>
    have hfound : Logged (Fits asked []) log (.ok (true, after log []) s) := .found rfl
    rwa [after_nil] at hfound
  | cons step steps =>
    have hfirst : LoggedWhole (FitsUsed step.usage (FitsOnce asked step)) log
        (asUsed step.usage d.rounds (fun log => readOnce d owner step log) log s) :=
      asUsed_logged (readOnce_logged hd step) step.usage d.rounds
    simp only [readSteps, bind_apply]
    generalize asUsed step.usage d.rounds (fun log => readOnce d owner step log) log s = r at hfirst
    cases hfirst with
    | error => exact .error
    | missing => exact LoggedWhole.missing.logged
    | @found trace s₁ htrace =>
      have hmore  := readSteps_logged hd steps (after log trace) s₁
      simp only [if_true]
      generalize readSteps d owner steps (after log trace) s₁ = r at hmore
      cases hmore with
      | error => exact .error
      | missing =>
        simp only [after, List.append_assoc]
        exact .missing
      | found hrest =>
        rw [after_after]
        exact .found ⟨_, _, rfl, htrace, hrest⟩

/-- What the first branch that can be read leaves in the log. -/
theorem readFirst_logged (hd : d.Asks) (branches : List (List Step)) (log : Captures) (s : State) :
    LoggedWhole (FitsOne asked branches) log (readFirst d owner branches log s) := by
  cases branches with
  | nil => exact .missing
  | cons branch branches =>
    have hbranch := readSteps_logged hd branch log s
    simp only [readFirst, bind_apply, get_apply]
    generalize readSteps d owner branch log s = r at hbranch
    cases hbranch with
    | error => exact .error
    | missing =>
      simp only [Bool.false_eq_true, if_false, bind_apply, modify_apply, take_size_append]
      exact (readFirst_logged hd branches log _).mono fun _ => .inr
    | found h => exact .found (.inl h)

end

end

/-- A level that is asked for nothing reads nothing. -/
theorem descent_asks (mode : SplitMode) (n : Nat) : (descent mode n).Asks := by
  intro owner s id s' h
  cases n <;> cases h

section

variable {mode : SplitMode} {n : Nat} {owner : NodeId} {log kept : Captures} {s s' : State}

/-- What a rule that is read to its end leaves in the log. -/
theorem fits_of_readSteps {steps : List Step}
    (h : readSteps (descent mode n) owner steps log s = .ok (true, kept) s') :
    ∃ trace, Fits asked steps trace ∧ kept = after log trace := by
  have hlogged : Logged (Fits asked steps) log (readSteps (descent mode n) owner steps log s) :=
    readSteps_logged (descent_asks mode n) steps log s
  rw [h] at hlogged
  cases hlogged with
  | found htrace => exact ⟨_, htrace, rfl⟩

/-- A test that ignores the value asks whether there is one. -/
theorem any_const {α : Type} (x : Option α) (b : Bool) : (x.any fun _ => b) = (x.isSome && b) := by
  cases x <;> simp

/-- More in front of a log does not take away from the contents it makes. -/
theorem isSome_ofCaptures?_append {category : Category} {entries : List (String × Capture)}
    (h : (Form.ofCaptures? category ⟨entries⟩).isSome) :
    (Form.ofCaptures? category ⟨log.entries ++ entries⟩).isSome := by
  cases category <;>
    simp_all [Form.ofCaptures?, Captures.token?, Captures.node?, Captures.block?,
      Option.isSome_bind, any_const]

/-- The steps of a rule leave everything in the log that the contents of its category need. -/
theorem isSome_of_readSteps {category : Category} (hm : category ≠ .manifest)
    (hr : category ≠ .resource)
    (h : readSteps (descent mode n) owner category.rule.steps log s = .ok (true, kept) s') :
    (Form.ofCaptures? category kept).isSome := by
  obtain ⟨trace, hfits, rfl⟩ := fits_of_readSteps h
  obtain ⟨form, hschema⟩ := Plain.schema_of_fits hm hr hfits
  refine isSome_ofCaptures?_append ?_
  rw [Plain.logOf_relabel, Plain.ofCaptures?_relabel, hschema.ofCaptures?_eq]
  rfl

/-- The head of a resource keeps one reference or one type. -/
theorem head_of_readSteps
    (h : readSteps (descent mode n) owner Grammar.resourceHead {} s = .ok (true, kept) s') :
    (∃ id, kept.all "reference" = [.node id] ∧ kept.all "type" = []) ∨
      ∃ t, kept.all "reference" = [] ∧ kept.all "type" = [.token t] := by
  obtain ⟨trace, hfits, rfl⟩ := fits_of_readSteps h
  have hlog : after {} trace = Captures.map id Prod.fst ⟨logOf trace⟩ := Plain.logOf_relabel _ trace
  obtain ⟨sigils, head, collector, hhead⟩ := Plain.headSchema_of_fits hfits
  cases hhead with
  | @type t _ _ _ _ hcollector =>
    exact .inr ⟨t, by simp [hlog, hcollector.logOf_eq, Capture.map]⟩
  | @reference x _ _ _ _ hcollector =>
    exact .inl ⟨x.1, by simp [hlog, hcollector.logOf_eq, Capture.map]⟩

end

/-- A rule and the contents of its category agree on the names in the log.  In every state, with
every owner and after any log, if the steps of a rule are read to their end, the contents of its
category can be made; for a manifest and a resource the steps do not suffice.  The head of a
resource keeps a reference, which is a node, or a type, which is a token, and never both. -/
theorem readSteps_complete (mode : SplitMode) (n : Nat) (owner : NodeId) (s : State) :
    (∀ (category : Category) (log kept : Captures) (s' : State),
      category ≠ .manifest → category ≠ .resource →
      readSteps (descent mode n) owner category.rule.steps log s = .ok (true, kept) s' →
        (Form.ofCaptures? category kept).isSome) ∧
    ∀ (kept : Captures) (s' : State),
      readSteps (descent mode n) owner Grammar.resourceHead {} s = .ok (true, kept) s' →
        (∃ id, kept.all "reference" = [.node id] ∧ kept.all "type" = []) ∨
          ∃ t, kept.all "reference" = [] ∧ kept.all "type" = [.token t] :=
  ⟨fun _ _ _ _ hm hr h => isSome_of_readSteps hm hr h, fun _ _ h => head_of_readSteps h⟩

/-- A call with a comma after its last argument, where the step for a further argument fails behind
the comma, and a resource head for which the branch of a reference fails. -/
theorem readSteps_complete_of_call :
    let call : List Token :=
      [⟨.name, "f", 1⟩, ⟨.leftParen, "(", 1⟩, ⟨.number, "1", 1⟩, ⟨.comma, ",", 1⟩,
       ⟨.rightParen, ")", 1⟩]
    let resource : List Token :=
      [⟨.atSign, "@", 1⟩, ⟨.classRef, "File", 1⟩, ⟨.collectOpen, "<|", 1⟩,
       ⟨.collectClose, "|>", 1⟩]
    (∃ kept s', readSteps (descent .render 9) Tree.root Category.call.rule.steps {} (.start call) =
        .ok (true, kept) s' ∧ kept.entries.length = 3 ∧ (Form.ofCaptures? .call kept).isSome) ∧
    ∃ kept s', readSteps (descent .splice 9) Tree.root Grammar.resourceHead {} (.start resource) =
        .ok (true, kept) s' ∧ kept.entries.length = 3 ∧
      ((∃ id, kept.all "reference" = [.node id] ∧ kept.all "type" = []) ∨
        ∃ t, kept.all "reference" = [] ∧ kept.all "type" = [.token t]) := by
  intro call resource
  have hcall : ((readSteps (descent .render 9) Tree.root Category.call.rule.steps {}).run'
      (.start call)).map (fun r => (r.1, r.2.entries.length)) = some (true, 3) := by decide +kernel
  have hresource : ((readSteps (descent .splice 9) Tree.root Grammar.resourceHead {}).run'
      (.start resource)).map (fun r => (r.1, r.2.entries.length)) = some (true, 3) := by
    decide +kernel
  obtain ⟨⟨_, kept₁⟩, hkept₁, heq₁⟩ := Option.map_eq_some_iff.mp hcall
  obtain ⟨⟨_, kept₂⟩, hkept₂, heq₂⟩ := Option.map_eq_some_iff.mp hresource
  obtain ⟨rfl, hlength₁⟩ := Prod.mk.inj heq₁
  obtain ⟨rfl, hlength₂⟩ := Prod.mk.inj heq₂
  obtain ⟨s₁, h₁⟩ := ok_of_run' hkept₁
  obtain ⟨s₂, h₂⟩ := ok_of_run' hkept₂
  refine ⟨⟨kept₁, s₁, h₁, hlength₁, ?_⟩, kept₂, s₂, h₂, hlength₂, ?_⟩
  · exact (readSteps_complete .render 9 Tree.root (.start call)).1 .call {} kept₁ s₁ (by decide)
      (by decide) h₁
  · exact (readSteps_complete .splice 9 Tree.root (.start resource)).2 kept₂ s₂ h₂

end TidyManifest.Parse
