import TidyManifest.Parse.Basic
import TidyManifest.Proofs.Agree.State
import TidyManifest.Proofs.Plain.Numbering
import TidyManifest.Proofs.Plain.Spells

/-!
# Reading steps, with and without a state

Where no resource is split, reading the steps of a rule in a state does what the plain reading of
the tokens ahead does: it succeeds, fails or gives up in the same cases, consumes the same tokens,
adds the phrases that were read at the end of the tree, and keeps their numbers.

No resource is split if that was chosen, or on trial, or if what is read holds no resource outside
a chain; the last is known from the steps alone (`stepKeeps`).
-/

namespace TidyManifest.Parse

open Plain (Fault Outcome Oracle Trace logOf numbers treesOf)

/-- The error that a reading gives up with, for the fault of a plain reading.  No reading stalls. -/
def Explains : Fault → ParseError → Prop
  | .refused, e => ∃ line text, e = .unexpectedToken line text
  | .ended, e => e = .unexpectedEnd
  | .exhausted, e => e = .exhausted

/-- Only tokens that end too early explain that the end was unexpected. -/
theorem Explains.eq_ended {f : Fault} (h : Explains f .unexpectedEnd) : f = .ended := by
  cases f with
  | refused => obtain ⟨_, _, heq⟩ := h; cases heq
  | ended => rfl
  | exhausted => cases h

/-- Only levels that do not suffice explain that they were exhausted. -/
theorem Explains.eq_exhausted {f : Fault} (h : Explains f .exhausted) : f = .exhausted := by
  cases f with
  | refused => obtain ⟨_, _, heq⟩ := h; cases heq
  | ended => cases h
  | exhausted => rfl

/-- No fault explains a parse that stalls. -/
theorem not_explains_stalled {f : Fault} {line : Nat} : ¬ Explains f (.stalled line) := by
  cases f with
  | refused => rintro ⟨_, _, heq⟩; cases heq
  | ended => exact nofun
  | exhausted => exact nofun

/-- A later state in which phrases were added below an owner. -/
structure Advanced (owner : NodeId) (level : Int) (s : State) (ps : List Phrase)
    (rest : List Token) (s' : State) : Prop where
  extends_ : Extends s s'
  ahead : s'.ahead = rest
  tree : s'.tree = s.tree.grow (Phrase.forest s.tree.size owner level ps)

/-- A node of the tree to which phrases are added. -/
structure Owns (s : State) (owner : NodeId) (category : Category) (level : Int) : Prop where
  lt : owner < s.tree.size
  category : s.tree.category owner = category
  level : (s.tree.node owner).level + 1 = level

/-- No resource is split: it was chosen so, or the reading is on trial. -/
def Whole (mode : SplitMode) (s : State) : Prop :=
  mode = .render ∨ 0 < s.trials

/-- Whether a phrase of a category holds no resource that may be split, below an owner of some
category.  The members of a chain are never split. -/
def keepsWhole (owner : Category) : Category → Bool
  | .manifest | .caseOption | .classBlock | .defineBlock | .nodeBlock | .branch | .caseBlock => false
  | .resource => owner == .chain
  | _ => true

mutual

/-- Whether a step reads no resource that may be split. -/
def stepKeeps (owner : Category) : Step → Bool
  | .token _ _ => true
  | .node _ categories => categories.all (keepsWhole owner)
  | .group _ steps => stepsKeep owner steps
  | .choice _ branches => branchesKeep owner branches
  | .block _ => false

/-- Whether no step reads a resource that may be split. -/
def stepsKeep (owner : Category) : List Step → Bool
  | [] => true
  | step :: steps => stepKeeps owner step && stepsKeep owner steps

/-- Whether no branch reads a resource that may be split. -/
def branchesKeep (owner : Category) : List (List Step) → Bool
  | [] => true
  | branch :: branches => stepsKeep owner branch && branchesKeep owner branches

end

/-- No resource is split, in a state and for what is read. -/
def Keeps (mode : SplitMode) (s : State) (kept : Bool) : Prop :=
  Whole mode s ∨ kept = true

section

variable {owner : NodeId} {level : Int} {category : Category} {mode : SplitMode}
  {s s' s'' : State} {ps qs : List Phrase} {middle rest : List Token}

theorem Advanced.refl (owner : NodeId) (level : Int) (s : State) :
    Advanced owner level s [] s.ahead s :=
  ⟨.refl s, rfl, by simp⟩

/-- The tree has grown by the nodes of what was added. -/
theorem Advanced.size (h : Advanced owner level s ps rest s') :
    s'.tree.size = s.tree.size + Phrase.total ps := by
  simp [h.tree]

theorem Advanced.trans (h : Advanced owner level s ps middle s')
    (h' : Advanced owner level s' qs rest s'') : Advanced owner level s (ps ++ qs) rest s'' :=
  ⟨h.extends_.trans h'.extends_, h'.ahead, by rw [h'.tree, h.size, h.tree]; simp⟩

/-- A state that differs in the furthest failure at most has advanced by nothing. -/
theorem Advanced.of_same (h : Same s s') : Advanced owner level s [] s.ahead s' :=
  ⟨h.extends, h.ahead, by simp [h.tree]⟩

/-- An owner stays the owner while the tree grows. -/
theorem Owns.of_extends (h : Owns s owner category level) (h' : Extends s s') :
    Owns s' owner category level := by
  obtain ⟨entries, htree⟩ := h'.tree
  have hnode := Tree.node_grow_lt h.lt entries
  have hlt : owner < s'.tree.size := by
    rw [htree, Tree.size_grow]
    exact Nat.lt_add_right _ h.lt
  refine ⟨hlt, ?_, by rw [htree, hnode]; exact h.level⟩
  rw [htree, Tree.category, hnode]
  exact h.category

/-- Whether a resource may be split does not change while the tree grows. -/
theorem Whole.of_extends (h : Whole mode s) (h' : Extends s s') : Whole mode s' := by
  rwa [Whole, h'.trials]

theorem Keeps.of_extends {kept : Bool} (h : Keeps mode s kept) (h' : Extends s s') :
    Keeps mode s' kept :=
  h.imp_left (·.of_extends h')

/-- What keeps two things whole keeps each of them whole. -/
theorem Keeps.and {a b : Bool} (h : Keeps mode s (a && b)) : Keeps mode s a ∧ Keeps mode s b := by
  rcases h with h | h
  · exact ⟨.inl h, .inl h⟩
  · rw [Bool.and_eq_true] at h
    exact ⟨.inr h.1, .inr h.2⟩

/-- Where nothing else keeps resources whole, the state does. -/
theorem Keeps.whole (h : Keeps mode s false) : Whole mode s :=
  h.resolve_right nofun

end

/-- What reading steps gives, next to the plain outcome.  If nothing was read the state may have
moved on. -/
inductive Loose (owner : NodeId) (level : Int) (log : Captures) (s : State) :
    Outcome (Trace Phrase) → EStateM.Result ParseError State (Bool × Captures) → Prop
  | error {f : Fault} {e : ParseError} {s' : State} (h : Extends s s') (he : Explains f e) :
      Loose owner level log s (.error f) (.error e s')
  | none {kept : Captures} {s' : State} (h : Extends s s') (hlog : kept.take log.size = log) :
      Loose owner level log s (.ok none) (.ok (false, kept) s')
  | some {trace : Trace Phrase} {rest : List Token} {s' : State}
      (h : Advanced owner level s (treesOf trace) rest s') :
      Loose owner level log s (.ok (some (trace, rest)))
        (.ok (true, ⟨log.entries ++ logOf (numbers s.tree.size trace)⟩) s')

/-- What reading a step gives, next to the plain outcome.  If nothing was read everything is as
before. -/
inductive Strict (owner : NodeId) (level : Int) (log : Captures) (s : State) :
    Outcome (Trace Phrase) → EStateM.Result ParseError State (Bool × Captures) → Prop
  | error {f : Fault} {e : ParseError} {s' : State} (h : Extends s s') (he : Explains f e) :
      Strict owner level log s (.error f) (.error e s')
  | none {s' : State} (h : Same s s') : Strict owner level log s (.ok none) (.ok (false, log) s')
  | some {trace : Trace Phrase} {rest : List Token} {s' : State}
      (h : Advanced owner level s (treesOf trace) rest s') :
      Strict owner level log s (.ok (some (trace, rest)))
        (.ok (true, ⟨log.entries ++ logOf (numbers s.tree.size trace)⟩) s')

/-- What reading a node gives, next to the plain outcome. -/
inductive Chosen (owner : NodeId) (level : Int) (s : State) :
    Outcome Phrase → EStateM.Result ParseError State (Option NodeId) → Prop
  | error {f : Fault} {e : ParseError} {s' : State} (h : Extends s s') (he : Explains f e) :
      Chosen owner level s (.error f) (.error e s')
  | none {s' : State} (h : Same s s') : Chosen owner level s (.ok none) (.ok none s')
  | some {p : Phrase} {rest : List Token} {s' : State} (h : Advanced owner level s [p] rest s') :
      Chosen owner level s (.ok (some (p, rest))) (.ok (some s.tree.size) s')

/-- What reading statements gives, next to the plain outcome. -/
inductive Listed (owner : NodeId) (level : Int) (s : State) :
    Except Fault (List Phrase × List Token) → EStateM.Result ParseError State (List NodeId) → Prop
  | error {f : Fault} {e : ParseError} {s' : State} (h : Extends s s') (he : Explains f e) :
      Listed owner level s (.error f) (.error e s')
  | ok {ps : List Phrase} {rest : List Token} {s' : State} (h : Advanced owner level s ps rest s') :
      Listed owner level s (.ok (ps, rest)) (.ok (Phrase.starts s.tree.size ps) s')

/-- A descent that does what an oracle says, where no resource is split. -/
structure Follows (mode : SplitMode) (d : Descent) (o : Oracle) : Prop where
  choose : ∀ {categories owner category level s}, Owns s owner category level →
    Keeps mode s (categories.all (keepsWhole category)) →
    Chosen owner level s (o.choose categories category s.ahead) (d.choose categories owner s)
  statements : ∀ {closing owner category level s}, Owns s owner category level → Whole mode s →
    Listed owner level s (o.statements category closing s.ahead) (d.statements owner closing s)
  rounds : ∀ tokens, o.rounds tokens = d.rounds

section

variable {α β : Type} (s : State)

/-- A reading after another one starts where that one ended, unless it was an error. -/
@[simp] theorem bind_apply (x : Reader α) (f : α → Reader β) :
    (x >>= f) s = match x s with
      | .ok a s' => f a s'
      | .error e s' => .error e s' := by
  change EStateM.bind x f s = _
  unfold EStateM.bind
  cases x s <;> rfl

@[simp] theorem get_apply : (get : Reader State) s = .ok s s := rfl

@[simp] theorem modify_apply (f : State → State) : (modify f : Reader PUnit) s = .ok ⟨⟩ (f s) := rfl

@[simp] theorem pure_apply (a : α) : (pure a : Reader α) s = .ok a s := rfl

@[simp] theorem throw_apply (e : ParseError) : (throw e : Reader α) s = .error e s := rfl

end

/-- The state in which a step starts. -/
def atLead (usage : Usage) (s : State) : State :=
  if usage.sameLine then s else s.skip Grammar.newlines

/-- Going to where a step starts only moves the cursor on. -/
theorem extends_atLead (usage : Usage) (s : State) : Extends s (atLead usage s) := by
  unfold atLead
  split
  · exact .refl s
  · exact extends_skip s _

/-- The tokens at which a step starts. -/
@[simp] theorem ahead_atLead (usage : Usage) (s : State) :
    (atLead usage s).ahead = Plain.lead usage s.ahead := by
  unfold atLead Plain.lead
  split <;> simp

/-- Going to where a step starts leaves the tree as it is. -/
@[simp] theorem tree_atLead (usage : Usage) (s : State) : (atLead usage s).tree = s.tree := by
  unfold atLead
  split <;> rfl

/-- An attempt starts where the step starts, and takes everything back if nothing was read. -/
theorem attempt_apply (usage : Usage) (reading : Captures → Reader (Bool × Captures))
    (log : Captures) (s : State) :
    attempt usage reading log s =
      match reading log (atLead usage s) with
      | .error e s' => .error e s'
      | .ok (true, kept) s' => .ok (true, kept) s'
      | .ok (false, kept) s' => .ok (false, kept.take log.size) (s'.returnTo s.mark) := by
  unfold attempt atLead
  cases usage.sameLine with
  | true =>
    simp only [bind_apply, get_apply, if_true]
    rcases reading log s with ⟨⟨_ | _, kept⟩, s'⟩ | ⟨e, s'⟩ <;> rfl
  | false =>
    simp only [bind_apply, get_apply, modify_apply, Bool.false_eq_true, if_false]
    rcases reading log (s.skip Grammar.newlines) with ⟨⟨_ | _, kept⟩, s'⟩ | ⟨e, s'⟩ <;> rfl

/-- Keeping one more thing under a name is adding its entry to the log. -/
theorem addIf_eq (log : Captures) (label : Option String) (value : Capture) :
    log.addIf label value = ⟨log.entries ++ logOf [(label, value)]⟩ := by
  cases label <;> simp [Captures.addIf, Captures.add, logOf]

theorem take_size (log : Captures) : log.take log.size = log := by
  simp [Captures.take, Captures.size]

/-- Cutting a log back to its former size leaves what was there. -/
theorem take_size_append (log : Captures) (entries : List (String × Capture)) :
    (⟨log.entries ++ entries⟩ : Captures).take log.size = log := by
  simp [Captures.take, Captures.size]

section

variable {owner : NodeId} {level : Int} {log : Captures} {s : State}
  {o : Outcome (Trace Phrase)} {r : EStateM.Result ParseError State (Bool × Captures)}

/-- A failed attempt takes everything back. -/
theorem attempt_strict {usage : Usage} {reading : Captures → Reader (Bool × Captures)}
    (h : Loose owner level log (atLead usage s) o (reading log (atLead usage s))) :
    Strict owner level log s o (attempt usage reading log s) := by
  have hlead := extends_atLead usage s
  rw [attempt_apply]
  generalize reading log (atLead usage s) = r at h
  cases h with
  | error h he => exact .error (hlead.trans h) he
  | none h hlog =>
    dsimp only
    rw [hlog]
    exact .none (hlead.trans h).returnTo
  | some h =>
    rw [tree_atLead]
    exact .some ⟨hlead.trans h.extends_, h.ahead, by simpa using h.tree⟩

end

section

variable {mode : SplitMode} {d : Descent} {p : Oracle} (hd : Follows mode d p) {owner : NodeId}
  {level : Int} {category : Category} {log : Captures} {s : State}

/-- Reading a token does what the plain reading does. -/
theorem readToken_strict (owner : NodeId) (level : Int) (c : Category) (o : Oracle) (usage : Usage)
    (kinds : List Kind) (log : Captures) (s : State) :
    Strict owner level log s (Plain.once o c (.token usage kinds) s.ahead)
      (attempt usage (readToken usage kinds) log s) := by
  apply attempt_strict
  rw [Plain.once, ← ahead_atLead]
  generalize atLead usage s = s
  unfold readToken
  simp only [bind_apply, get_apply]
  cases hahead : s.ahead with
  | nil =>
    have : s.cursor.current = none := by simp [Cursor.current, show s.cursor.ahead = [] from hahead]
    simp only [this]
    exact .none (same_recordFailure s).extends (take_size log)
  | cons t rest =>
    have : s.cursor.current = some t := by
      simp [Cursor.current, show s.cursor.ahead = t :: rest from hahead]
    simp only [this]
    split
    · simp only [bind_apply, modify_apply, pure_apply]
      rw [addIf_eq]
      exact .some ⟨extends_advance s, by simp [hahead], by simp [treesOf, State.advance]⟩
    · exact .none (same_recordFailure s).extends (take_size log)

include hd in
/-- Reading a node does what the plain reading does. -/
theorem readNode_strict (ho : Owns s owner category level) (usage : Usage)
    (categories : List Category) (hw : Keeps mode s (categories.all (keepsWhole category))) :
    Strict owner level log s (Plain.once p category (.node usage categories) s.ahead)
      (attempt usage (readNode d owner usage categories) log s) := by
  have hlead := extends_atLead usage s
  apply attempt_strict
  rw [Plain.once, ← ahead_atLead]
  unfold readNode
  have h : Chosen owner level (atLead usage s) (p.choose categories category _)
      (d.choose categories owner _) := hd.choose (ho.of_extends hlead) (hw.of_extends hlead)
  simp only [bind_apply]
  generalize atLead usage s = s at h ⊢
  generalize d.choose categories owner s = r at h
  generalize p.choose categories category s.ahead = o at h
  cases h with
  | error h he => exact .error h he
  | none h => exact .none (h.trans (same_recordFailure _)).extends (take_size log)
  | some h =>
    simp only [pure_apply]
    rw [addIf_eq]
    exact .some h

include hd in
/-- Reading a block does what the plain reading does. -/
theorem readBlock_strict (ho : Owns s owner category level) (hw : Whole mode s) (usage : Usage) :
    Strict owner level log s (Plain.once p category (.block usage) s.ahead)
      (attempt usage (readBlock d owner usage) log s) := by
  have hlead := extends_atLead usage s
  apply attempt_strict
  rw [Plain.once, ← ahead_atLead]
  unfold readBlock
  simp only [bind_apply, get_apply]
  replace ho := ho.of_extends hlead
  replace hw := hw.of_extends hlead
  generalize atLead usage s = s at ho hw ⊢
  cases hahead : s.ahead with
  | nil =>
    have : s.cursor.currentKind = none := by
      simp [Cursor.currentKind, Cursor.current, show s.cursor.ahead = [] from hahead]
    simp only [this]
    exact .none (same_recordFailure s).extends (take_size log)
  | cons t rest =>
    have : s.cursor.currentKind = some t.kind := by
      simp [Cursor.currentKind, Cursor.current, show s.cursor.ahead = t :: rest from hahead]
    simp only [this, Option.some_beq_some]
    split
    · have hadvance := extends_advance s
      have h : Listed owner level s.advance (p.statements category (some .rightBrace) _)
          (d.statements owner (some .rightBrace) _) :=
        hd.statements (ho.of_extends hadvance) (hw.of_extends hadvance)
      rw [ahead_advance, hahead, List.tail_cons] at h
      simp only [bind_apply, modify_apply]
      generalize d.statements owner (some .rightBrace) s.advance = r at h
      generalize p.statements category (some .rightBrace) rest = o at h
      cases h with
      | error h he => exact .error (hadvance.trans h) he
      | @ok ps rest s' h =>
        have hadvanced : Advanced owner level s (treesOf [(usage.label, .block ps)]) rest.tail
            s'.advance :=
          ⟨(hadvance.trans h.extends_).trans (extends_advance s'), by simp [h.ahead],
            by simpa [treesOf, State.advance] using h.tree⟩
        simpa [addIf_eq, Plain.numbers_block, State.advance] using Loose.some hadvanced
    · exact .none (same_recordFailure s).extends (take_size log)

end

/-- What reading again and again gives, next to the plain outcome. -/
inductive Repeated (owner : NodeId) (level : Int) (log : Captures) (s : State) :
    Except Fault (Trace Phrase × List Token) → EStateM.Result ParseError State Captures → Prop
  | error {f : Fault} {e : ParseError} {s' : State} (h : Extends s s') (he : Explains f e) :
      Repeated owner level log s (.error f) (.error e s')
  | ok {trace : Trace Phrase} {rest : List Token} {s' : State}
      (h : Advanced owner level s (treesOf trace) rest s') :
      Repeated owner level log s (.ok (trace, rest))
        (.ok ⟨log.entries ++ logOf (numbers s.tree.size trace)⟩ s')

section

variable {mode : SplitMode} {owner : NodeId} {level : Int} {category : Category}
  {reading : Captures → Reader (Bool × Captures)} {plain : List Token → Outcome (Trace Phrase)}
  {kept : Bool} (hreading : ∀ log {s}, Owns s owner category level → Keeps mode s kept →
    Strict owner level log s (plain s.ahead) (reading log s))

include hreading

/-- Repeating a reading does what repeating the plain reading does. -/
theorem repeatedly_repeated (n : Nat) (log : Captures) {s : State}
    (ho : Owns s owner category level) (hw : Keeps mode s kept) :
    Repeated owner level log s (Plain.again plain n s.ahead) (repeatedly reading n log s) := by
  induction n generalizing log s with
  | zero => exact .error (.refl s) (by simp [Explains])
  | succ n ih =>
    rw [Plain.again, repeatedly]
    simp only [bind_apply, get_apply]
    have h := hreading log ho hw
    generalize reading log s = r at h
    generalize hplain : plain s.ahead = o at h
    cases h with
    | error h he => exact .error h he
    | none h =>
      have hok : Repeated owner level log s (.ok ([], s.ahead)) (.ok ⟨log.entries ++ _⟩ _) :=
        .ok (.of_same h)
      simpa using hok
    | @some trace rest s' h =>
      have hposition := h.extends_.position_eq_iff
      rw [h.ahead] at hposition
      by_cases heq : rest.length = s.ahead.length
      · simp only [heq, if_true, hposition.mpr heq, bne_self_eq_false, Bool.and_false,
          Bool.false_eq_true, if_false]
        exact .ok h
      · have hne : (true && s'.cursor.position != s.cursor.position) = true := by
          simpa using fun h => heq (hposition.mp h)
        simp only [heq, if_false, hne, if_true]
        have hmore := ih ⟨log.entries ++ logOf (numbers s.tree.size trace)⟩
          (ho.of_extends h.extends_) (hw.of_extends h.extends_)
        rw [h.ahead] at hmore
        generalize repeatedly reading n _ s' = r at hmore
        generalize Plain.again plain n rest = o at hmore
        cases hmore with
        | error h' he => exact .error (h.extends_.trans h') he
        | @ok more rest' s'' h' =>
          have hok : Repeated owner level log s (.ok (trace ++ more, rest')) (.ok _ s'') :=
            .ok (by simpa using h.trans h')
          simpa [h.size, logOf] using hok

/-- Using a step as its rule says does what the plain reading does. -/
theorem asUsed_strict (usage : Usage) {rounds : Nat} {bound : List Token → Nat}
    (hrounds : ∀ tokens, bound tokens = rounds) (log : Captures) {s : State}
    (ho : Owns s owner category level) (hw : Keeps mode s kept) :
    Strict owner level log s (Plain.used usage bound plain s.ahead)
      (asUsed usage rounds reading log s) := by
  unfold Plain.used asUsed
  simp only [bind_apply]
  have h := hreading log ho hw
  generalize reading log s = r at h
  generalize hplain : plain s.ahead = o at h
  cases h with
  | error h he => exact .error h he
  | none h =>
    cases usage.optional with
    | true =>
      have hsome : Strict owner level log s (.ok (some ([], s.ahead)))
        (.ok (true, ⟨log.entries ++ _⟩) _) := .some (.of_same h)
      simpa using hsome
    | false => exact .none h
  | @some trace rest s' h =>
    cases usage.many with
    | false => exact .some h
    | true =>
      simp only [if_true, bind_apply, Bool.not_true, Bool.false_eq_true, if_false, hrounds]
      have hmore := repeatedly_repeated hreading rounds
        ⟨log.entries ++ logOf (numbers s.tree.size trace)⟩ (ho.of_extends h.extends_)
        (hw.of_extends h.extends_)
      rw [h.ahead] at hmore
      generalize repeatedly reading rounds _ s' = r at hmore
      generalize Plain.again plain rounds rest = o at hmore
      cases hmore with
      | error h' he => exact .error (h.extends_.trans h') he
      | @ok more rest' s'' h' =>
        have hsome : Strict owner level log s (.ok (some (trace ++ more, rest'))) (.ok _ s'') :=
          .some (by simpa using h.trans h')
        simpa [h.size, logOf] using hsome

end

section

variable {mode : SplitMode} {d : Descent} {p : Oracle} {owner : NodeId} {level : Int}
  {category : Category}

mutual

/-- Reading a step one time does what the plain reading does. -/
theorem readOnce_strict (hd : Follows mode d p) (step : Step) (log : Captures) {s : State}
    (ho : Owns s owner category level) (hw : Keeps mode s (stepKeeps category step)) :
    Strict owner level log s (Plain.once p category step s.ahead) (readOnce d owner step log s) := by
  cases step with
  | token usage kinds =>
    rw [readOnce]
    exact readToken_strict owner level category p usage kinds log s
  | node usage categories =>
    rw [readOnce]
    rw [stepKeeps] at hw
    exact readNode_strict hd ho usage categories hw
  | group usage steps =>
    rw [stepKeeps] at hw
    rw [readOnce, Plain.once, ← ahead_atLead]
    have hlead := extends_atLead usage s
    exact attempt_strict
      (readSteps_loose hd steps log (ho.of_extends hlead) (hw.of_extends hlead))
  | choice usage branches =>
    rw [stepKeeps] at hw
    rw [readOnce, Plain.once, ← ahead_atLead]
    have hlead := extends_atLead usage s
    exact attempt_strict
      (readFirst_loose hd branches log (ho.of_extends hlead) (hw.of_extends hlead))
  | block usage =>
    rw [readOnce]
    rw [stepKeeps] at hw
    exact readBlock_strict hd ho hw.whole usage

/-- Reading steps in order does what the plain reading does. -/
theorem readSteps_loose (hd : Follows mode d p) (steps : List Step) (log : Captures) {s : State}
    (ho : Owns s owner category level) (hw : Keeps mode s (stepsKeep category steps)) :
    Loose owner level log s (Plain.inOrder p category steps s.ahead)
      (readSteps d owner steps log s) := by
  cases steps with
  | nil =>
    have hsome : Loose owner level log s (.ok (some ([], s.ahead)))
      (.ok (true, ⟨log.entries ++ _⟩) s) := .some (.refl owner level s)
    simpa [Plain.inOrder, readSteps] using hsome
  | cons step steps =>
    rw [Plain.inOrder, readSteps]
    rw [stepsKeep] at hw
    obtain ⟨hstep, hw⟩ := hw.and
    have h := asUsed_strict (fun log _ ho hw => readOnce_strict hd step log ho hw) step.usage
      hd.rounds log ho hstep
    simp only [bind_apply]
    generalize asUsed step.usage d.rounds (fun log => readOnce d owner step log) log s = r at h
    generalize Plain.used step.usage p.rounds (fun tokens => Plain.once p category step tokens)
      s.ahead = o at h
    cases h with
    | error h he => exact .error h he
    | none h => exact .none h.extends (take_size log)
    | @some trace rest s' h =>
      have hmore := readSteps_loose hd steps
        ⟨log.entries ++ logOf (numbers s.tree.size trace)⟩ (ho.of_extends h.extends_)
        (hw.of_extends h.extends_)
      rw [h.ahead] at hmore
      simp only [if_true, Plain.andThen_some]
      generalize readSteps d owner steps _ s' = r at hmore
      generalize Plain.inOrder p category steps rest = o at hmore
      cases hmore with
      | error h' he => exact .error (h.extends_.trans h') he
      | @none kept s'' h' hlog =>
        refine .none (h.extends_.trans h') ?_
        have htake := take_size_append log (logOf (numbers s.tree.size trace))
        rw [← hlog] at htake
        rwa [Captures.take, Captures.take, List.take_take, Nat.min_eq_left] at htake
        simp [Captures.size]
      | @some more rest' s'' h' =>
        have hsome : Loose owner level log s (.ok (some (trace ++ more, rest'))) (.ok _ s'') :=
          .some (by simpa using h.trans h')
        simpa [h.size, logOf] using hsome

/-- Reading the first of several sequences of steps does what the plain reading does. -/
theorem readFirst_loose (hd : Follows mode d p) (branches : List (List Step)) (log : Captures)
    {s : State} (ho : Owns s owner category level)
    (hw : Keeps mode s (branchesKeep category branches)) :
    Loose owner level log s (Plain.firstOf p category branches s.ahead)
      (readFirst d owner branches log s) := by
  cases branches with
  | nil =>
    rw [Plain.firstOf, readFirst]
    exact .none (.refl s) (take_size log)
  | cons branch branches =>
    rw [Plain.firstOf, readFirst]
    rw [branchesKeep] at hw
    obtain ⟨hbranch, hw⟩ := hw.and
    have h := readSteps_loose hd branch log ho hbranch
    simp only [bind_apply, get_apply]
    generalize readSteps d owner branch log s = r at h
    generalize Plain.inOrder p category branch s.ahead = o at h
    cases h with
    | error h he => exact .error h he
    | some h => exact .some h
    | @none kept s' h hlog =>
      have hback := h.returnTo
      have hrest := readFirst_loose hd branches log (ho.of_extends hback.extends)
        (hw.of_extends hback.extends)
      rw [hback.ahead] at hrest
      simp only [Bool.false_eq_true, if_false, bind_apply, modify_apply, hlog]
      generalize readFirst d owner branches log _ = r at hrest
      generalize Plain.firstOf p category branches s.ahead = o at hrest
      cases hrest with
      | error h' he => exact .error (hback.extends.trans h') he
      | none h' hlog => exact .none (hback.extends.trans h') hlog
      | some h' =>
        rw [hback.tree]
        exact .some (by simpa using (Advanced.of_same hback).trans h')

end

end

end TidyManifest.Parse
