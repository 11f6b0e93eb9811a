import TidyManifest.Proofs.Progress.Run

/-!
# Every reading moves on

A node that is read leaves the cursor further on, also where resources were split on the way, and
so does every step that reads something whenever it succeeds (`descent_progresses`,
`readOnce_stepped`).  Whether a reading succeeds, fails or gives up, the state in which it ends is
reached by a `Run`.

The rules of the grammar do not say that they read something.  It is known from their steps
(`consumes`) and from the nodes that they read, which are one level down.  The splits are counted
where the items of a resource are read: `Begun` keeps how far the reading has come since the start
of that resource.
-/

namespace TidyManifest.Parse

open Plain (Oracle Sound Reopening consumes consumesAny consumesAll)

/-- The state in which a reading ends. -/
def ending {α : Type} : EStateM.Result ParseError State α → State
  | .ok _ s => s
  | .error _ s => s

/-- What reading a step does to the state, if `consumed` says whether a step that is found takes up
tokens. -/
structure Stepped (consumed : Bool) (s : State)
    (r : EStateM.Result ParseError State (Bool × Captures)) : Prop where
  runs : Runs s (ending r)
  moved : consumed = true → ∀ {kept s'}, r = .ok (true, kept) s' →
    s.cursor.position < s'.cursor.position

/-- What reading a node does to the state. -/
structure Taken (s : State) (r : EStateM.Result ParseError State (Option NodeId)) : Prop where
  runs : Runs s (ending r)
  moved : ∀ {id s'}, r = .ok (some id) s' → s.cursor.position < s'.cursor.position

/-- A descent that moves on. -/
structure Progresses (d : Descent) : Prop where
  choose : ∀ {categories parent s}, parent < s.tree.size → Taken s (d.choose categories parent s)
  statements : ∀ {parent closing s}, parent < s.tree.size →
    Runs s (ending (d.statements parent closing s))

section

variable {consumed : Bool} {s s' : State} {kept : Captures} {id : NodeId} {e : ParseError}

theorem stepped_error (h : Runs s s') : Stepped consumed s (.error e s') :=
  ⟨h, fun _ _ _ heq => by cases heq⟩

theorem stepped_missing (h : Runs s s') : Stepped consumed s (.ok (false, kept) s') :=
  ⟨h, fun _ _ _ heq => by cases heq⟩

/-- A step that was read has stepped if it has moved on. -/
theorem stepped_found (h : Runs s s')
    (hmoved : consumed = true → s.cursor.position < s'.cursor.position) :
    Stepped consumed s (.ok (true, kept) s') :=
  ⟨h, fun hconsumed _ _ heq => by cases heq; exact hmoved hconsumed⟩

theorem taken_error (h : Runs s s') : Taken s (.error e s') :=
  ⟨h, fun heq => by cases heq⟩

theorem taken_none (h : Runs s s') : Taken s (.ok none s') :=
  ⟨h, fun heq => by cases heq⟩

/-- A node that was read was taken if the cursor has moved on. -/
theorem taken_some (h : Runs s s') (hmoved : s.cursor.position < s'.cursor.position) :
    Taken s (.ok (some id) s') :=
  ⟨h, fun heq => by cases heq; exact hmoved⟩

end

section

variable {s s' s'' : State}

theorem Runs.refl (s : State) : Runs s s :=
  (Extends.refl s).runs

theorem Same.runs (h : Same s s') : Runs s s' :=
  h.extends.runs

/-- The same state has the same position. -/
theorem Same.position_eq (h : Same s s') : s'.cursor.position = s.cursor.position := by
  rw [h.cursor]

theorem runs_advance (s : State) : Runs s s.advance :=
  (extends_advance s).runs

/-- Stepping past a token moves the cursor. -/
theorem position_lt_advance {t : Token} {rest : List Token} (h : s.ahead = t :: rest) :
    s.cursor.position < s.advance.cursor.position :=
  (extends_advance s).position_lt (by simp [h])

/-- One reading after another. -/
theorem runs_bind {α β : Type} {first : Reader α} {next : α → Reader β}
    (hfirst : Runs s (ending (first s)))
    (hnext : ∀ {a s'}, first s = .ok a s' → Runs s' (ending (next a s'))) :
    Runs s (ending ((first >>= next) s)) := by
  rw [bind_apply]
  rcases hr : first s with ⟨a, s'⟩ | ⟨e, s'⟩
  · rw [hr] at hfirst
    exact hfirst.trans (hnext hr)
  · rw [hr] at hfirst
    exact hfirst

end

section

variable {usage : Usage} {reading : Captures → Reader (Bool × Captures)} {log : Captures}
  {consumed : Bool} {s : State}

/-- An attempt, if a failed one leaves no trace. -/
theorem attempt_stepped
    (h : Stepped consumed (atLead usage s) (reading log (atLead usage s)))
    (hnone : ∀ {kept s'}, attempt usage reading log s = .ok (false, kept) s' → Same s s') :
    Stepped consumed s (attempt usage reading log s) := by
  have hlead := (extends_atLead usage s).runs
  rw [attempt_apply] at hnone ⊢
  rcases hr : reading log (atLead usage s) with ⟨⟨_ | _, kept⟩, s'⟩ | ⟨e, s'⟩
  · rw [hr] at hnone
    exact stepped_missing (hnone rfl).runs
  · rw [hr] at h
    exact stepped_found (hlead.trans h.runs) fun hconsumed =>
      Nat.lt_of_le_of_lt hlead.position_le (h.moved hconsumed rfl)
  · rw [hr] at h
    exact stepped_error (hlead.trans h.runs)

/-- Reading a token moves on by it. -/
theorem readToken_stepped (usage : Usage) (kinds : List Kind) (log : Captures) (s : State) :
    Stepped true s (readToken usage kinds log s) := by
  have hfailed := (same_recordFailure s).runs
  unfold readToken
  simp only [bind_apply, get_apply]
  cases hahead : s.ahead with
  | nil =>
    have : s.cursor.current = none := by simp [Cursor.current, show s.cursor.ahead = [] from hahead]
    simp only [this]
    exact stepped_missing hfailed
  | cons t rest =>
    have : s.cursor.current = some t := by
      simp [Cursor.current, show s.cursor.ahead = t :: rest from hahead]
    simp only [this]
    split
    · exact stepped_found (runs_advance s) fun _ => position_lt_advance hahead
    · exact stepped_missing hfailed

section

variable {d : Descent} (hd : Progresses d) {owner : NodeId} (ho : owner < s.tree.size)

include hd ho

/-- Reading a node moves on. -/
theorem readNode_stepped (usage : Usage) (categories : List Category) (log : Captures) :
    Stepped true s (readNode d owner usage categories log s) := by
  have h : Taken s (d.choose categories owner s) := hd.choose ho
  unfold readNode
  simp only [bind_apply]
  rcases hr : d.choose categories owner s with ⟨_ | id, s'⟩ | ⟨e, s'⟩
  · rw [hr] at h
    exact stepped_missing (h.runs.trans (same_recordFailure s').runs)
  · rw [hr] at h
    exact stepped_found h.runs fun _ => h.moved rfl
  · rw [hr] at h
    exact stepped_error h.runs

/-- Reading a block moves on, by its braces at least. -/
theorem readBlock_stepped (usage : Usage) (log : Captures) :
    Stepped true s (readBlock d owner usage log s) := by
  have hadvance := runs_advance s
  have h : Runs s.advance (ending (d.statements owner (some .rightBrace) s.advance)) :=
    hd.statements (Nat.lt_of_lt_of_le ho hadvance.size_le)
  unfold readBlock
  simp only [bind_apply, get_apply]
  split
  · rename_i hbrace
    simp only [bind_apply, modify_apply]
    rcases hr : d.statements owner (some .rightBrace) s.advance with ⟨ids, s'⟩ | ⟨e, s'⟩
    · rw [hr] at h
      have hclosed := h.trans (runs_advance s')
      refine stepped_found (hadvance.trans hclosed) fun _ => ?_
      refine Nat.lt_of_lt_of_le ?_ hclosed.position_le
      cases hahead : s.ahead with
      | nil =>
        rw [currentKind_of_end hahead] at hbrace
        cases hbrace
      | cons t rest => exact position_lt_advance hahead
    · rw [hr] at h
      exact stepped_error (hadvance.trans h)
  · exact stepped_missing (same_recordFailure s).runs

end

section

variable {owner : NodeId} (hreading : ∀ log {s}, owner < s.tree.size →
    Stepped consumed s (reading log s))

include hreading

/-- Repeating a reading is a run. -/
theorem repeatedly_runs (n : Nat) (log : Captures) (ho : owner < s.tree.size) :
    Runs s (ending (repeatedly reading n log s)) := by
  induction n generalizing log s with
  | zero => exact .refl s
  | succ n ih =>
    rw [repeatedly]
    refine runs_bind (.refl s) fun heq => ?_
    cases heq
    refine runs_bind (hreading log ho).runs fun {a s'} hr => ?_
    have hruns := (hreading log ho).runs
    rw [hr] at hruns
    refine runs_bind (.refl s') fun heq => ?_
    cases heq
    split
    · exact ih _ (Nat.lt_of_lt_of_le ho hruns.size_le)
    · exact .refl s'

/-- A step that may not be left out takes up tokens if it does when it is found. -/
theorem asUsed_stepped (usage : Usage) (rounds : Nat) (log : Captures) (ho : owner < s.tree.size) :
    Stepped (consumed && !usage.optional) s (asUsed usage rounds reading log s) := by
  have h := hreading log ho
  unfold asUsed
  simp only [bind_apply]
  rcases hr : reading log s with ⟨⟨_ | _, kept⟩, s'⟩ | ⟨e, s'⟩
  · rw [hr] at h
    refine ⟨h.runs, fun hconsumed _ _ heq => ?_⟩
    have hoptional : usage.optional = true := congrArg Prod.fst (EStateM.Result.ok.inj heq).1
    simp [hoptional] at hconsumed
  · rw [hr] at h
    have hmoved (hconsumed : (consumed && !usage.optional) = true) :
        s.cursor.position < s'.cursor.position :=
      h.moved (Bool.and_eq_true_iff.mp hconsumed).1 rfl
    simp only [Bool.not_true, Bool.false_eq_true, if_false]
    split
    · have hmore := repeatedly_runs hreading rounds kept (Nat.lt_of_lt_of_le ho h.runs.size_le)
      simp only [bind_apply]
      rcases hr' : repeatedly reading rounds kept s' with ⟨kept', s''⟩ | ⟨e, s''⟩
      · rw [show ending _ = s' from rfl, hr'] at hmore
        exact stepped_found (h.runs.trans hmore) fun hconsumed =>
          Nat.lt_of_lt_of_le (hmoved hconsumed) hmore.position_le
      · rw [show ending _ = s' from rfl, hr'] at hmore
        exact stepped_error (h.runs.trans hmore)
    · exact stepped_found h.runs hmoved
  · rw [hr] at h
    exact stepped_error h.runs

end

end

section

variable {mode : SplitMode} {n : Nat} {owner : NodeId} {s : State}

/-- A node of the tree owns what is added below it. -/
theorem Owns.of_lt (ho : owner < s.tree.size) :
    Owns s owner (s.tree.category owner) ((s.tree.node owner).level + 1) :=
  ⟨ho, rfl, rfl⟩

mutual

/-- A step moves on if it is found. -/
theorem readOnce_stepped (hd : Progresses (descent mode n)) (step : Step)
    (hyields : ∀ c, yields c step = true) (log : Captures) {s : State} (ho : owner < s.tree.size) :
    Stepped (consumes step) s (readOnce (descent mode n) owner step log s) := by
  have hnone {kept : Captures} {s' : State}
      (h : readOnce (descent mode n) owner step log s = .ok (false, kept) s') : Same s s' :=
    (readOnce_none (.of_lt ho) (hyields _) h).1
  have ho' (usage : Usage) : owner < (atLead usage s).tree.size := by rwa [tree_atLead]
  cases step with
  | token usage kinds =>
    rw [readOnce] at hnone ⊢
    exact attempt_stepped (readToken_stepped ..) hnone
  | node usage categories =>
    rw [readOnce] at hnone ⊢
    exact attempt_stepped (readNode_stepped hd (ho' usage) ..) hnone
  | group usage steps =>
    rw [readOnce] at hnone ⊢
    simp only [yields] at hyields
    exact attempt_stepped
      (readSteps_stepped hd steps (fun c _ => yields_of_mem (hyields c)) log (ho' usage)) hnone
  | choice usage branches =>
    rw [readOnce] at hnone ⊢
    simp only [yields] at hyields
    exact attempt_stepped (readFirst_stepped hd branches hyields log (ho' usage)) hnone
  | block usage =>
    rw [readOnce] at hnone ⊢
    exact attempt_stepped (readBlock_stepped hd (ho' usage) ..) hnone

/-- Steps in order move on if they are found. -/
theorem readSteps_stepped (hd : Progresses (descent mode n)) (steps : List Step)
    (hyields : ∀ c, ∀ step ∈ steps, yields c step = true) (log : Captures) {s : State}
    (ho : owner < s.tree.size) :
    Stepped (consumesAny steps) s (readSteps (descent mode n) owner steps log s) := by
  cases steps with
  | nil => exact stepped_found (.refl s) fun h => by cases h
  | cons step steps =>
    have h := asUsed_stepped
      (fun log _ ho => readOnce_stepped hd step (fun c => hyields c _ (.head _)) log ho)
      step.usage (descent mode n).rounds log ho
    rw [readSteps]
    simp only [bind_apply]
    rcases hr : asUsed step.usage (descent mode n).rounds
      (fun log => readOnce (descent mode n) owner step log) log s with ⟨⟨_ | _, kept⟩, s'⟩ | ⟨e, s'⟩
    · rw [hr] at h
      exact stepped_missing h.runs
    · rw [hr] at h
      have hmore := readSteps_stepped hd steps (fun c step hmem => hyields c step (.tail _ hmem))
        kept (Nat.lt_of_lt_of_le ho h.runs.size_le)
      refine ⟨h.runs.trans hmore.runs, fun hconsumed kept' s'' heq => ?_⟩
      have hruns := hmore.runs
      simp only [if_true] at heq
      rw [show ending _ = s' from rfl, heq] at hruns
      rw [consumesAny, Bool.or_eq_true] at hconsumed
      rcases hconsumed with hfirst | hrest
      · exact Nat.lt_of_lt_of_le (h.moved hfirst rfl) hruns.position_le
      · exact Nat.lt_of_le_of_lt h.runs.position_le (hmore.moved hrest heq)
    · rw [hr] at h
      exact stepped_error h.runs

/-- The branch that is found moves on. -/
theorem readFirst_stepped (hd : Progresses (descent mode n)) (branches : List (List Step))
    (hyields : ∀ c, yieldsOne c branches = true) (log : Captures) {s : State}
    (ho : owner < s.tree.size) :
    Stepped (consumesAll branches) s (readFirst (descent mode n) owner branches log s) := by
  cases branches with
  | nil => exact stepped_missing (.refl s)
  | cons branch branches =>
    simp only [yieldsOne, Bool.and_eq_true] at hyields
    have h := readSteps_stepped hd branch (fun c _ => yields_of_mem (hyields c).1) log ho
    rw [readFirst, consumesAll]
    simp only [bind_apply, get_apply]
    rcases hr : readSteps (descent mode n) owner branch log s with ⟨⟨_ | _, kept⟩, s'⟩ | ⟨e, s'⟩
    · have hsame := (readSteps_none (.of_lt ho) (hyields _).1 hr).1.returnTo
      have hmore := readFirst_stepped hd branches (fun c => (hyields c).2) (kept.take log.size)
        (Nat.lt_of_lt_of_le ho hsame.runs.size_le)
      simp only [Bool.false_eq_true, if_false, bind_apply, modify_apply]
      refine ⟨hsame.runs.trans hmore.runs, fun hconsumed _ _ heq => ?_⟩
      rw [← hsame.position_eq]
      exact hmore.moved (Bool.and_eq_true_iff.mp hconsumed).2 heq
    · rw [hr] at h
      exact stepped_found h.runs fun hconsumed =>
        h.moved (Bool.and_eq_true_iff.mp hconsumed).1 rfl
    · rw [hr] at h
      exact stepped_error h.runs

end

end

/-- How far a reading has come since the start of a resource with `count` sigils: past the head, the
brace and, if one has been seen, past a title. -/
structure Begun (count : Nat) (seen : Bool) (start s : State) : Prop where
  extends_ : Extends start s
  length : s.ahead.length + count + 2 + 2 * seen.toNat ≤ start.ahead.length
  colons : seen = true → colons s.ahead < colons start.ahead

section

variable {count : Nat} {seen : Bool} {start s s' : State} {owner : NodeId} {level : Int}

/-- Going on leaves no more colons ahead than before. -/
theorem Extends.colons_le (h : Extends s s') : colons s'.ahead ≤ colons s.ahead := by
  have := h.run.spends
  omega

/-- A body that has begun stays so while tokens are read. -/
theorem Begun.of_extends (h : Begun count seen start s) (h' : Extends s s') :
    Begun count seen start s' := by
  have hlength := h.length
  have honward := h'.onward
  exact ⟨h.extends_.trans h', by omega, fun hseen =>
    Nat.lt_of_le_of_lt h'.colons_le (h.colons hseen)⟩

/-- What reading the rest of a resource does to the state, since the resource started and since its
brace. -/
structure Onward (start s : State) {α : Type} (r : EStateM.Result ParseError State α) : Prop where
  runs : Runs start (ending r)
  position_le : s.cursor.position ≤ (ending r).cursor.position

/-- A reading in a body that has begun goes onward. -/
theorem Begun.onward {α : Type} {r : EStateM.Result ParseError State α}
    (h : Begun count seen start s) (h' : Extends s (ending r)) : Onward start s r :=
  ⟨h.extends_.runs.trans h'.runs, h'.position_le⟩

theorem Onward.of_extends {α : Type} {r : EStateM.Result ParseError State α}
    (h : Onward start s' r) (h' : Extends s s') : Onward start s r :=
  ⟨h.runs, Nat.le_trans h'.position_le h.position_le⟩

variable {d : Descent} {p : Oracle} (hd : Follows .splice d p)

include hd

/-- One item and those after it. -/
theorem item_onward {categories : List Category} {seen' : Bool}
    {more : Reader (Option (List NodeId))} (ho : Owns s owner .resource level)
    (hk : categories.all (keepsWhole .resource) = true) (hbegun : Begun count seen start s)
    (hseen : ∀ {item rest s'}, p.choose categories .resource s.ahead = .ok (some (item, rest)) →
      Advanced owner level s [item] rest s' → Begun count seen' start s')
    (hmore : ∀ {s'}, Owns s' owner .resource level → Begun count seen' start s' →
      Onward start s' (more s')) :
    Onward start s ((do
        match ← d.choose categories owner with
        | none => return none
        | some item =>
          let rest ← more
          return rest.map (item :: ·) : Reader (Option (List NodeId))) s) := by
  have h : Chosen owner level s (p.choose categories .resource s.ahead)
      (d.choose categories owner s) := hd.choose ho (.inr hk)
  simp only [bind_apply]
  generalize d.choose categories owner s = r at h
  generalize p.choose categories .resource s.ahead = o at h hseen
  cases h with
  | error h => exact hbegun.onward h
  | none h => exact hbegun.onward h.extends
  | @some item rest s' h =>
    have h' := hmore (ho.of_extends h.extends_) (hseen rfl h)
    simp only [bind_apply]
    rcases hr : more s' with ⟨ids, s''⟩ | ⟨e, s''⟩
    all_goals
      rw [hr] at h'
      exact ⟨h'.runs, Nat.le_trans h.extends_.position_le h'.position_le⟩

/-- Reading the items of a resource that may be split makes one split at most. -/
theorem readItems_onward (hp : Sound p) {log : Captures} {sigils : List Token} {type : Token}
    (hsigils : log.tokens "sigil" = sigils) (htype : log.token? "type" = some type)
    (hkinds : ∀ s ∈ sigils, s.kind = .atSign) (hkind : type.kind ∈ Grammar.resourceTypes)
    (n : Nat) (ho : Owns s owner .resource level) (hbegun : Begun sigils.length seen start s) :
    Onward start s (readItems d owner log true n seen s) := by
  induction n generalizing s seen with
  | zero => exact hbegun.onward (.refl s)
  | succ n ih =>
    rw [readItems]
    simp only [bind_apply, modify_apply, get_apply]
    have hskip := extends_skip s Grammar.newlines
    refine Onward.of_extends ?_ hskip
    replace ho := ho.of_extends hskip
    replace hbegun := hbegun.of_extends hskip
    generalize s.skip Grammar.newlines = s at ho hbegun ⊢
    cases hahead : s.ahead with
    | nil =>
      rw [currentKind_of_end hahead]
      exact hbegun.onward (.refl s)
    | cons t rest =>
      rw [currentKind_of_ahead hahead]
      have hadvance := extends_advance s
      have other {categories : List Category} (hk : categories.all (keepsWhole .resource) = true) :=
        item_onward hd ho hk hbegun (fun _ h => hbegun.of_extends h.extends_) ih
      dsimp only
      split
      · exact hbegun.onward hadvance
      split
      · exact (ih (ho.of_extends hadvance) (hbegun.of_extends hadvance)).of_extends hadvance
      split
      · exact other (show Grammar.comments.all _ = true from rfl)
      rw [← hahead]
      split
      · exact other (show [Category.pair].all _ = true from rfl)
      cases seen with
      | false =>
        refine item_onward hd ho (show [Category.title].all _ = true from rfl) hbegun ?_ ih
        intro item rest s' hitem h
        obtain ⟨hlength, hcolons⟩ := hp.title hitem
        have hstart := hbegun.extends_.colons_le
        have hbefore := hbegun.length
        rw [← h.ahead] at hlength hcolons
        refine ⟨hbegun.extends_.trans h.extends_, ?_, fun _ => by omega⟩
        simp only [Bool.toNat_true, Bool.toNat_false] at hbefore ⊢
        omega
      | true =>
        simp only [Bool.and_self, if_true]
        have h : Chosen owner level s (p.choose [.title] .resource s.ahead)
            (d.choose [.title] owner s) := hd.choose ho (.inr rfl)
        simp only [bind_apply]
        generalize d.choose [.title] owner s = r at h
        generalize p.choose [.title] .resource s.ahead = o at h
        cases h with
        | error h => exact hbegun.onward h
        | none h => exact hbegun.onward h.extends
        | @some _ _ s₁ h =>
          simp only [bind_apply, modify_apply]
          have hback := h.extends_.returnTo
          generalize s₁.returnTo s.mark = s₂ at hback
          have hbegun' := hbegun.of_extends hback.extends
          let r : Reopening := ⟨sigils, type, ⟨.leftBrace, "\x7b", s₂.line⟩, hkinds, hkind, rfl⟩
          have htail : splitTokens log s₂.line ++ s₂.cursor.ahead =
              ⟨.rightBrace, "\x7d", s₂.line⟩ :: ⟨.newline, "\n", s₂.line⟩ :: r.tokens s₂.ahead := by
            simp [splitTokens, hsigils, htype, Reopening.tokens, r, State.ahead]
          have hsplit :
              Run 1 start { s₂ with cursor := s₂.cursor.insert (splitTokens log s₂.line) } :=
            Run.of_split r hbegun'.extends_.tokens hbegun'.extends_.run.size hbegun'.length
              (hbegun'.colons rfl) rfl rfl htail
          have hposition : s.cursor.position ≤
              (s₂.cursor.insert (splitTokens log s₂.line)).position :=
            Nat.le_of_eq hback.position_eq.symm
          -- the brace that was put in ends the items
          cases n with
          | zero => exact ⟨⟨1, hsplit⟩, hposition⟩
          | succ n =>
            obtain ⟨s₃, hs₃, -, hclosed⟩ := readItems_closing d owner level true log n
              (s := { s₂ with cursor := s₂.cursor.insert (splitTokens log s₂.line) }) rfl rfl
            rw [hs₃]
            exact ⟨⟨1, hsplit.trans hclosed.run⟩, Nat.le_trans hposition hclosed.position_le⟩

end

section

variable {mode : SplitMode} {d : Descent} {p : Oracle} {owner : NodeId} {level : Int}
  {category parent : Category} {s s' : State}

/-- The contents of a resource, once its head has been read. -/
theorem readResource_onward (hd : Follows mode d p) (hp : Sound p) (ho : Owns s owner parent level)
    {trace : Plain.Trace Phrase} {rest : List Token}
    (hsteps : Plain.inOrder p .resource Category.resource.rule.steps
      (entered .resource owner s).ahead = .ok (some (trace, rest)))
    (h : Advanced s.tree.size (level + 1) (entered .resource owner s) (Plain.treesOf trace) rest
      s') :
    Onward (entered .resource owner s) s' (readResource mode d s.tree.size
      ⟨Plain.logOf (Plain.numbers (entered .resource owner s).tree.size trace)⟩ s') := by
  have hentered := h.extends_
  have onward {α : Type} {r : EStateM.Result ParseError State α} (h' : Extends s' (ending r)) :
      Onward (entered .resource owner s) s' r :=
    ⟨hentered.runs.trans h'.runs, h'.position_le⟩
  obtain ⟨hfits, w, hahead, hw⟩ := Plain.inOrder_sound hp _ hsteps
  obtain ⟨sigils, head, collector, schema⟩ := Plain.headSchema_of_fits hfits
  have ho' : Owns s' s.tree.size .resource (level + 1) := (owns_entered ho).of_extends hentered
  by_cases hkeeps : Keeps mode s' (inChain s' s.tree.size || !(head.hasType && collector.isNone))
  · have hformed := readResource_formed hd hfits schema h.size ho' hkeeps
    generalize readResource mode d s.tree.size _ s' = r at hformed ⊢
    generalize Plain.resource p trace s'.ahead = o at hformed
    cases hformed with
    | error h' => exact onward h'
    | none h' => exact onward h'
    | some _ _ h' => exact onward h'.extends_
  · -- only a resource with a type, outside a chain and not on trial, may be split
    rw [Keeps, Whole] at hkeeps
    obtain ⟨⟨hmode, htrials⟩, hchain, htyped⟩ :
        (mode ≠ .render ∧ s'.trials = 0) ∧ inChain s' s.tree.size = false ∧
          (head.hasType && collector.isNone) = true := by
      simpa using hkeeps
    obtain rfl : mode = .splice := by cases mode <;> first | rfl | exact absurd rfl hmode
    obtain ⟨t, rfl, rfl⟩ : ∃ t, head = .type t ∧ collector = none := by
      cases head <;> cases collector <;> simp_all [Head.hasType]
    obtain ⟨hschema, -⟩ :=
      schema.numbers_type (entered .resource owner s).tree.size fun _ => .simple
    obtain ⟨hsigils, ht, -, htoken⟩ := hschema.type_inv
    by_cases hbrace : ∃ opening body, (s'.skip Grammar.newlines).ahead = opening :: body ∧
        opening.kind = .leftBrace
    · obtain ⟨opening, body, hopened, hopening⟩ := hbrace
      have hskip := (extends_skip s' Grammar.newlines).trans (extends_advance _)
      have hlength : sigils.length + 1 ≤ w.length := by
        obtain ⟨-, -, htrace, -⟩ := schema.type_inv
        have hle := hw.length_le
        rw [htrace] at hle
        simpa using hle
      have hbegun : Begun sigils.length false (entered .resource owner s)
          (s'.skip Grammar.newlines).advance := by
        refine ⟨hentered.trans hskip, ?_, fun h => by cases h⟩
        have hbody := (extends_skip s' Grammar.newlines).onward
        rw [hopened, h.ahead, List.length_cons] at hbody
        rw [hahead, ahead_advance, hopened, List.tail_cons, List.length_append, Bool.toNat_false]
        omega
      rw [readResource_opened hschema hopened hopening hchain htrials]
      have hitems := (readItems_onward hd hp hschema.sigils_eq htoken hsigils ht d.rounds
        (ho'.of_extends hskip) hbegun).of_extends hskip
      generalize readItems d s.tree.size _ true _ false _ = r at hitems ⊢
      cases r <;> exact ⟨hitems.runs, hitems.position_le⟩
    · obtain ⟨s'', hread, hextends⟩ := readResource_bare d s.tree.size hschema
        fun opening body hopened hopening => hbrace ⟨opening, body, hopened, hopening⟩
      rw [hread]
      exact onward hextends

/-- Completing a node adds no nodes. -/
theorem size_completed (category : Category) (id : NodeId) (form : Form) (s : State) :
    (completed category id form s).tree.size = s.tree.size := by
  unfold completed
  split <;> simp [Tree.complete, Tree.setSpacing, Tree.update, Tree.size]

/-- Completing a node is a run. -/
theorem runs_completed (category : Category) (id : NodeId) (form : Form) (s : State) :
    Runs s (completed category id form s) := by
  have hcursor := cursor_completed category id form s
  exact ⟨0, .of_tokens (congrArg Cursor.toList hcursor)
    (Nat.le_of_eq (congrArg (·.ahead.length) hcursor))
    (Nat.le_of_eq (size_completed category id form s).symm)⟩

/-- A node is read if its contents have been made, and then the cursor has moved on. -/
theorem concluded_taken {r : EStateM.Result ParseError State (Option Form)}
    (hnone : ∀ {s'}, concluded category s r = .ok none s' → Same s s') (hruns : Runs s (ending r))
    (hmoved : ∀ {form s'}, r = .ok (some form) s' → s.cursor.position < s'.cursor.position) :
    Taken s (concluded category s r) := by
  rcases r with ⟨_ | form, s'⟩ | ⟨e, s'⟩
  · exact taken_none (hnone rfl).runs
  · refine taken_some (hruns.trans (runs_completed ..)) ?_
    rw [cursor_completed]
    exact hmoved rfl
  · exact taken_error hruns

/-- Every rule but that of a manifest reads something. -/
theorem consumesAny_rule (h : category ≠ .manifest) : consumesAny category.rule.steps = true := by
  cases category <;> first | rfl | exact absurd rfl h

/-- Reading a node moves on. -/
theorem readCategory_taken {n : Nat} (hd : Progresses (descent mode n)) (ho : owner < s.tree.size) :
    Taken s (readCategory mode (descent mode n) category owner s) := by
  have howns := Owns.of_lt ho
  have hentered := extends_entered category howns
  have hsize : s.tree.size < (entered category owner s).tree.size := (owns_entered howns).lt
  have hnone {s' : State}
      (h : readCategory mode (descent mode n) category owner s = .ok none s') : Same s s' :=
    readCategory_none (descent_follows mode n) (Plain.level_sound n) howns h
  have hsteps := readSteps_stepped hd category.rule.steps
    (fun c => yields_rule c category) {} hsize
  rw [readCategory_apply] at hnone ⊢
  rcases hr : readSteps (descent mode n) s.tree.size category.rule.steps {}
    (entered category owner s) with ⟨⟨_ | _, log⟩, s'⟩ | ⟨e, s'⟩
  · rw [hr] at hnone
    exact taken_none (hnone rfl).runs
  · rw [hr] at hsteps
    have hruns := hentered.runs.trans hsteps.runs
    by_cases hresource : category = .resource
    · subst hresource
      have hkeep : stepsKeep .resource Category.resource.rule.steps = true := by decide
      have hloose := readSteps_loose (descent_follows mode n) Category.resource.rule.steps {}
        (owns_entered howns) (.inr hkeep)
      have hmoved := Nat.lt_of_le_of_lt hentered.position_le (hsteps.moved rfl rfl)
      rw [hr] at hloose hnone
      generalize hplain : Plain.inOrder (Plain.level n) .resource Category.resource.rule.steps _ = o
        at hloose
      cases hloose with
      | some h =>
        have honward := readResource_onward (descent_follows mode n) (Plain.level_sound n) howns
          hplain h
        refine concluded_taken hnone (hentered.runs.trans honward.runs) fun heq => ?_
        have hend := congrArg (fun r => (ending r).cursor.position) heq
        exact Nat.lt_of_lt_of_le hmoved (Nat.le_trans honward.position_le (Nat.le_of_eq hend))
    · have hne : (category == .resource) = false := by simpa using hresource
      rw [hr] at hnone
      simp only [Bool.not_true, hne, Bool.false_eq_true, if_false, pure_apply] at hnone ⊢
      refine concluded_taken hnone hruns fun heq => ?_
      have hmanifest : category ≠ .manifest := by
        rintro rfl
        cases heq
      obtain rfl := (EStateM.Result.ok.inj heq).2
      exact Nat.lt_of_le_of_lt hentered.position_le
        (hsteps.moved (consumesAny_rule hmanifest) rfl)
  · rw [hr] at hsteps
    exact taken_error (hentered.runs.trans hsteps.runs)

/-- Choosing a category takes up tokens if a node is read. -/
theorem chooseFrom_taken {n : Nat} (hd : Progresses (descent mode n)) (categories : List Category)
    (ho : owner < s.tree.size) : Taken s (chooseFrom mode (descent mode n) categories owner s) := by
  induction categories with
  | nil => exact taken_none (.refl s)
  | cons category categories ih =>
    rw [chooseFrom_apply (descent_follows mode n) category categories (.of_lt ho)]
    split
    · exact taken_error (.refl s)
    split
    · exact readCategory_taken hd ho
    · exact ih

/-- Reading statements is a run. -/
theorem readStatements_runs (hd : Progresses d) (closing : Option Kind) (n : Nat)
    (ho : owner < s.tree.size) : Runs s (ending (readStatements d owner closing n s)) := by
  induction n generalizing s with
  | zero => exact .refl s
  | succ n ih =>
    rw [readStatements]
    simp only [bind_apply, modify_apply, get_apply]
    have hskip := extends_skip s [.newline, .semicolon]
    refine hskip.runs.trans ?_
    replace ho := Nat.lt_of_lt_of_le ho hskip.runs.size_le
    generalize s.skip [.newline, .semicolon] = s at ho ⊢
    cases s.cursor.currentKind with
    | none => cases closing <;> exact .refl s
    | some kind =>
      dsimp only
      split
      · exact .refl s
      have hclear : Same s { s with furthest := none } := ⟨rfl, rfl, rfl⟩
      have h : Taken { s with furthest := none }
          (d.choose Grammar.statements owner { s with furthest := none }) := hd.choose ho
      simp only [bind_apply, modify_apply]
      refine hclear.runs.trans ?_
      rcases hr : d.choose Grammar.statements owner { s with furthest := none } with
        ⟨_ | id, s'⟩ | ⟨e, s'⟩
      · rw [hr] at h
        exact h.runs
      · rw [hr] at h
        have hmore := ih (Nat.lt_of_lt_of_le ho h.runs.size_le)
        simp only [bind_apply, get_apply]
        split
        · exact h.runs
        · simp only [bind_apply]
          rcases hr' : readStatements d owner closing n s' with ⟨ids, s''⟩ | ⟨e, s''⟩
          all_goals
            rw [show ending _ = s' from rfl, hr'] at hmore
            exact h.runs.trans hmore
      · rw [hr] at h
        exact h.runs

end

/-- Every level of the descent moves on. -/
theorem descent_progresses (mode : SplitMode) (n : Nat) : Progresses (descent mode n) := by
  induction n with
  | zero => exact ⟨fun _ => taken_error (.refl _), fun _ => .refl _⟩
  | succ n ih =>
    exact ⟨fun ho => chooseFrom_taken ih _ ho, fun ho => readStatements_runs ih _ n ho⟩

end TidyManifest.Parse
