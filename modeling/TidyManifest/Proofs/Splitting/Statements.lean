import TidyManifest.Proofs.Splitting.Layout
import TidyManifest.Proofs.Splitting.Resources

/-!
# Parsing with resources split

A parse that splits resources reads the same statements as one that does not, with every resource
split: the tree is that of the split phrases (`parse_splice`).  Inside a block the statements are
split in their places, so the argument is an induction on the levels of the descent, and within a
level on the number of tokens ahead, which falls even when tokens are put in.

The layout cannot tell the two trees apart, so both ways of splitting give the same text.
-/

namespace TidyManifest

namespace Plain

open Grammar

section

variable {ι : Type} {categoryOf : ι → Category}

/-- A rule with a body ends with it, and nothing before it holds a resource that may be split. -/
theorem steps_of_hasBody {c : Category} (h : c.hasBody = true) :
    ∃ init, c.rule.steps = init ++ [Step.braces.named "body"] ∧
      Parse.stepsKeep c init = true ∧ startBelow (rank c) init = true := by
  refine ⟨c.rule.steps.dropLast, ?_, ?_, ?_⟩
  all_goals cases c <;> first | rfl | cases h

/-- A resource has no body. -/
theorem beq_resource_of_hasBody {c : Category} (h : c.hasBody = true) :
    (c == .resource) = false := by
  cases c <;> first | rfl | cases h

/-- Traces of two sequences of steps make a trace of both. -/
theorem fits_append {first second : List Step} {trace more : Trace ι}
    (h : Fits categoryOf first trace) (h' : Fits categoryOf second more) :
    Fits categoryOf (first ++ second) (trace ++ more) := by
  induction first generalizing trace with
  | nil =>
    obtain rfl : trace = [] := h
    exact h'
  | cons step first ih =>
    obtain ⟨u, v, rfl, hu, hv⟩ := h
    exact ⟨u, v ++ more, List.append_assoc .., hu, ih hv⟩

/-- A block in braces is what the last step of a body asks for. -/
theorem fits_body (xs : List ι) : Fits categoryOf [Step.braces.named "body"] [body xs] :=
  ⟨[body xs], [], rfl, (fitsUsed_single rfl rfl).mpr ⟨xs, rfl⟩, rfl⟩

/-- Steps are read in order, the second part where the first one ended. -/
theorem inOrder_append {d : Oracle} {owner : Category} (first second : List Step)
    (tokens : List Token) :
    inOrder d owner (first ++ second) tokens =
      andThen (inOrder d owner first tokens) fun trace rest =>
        andThen (inOrder d owner second rest) fun more rest => .ok (some (trace ++ more, rest)) := by
  induction first generalizing tokens with
  | nil =>
    rw [List.nil_append, inOrder, andThen_some]
    rcases inOrder d owner second tokens with _ | _ | _ <;> rfl
  | cons step first ih =>
    rw [List.cons_append, inOrder, inOrder]
    rcases used step.usage d.rounds (fun tokens => once d owner step tokens) tokens with
      _ | _ | ⟨trace, rest⟩
    · rfl
    · rfl
    · simp only [andThen_some, ih]
      rcases inOrder d owner first rest with _ | _ | ⟨more, rest'⟩
      · rfl
      · rfl
      · simp only [andThen_some]
        rcases inOrder d owner second rest' with _ | _ | ⟨others, rest''⟩
        · rfl
        · rfl
        · simp only [andThen_some, List.append_assoc]

/-- The contents of a rule with a body follow its schema with any other body too. -/
theorem Schema.withBodies {c : Category} {form : Form ι} {w : Trace ι}
    (h : Schema categoryOf c form w) (hc : c.hasBody = true) (g : ι → List ι) :
    ∃ trace ps, w = trace ++ [body ps] ∧
      Schema categoryOf c (form.withBodies id g) (trace ++ [body (ps.flatMap g)]) := by
  cases h with
  | @caseOption values statements trace colon hvalues hcolon =>
    exact ⟨trace ++ [word colon], statements, by simp,
      by simpa [Form.withBodies] using .caseOption hvalues hcolon⟩
  | @classBlock keyword name _ statements _ trace more hkeyword hname hparams hinherits =>
    exact ⟨word keyword :: named "name" name :: (trace ++ more), statements, by simp,
      by simpa [Form.withBodies] using .classBlock hkeyword hname hparams hinherits⟩
  | @defineBlock keyword name _ statements trace hkeyword hname hparams =>
    exact ⟨word keyword :: named "name" name :: trace, statements, by simp,
      by simpa [Form.withBodies] using .defineBlock hkeyword hname hparams⟩
  | @nodeBlock keyword name _ statements _ trace more hkeyword hname hnames hinherits =>
    exact ⟨word keyword :: named "names" name :: (trace ++ more), statements, by simp,
      by simpa [Form.withBodies] using .nodeBlock hkeyword hname hnames hinherits⟩
  | branch hkeyword hcondition =>
    exact ⟨[_, _], _, rfl, .branch hkeyword hcondition⟩
  | elseBranch hkeyword => exact ⟨[_], _, rfl, .elseBranch hkeyword⟩
  | caseBlock hkeyword hsubject => exact ⟨[_, _], _, rfl, .caseBlock hkeyword hsubject⟩
  | _ => cases hc

end

/-- The category that is recognised first. -/
def recognised (categories : List Category) (parent : Category) (tokens : List Token) :
    Option Category :=
  categories.find? fun c => accepts full c parent tokens

/-- The category that is recognised first is read. -/
theorem choose_eq_recognised (categories : List Category) (parent : Category) (tokens : List Token) :
    full.choose categories parent tokens =
      match recognised categories parent tokens with
      | none => .ok none
      | some c => phrase full c tokens := by
  rw [full_choose]
  unfold recognised
  induction categories with
  | nil => rfl
  | cons c categories ih =>
    rw [chooseFrom_full_cons, List.find?_cons]
    cases accepts full c parent tokens with
    | true => rfl
    | false => exact ih

/-- A statement is a resource only if it is no chain. -/
theorem not_chain_of_resource {parent : Category} {tokens : List Token}
    (h : recognised Grammar.statements parent tokens = some .resource) :
    accepts full .chain parent tokens = false := by
  have hstatements : Grammar.statements =
      Reopening.otherStatements ++ [.chain, .resource, .call] := rfl
  rw [recognised, hstatements, List.find?_append] at h
  cases hother : Reopening.otherStatements.find? fun c => accepts full c parent tokens with
  | some c =>
    rw [hother, Option.some_or, Option.some_inj] at h
    have hmem := List.mem_of_find?_eq_some hother
    rw [h] at hmem
    exact absurd hmem (by decide)
  | none =>
    rw [hother, Option.none_or, List.find?_cons] at h
    cases haccepts : accepts full .chain parent tokens with
    | false => rfl
    | true =>
      rw [haccepts] at h
      cases h

/-- One statement, and those after it. -/
def thenStatements (parent : Category) (closing : Option Kind) :
    Outcome Phrase → Except Fault (List Phrase × List Token)
  | .error f => .error f
  | .ok none => .error .refused
  | .ok (some (p, rest)) =>
    match full.statements parent closing rest with
    | .error f => .error f
    | .ok (ps, rest) => .ok (p :: ps, rest)

/-- Enough rounds read all statements. -/
theorem statements_eq_full {parent : Category} {closing : Option Kind} {k : Nat}
    {tokens : List Token} (hk : tokens.length < k) :
    statements full parent closing k tokens = full.statements parent closing tokens := by
  rw [full_statements]
  exact (statements_settled (full_agrees (8 * tokens.length + 6)) full_sound parent closing
    (Nat.le_refl _) hk (Nat.lt_succ_self _)).1

/-- Statements are read one by one, up to the closing kind. -/
theorem full_statements_eq (parent : Category) (closing : Option Kind) (tokens : List Token) :
    full.statements parent closing tokens =
      match Lookahead.significant [.newline, .semicolon] tokens with
      | [] => if closing.isSome then .error .ended else .ok ([], [])
      | t :: rest =>
        if some t.kind == closing then .ok ([], t :: rest)
        else thenStatements parent closing (full.choose Grammar.statements parent (t :: rest)) := by
  have hle := length_significant_le [.newline, .semicolon] tokens
  rw [full_statements, statements]
  cases hrest : Lookahead.significant [.newline, .semicolon] tokens with
  | nil => rfl
  | cons t rest =>
    rw [hrest] at hle
    dsimp only
    split
    · rfl
    · cases hchoose : full.choose Grammar.statements parent (t :: rest) with
      | error f => rfl
      | ok o =>
        rcases o with _ | ⟨p, rest'⟩
        · rfl
        · have hlt := full_sound.progress hchoose
          dsimp only [thenStatements]
          have hrest : statements full parent closing tokens.length rest' =
              full.statements parent closing rest' := statements_eq_full (by omega)
          rw [if_neg (Nat.ne_of_lt hlt)]
          cases hcases : full.statements parent closing rest' with
          | error f => simp only [hrest, hcases]
          | ok r => simp only [hrest, hcases]

/-- The statements of a manifest are those that are read with enough rounds. -/
theorem manifest_eq (tokens : List Token) :
    manifest (Parse.levels tokens) tokens =
      (full.statements .manifest none tokens).map Prod.fst := by
  have hlevels : 8 * tokens.length + 7 ≤ Parse.levels tokens := by
    simp only [Parse.levels]
    omega
  have hfull : Settled ((level (Parse.levels tokens)).statements .manifest none tokens)
      (full.statements .manifest none tokens) := (agrees_full _).statements (by omega)
  rw [manifest, hfull.1]
  cases full.statements .manifest none tokens <;> rfl

/-- A head that was put in is read as the next statement. -/
theorem statements_reopened {parent : Category} {closing : Option Kind} {newline : Token}
    (r : Reopening) (tail : List Token) (hnewline : newline.kind = .newline)
    (hclosing : ∀ kind ∈ Kind.atSign :: resourceTypes, closing ≠ some kind) :
    full.statements parent closing (newline :: r.tokens tail) =
      thenStatements parent closing (full.choose Grammar.statements parent (r.tokens tail)) := by
  have hskip : Lookahead.significant [.newline, .semicolon] (newline :: r.tokens tail) =
      r.tokens tail :=
    calc Lookahead.significant [.newline, .semicolon] (newline :: r.tokens tail)
      _ = Lookahead.significant [.newline, .semicolon] (r.tokens tail) := by
        simp [Lookahead.significant, Token.isOneOf, hnewline]
      _ = r.tokens tail := r.significant_tokens tail (by decide)
  obtain ⟨more, hmore⟩ := r.tokens_eq tail
  have hne : (some r.first.kind == closing) = false := by
    simpa using (hclosing _ r.first_mem).symm
  rw [full_statements_eq, hskip, hmore]
  simp only [hne, Bool.false_eq_true, if_false]

end Plain

namespace Parse

open Plain (Fault Outcome full thenStatements)

/-- What reading statements gives where resources may be split, next to the plain outcome. -/
inductive SplitListed (owner : NodeId) (level : Int) (s : State) :
    Except Fault (List Phrase × List Token) → EStateM.Result ParseError State (List NodeId) → Prop
  | error {f : Fault} {e : ParseError} {s' : State} (he : Explains f e) :
      SplitListed owner level s (.error f) (.error e s')
  | ok {ps : List Phrase} {rest : List Token} {s' : State}
      (h : Grown owner level s (ps.flatMap Phrase.split) rest s') :
      SplitListed owner level s (.ok (ps, rest))
        (.ok (Phrase.starts s.tree.size (ps.flatMap Phrase.split)) s')

section

variable {m : Nat} {d : Descent} {owner : NodeId} {level : Int} {parent category : Category}
  {closing : Option Kind} {s s' : State}

/-- Statements that are read further on are read from here, if the tree is the same. -/
theorem SplitListed.of_extends {o : Except Fault (List Phrase × List Token)}
    {r : EStateM.Result ParseError State (List NodeId)} (h : Extends s s')
    (htree : s'.tree = s.tree) (hl : SplitListed owner level s' o r) :
    SplitListed owner level s o r := by
  cases hl with
  | error he => exact .error he
  | ok h' =>
    rw [htree]
    exact .ok (h'.of_extends h htree)

/-- A statement that was read, and those after it. -/
theorem SplitListed.cons {p q : Phrase} {ps : List Phrase} {before rest : List Token} {s₁ : State}
    {others : List Phrase} (h : Grown owner level s [q] before s₁)
    (h' : Grown owner level s₁ others rest s') (hsplit : (p :: ps).flatMap Phrase.split = q :: others) :
    SplitListed owner level s (.ok (p :: ps, rest))
      (.ok (s.tree.size :: Phrase.starts s₁.tree.size others) s') := by
  have hgrown := h.trans h'
  have hstarts : s.tree.size :: Phrase.starts s₁.tree.size others =
      Phrase.starts s.tree.size ((p :: ps).flatMap Phrase.split) := by
    rw [hsplit, h.size]
    simp [Phrase.starts]
  rw [hstarts]
  exact .ok (by rw [hsplit]; exact hgrown)

/-- One statement and those after it, where resources may be split. -/
theorem statement_split {more : Reader (List NodeId)} {o : Outcome Phrase}
    (hclosing : ∀ kind ∈ Kind.atSign :: Grammar.resourceTypes, closing ≠ some kind)
    (ho : Owns s owner parent level)
    (hfirst : ∃ t rest, s.ahead = t :: rest ∧ t.kind ∉ Grammar.newlines)
    (h : Spliced parent owner level s o (d.choose Grammar.statements owner s))
    (hmore : ∀ {s'}, Owns s' owner parent level → s'.trials = s.trials →
      s'.ahead.length < s.ahead.length →
      SplitListed owner level s' (full.statements parent closing s'.ahead) (more s')) :
    SplitListed owner level s (thenStatements parent closing o)
      ((do
        match ← d.choose Grammar.statements owner with
        | none => throw (← get).blame
        | some id =>
          let after ← get
          if after.cursor.position == s.cursor.position then throw (.stalled after.line)
          else return id :: (← more) : Reader (List NodeId)) s) := by
  have moved {s' : State} (hmoved : s.cursor.position < s'.cursor.position) :
      (s'.cursor.position == s.cursor.position) = false := by
    simpa using Nat.ne_of_gt hmoved
  simp only [bind_apply]
  generalize d.choose Grammar.statements owner s = r at h
  cases h with
  | error he => exact .error he
  | none h =>
    obtain ⟨t, rest, hahead, ht⟩ := hfirst
    exact .error (blame_of_ahead (h.ahead.trans hahead) ht)
  | @whole p q rest s' hsplit h hmoved hlength =>
    have h' := hmore (ho.of_grow h.tree) h.trials (by rwa [h.ahead])
    rw [h.ahead] at h'
    simp only [bind_apply, get_apply, moved hmoved, Bool.false_eq_true, if_false, thenStatements]
    generalize more s' = r at h'
    generalize full.statements parent closing rest = o at h'
    cases h' with
    | error he => exact .error he
    | ok h' => exact .cons h h' (by simp [hsplit])
  | @cut q o r newline tail s' hnewline h hmoved hlength hjoins =>
    have h' := hmore (ho.of_grow h.tree) h.trials (by rwa [h.ahead])
    rw [h.ahead, Plain.statements_reopened r tail hnewline hclosing] at h'
    simp only [bind_apply, get_apply, moved hmoved, Bool.false_eq_true, if_false]
    generalize more s' = r at h'
    generalize full.choose Grammar.statements parent _ = o' at h' hjoins
    cases hjoins with
    | error f => cases h' with | error he => exact .error he
    | none => cases h' with | error he => exact .error he
    | @some p p' rest hsplit =>
      simp only [thenStatements] at h' ⊢
      generalize full.statements parent closing rest = o at h'
      rcases o with f | ⟨ps, rest'⟩
      · cases h' with | error he => exact .error he
      · cases h' with
        | ok h' => exact .cons h h' (by simp [hsplit])

/-- Reading statements where resources may be split, if every statement is read so. -/
theorem readStatements_split {n : Nat}
    (hclosing : ∀ kind ∈ Kind.atSign :: Grammar.resourceTypes, closing ≠ some kind)
    (hchoose : ∀ {s}, Owns s owner parent level → s.trials = 0 → s.ahead.length ≤ n →
      Lookahead.significant Grammar.newlines s.ahead = s.ahead →
      Spliced parent owner level s (full.choose Grammar.statements parent s.ahead)
        (d.choose Grammar.statements owner s))
    (k : Nat) (ho : Owns s owner parent level) (htrials : s.trials = 0) (hn : s.ahead.length ≤ n)
    (hk : s.ahead.length < k) :
    SplitListed owner level s (full.statements parent closing s.ahead)
      (readStatements d owner closing k s) := by
  induction k generalizing s with
  | zero => omega
  | succ k ih =>
    rw [Plain.full_statements_eq, readStatements]
    simp only [bind_apply, modify_apply, get_apply, ← ahead_skip]
    have hskip := extends_skip s [.newline, .semicolon]
    apply SplitListed.of_extends hskip rfl
    have hle := hskip.onward
    have hfix : Lookahead.significant Grammar.newlines (s.skip [.newline, .semicolon]).ahead =
        (s.skip [.newline, .semicolon]).ahead := by
      rw [ahead_skip]
      exact Lookahead.significant_of_subset (by simp [Grammar.newlines]) _
    replace ho := ho.of_extends hskip
    replace htrials : (s.skip [.newline, .semicolon]).trials = 0 := htrials
    generalize s.skip [.newline, .semicolon] = s at ho hle hfix htrials ⊢
    cases hahead : s.ahead with
    | nil =>
      rw [currentKind_of_end hahead]
      cases closing with
      | none => exact .ok ⟨hahead, by simp, rfl, Nat.le_refl _⟩
      | some kind => exact .error rfl
    | cons t rest =>
      rw [currentKind_of_ahead hahead]
      dsimp only
      split
      · exact .ok ⟨hahead, by simp, rfl, Nat.le_refl _⟩
      · obtain ⟨c, hc⟩ : ∃ c : State, c = { s with furthest := none } := ⟨_, rfl⟩
        have hclear : Same s c := by
          rw [hc]
          exact ⟨rfl, rfl, rfl⟩
        have hfirst : t.kind ∉ Grammar.newlines := Plain.significant_head (hfix.trans hahead)
        replace ho := ho.of_extends hclear.extends
        rw [← hclear.trials] at htrials
        rw [← hclear.ahead] at hle hfix hahead
        rw [bind_apply, modify_apply, ← hc, ← hahead]
        apply SplitListed.of_extends hclear.extends hclear.tree
        have h := hchoose ho htrials (Nat.le_trans hle hn) hfix
        have hmore := statement_split hclosing ho ⟨t, rest, hahead, hfirst⟩ h fun ho' htrials' hlt =>
          ih ho' (htrials'.trans htrials) (by omega) (by omega)
        rw [hclear.cursor] at hmore
        exact hmore

/-- Steps are read in order, the second part where the first one ended. -/
theorem readSteps_append (d : Descent) (owner : NodeId) (first second : List Step) (log : Captures)
    (s : State) :
    readSteps d owner (first ++ second) log s =
      match readSteps d owner first log s with
      | .error e s' => .error e s'
      | .ok (false, kept) s' => .ok (false, kept) s'
      | .ok (true, kept) s' => readSteps d owner second kept s' := by
  induction first generalizing log s with
  | nil => rfl
  | cons step first ih =>
    rw [List.cons_append, readSteps, readSteps]
    simp only [bind_apply]
    rcases asUsed step.usage d.rounds (fun log => readOnce d owner step log) log s with
      ⟨⟨_ | _, kept⟩, s'⟩ | ⟨e, s'⟩
    · rfl
    · exact ih kept s'
    · rfl

/-- A step that is read once and may not be left out. -/
theorem readSteps_single (d : Descent) (owner : NodeId) {step : Step} (log : Captures) (s : State)
    (ho : step.usage.optional = false) (hm : step.usage.many = false) :
    readSteps d owner [step] log s = readOnce d owner step log s := by
  rw [readSteps]
  simp only [bind_apply, asUsed]
  rcases readOnce d owner step log s with ⟨⟨_ | _, kept⟩, s'⟩ | ⟨e, s'⟩ <;>
    simp [ho, hm, readSteps]

/-- What reading steps that end with a body gives where resources may be split, next to the plain
outcome. -/
inductive SplitSteps (steps : List Step) (owner : NodeId) (level : Int) (log : Captures) (s : State) :
    Outcome (Plain.Trace Phrase) → EStateM.Result ParseError State (Bool × Captures) → Prop
  | error {f : Fault} {e : ParseError} {s' : State} (he : Explains f e) :
      SplitSteps steps owner level log s (.error f) (.error e s')
  | none {kept : Captures} {s' : State} (h : Extends s s') :
      SplitSteps steps owner level log s (.ok none) (.ok (false, kept) s')
  | some {trace : Plain.Trace Phrase} {ps : List Phrase} {rest : List Token} {s' : State}
      (hfits : ∀ qs, Plain.Fits Phrase.category steps (trace ++ [Plain.body qs]))
      (h : Grown owner level s (Plain.treesOf trace ++ ps.flatMap Phrase.split) rest s')
      (hmoved : s.cursor.position < s'.cursor.position) :
      SplitSteps steps owner level log s (.ok (some (trace ++ [Plain.body ps], rest)))
        (.ok (true, ⟨log.entries ++ Plain.logOf (Plain.numbers s.tree.size
          (trace ++ [Plain.body (ps.flatMap Phrase.split)]))⟩) s')

/-- Reading the body of a rule. -/
theorem readBody_split {n : Nat} (log : Captures) (ho : Owns s owner category level)
    (htrials : s.trials = 0) (hn : s.ahead.length ≤ n)
    (hstatements : ∀ {s'}, Owns s' owner category level → s'.trials = 0 → s'.ahead.length < n →
      SplitListed owner level s' (full.statements category (some .rightBrace) s'.ahead)
        (d.statements owner (some .rightBrace) s')) :
    SplitSteps [Step.braces.named "body"] owner level log s
      (Plain.inOrder full category [Step.braces.named "body"] s.ahead)
      (readSteps d owner [Step.braces.named "body"] log s) := by
  have hlead := extends_skip s Grammar.newlines
  rw [Plain.inOrder_single rfl rfl, readSteps_single d owner log s rfl rfl]
  unfold Step.braces Step.named Step.withUsage
  rw [Plain.once, readOnce, attempt_apply, ← ahead_atLead]
  simp only [atLead, Bool.false_eq_true, if_false, readBlock, bind_apply, get_apply]
  have hle := hlead.onward
  have hfailed := (hlead.trans (same_recordFailure _).extends).returnTo
  replace ho := ho.of_extends hlead
  cases hahead : (s.skip Grammar.newlines).ahead with
  | nil =>
    rw [currentKind_of_end hahead]
    exact .none hfailed.extends
  | cons t rest =>
    rw [currentKind_of_ahead hahead]
    by_cases hbrace : (t.kind == .leftBrace) = true
    · have hadvance := hlead.trans (extends_advance (s.skip Grammar.newlines))
      have hahead' : (s.skip Grammar.newlines).advance.ahead = rest := by
        rw [ahead_advance, hahead, List.tail_cons]
      have hlt : rest.length < s.ahead.length := by
        rwa [hahead] at hle
      have h := hstatements (ho.of_extends (extends_advance _)) (hadvance.trials.trans htrials)
        (by rw [hahead']; omega)
      rw [hahead'] at h
      simp only [hbrace, Option.some_beq_some, if_true, bind_apply, modify_apply]
      generalize d.statements owner (some .rightBrace) _ = r at h
      generalize full.statements category (some .rightBrace) rest = o at h
      cases h with
      | error he => exact .error he
      | @ok ps rest' s' h =>
        have hgrown : Grown owner level s (Plain.treesOf [] ++ ps.flatMap Phrase.split) rest'.tail
            s'.advance := by
          refine ⟨by rw [ahead_advance, h.ahead], ?_, ?_, ?_⟩
          · exact h.tree
          · exact h.trials.trans hadvance.trials
          · exact Nat.le_trans hadvance.position_le
              (Nat.le_trans h.onward (extends_advance s').position_le)
        have hmoved : s.cursor.position < s'.advance.cursor.position :=
          Nat.lt_of_lt_of_le (hadvance.position_lt (by rwa [hahead']))
            (Nat.le_trans h.onward (extends_advance s').position_le)
        have hsome : SplitSteps [Step.braces.named "body"] owner level log s
            (.ok (some ([] ++ [Plain.body ps], rest'.tail))) (.ok _ s'.advance) :=
          .some Plain.fits_body hgrown hmoved
        simpa [addIf_eq, Plain.numbers_block, State.advance, State.skip, Plain.inOrder, Step.braces,
          Step.named, Step.withUsage] using hsome
    · simp only [hbrace, Option.some_beq_some, Bool.false_eq_true, if_false]
      exact .none hfailed.extends

/-- Reading the steps of a rule with a body. -/
theorem readSteps_split (hd : Follows .splice d (Plain.level m)) (hbody : category.hasBody = true)
    (ho : Owns s owner category level) (htrials : s.trials = 0)
    (hm : 8 * s.ahead.length + 5 ≤ m)
    (hstatements : ∀ {s'}, Owns s' owner category level → s'.trials = 0 →
      s'.ahead.length < s.ahead.length →
      SplitListed owner level s' (full.statements category (some .rightBrace) s'.ahead)
        (d.statements owner (some .rightBrace) s')) :
    SplitSteps category.rule.steps owner level {} s
      (Plain.inOrder full category category.rule.steps s.ahead)
      (readSteps d owner category.rule.steps {} s) := by
  obtain ⟨init, hsteps, hkeep, hstart⟩ := Plain.steps_of_hasBody hbody
  have hrank := Plain.rank_lt category
  have h := readSteps_full hd {} ho hkeep (Plain.one_lt_rank category) hstart (by omega)
  rw [hsteps, Plain.inOrder_append, readSteps_append]
  generalize readSteps d owner init {} s = r at h
  generalize hplain : Plain.inOrder full category init s.ahead = o at h
  cases h with
  | error _ he => exact .error he
  | none h => exact .none h
  | @some trace rest s' h =>
    obtain ⟨hfits, -⟩ := Plain.inOrder_sound Plain.full_sound _ hplain
    have h' := readBody_split ⟨Plain.logOf (Plain.numbers s.tree.size trace)⟩
      (ho.of_extends h.extends_) (h.extends_.trials.trans htrials) h.extends_.onward hstatements
    rw [h.ahead] at h'
    simp only [Plain.andThen_some, List.nil_append]
    generalize readSteps d owner [Step.braces.named "body"] _ s' = r at h'
    generalize Plain.inOrder full category [Step.braces.named "body"] rest = o at h'
    cases h' with
    | error he => exact .error he
    | none h' => exact .none (h.extends_.trans h')
    | @some trace' ps rest' s'' hfits' h' hmoved =>
      have hgrown := h.grown.trans h'
      have hsome : SplitSteps (init ++ [Step.braces.named "body"]) owner level {} s
          (.ok (some ((trace ++ trace') ++ [Plain.body ps], rest'))) (.ok _ s'') :=
        .some (fun qs => by rw [List.append_assoc]; exact Plain.fits_append hfits (hfits' qs))
          (by simpa using hgrown) (Nat.lt_of_le_of_lt h.extends_.position_le hmoved)
      simpa [h.size, Plain.logOf, List.append_assoc] using hsome

/-- A statement with a body. -/
theorem block_spliced (hd : Follows .splice d (Plain.level m)) (hbody : category.hasBody = true)
    (ho : Owns s owner parent level) (htrials : s.trials = 0) (hm : 8 * s.ahead.length + 5 ≤ m)
    (hfix : Lookahead.significant Grammar.newlines s.ahead = s.ahead)
    (hrecognised : Plain.Recognised parent category s.ahead)
    (hstatements : ∀ {s' owner level}, Owns s' owner category level → s'.trials = 0 →
      s'.ahead.length < s.ahead.length →
      SplitListed owner level s' (full.statements category (some .rightBrace) s'.ahead)
        (d.statements owner (some .rightBrace) s')) :
    Spliced parent owner level s (Plain.phrase full category s.ahead)
      (readCategory .splice d category owner s) := by
  have hentered := extends_entered category ho
  have hahead : (entered category owner s).ahead = s.ahead :=
    (ahead_skip s Grammar.newlines).trans hfix
  have hm' : category ≠ .manifest := by rintro rfl; cases hbody
  have hr : category ≠ .resource := by rintro rfl; cases hbody
  have hne : (category == .resource) = false := by simpa using hr
  have h := readSteps_split hd hbody (owns_entered ho) (hentered.trials.trans htrials)
    (by rw [hahead]; exact hm) (by rw [hahead]; exact hstatements)
  have hprogress {p : Phrase} {rest : List Token}
      (h : Plain.phrase full category s.ahead = .ok (some (p, rest))) :=
    Plain.phrase_progress hrecognised h
  rw [readCategory_apply]
  rw [hahead] at h
  simp only [Plain.phrase, hfix, hne] at hprogress ⊢
  generalize readSteps d s.tree.size category.rule.steps {} _ = r at h
  generalize hplain : Plain.inOrder full category category.rule.steps s.ahead = o at h hprogress
  cases h with
  | error he => exact .error he
  | none h => exact .none (hentered.trans h).returnTo
  | @some trace ps rest s' hfits h hmoved =>
    have hsize : (entered category owner s).tree.size = s.tree.size + 1 := by
      rw [tree_entered ho]; simp
    obtain ⟨form, hform⟩ := Plain.schema_of_fits hm' hr (hfits ps)
    obtain ⟨trace', ps', heq, hsplit⟩ := hform.withBodies hbody Phrase.split
    obtain ⟨rfl, hps⟩ := List.append_inj' heq rfl
    obtain rfl : ps = ps' := by simpa using hps
    have hchildren : (form.withBodies id Phrase.split).children =
        Plain.treesOf trace ++ ps.flatMap Phrase.split := by
      simp [hsplit.children_eq, Plain.treesOf]
    have hother : Phrase.split ⟨(s.skip Grammar.newlines).line, form⟩ =
        [⟨(s.skip Grammar.newlines).line, form.withBodies id Phrase.split⟩] := by
      refine Phrase.split_other fun sigil token items hresource => hr ?_
      rw [← hform.category_eq, ← Phrase.form_mk (s.skip Grammar.newlines).line form, hresource]
      rfl
    have hline : (s.ahead.head?.map (·.line)).getD 0 = (s.skip Grammar.newlines).line := by
      rw [← hfix, ← ahead_skip]; rfl
    simp only [Plain.andThen_some, Bool.false_eq_true, if_false, hform.ofCaptures?_eq,
      hline] at hprogress ⊢
    rw [← hchildren] at h
    have hgrown := grown_completed ho hsplit.category_eq rfl h
    simp only [Bool.not_true, Bool.false_eq_true, if_false, List.nil_append, pure_apply, hsize,
      Plain.ofCaptures?_numbers (s.tree.size + 1) hm' hr (hfits _) hsplit.ofCaptures?_eq]
    refine .whole hother hgrown ?_ (hprogress rfl)
    rw [cursor_completed]
    exact Nat.lt_of_le_of_lt hentered.position_le hmoved

/-- The category that is recognised first is read. -/
theorem chooseFrom_recognised {mode : SplitMode} (hd : Follows mode d (Plain.level m))
    (categories : List Category) (ho : Owns s owner parent level) (hm : 8 * s.ahead.length + 5 ≤ m) :
    chooseFrom mode d categories owner s =
      match Plain.recognised categories parent s.ahead with
      | none => .ok none s
      | some c => readCategory mode d c owner s := by
  induction categories with
  | nil => rfl
  | cons c categories ih =>
    have hrank := Plain.rank_lt c
    have hagrees := Plain.agrees_full m
    have hsound := Plain.level_sound m
    rw [chooseFrom_apply hd c categories ho,
      (Plain.not_runsOut hagrees hsound c parent (by omega)).1, if_neg Bool.false_ne_true,
      Plain.accepts_agrees hagrees hsound c parent (by omega), Plain.recognised, List.find?_cons]
    cases Plain.accepts full c parent s.ahead with
    | true => rfl
    | false => exact ih

/-- The statements that hold a resource which may be split. -/
theorem keepsWhole_of_statement (hmem : category ∈ Grammar.statements) (hr : category ≠ .resource)
    (hbody : category.hasBody = false) : keepsWhole parent category = true := by
  cases category <;> first
    | rfl
    | exact absurd rfl hr
    | exact absurd hmem (by decide)
    | exact absurd hbody (by decide)

/-- A statement that is neither a resource nor has a body is left alone. -/
theorem kept_spliced (hd : Follows .splice d (Plain.level m)) (ho : Owns s owner parent level)
    (hm : 8 * s.ahead.length + 5 ≤ m) (hkeeps : keepsWhole parent category = true)
    (hbody : category.hasBody = false) (hr : category ≠ .resource)
    (hrecognised : Plain.Recognised parent category s.ahead) :
    Spliced parent owner level s (Plain.phrase full category s.ahead)
      (readCategory .splice d category owner s) := by
  have h := readCategory_chosen hd (Plain.level_sound m) ho (.inr hkeeps)
  have hrank := Plain.rank_lt category
  rw [(Plain.phrase_settled (Plain.agrees_full m) (Plain.level_sound m) category (by omega)).1] at h
  refine .of_chosen h fun p rest hp => ⟨?_, Plain.phrase_progress hrecognised hp⟩
  obtain ⟨hcategory, -⟩ := Plain.phrase_sound Plain.full_sound hrecognised hp
  rw [Phrase.split_other, Form.withBodies_id, Phrase.mk_line_form]
  · rw [← hbody, ← hcategory]
    rfl
  · intro sigil token items hform
    apply hr
    rw [← hcategory, Phrase.category, hform]
    rfl

/-- Every statement is read as in plain reading, with its resources split. -/
theorem choose_spliced (hd : Follows .splice d (Plain.level m)) (ho : Owns s owner parent level)
    (hparent : (parent == .chain) = false) (htrials : s.trials = 0)
    (hm : 8 * s.ahead.length + 5 ≤ m)
    (hfix : Lookahead.significant Grammar.newlines s.ahead = s.ahead)
    (hstatements : ∀ {s' owner category level}, Owns s' owner category level →
      (category == .chain) = false → s'.trials = 0 → s'.ahead.length < s.ahead.length →
      SplitListed owner level s' (full.statements category (some .rightBrace) s'.ahead)
        (d.statements owner (some .rightBrace) s')) :
    Spliced parent owner level s (full.choose Grammar.statements parent s.ahead)
      (chooseFrom .splice d Grammar.statements owner s) := by
  rw [Plain.choose_eq_recognised, chooseFrom_recognised hd Grammar.statements ho hm]
  cases hc : Plain.recognised Grammar.statements parent s.ahead with
  | none => exact .none (.refl s)
  | some c =>
    have haccepts : Plain.accepts full c parent s.ahead = true := by
      simpa using List.find?_some hc
    have hrecognised := Plain.recognised_of_accepts haccepts
    have hmem : c ∈ Grammar.statements := List.mem_of_find?_eq_some hc
    dsimp only
    by_cases hr : c = .resource
    · subst hr
      exact resource_spliced hd ho hparent htrials hm hfix hrecognised
        (Plain.not_chain_of_resource hc)
    by_cases hbody : c.hasBody = true
    · refine block_spliced hd hbody ho htrials hm hfix hrecognised fun ho' htrials' hlt => ?_
      refine hstatements ho' ?_ htrials' hlt
      cases c <;> first | rfl | cases hbody
    · rw [Bool.not_eq_true] at hbody
      exact kept_spliced hd ho hm (keepsWhole_of_statement hmem hr hbody) hbody hr hrecognised

end

/-- Every level of the descent reads the statements of plain reading, with their resources split. -/
theorem descent_split (n : Nat) {s : State} {owner : NodeId} {level : Int} {parent : Category}
    {closing : Option Kind} (ho : Owns s owner parent level) (hparent : (parent == .chain) = false)
    (hclosing : ∀ kind ∈ Kind.atSign :: Grammar.resourceTypes, closing ≠ some kind)
    (htrials : s.trials = 0) (hn : 8 * s.ahead.length + 7 ≤ n) :
    SplitListed owner level s (full.statements parent closing s.ahead)
      ((descent .splice n).statements owner closing s) := by
  induction n using Nat.strongRecOn generalizing s owner level parent closing with
  | ind n ih =>
    obtain ⟨m, rfl⟩ : ∃ m, n = m + 2 := ⟨n - 2, by omega⟩
    refine readStatements_split hclosing (fun ho' htrials' hle hfix => ?_) (m + 1) ho htrials
      (Nat.le_refl _) (by omega)
    refine choose_spliced (descent_follows .splice m) ho' hparent htrials' (by omega) hfix ?_
    intro s'' owner' category level' ho'' hcategory htrials'' hlt
    exact ih m (by omega) ho'' hcategory (by decide) htrials'' (by omega)

end Parse

/-- A parse that splits resources gives the tree of the split statements. -/
theorem parse_splice (tokens : List Token) :
    match Plain.manifest (Parse.levels tokens) tokens with
    | .error f => ∃ e, parse .splice tokens = .error e ∧ Parse.Explains f e
    | .ok ps => parse .splice tokens = .ok (Tree.ofPhrases (ps.flatMap Phrase.split)) := by
  have hlevels : 8 * tokens.length + 7 ≤ Parse.levels tokens := by
    simp only [Parse.levels]
    omega
  have howns : Parse.Owns (.start tokens) Tree.root .manifest 0 := ⟨Nat.one_pos, rfl, rfl⟩
  have h : Parse.SplitListed Tree.root 0 (.start tokens)
      (Plain.full.statements .manifest none tokens)
      ((Parse.descent .splice (Parse.levels tokens)).statements Tree.root none (.start tokens)) :=
    Parse.descent_split (Parse.levels tokens) howns rfl (by simp) rfl hlevels
  rw [Plain.manifest_eq]
  unfold parse
  generalize Plain.full.statements .manifest none tokens = o at h
  generalize (Parse.descent .splice _).statements Tree.root none _ = r at h
  cases h with
  | error he => exact ⟨_, rfl, he⟩
  | @ok ps rest s' h =>
    have htree : s'.tree = Tree.start.grow (Phrase.forest 1 Tree.root 0 (ps.flatMap Phrase.split)) :=
      h.tree
    simp only [htree, Tree.complete_grow_start]
    rfl

/-- Both ways of splitting resources refuse the same tokens, and where they accept them the layout
of the two trees is the same text. -/
theorem splitModes_agree (tokens : List Token) :
    (∃ e e', parse .render tokens = .error e ∧ parse .splice tokens = .error e') ∨
      ∃ t t', parse .render tokens = .ok t ∧ parse .splice tokens = .ok t' ∧
        ∀ o, Layout.render t' o = Layout.render t o := by
  have hrender := parse_render tokens
  have hsplice := parse_splice tokens
  cases hplain : Plain.manifest (Parse.levels tokens) tokens with
  | error f =>
    rw [hplain] at hrender hsplice
    obtain ⟨e, he, -⟩ := hrender
    obtain ⟨e', he', -⟩ := hsplice
    exact .inl ⟨e, e', he, he'⟩
  | ok ps =>
    rw [hplain] at hrender hsplice
    exact .inr ⟨_, _, hrender, hsplice, fun o => Layout.render_split o ps⟩

end TidyManifest
