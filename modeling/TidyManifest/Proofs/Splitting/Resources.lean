import TidyManifest.Proofs.Splitting.Items

/-!
# Reading a resource where it may be split

Read as a statement, a resource with several titles ends in front of the second one, and the tokens
ahead are then its head and that title.  The resource that is read from them has the titles from the
second one on.  So what plain reading gives is split into what was read and what is still to come:
`Spliced` says this, and `resource_spliced` shows it of every resource outside a chain.
-/

namespace TidyManifest

namespace Plain

open Grammar

/-- Tokens get no numbers. -/
theorem numbers_named (first : NodeId) (label : String) (ts : List Token) :
    numbers first (ts.map (named label)) = ts.map (named label) := by
  induction ts with
  | nil => rfl
  | cons t ts ih =>
    rw [List.map_cons, List.map_cons, ← ih]
    rfl

/-- A head with a type and without a collector is the same with numbers. -/
theorem HeadSchema.numbers_type {sigils : List Token} {t : Token} {trace : Trace Phrase}
    (h : HeadSchema Phrase.category sigils (.type t) none trace) (first : NodeId)
    (categoryOf : NodeId → Category) :
    HeadSchema categoryOf sigils (.type t) none (numbers first trace) ∧ treesOf trace = [] := by
  cases h with
  | type hsigils ht hcollector =>
    cases hcollector
    rw [numbers_append, numbers_named]
    exact ⟨.type hsigils ht .none, by simp [treesOf]⟩

/-- The tokens of such a head. -/
theorem HeadSchema.type_inv {ι : Type} {categoryOf : ι → Category} {sigils : List Token} {t : Token}
    {trace : Trace ι} (h : HeadSchema categoryOf sigils (.type t) none trace) :
    (∀ s ∈ sigils, s.kind = .atSign) ∧ t.kind ∈ resourceTypes ∧
      trace = sigils.map (named "sigil") ++ [named "type" t] ∧
      (⟨logOf trace⟩ : Captures ι).token? "type" = some t := by
  cases h with
  | type hsigils ht hcollector =>
    cases hcollector
    exact ⟨hsigils, ht, rfl, by simp [Captures.token?, Capture.token?]⟩

/-- The first token of a text is that of the first thing that was read. -/
theorem Spells.head_eq {owner : Category} {label : Option String} {t : Token} {trace : Trace Phrase}
    {w rest : List Token} (h : Spells (.trace owner ((label, .token t) :: trace)) w)
    (hfix : Lookahead.significant newlines (w ++ rest) = w ++ rest) :
    ∃ v, w = t :: v := by
  obtain ⟨ns, v, hns, rfl, -⟩ := h.token_inv
  cases ns with
  | nil => exact ⟨v, rfl⟩
  | cons n ns =>
    have hn : n.isOneOf newlines = true := by simp [Token.isOneOf, newlines, hns n (by simp)]
    have hlength := congrArg List.length hfix
    have hle := length_significant_le newlines (ns ++ t :: v ++ rest)
    rw [Lookahead.significant, List.cons_append, List.cons_append, List.dropWhile_cons, hn, if_pos rfl,
      List.length_cons] at hlength
    rw [Lookahead.significant] at hle
    omega

/-- A phrase takes up tokens. -/
theorem phrase_progress {category parent : Category} {tokens rest : List Token} {p : Phrase}
    (hrecognised : Recognised parent category tokens)
    (h : phrase full category tokens = .ok (some (p, rest))) : rest.length < tokens.length := by
  obtain ⟨-, w, rfl, hw⟩ := phrase_sound full_sound hrecognised h
  have hpos : 0 < w.length := hw.length_pos
  rw [List.length_append]
  omega

/-- What is read after the head of a resource has that head. -/
theorem resource_form {d : Oracle} {trace : Trace Phrase} {sigils : List Token} {head : Head Phrase}
    {collector : Option Phrase} {tokens rest : List Token} {form : Form Phrase}
    (schema : HeadSchema Phrase.category sigils head collector trace)
    (h : resource d trace tokens = .ok (some (form, rest))) :
    ∃ hasBlock items, form = .resource (sigilText sigils) head collector hasBlock items := by
  simp only [resource, schema.head_eq, schema.sigils_eq, schema.collector_eq] at h
  split at h
  · split at h
    · obtain ⟨items, _, _, heq⟩ := andThen_eq_some h
      cases heq
      exact ⟨_, _, rfl⟩
    · split at h <;> cases h
      exact ⟨_, _, rfl⟩
  · split at h <;> cases h
    exact ⟨_, _, rfl⟩

section

variable {sigils tokens rest : List Token} {t : Token} {trace : Trace Phrase}
  (schema : HeadSchema Phrase.category sigils (.type t) none trace)

include schema

/-- The tokens of a typed resource start with its head. -/
theorem typed_first (hfix : Lookahead.significant newlines tokens = tokens)
    (hsteps : inOrder full .resource Category.resource.rule.steps tokens = .ok (some (trace, rest))) :
    (∃ v, tokens = sigils.headD t :: v) ∧ sigils.length + 1 + rest.length ≤ tokens.length := by
  obtain ⟨-, w, rfl, hw⟩ := inOrder_sound full_sound _ hsteps
  obtain ⟨-, -, htrace, -⟩ := schema.type_inv
  have hlength := hw.length_le
  rw [htrace] at hw hlength
  obtain ⟨v, rfl⟩ : ∃ v, w = sigils.headD t :: v := by
    cases sigils with
    | nil => exact hw.head_eq hfix
    | cons s sigils => exact hw.head_eq hfix
  refine ⟨⟨v ++ rest, rfl⟩, ?_⟩
  simp only [List.length_append, List.length_map, List.length_cons, List.length_nil] at hlength ⊢
  omega

/-- The line of a typed resource is that of its head. -/
theorem phrase_typed (hfix : Lookahead.significant newlines tokens = tokens)
    (hsteps : inOrder full .resource Category.resource.rule.steps tokens = .ok (some (trace, rest))) :
    phrase full .resource tokens =
      andThen (resource full trace rest) fun form rest =>
        .ok (some (⟨(sigils.headD t).line, form⟩, rest)) := by
  obtain ⟨v, rfl⟩ := (typed_first schema hfix hsteps).1
  simp only [phrase, hfix, hsteps, andThen_some]
  rfl

/-- A type with a brace after it has the items up to the closing brace. -/
theorem resource_opened {opening : Token} {body : List Token}
    (hahead : Lookahead.significant newlines tokens = opening :: body)
    (hopening : opening.kind = .leftBrace) :
    resource full trace tokens =
      andThen (allItems body) fun ps rest =>
        .ok (some (.resource (sigilText sigils) (.type t) none true ps, rest)) := by
  simp only [resource, schema.head_eq, schema.sigils_eq, schema.collector_eq, hahead, hopening,
    beq_self_eq_true, if_true]
  rfl

/-- A type without a brace after it is no resource. -/
theorem resource_bare
    (hahead : ∀ opening body, Lookahead.significant newlines tokens = opening :: body →
      opening.kind ≠ .leftBrace) :
    resource full trace tokens = .ok none := by
  simp only [resource, schema.head_eq, schema.sigils_eq, schema.collector_eq]
  cases hsignificant : Lookahead.significant newlines tokens with
  | nil => rfl
  | cons opening body =>
    have hne : (opening.kind == .leftBrace) = false := by simpa using hahead _ _ hsignificant
    simp only [hne, Bool.false_eq_true, if_false]
    rfl

end

end Plain

namespace Parse

open Plain (Fault Outcome full allItems Reopening)

/-- What was read first, what is read next, and what both are together. -/
inductive Joins (q : Phrase) : Outcome Phrase → Outcome Phrase → Prop
  | error (f : Fault) : Joins q (.error f) (.error f)
  | none : Joins q (.ok none) (.ok none)
  | some {p p' : Phrase} {rest : List Token} (h : p.split = q :: p'.split) :
      Joins q (.ok (some (p', rest))) (.ok (some (p, rest)))

/-- What reading a statement gives where resources may be split, next to the plain outcome. -/
inductive Spliced (parent : Category) (owner : NodeId) (level : Int) (s : State) :
    Outcome Phrase → EStateM.Result ParseError State (Option NodeId) → Prop
  | error {f : Fault} {e : ParseError} {s' : State} (he : Explains f e) :
      Spliced parent owner level s (.error f) (.error e s')
  | none {s' : State} (h : Same s s') : Spliced parent owner level s (.ok none) (.ok none s')
  | whole {p q : Phrase} {rest : List Token} {s' : State} (hsplit : p.split = [q])
      (h : Grown owner level s [q] rest s')
      (hmoved : s.cursor.position < s'.cursor.position) (hlength : rest.length < s.ahead.length) :
      Spliced parent owner level s (.ok (some (p, rest))) (.ok (some s.tree.size) s')
  | cut {q : Phrase} {o : Outcome Phrase} {r : Reopening} {newline : Token} {tail : List Token}
      {s' : State} (hnewline : newline.kind = .newline)
      (h : Grown owner level s [q] (newline :: r.tokens tail) s')
      (hmoved : s.cursor.position < s'.cursor.position)
      (hlength : (r.tokens tail).length + 1 < s.ahead.length)
      (hjoins : Joins q (full.choose Grammar.statements parent (r.tokens tail)) o) :
      Spliced parent owner level s o (.ok (some s.tree.size) s')

section

variable {m : Nat} {d : Descent} {owner : NodeId} {level : Int} {parent category : Category}
  {s s' : State}

/-- An extension with fewer tokens ahead has moved on. -/
theorem Extends.position_lt (h : Extends s s') (hlt : s'.ahead.length < s.ahead.length) :
    s.cursor.position < s'.cursor.position := by
  have hlength := congrArg List.length h.tokens
  rw [Cursor.length_toList, Cursor.length_toList] at hlength
  simp only [State.ahead] at hlt
  omega

/-- A phrase that splitting leaves alone is read as in plain reading. -/
theorem Spliced.of_chosen {o : Outcome Phrase}
    {r : EStateM.Result ParseError State (Option NodeId)} (h : Chosen owner level s o r)
    (hsplit : ∀ p rest, o = .ok (some (p, rest)) →
      p.split = [p] ∧ rest.length < s.ahead.length) :
    Spliced parent owner level s o r := by
  cases h with
  | error _ he => exact .error he
  | none h => exact .none h
  | @some p rest s' h =>
    obtain ⟨hp, hlt⟩ := hsplit p rest rfl
    exact .whole hp h.grown (h.extends_.position_lt (by rwa [h.ahead])) hlt

/-- A node has been added if its children have been added below it. -/
theorem grown_completed {line : Nat} {form : Form Phrase} {rest : List Token}
    (ho : Owns s owner parent level) (hcategory : form.category = category)
    (hline : line = (s.skip Grammar.newlines).line)
    (h : Grown s.tree.size (level + 1) (entered category owner s) form.children rest s') :
    Grown owner level s [⟨line, form⟩] rest (completed category s.tree.size
      (form.withChildren 0 (Phrase.starts (s.tree.size + 1) form.children)) s') := by
  have hentered := extends_entered category ho
  have htree : s'.tree = s.tree.grow (pendingEntry category owner level line ::
      Phrase.forest (s.tree.size + 1) s.tree.size (level + 1) form.children) := by
    rw [h.tree, tree_entered ho]
    simp [hline]
  refine ⟨?_, tree_completed hcategory htree, ?_, ?_⟩
  · rw [State.ahead, cursor_completed]; exact h.ahead
  · rw [trials_completed, h.trials, hentered.trials]
  · rw [cursor_completed]; exact Nat.le_trans hentered.position_le h.onward

/-- The contents of a typed resource, made of the items that were read. -/
def typedResult (sigil : String) (t : Token) :
    EStateM.Result ParseError State (Option (List NodeId)) →
      EStateM.Result ParseError State (Option Form)
  | .ok items s => .ok (items.map (.resource sigil (.type t) none true)) s
  | .error e s => .error e s

/-- In front of a brace, a resource that may be split is read by reading its items. -/
theorem readResource_opened {sigils : List Token} {t opening : Token} {trace : Plain.Trace NodeId}
    {categoryOf : NodeId → Category} {rest : List Token}
    (schema : Plain.HeadSchema categoryOf sigils (.type t) none trace)
    (hahead : (s.skip Grammar.newlines).ahead = opening :: rest) (hopening : opening.kind = .leftBrace)
    (hchain : inChain s owner = false) (htrials : s.trials = 0) :
    readResource .splice d owner ⟨Plain.logOf trace⟩ s =
      typedResult (Plain.sigilText sigils) t
        (readItems d owner ⟨Plain.logOf trace⟩ true d.rounds false
          (s.skip Grammar.newlines).advance) := by
  have hmay : (SplitMode.splice == .splice && (Head.type t : Head NodeId).hasType &&
      !(((s.skip Grammar.newlines).tree.node owner).parent.any fun p =>
        (s.skip Grammar.newlines).tree.category p == .chain) &&
      (none : Option NodeId).isNone && (s.skip Grammar.newlines).trials == 0) = true := by
    have htrials' : (s.skip Grammar.newlines).trials = 0 := htrials
    have hchain' : inChain (s.skip Grammar.newlines) owner = false := hchain
    rw [inChain] at hchain'
    rw [hchain', htrials']
    rfl
  unfold readResource
  simp only [schema.head_eq, schema.sigils_eq, schema.collector_eq, bind_apply, get_apply,
    modify_apply, currentKind_of_ahead hahead, hopening, bne_self_eq_false, Bool.false_eq_true,
    if_false, hmay]
  generalize readItems d owner _ true _ false _ = r
  cases r <;> rfl

/-- Without a brace there is no resource. -/
theorem readResource_bare (d : Descent) (owner : NodeId) {sigils : List Token} {t : Token}
    {trace : Plain.Trace NodeId} {categoryOf : NodeId → Category}
    (schema : Plain.HeadSchema categoryOf sigils (.type t) none trace)
    (hahead : ∀ opening rest, (s.skip Grammar.newlines).ahead = opening :: rest →
      opening.kind ≠ .leftBrace) :
    ∃ s', readResource .splice d owner ⟨Plain.logOf trace⟩ s = .ok none s' ∧ Extends s s' := by
  unfold readResource
  simp only [schema.head_eq, schema.sigils_eq, schema.collector_eq, bind_apply, get_apply,
    modify_apply]
  have hkind : ((s.skip Grammar.newlines).cursor.currentKind != some .leftBrace) = true := by
    cases h : (s.skip Grammar.newlines).ahead with
    | nil => rw [currentKind_of_end h]; rfl
    | cons opening rest =>
      rw [currentKind_of_ahead h]
      simpa using hahead _ _ h
  simp only [hkind, if_true]
  exact ⟨_, rfl, (extends_skip s _).trans (same_recordFailure _).extends⟩

/-- What is read of a resource with some items, where its head is known. -/
theorem grown_resource {line : Nat} {sigil : String} {t : Token} {ps : List Phrase}
    {rest : List Token} {s₁ : State} (ho : Owns s owner parent level)
    (hline : line = (s.skip Grammar.newlines).line) (h : Extends (entered .resource owner s) s₁)
    (htree : s₁.tree = (entered .resource owner s).tree)
    (h' : Grown s.tree.size (level + 1) s₁ ps rest s') :
    Grown owner level s [⟨line, .resource sigil (.type t) none true ps⟩] rest
      (completed .resource s.tree.size
        (.resource sigil (.type t) none true (Phrase.starts s₁.tree.size ps)) s') := by
  have hsize : s₁.tree.size = s.tree.size + 1 := by
    rw [htree, tree_entered ho]
    simp
  have hchildren : (Form.resource sigil (.type t) none true ps).children = ps := by
    simp [Form.children]
  have hgrown : Grown owner level s [⟨line, .resource sigil (.type t) none true ps⟩] rest _ :=
    grown_completed ho rfl hline (by rw [hchildren]; exact h'.of_extends h htree)
  rw [hchildren] at hgrown
  rw [hsize]
  simpa [Form.withChildren, Form.category] using hgrown

/-- A typed resource, once its items have been read or it has been cut. -/
theorem spliced_of_cut {sigils : List Token} {t : Token} {s₁ : State} {o : Outcome (List Phrase)}
    {r : EStateM.Result ParseError State (Option (List NodeId))} (ho : Owns s owner parent level)
    (hline : (sigils.headD t).line = (s.skip Grammar.newlines).line)
    (hfix : Lookahead.significant Grammar.newlines s.ahead = s.ahead)
    (hresource : atResource s.ahead = true)
    (hchain : Plain.accepts full .chain parent s.ahead = false)
    (hentered : Extends (entered .resource owner s) s₁)
    (htree : s₁.tree = (entered .resource owner s).tree)
    (hmoved : s.cursor.position < s₁.cursor.position)
    (hlength : sigils.length + 2 + s₁.ahead.length ≤ s.ahead.length)
    (hphrase : Plain.phrase full .resource s.ahead =
      Plain.andThen o fun ps rest => .ok (some
        (⟨(sigils.headD t).line, .resource (Plain.sigilText sigils) (.type t) none true ps⟩, rest)))
    (h : Cut s.tree.size (level + 1) sigils t false s₁ o r) :
    Spliced parent owner level s (Plain.phrase full .resource s.ahead)
      (concluded .resource s (typedResult (Plain.sigilText sigils) t r)) := by
  cases h with
  | error he => rw [hphrase]; exact .error he
  | none h =>
    rw [hphrase]
    exact .none (((extends_entered .resource ho).trans hentered).trans h).returnTo
  | @whole ps rest s' h htitles =>
    have hlt := Plain.phrase_progress
      (show Plain.Recognised parent .resource s.ahead from hresource) hphrase
    rw [hphrase]
    refine .whole (Phrase.split_of_one_title htitles) (grown_resource ho hline hentered htree h) ?_ hlt
    rw [cursor_completed]
    exact Nat.lt_of_lt_of_le hmoved h.onward
  | @cut ps tail s' r newline hsigils htype hnewline h htitles htail hfirst =>
    subst hsigils htype
    have hreopened : Plain.accepts full .chain parent (r.tokens tail) = false := by
      rw [Plain.accepts_chain_of_resource hfix hresource, hphrase] at hchain
      rw [r.accepts_chain_reopened,
        show Plain.items full (tail.length + 1) tail = allItems tail from rfl]
      rcases hitems : allItems tail with _ | _ | ⟨more, rest⟩
      · rfl
      · rfl
      · rw [hitems] at hchain
        exact hchain
    have htokens : (r.tokens tail).length + 1 < s.ahead.length := by
      simp only [Reopening.tokens, List.length_append, List.length_cons]
      simp only [Bool.toNat_false, Nat.mul_zero, Nat.add_zero] at htail
      omega
    have hjoins : Joins
        ⟨r.first.line, .resource (Plain.sigilText r.sigils) (.type r.type) none true ps⟩
        (full.choose Grammar.statements parent (r.tokens tail))
        (Plain.phrase full .resource s.ahead) := by
      rw [hphrase, r.choose_reopened tail hreopened]
      change Joins _ (Plain.andThen (allItems tail) _) _
      rcases hitems : allItems tail with f | _ | ⟨more, rest⟩
      · exact .error f
      · exact .none
      · exact .some (Phrase.split_of_more_titles htitles (hfirst more rest hitems))
    refine .cut hnewline (grown_resource ho hline hentered htree h) ?_ htokens hjoins
    rw [cursor_completed]
    exact Nat.lt_of_lt_of_le hmoved h.onward

/-- A typed resource, once its head has been read. -/
theorem typed_spliced (hd : Follows .splice d (Plain.level m)) {trace : Plain.Trace Phrase}
    {rest sigils : List Token} {t : Token} (ho : Owns s owner parent level)
    (hparent : (parent == .chain) = false) (htrials : s.trials = 0)
    (hm : 8 * s.ahead.length ≤ m + 8)
    (hfix : Lookahead.significant Grammar.newlines s.ahead = s.ahead)
    (hresource : atResource s.ahead = true)
    (hchain : Plain.accepts full .chain parent s.ahead = false)
    (schema : Plain.HeadSchema Phrase.category sigils (.type t) none trace)
    (hsteps : Plain.inOrder full .resource Category.resource.rule.steps s.ahead =
      .ok (some (trace, rest)))
    (h : Advanced s.tree.size (level + 1) (entered .resource owner s) (Plain.treesOf trace) rest s') :
    Spliced parent owner level s (Plain.phrase full .resource s.ahead)
      (concluded .resource s (readResource .splice d s.tree.size
        ⟨Plain.logOf (Plain.numbers (s.tree.size + 1) trace)⟩ s')) := by
  obtain ⟨hschema, hnone⟩ := schema.numbers_type (s.tree.size + 1) fun _ => .simple
  obtain ⟨hsigils, ht, htrace, htoken⟩ := hschema.type_inv
  have hphrase := Plain.phrase_typed schema hfix hsteps
  obtain ⟨⟨v, hfirst⟩, hlength⟩ := Plain.typed_first schema hfix hsteps
  have hline : (sigils.headD t).line = (s.skip Grammar.newlines).line := by
    have hcurrent : (s.skip Grammar.newlines).cursor.current = some (sigils.headD t) := by
      rw [Cursor.current, ← State.ahead, ahead_skip, hfix, hfirst]
      rfl
    rw [State.line, hcurrent]
    rfl
  have hsignificant : (s'.skip Grammar.newlines).ahead =
      Lookahead.significant Grammar.newlines rest := by
    rw [ahead_skip, h.ahead]
  by_cases hbrace : ∃ opening body, (s'.skip Grammar.newlines).ahead = opening :: body ∧
      opening.kind = .leftBrace
  · obtain ⟨opening, body, hahead, hopening⟩ := hbrace
    have hbody : body.length < rest.length := by
      have hle := Plain.length_significant_le Grammar.newlines rest
      rwa [← hsignificant, hahead] at hle
    have hskip := (extends_skip s' Grammar.newlines).trans (extends_advance _)
    have hentered : Extends (entered .resource owner s) (s'.skip Grammar.newlines).advance :=
      h.extends_.trans hskip
    have htree : (s'.skip Grammar.newlines).advance.tree = (entered .resource owner s).tree := by
      change s'.tree = _
      rw [h.tree, hnone]
      simp
    have hinChain : inChain s' s.tree.size = false := by
      rw [inChain_of_entered ho h.extends_, hparent]
    have htrials' : s'.trials = 0 := by
      rw [h.extends_.trials, (extends_entered .resource ho).trials, htrials]
    have hahead' : (s'.skip Grammar.newlines).advance.ahead = body := by
      rw [ahead_advance, hahead, List.tail_cons]
    have hrounds : body.length < d.rounds := by
      rw [← hd.rounds body]
      exact ((Plain.agrees_full m).rounds (by omega)).1
    have hcut : Cut s.tree.size (level + 1) sigils t false _ _ _ :=
      readItems_cut hd hschema.sigils_eq htoken hsigils ht d.rounds
        ((owns_entered ho).of_extends hentered) (by rw [hahead']; omega) (by rwa [hahead'])
    rw [hahead'] at hcut
    rw [readResource_opened hschema hahead hopening hinChain htrials']
    refine spliced_of_cut ho hline hfix hresource hchain hentered htree ?_ ?_ ?_ hcut
    · refine ((extends_entered .resource ho).trans hentered).position_lt ?_
      rw [hahead']
      omega
    · rw [hahead']
      omega
    · rw [hphrase, Plain.resource_opened schema (hsignificant.symm.trans hahead) hopening]
      rcases allItems body with _ | _ | _ <;> rfl
  · have hbare : ∀ opening body, (s'.skip Grammar.newlines).ahead = opening :: body →
        opening.kind ≠ .leftBrace :=
      fun opening body hahead hopening => hbrace ⟨opening, body, hahead, hopening⟩
    obtain ⟨s'', hread, hextends⟩ := readResource_bare d s.tree.size hschema hbare
    rw [hsignificant] at hbare
    rw [hphrase, Plain.resource_bare schema hbare, hread]
    exact .none (((extends_entered .resource ho).trans h.extends_).trans hextends).returnTo

/-- Reading steps, next to the plain reading with enough levels. -/
theorem readSteps_full {mode : SplitMode} (hd : Follows mode d (Plain.level m)) {steps : List Step}
    {r : Nat} (log : Captures) (ho : Owns s owner category level) (hk : stepsKeep category steps = true)
    (hr : 1 < r) (hstart : Plain.startBelow r steps = true) (hm : 8 * s.ahead.length + r ≤ m) :
    Loose owner level log s (Plain.inOrder full category steps s.ahead)
      (readSteps d owner steps log s) := by
  have h := readSteps_loose hd steps log ho (.inr hk)
  have hfull : Plain.Settled (Plain.inOrder (Plain.level m) category steps s.ahead)
      (Plain.inOrder full category steps s.ahead) :=
    Plain.inOrder_settled (Plain.agrees_full m) (Plain.level_sound m) steps hr hm hstart
  rwa [hfull.1] at h

/-- Other resources are left alone. -/
theorem split_untyped {line : Nat} {sigil : String} {head : Head Phrase} {collector : Option Phrase}
    (h : (head.hasType && collector.isNone) = false) (hasBlock : Bool) (items : List Phrase) :
    Phrase.split ⟨line, .resource sigil head collector hasBlock items⟩ =
      [⟨line, .resource sigil head collector hasBlock items⟩] := by
  rw [Phrase.split_other]
  · rw [Phrase.form_mk, Form.withBodies_id rfl]
    rfl
  · rintro _ _ _ heq
    cases heq
    cases h

/-- A resource outside a chain, read as a statement. -/
theorem resource_spliced (hd : Follows .splice d (Plain.level m)) (ho : Owns s owner parent level)
    (hparent : (parent == .chain) = false) (htrials : s.trials = 0)
    (hm : 8 * s.ahead.length + 5 ≤ m)
    (hfix : Lookahead.significant Grammar.newlines s.ahead = s.ahead)
    (hresource : atResource s.ahead = true)
    (hchain : Plain.accepts full .chain parent s.ahead = false) :
    Spliced parent owner level s (Plain.phrase full .resource s.ahead)
      (readCategory .splice d .resource owner s) := by
  have hentered := extends_entered .resource ho
  have hahead : (entered .resource owner s).ahead = s.ahead :=
    (ahead_skip s Grammar.newlines).trans hfix
  have h : Loose s.tree.size (level + 1) {} (entered .resource owner s)
      (Plain.inOrder full .resource Category.resource.rule.steps _)
      (readSteps d _ Category.resource.rule.steps {} _) :=
    readSteps_full hd {} (owns_entered ho) (by decide) (Plain.one_lt_rank .resource)
      (Plain.startBelow_rule .resource) (by rw [hahead]; simp only [Plain.rank]; omega)
  rw [readCategory_apply]
  rw [hahead] at h
  generalize readSteps d s.tree.size Category.resource.rule.steps {} _ = r at h
  generalize hplain : Plain.inOrder full .resource Category.resource.rule.steps s.ahead = o at h
  cases h with
  | error h he =>
    rw [Plain.phrase, hfix, hplain]
    exact .error he
  | none h =>
    rw [Plain.phrase, hfix, hplain]
    exact .none (hentered.trans h).returnTo
  | @some trace rest s' h =>
    have hsize : (entered .resource owner s).tree.size = s.tree.size + 1 := by
      rw [tree_entered ho]; simp
    obtain ⟨hfits, -⟩ := Plain.inOrder_sound Plain.full_sound _ hplain
    obtain ⟨sigils, head, collector, schema⟩ := Plain.headSchema_of_fits hfits
    simp only [beq_self_eq_true, Bool.not_true, Bool.false_eq_true, if_false, if_true,
      List.nil_append, hsize]
    by_cases htyped : (head.hasType && collector.isNone) = true
    · obtain ⟨t, rfl, rfl⟩ : ∃ t, head = .type t ∧ collector = none := by
        cases head <;> cases collector <;> simp_all [Head.hasType]
      exact typed_spliced hd ho hparent htrials (by omega) hfix hresource hchain schema hplain h
    · rw [Bool.not_eq_true] at htyped
      have hformed := readResource_formed hd hfits schema h.size
        ((owns_entered ho).of_extends h.extends_)
        (.inr (by rw [htyped, Bool.not_false, Bool.or_true]))
      have hrest : rest.length ≤ s.ahead.length :=
        (Plain.inOrder_sound Plain.full_sound _ hplain).length_le
      rw [h.ahead, (Plain.resource_settled (Plain.agrees_full m) (Plain.level_sound m) trace
        (by omega)).1, hsize] at hformed
      have hchosen := chosen_of_formed ho rfl h hformed
      have hphrase : Plain.phrase full .resource s.ahead =
          Plain.andThen (Plain.resource full trace rest) fun form rest =>
            .ok (some (⟨(s.skip Grammar.newlines).line, form⟩, rest)) := by
        have hline : (s.ahead.head?.map (·.line)).getD 0 = (s.skip Grammar.newlines).line := by
          rw [← hfix, ← ahead_skip]; rfl
        simp only [Plain.phrase, hfix, hplain, Plain.andThen_some, beq_self_eq_true, if_true, hline]
      rw [← hphrase] at hchosen
      refine .of_chosen hchosen fun p rest' hp => ⟨?_, Plain.phrase_progress
        (show Plain.Recognised parent .resource s.ahead from hresource) hp⟩
      rw [hphrase] at hp
      obtain ⟨form, _, hform, heq⟩ := Plain.andThen_eq_some hp
      cases heq
      obtain ⟨hasBlock, items, rfl⟩ := Plain.resource_form schema hform
      exact split_untyped htyped hasBlock items

end

end Parse

end TidyManifest
