import TidyManifest.Proofs.Agree.Steps

/-!
# Parsing, with and without a state

Every level of the parser's descent does what the same level of plain reading does, where no
resource is split (`descent_follows`).  A parse that never splits resources is therefore the plain
reading of its tokens, and its tree is the tree of the phrases that were read (`parse_render`).
-/

namespace TidyManifest.Parse

open Plain (Fault Outcome Oracle Trace logOf numbers treesOf Sound)

/-- What reading the items of a resource gives, next to the plain outcome. -/
inductive Itemised (owner : NodeId) (level : Int) (s : State) :
    Outcome (List Phrase) → EStateM.Result ParseError State (Option (List NodeId)) → Prop
  | error {f : Fault} {e : ParseError} {s' : State} (h : Extends s s') (he : Explains f e) :
      Itemised owner level s (.error f) (.error e s')
  | none {s' : State} (h : Extends s s') : Itemised owner level s (.ok none) (.ok none s')
  | some {ps : List Phrase} {rest : List Token} {s' : State}
      (h : Advanced owner level s ps rest s') :
      Itemised owner level s (.ok (some (ps, rest))) (.ok (some (Phrase.starts s.tree.size ps)) s')

/-- The current kind is that of the next token. -/
theorem currentKind_of_ahead {s : State} {t : Token} {rest : List Token}
    (h : s.ahead = t :: rest) : s.cursor.currentKind = some t.kind := by
  simp [Cursor.currentKind, Cursor.current, show s.cursor.ahead = t :: rest from h]

/-- At the end there is no current kind. -/
theorem currentKind_of_end {s : State} (h : s.ahead = []) : s.cursor.currentKind = none := by
  simp [Cursor.currentKind, Cursor.current, show s.cursor.ahead = [] from h]

section

variable {mode : SplitMode} {d : Descent} {p : Oracle} (hd : Follows mode d p) {owner : NodeId}
  {level : Int} {category : Category} {s s' : State}

/-- Items that are read after skipping are read from before it. -/
theorem Itemised.of_skip {o : Outcome (List Phrase)} {kinds : List Kind}
    {r : EStateM.Result ParseError State (Option (List NodeId))}
    (h : Itemised owner level (s.skip kinds) o r) : Itemised owner level s o r := by
  have hskip := extends_skip s kinds
  cases h with
  | error h he => exact .error (hskip.trans h) he
  | none h => exact .none (hskip.trans h)
  | some h => exact .some ⟨hskip.trans h.extends_, h.ahead, h.tree⟩

/-- Items that are read after a separator are read from before it. -/
theorem Itemised.of_advance {o : Outcome (List Phrase)}
    {r : EStateM.Result ParseError State (Option (List NodeId))}
    (h : Itemised owner level s.advance o r) : Itemised owner level s o r := by
  have hadvance := extends_advance s
  cases h with
  | error h he => exact .error (hadvance.trans h) he
  | none h => exact .none (hadvance.trans h)
  | some h => exact .some ⟨hadvance.trans h.extends_, h.ahead, h.tree⟩

include hd in
/-- One item and those after it.  No item holds a resource that may be split. -/
theorem item_itemised (ho : Owns s owner .resource level) {categories : List Category}
    (hcategories : categories.all (keepsWhole .resource) = true)
    {more : Reader (Option (List NodeId))} (plain : List Token → Outcome (List Phrase))
    (hmore : ∀ {s}, Owns s owner .resource level →
      Itemised owner level s (plain s.ahead) (more s)) :
    Itemised owner level s
      (Plain.andThen (p.choose categories .resource s.ahead) fun item rest =>
        Plain.andThen (plain rest) fun more rest => .ok (some (item :: more, rest)))
      ((do
        match ← d.choose categories owner with
        | none => return none
        | some item =>
          let rest ← more
          return rest.map (item :: ·) : Reader (Option (List NodeId))) s) := by
  have h : Chosen owner level s (p.choose categories .resource _) (d.choose categories owner _) :=
    hd.choose ho (.inr hcategories)
  simp only [bind_apply]
  generalize d.choose categories owner s = r at h
  generalize p.choose categories .resource s.ahead = o at h
  cases h with
  | error h he => exact .error h he
  | none h => exact .none h.extends
  | @some item rest s' h =>
    have h' := hmore (ho.of_extends h.extends_)
    rw [h.ahead] at h'
    simp only [Plain.andThen_some, bind_apply]
    generalize more s' = r at h'
    generalize plain rest = o at h'
    cases h' with
    | error h' he => exact .error (h.extends_.trans h') he
    | none h' => exact .none (h.extends_.trans h')
    | @some ps rest s'' h' =>
      have hsome := Itemised.some (h.trans h')
      simpa [Phrase.starts, h.size] using hsome

include hd in
/-- Reading the items of a resource that is not split does what the plain reading does. -/
theorem readItems_itemised (log : Captures) (n : Nat) (seen : Bool)
    (ho : Owns s owner .resource level) :
    Itemised owner level s (Plain.items p n s.ahead) (readItems d owner log false n seen s) := by
  induction n generalizing s seen with
  | zero => exact .error (.refl s) (by simp [Explains])
  | succ n ih =>
    rw [Plain.items, readItems]
    simp only [bind_apply, modify_apply, get_apply, ← ahead_skip]
    have hskip := extends_skip s Grammar.newlines
    apply Itemised.of_skip
    replace ho := ho.of_extends hskip
    generalize s.skip Grammar.newlines = s at ho ⊢
    cases hahead : s.ahead with
    | nil =>
      rw [currentKind_of_end hahead]
      exact .error (.refl s) (by simp [Explains])
    | cons t rest =>
      rw [currentKind_of_ahead hahead]
      dsimp only
      split
      · exact .some ⟨extends_advance s, by simp [hahead], by simp [State.advance]⟩
      split
      · have h := ih seen (ho.of_extends (extends_advance s))
        rw [ahead_advance, hahead, List.tail_cons] at h
        exact h.of_advance
      have item {categories : List Category}
          (hcategories : categories.all (keepsWhole .resource) = true) (seen : Bool) :=
        item_itemised hd ho hcategories (Plain.items p n) (fun ho => ih seen ho)
      rw [hahead] at item
      by_cases hcomment : (t.kind == .comment || t.kind == .blockComment) = true
      · simp only [hcomment, if_true]
        exact item (show Grammar.comments.all _ = true from rfl) seen
      by_cases hpair : atPair (t :: rest) = true
      · simp only [hcomment, Bool.false_eq_true, if_false, hpair, if_true]
        exact item (show [Category.pair].all _ = true from rfl) seen
      · simp only [hcomment, hpair, Bool.and_false, Bool.false_eq_true, if_false]
        exact item (show [Category.title].all _ = true from rfl) true

/-- What making the contents of a resource gives, next to the plain outcome. -/
inductive Formed (owner : NodeId) (level : Int) (trace : Trace Phrase) (s₀ s : State) :
    Outcome (Form Phrase) → EStateM.Result ParseError State (Option Form) → Prop
  | error {f : Fault} {e : ParseError} {s' : State} (h : Extends s s') (he : Explains f e) :
      Formed owner level trace s₀ s (.error f) (.error e s')
  | none {s' : State} (h : Extends s s') :
      Formed owner level trace s₀ s (.ok none) (.ok none s')
  | some {form : Form Phrase} {items : List Phrase} {rest : List Token} {s' : State}
      (hcategory : form.category = .resource)
      (hchildren : form.children = treesOf trace ++ items)
      (h : Advanced owner level s items rest s') :
      Formed owner level trace s₀ s (.ok (some (form, rest)))
        (.ok (some (form.withChildren 0 (Phrase.starts s₀.tree.size form.children))) s')

/-- Whether a node is a member of a chain. -/
def inChain (s : State) (id : NodeId) : Bool :=
  (s.tree.node id).parent.any fun p => s.tree.category p == .chain

/-- A resource that is kept whole may not be split. -/
theorem maySplit_eq_false {hasType noCollector : Bool}
    (hw : Keeps mode s (inChain s owner || !(hasType && noCollector))) :
    (mode == .splice && hasType && !((s.tree.node owner).parent.any fun p =>
      s.tree.category p == .chain) && noCollector && s.trials == 0) = false := by
  rcases hw with (rfl | htrials) | hkept
  · rfl
  · have : (s.trials == 0) = false := by simp; omega
    rw [this, Bool.and_false]
  · change (((s.tree.node owner).parent.any fun p => s.tree.category p == .chain) || _) = true at hkept
    generalize ((s.tree.node owner).parent.any fun p => s.tree.category p == .chain) = chained at hkept
    revert hkept
    cases chained <;> cases hasType <;> cases noCollector <;> simp

include hd in
/-- Reading what follows the head of a resource does what the plain reading does. -/
theorem readResource_formed {s₀ : State} {trace : Trace Phrase} {sigils : List Token}
    {head : Head Phrase} {collector : Option Phrase}
    (hfits : Plain.Fits Phrase.category Category.resource.rule.steps trace)
    (schema : Plain.HeadSchema Phrase.category sigils head collector trace)
    (h₀ : s.tree.size = s₀.tree.size + Phrase.total (treesOf trace))
    (ho : Owns s owner .resource level)
    (hw : Keeps mode s (inChain s owner || !(head.hasType && collector.isNone))) :
    Formed owner level trace s₀ s (Plain.resource p trace s.ahead)
      (readResource mode d owner ⟨logOf (numbers s₀.tree.size trace)⟩ s) := by
  obtain ⟨head', collector', hhead, hcollector, hsome, htype, hform⟩ :=
    Plain.resource_numbers s₀.tree.size hfits schema
  have hnone : collector'.isNone = collector.isNone := by
    rw [← Option.not_isSome, ← Option.not_isSome, hsome]
  unfold Plain.resource readResource
  simp only [schema.head_eq, schema.sigils_eq, schema.collector_eq, hhead, hcollector,
    Plain.tokens_numbers, bind_apply, get_apply, modify_apply, ← ahead_skip]
  have hskip := extends_skip s Grammar.newlines
  -- without a brace, a collector alone is a resource, and the cursor goes back to its end
  have bare (sigil : String) :
      Formed owner level trace s₀ s
        (if collector.isSome = true then
          .ok (some (.resource sigil head collector false [], s.ahead))
        else .ok none)
        ((if collector'.isSome = true then do
          modify fun t => { t with cursor := t.cursor.goTo s.cursor.position }
          return some (Form.resource sigil head' collector' false [])
        else do
          modify (·.recordFailure)
          return none : Reader (Option Form)) (s.skip Grammar.newlines)) := by
    rw [hsome]
    split
    · have hback : (s.skip Grammar.newlines).cursor.goTo s.cursor.position = s.cursor :=
        hskip.returnTo.cursor
      simp only [bind_apply, modify_apply, pure_apply, hback]
      have hchildren := schema.children_eq sigil false []
      have hsame : Advanced owner level s [] s.ahead { s.skip Grammar.newlines with cursor := s.cursor } :=
        .of_same ⟨rfl, rfl, rfl⟩
      have hformed : Formed owner level trace s₀ s _ (.ok _ _) := .some rfl hchildren hsame
      rwa [hchildren, ← hform] at hformed
    · exact .none (hskip.trans (same_recordFailure _).extends)
  cases hahead : (s.skip Grammar.newlines).ahead with
  | nil =>
    rw [currentKind_of_end hahead]
    exact bare _
  | cons t rest =>
    rw [currentKind_of_ahead hahead]
    by_cases hbrace : t.kind = .leftBrace
    · simp only [hbrace, bne_self_eq_false, beq_self_eq_true, Bool.false_eq_true, if_false, if_true,
        bind_apply, modify_apply, htype, hnone, maySplit_eq_false (s := s.skip Grammar.newlines)
          (hw.of_extends hskip)]
      have hadvance := hskip.trans (extends_advance _)
      have h := readItems_itemised hd ⟨logOf (numbers s₀.tree.size trace)⟩ d.rounds false
        (ho.of_extends hadvance)
      rw [ahead_advance, hahead, List.tail_cons, ← hd.rounds rest] at h
      rw [← hd.rounds rest]
      generalize readItems d owner _ false _ false _ = r at h
      generalize Plain.items p (p.rounds rest) rest = o at h
      cases h with
      | error h he => exact .error (hadvance.trans h) he
      | none h => exact .none (hadvance.trans h)
      | @some items rest s' h =>
        have hchildren := schema.children_eq (Plain.sigilText sigils) true items
        have hadvanced : Advanced owner level s items rest s' :=
          ⟨hadvance.trans h.extends_, h.ahead, h.tree⟩
        have hformed : Formed owner level trace s₀ s _ (.ok _ s') := .some rfl hchildren hadvanced
        rw [hchildren, ← hform, ← h₀] at hformed
        exact hformed
    · have hne : (some t.kind != some Kind.leftBrace) = true := by simpa using hbrace
      have hbeq : (t.kind == Kind.leftBrace) = false := by simpa using hbrace
      simp only [hne, hbeq, if_true, Bool.false_eq_true, if_false]
      exact bare _

end

/-- The nodes of phrases have the phrases' categories. -/
theorem category_starts (t : Tree) (before after : List Node) (parent : NodeId) (level : Int)
    (ps : List Phrase) :
    (Phrase.starts (t.size + before.length) ps).map
        (t.grow (before ++ Phrase.forest (t.size + before.length) parent level ps ++ after)).category =
      ps.map Phrase.category := by
  induction ps generalizing before with
  | nil => rfl
  | cons p ps ih =>
    simp only [Phrase.starts, List.map_cons, Phrase.forest_cons]
    congr 1
    · rw [Tree.category, Tree.node_grow_add, Phrase.nodes_eq]
      simp [Phrase.category_entry]
    · have := ih (before ++ p.nodes (t.size + before.length) parent level)
      simpa [Nat.add_assoc] using this

/-- A node whose children are still being read. -/
def pendingEntry (category : Category) (parent : NodeId) (level : Int) (line : Nat) : Node :=
  ⟨.pending category, some parent, level, line, category.rule.innerSpacing,
    category.rule.outerSpacing⟩

/-- The state in which the steps of a rule are read. -/
def entered (category : Category) (parent : NodeId) (s : State) : State :=
  let s := s.skip Grammar.newlines
  { s with
    tree := (s.tree.addPending category parent s.line).setSpacing s.tree.size
      category.rule.innerSpacing category.rule.outerSpacing }

section

variable {mode : SplitMode} {d : Descent} {p : Oracle} {owner : NodeId} {level : Int}
  {category parent : Category} {s s' : State}

/-- Entering a category adds one node, whose contents are pending. -/
theorem tree_entered (ho : Owns s owner parent level) :
    (entered category owner s).tree =
      s.tree.grow [pendingEntry category owner level (s.skip Grammar.newlines).line] := by
  rw [← ho.level]
  simp only [entered, Tree.addPending_eq, Tree.setSpacing, Tree.update_grow]
  rfl

/-- Entering a category is an extension. -/
theorem extends_entered (category : Category) (ho : Owns s owner parent level) :
    Extends s (entered category owner s) :=
  have hskip := extends_skip s Grammar.newlines
  ⟨hskip.tokens, hskip.onward, ⟨_, tree_entered ho⟩, hskip.trials⟩

/-- The node that was entered owns what is read next. -/
theorem owns_entered (ho : Owns s owner parent level) :
    Owns (entered category owner s) s.tree.size category (level + 1) := by
  have hnode := Tree.node_grow_add s.tree
    [pendingEntry category owner level (s.skip Grammar.newlines).line] 0
  refine ⟨by rw [tree_entered ho]; simp, ?_, ?_⟩
  · rw [tree_entered ho, Tree.category]
    exact congrArg Node.category hnode
  · rw [tree_entered ho]
    exact congrArg (·.level + 1) hnode

/-- While a node is read, its parent is its owner. -/
theorem inChain_of_entered (ho : Owns s owner parent level)
    (h : Extends (entered category owner s) s') : inChain s' s.tree.size = (parent == .chain) := by
  obtain ⟨entries, htree⟩ := h.tree
  have hcategory := (ho.of_extends ((extends_entered category ho).trans h)).category
  have hnode : s'.tree.node s.tree.size =
      pendingEntry category owner level (s.skip Grammar.newlines).line := by
    rw [htree, tree_entered ho, Tree.grow_grow]
    exact Tree.node_grow_add s.tree _ 0
  simp [inChain, hnode, pendingEntry, hcategory]

/-- The steps of a rule hold no resource that may be split if its phrases hold none. -/
theorem stepsKeep_rule (h : keepsWhole parent category = true) :
    stepsKeep category category.rule.steps = true := by
  cases category <;> first | exact Bool.noConfusion h | decide

/-- The entry of a node becomes that of its phrase when its children have been read. -/
def completed (category : Category) (id : NodeId) (form : Form) (s : State) : State :=
  let tree := s.tree.complete id form
  if category == .chain then
    { s with
      tree := tree.setSpacing id category.rule.innerSpacing
        (form.children.any fun member => tree.category member == .resource) }
  else { s with tree }

/-- Completing a node leaves the cursor where it is. -/
@[simp] theorem cursor_completed (category : Category) (id : NodeId) (form : Form) (s : State) :
    (completed category id form s).cursor = s.cursor := by
  unfold completed
  split <;> rfl

/-- Completing a node has nothing to do with trials. -/
@[simp] theorem trials_completed (category : Category) (id : NodeId) (form : Form) (s : State) :
    (completed category id form s).trials = s.trials := by
  unfold completed
  split <;> rfl

/-- A completed node and what was read below it are the nodes of one phrase. -/
theorem tree_completed {line : Nat} {form : Form Phrase} (hcategory : form.category = category)
    (htree : s'.tree = s.tree.grow (pendingEntry category owner level line ::
      Phrase.forest (s.tree.size + 1) s.tree.size (level + 1) form.children)) :
    (completed category s.tree.size
        (form.withChildren 0 (Phrase.starts (s.tree.size + 1) form.children)) s').tree =
      s.tree.grow (Phrase.forest s.tree.size owner level [⟨line, form⟩]) := by
  simp only [Phrase.forest_cons, Phrase.forest_nil, List.append_nil, Phrase.nodes_eq]
  by_cases hchain : category = .chain
  · subst hchain
    have hchildren : (form.withChildren 0 (Phrase.starts (s.tree.size + 1) form.children)).children =
        Phrase.starts (s.tree.size + 1) form.children := by
      cases form <;> simp_all [Form.category, Form.withChildren, Form.children, Phrase.starts]
    have hcategories (n : Node) := category_starts s.tree [n] [] s.tree.size (level + 1)
      form.children
    simp only [List.length_singleton, List.append_nil, List.singleton_append] at hcategories
    have houter (n : Node) :
        (Phrase.starts (s.tree.size + 1) form.children).any (fun member =>
          (s.tree.grow (n :: Phrase.forest (s.tree.size + 1) s.tree.size (level + 1)
            form.children)).category member == .resource) =
        form.children.any fun member => member.category == .resource := by
      have := congrArg (List.any · (· == Category.resource)) (hcategories n)
      simpa [List.any_map, Function.comp_def] using this
    simp only [completed, beq_self_eq_true, if_true, htree, Tree.complete, Tree.setSpacing,
      Tree.update_grow, hchildren, houter]
    congr 2
    simp [Phrase.entry, Phrase.outerSpacing, Phrase.category, Phrase.children, hcategory,
      pendingEntry]
  · have hne : (category == .chain) = false := by simpa using hchain
    simp only [completed, hne, Bool.false_eq_true, if_false, htree, Tree.complete, Tree.update_grow]
    congr 2
    simp [Phrase.entry, Phrase.outerSpacing, Phrase.category, Phrase.children, hcategory, hne,
      pendingEntry]

/-- What a reading of a node ends with, once its contents have been made or not. -/
def concluded (category : Category) (s : State) :
    EStateM.Result ParseError State (Option Form) → EStateM.Result ParseError State (Option NodeId)
  | .error e s' => .error e s'
  | .ok none s' => .ok none (s'.returnTo s.mark)
  | .ok (some form) s' => .ok (some s.tree.size) (completed category s.tree.size form s')

/-- A category is read by its steps, and what they keep decides the rest. -/
theorem readCategory_apply (mode : SplitMode) (d : Descent) (category : Category) (owner : NodeId)
    (s : State) :
    readCategory mode d category owner s =
      match readSteps d s.tree.size category.rule.steps {} (entered category owner s) with
      | .error e s' => .error e s'
      | .ok (matched, log) s' =>
        concluded category s ((if !matched then pure none
          else if category == .resource then readResource mode d s.tree.size log
          else pure (Form.ofCaptures? category log) : Reader (Option Form)) s') := by
  have htree : (s.skip Grammar.newlines).tree = s.tree := rfl
  unfold readCategory
  simp only [bind_apply, get_apply, modify_apply, entered, htree]
  generalize readSteps d s.tree.size category.rule.steps {} _ = r
  rcases r with ⟨⟨_ | _, log⟩, s'⟩ | ⟨e, s'⟩
  · rfl
  · by_cases hresource : (category == .resource) = true
    · simp only [hresource, Bool.not_true, Bool.false_eq_true, if_false, if_true, bind_apply]
      rcases readResource mode d s.tree.size log s' with ⟨_ | form, s'⟩ | ⟨e, s'⟩ <;> rfl
    · simp only [hresource, Bool.not_true, Bool.false_eq_true, if_false, bind_apply, pure_apply]
      cases Form.ofCaptures? category log <;> rfl
  · rfl

/-- A node whose contents are complete was chosen. -/
theorem chosen_completed {line : Nat} {form : Form Phrase} {rest : List Token}
    (ho : Owns s owner parent level) (hcategory : form.category = category)
    (hline : line = (s.skip Grammar.newlines).line)
    (h : Advanced s.tree.size (level + 1) (entered category owner s) form.children rest s') :
    Chosen owner level s (.ok (some (⟨line, form⟩, rest)))
      (.ok (some s.tree.size) (completed category s.tree.size
        (form.withChildren 0 (Phrase.starts (s.tree.size + 1) form.children)) s')) := by
  have hextends := (extends_entered category ho).trans h.extends_
  have htree : s'.tree = s.tree.grow (pendingEntry category owner level line ::
      Phrase.forest (s.tree.size + 1) s.tree.size (level + 1) form.children) := by
    rw [h.tree, tree_entered ho]
    simp [hline]
  have hcompleted := tree_completed hcategory htree
  refine .some ⟨⟨?_, ?_, ⟨_, hcompleted⟩, ?_⟩, ?_, hcompleted⟩
  · rw [cursor_completed, hextends.tokens]
  · rw [State.ahead, cursor_completed]; exact hextends.onward
  · rw [trials_completed, hextends.trials]
  · rw [State.ahead, cursor_completed]; exact h.ahead

/-- A resource has been read if its contents have been made. -/
theorem chosen_of_formed {trace : Trace Phrase} {rest : List Token} {line : Nat}
    (ho : Owns s owner parent level) (hline : line = (s.skip Grammar.newlines).line)
    (h : Advanced s.tree.size (level + 1) (entered .resource owner s) (treesOf trace) rest s')
    {o : Outcome (Form Phrase)} {r : EStateM.Result ParseError State (Option Form)}
    (hformed : Formed s.tree.size (level + 1) trace (entered .resource owner s) s' o r) :
    Chosen owner level s (Plain.andThen o fun form rest => .ok (some (⟨line, form⟩, rest)))
      (concluded .resource s r) := by
  have hentered := (extends_entered .resource ho).trans h.extends_
  have hsize : (entered .resource owner s).tree.size = s.tree.size + 1 := by
    rw [tree_entered ho]; simp
  cases hformed with
  | error h' he => exact .error (hentered.trans h') he
  | none h' => exact .none (hentered.trans h').returnTo
  | some hcategory hchildren h' =>
    have hadvanced := h.trans h'
    rw [← hchildren] at hadvanced
    rw [hsize]
    exact chosen_completed ho hcategory hline hadvanced

/-- Reading a node of a category does what the plain reading does. -/
theorem readCategory_chosen (hd : Follows mode d p) (hp : Sound p)
    (ho : Owns s owner parent level) (hw : Keeps mode s (keepsWhole parent category)) :
    Chosen owner level s (Plain.phrase p category s.ahead)
      (readCategory mode d category owner s) := by
  have hentered := extends_entered category ho
  rw [readCategory_apply, Plain.phrase]
  have h : Loose s.tree.size (level + 1) {} (entered category owner s)
      (Plain.inOrder p category category.rule.steps _) (readSteps d _ category.rule.steps {} _) :=
    readSteps_loose hd category.rule.steps {} (owns_entered ho)
      ((hw.of_extends hentered).imp_right stepsKeep_rule)
  have hahead : (entered category owner s).ahead = Lookahead.significant Grammar.newlines s.ahead :=
    ahead_skip s Grammar.newlines
  have hline : ((Lookahead.significant Grammar.newlines s.ahead).head?.map (·.line)).getD 0 =
      (s.skip Grammar.newlines).line := by
    rw [← ahead_skip]; rfl
  rw [hahead] at h
  generalize readSteps d s.tree.size category.rule.steps {} _ = r at h
  generalize hplain : Plain.inOrder p category category.rule.steps _ = o at h
  cases h with
  | error h he => exact .error (hentered.trans h) he
  | none h => exact .none (hentered.trans h).returnTo
  | @some trace rest s' h =>
    obtain ⟨hfits, -⟩ := Plain.inOrder_sound hp _ hplain
    have hsize : (entered category owner s).tree.size = s.tree.size + 1 := by
      rw [tree_entered ho]; simp
    by_cases hresource : category = .resource
    · subst hresource
      have hkeeps : Keeps mode s' (inChain s' s.tree.size) := by
        rw [inChain_of_entered ho h.extends_]
        exact (hw.of_extends hentered).of_extends h.extends_
      obtain ⟨sigils, head, collector, schema⟩ := Plain.headSchema_of_fits hfits
      have hformed := readResource_formed hd hfits schema h.size
        ((owns_entered ho).of_extends h.extends_)
        (hkeeps.imp_right fun hchain => by rw [hchain, Bool.true_or])
      rw [h.ahead] at hformed
      exact chosen_of_formed ho hline h hformed
    · have hne : (category == .resource) = false := by simpa using hresource
      simp only [Plain.andThen_some, hne, Bool.not_true, Bool.false_eq_true, if_false,
        List.nil_append, pure_apply, hsize]
      by_cases hm : category = .manifest
      · subst hm
        exact .none (hentered.trans h.extends_).returnTo
      · obtain ⟨form, hform⟩ := Plain.schema_of_fits hm hresource hfits
        rw [hform.ofCaptures?_eq,
          Plain.ofCaptures?_numbers (s.tree.size + 1) hm hresource hfits hform.ofCaptures?_eq]
        rw [← hform.children_eq] at h
        exact chosen_completed ho hform.category_eq hline h

/-- What a reading on trial gives, next to its answer and to whether it runs out of levels. -/
inductive Tried (s : State) : Bool → Bool → EStateM.Result ParseError State Bool → Prop
  | ok {answer : Bool} {s' : State} (h : Extends s s') : Tried s false answer (.ok answer s')
  | error {f : Fault} {e : ParseError} {s' : State} (h : Extends s s') (he : Explains f e) :
      Tried s (f == .exhausted) false (.error e s')

/-- A trial leaves no trace.  Its answer is that of the reading, unless the levels do not suffice. -/
theorem onTrial_apply {reading : Reader Bool} {out answer : Bool}
    (h : Tried { s.skip Grammar.newlines with trials := s.trials + 1 } out answer
      (reading { s.skip Grammar.newlines with trials := s.trials + 1 })) :
    onTrial reading s = if out then .error .exhausted s else .ok answer s := by
  have restored {s'' : State}
      (h : Extends { s.skip Grammar.newlines with trials := s.trials + 1 } s'') :
      { s''.returnTo s.mark with furthest := s.furthest, trials := s''.trials - 1 } = s := by
    have hskip := extends_skip s Grammar.newlines
    have hextends : Extends s { s'' with trials := s.trials } :=
      ⟨h.tokens.trans hskip.tokens, Nat.le_trans h.onward hskip.onward, h.tree, rfl⟩
    have hcursor : (s''.returnTo s.mark).cursor = s.cursor := hextends.returnTo.cursor
    have htree : (s''.returnTo s.mark).tree = s.tree := hextends.returnTo.tree
    have htrials : s''.trials - 1 = s.trials := by simp [h.trials]
    simp only [hcursor, htree, htrials]
  unfold onTrial
  generalize reading _ = r at h
  cases h with
  | ok hextends => exact congrArg _ (restored hextends)
  | @error f e s' hextends he =>
    cases f with
    | refused =>
      obtain ⟨line, text, rfl⟩ := he
      exact congrArg _ (restored hextends)
    | ended =>
      cases he
      exact congrArg _ (restored hextends)
    | exhausted =>
      cases he
      exact congrArg _ (restored hextends)

/-- Recognising a category does what the plain reading does, and leaves the state as it is. -/
theorem accepts_apply (category : Category) (hd : Follows mode d p) (ho : Owns s owner parent level) :
    accepts d category owner s =
      if Plain.runsOut p category parent s.ahead then .error .exhausted s
      else .ok (Plain.accepts p category parent s.ahead) s := by
  have htrial : Owns { s.skip Grammar.newlines with trials := s.trials + 1 } owner parent level ∧
      Whole mode { s.skip Grammar.newlines with trials := s.trials + 1 } ∧
      State.ahead { s.skip Grammar.newlines with trials := s.trials + 1 } =
        Lookahead.significant Grammar.newlines s.ahead :=
    ⟨⟨ho.lt, ho.category, ho.level⟩, .inr (Nat.succ_pos _), ahead_skip s _⟩
  cases category with
  | caseOption =>
    unfold accepts Plain.accepts Plain.runsOut
    simp only [bind_apply, get_apply, ho.category]
    by_cases hparent : (parent == .caseBlock) = true
    · simp only [hparent, if_true, Bool.true_and]
      apply onTrial_apply
      obtain ⟨ho', hw', hahead⟩ := htrial
      have h := readSteps_loose hd Grammar.caseValues {} ho' (.inl hw')
      rw [hahead] at h
      simp only [bind_apply]
      generalize readSteps d owner Grammar.caseValues {} _ = r at h
      generalize Plain.inOrder p parent Grammar.caseValues _ = o at h
      cases h with
      | @error f _ _ h he => cases f <;> exact .error h he
      | none h => exact .ok h
      | some h => exact .ok h.extends_
    · simp only [hparent, Bool.false_eq_true, if_false, Bool.false_and]
      rfl
  | chain =>
    unfold accepts Plain.accepts Plain.runsOut
    simp only [bind_apply, get_apply]
    apply onTrial_apply
    obtain ⟨ho', hw', hahead⟩ := htrial
    have h : Chosen owner level _ (p.choose Grammar.chainMembers parent _)
      (d.choose Grammar.chainMembers owner _) := hd.choose ho' (.inl hw')
    rw [hahead] at h
    simp only [bind_apply, get_apply, pure_apply]
    generalize d.choose Grammar.chainMembers owner _ = r at h
    generalize p.choose Grammar.chainMembers parent _ = o at h
    cases h with
    | @error f _ _ h he => cases f <;> exact .error h he
    | none h => exact .ok h.extends
    | some h =>
      rw [← h.ahead]
      exact .ok h.extends_
  | call =>
    rw [← ho.category]
    rfl
  | _ => rfl

/-- A choice from the same state is a choice from this one. -/
theorem Chosen.of_same {o : Outcome Phrase} {r : EStateM.Result ParseError State (Option NodeId)}
    (hs : Same s s') (h : Chosen owner level s' o r) : Chosen owner level s o r := by
  cases h with
  | error h he => exact .error (hs.extends.trans h) he
  | none h => exact .none (hs.trans h)
  | some h =>
    rw [hs.tree]
    exact .some (by simpa using (Advanced.of_same hs).trans h)

/-- Choosing from some categories tries the first one, which may run out of levels, and then reads it or
goes on with the rest. -/
theorem chooseFrom_apply (hd : Follows mode d p) (category : Category) (categories : List Category)
    (ho : Owns s owner parent level) :
    chooseFrom mode d (category :: categories) owner s =
      if Plain.runsOut p category parent s.ahead then .error .exhausted s
      else if Plain.accepts p category parent s.ahead then readCategory mode d category owner s
      else chooseFrom mode d categories owner s := by
  rw [chooseFrom, bind_apply, accepts_apply category hd ho]
  cases Plain.runsOut p category parent s.ahead with
  | true => rfl
  | false => cases Plain.accepts p category parent s.ahead <;> rfl

/-- A category that is recognised without a trial is read, if it comes first. -/
theorem chooseFrom_of_accepts (hd : Follows mode d p) {category : Category}
    (hoption : category ≠ .caseOption) (hchain : category ≠ .chain)
    (ho : Owns s owner parent level) (h : Plain.accepts p category parent s.ahead = true)
    (categories : List Category) :
    chooseFrom mode d (category :: categories) owner s = readCategory mode d category owner s := by
  rw [chooseFrom_apply hd category categories ho, Plain.runsOut_of_ne hoption hchain, h,
    if_neg Bool.false_ne_true, if_pos rfl]

/-- A node is read by a category that is recognised, if there is one.  A trial may run out of levels
before it is found. -/
theorem chooseFrom_read (hd : Follows mode d p) (categories : List Category)
    (ho : Owns s owner parent level) :
    chooseFrom mode d categories owner s = .ok none s ∨
      chooseFrom mode d categories owner s = .error .exhausted s ∨
      ∃ category ∈ categories, Plain.accepts p category parent s.ahead = true ∧
        chooseFrom mode d categories owner s = readCategory mode d category owner s := by
  induction categories with
  | nil => exact .inl rfl
  | cons category categories ih =>
    rw [chooseFrom_apply hd category categories ho]
    split
    · exact .inr (.inl rfl)
    split
    · rename_i haccepts
      exact .inr (.inr ⟨category, List.mem_cons_self, haccepts, rfl⟩)
    · exact ih.imp_right (Or.imp_right fun ⟨c, hc, hread⟩ => ⟨c, List.mem_cons_of_mem _ hc, hread⟩)

/-- Choosing a category does what the plain reading does. -/
theorem chooseFrom_chosen (hd : Follows mode d p) (hp : Sound p) (categories : List Category)
    (ho : Owns s owner parent level) (hw : Keeps mode s (categories.all (keepsWhole parent))) :
    Chosen owner level s (Plain.chooseFrom p categories parent s.ahead)
      (chooseFrom mode d categories owner s) := by
  induction categories generalizing s with
  | nil => exact .none (.refl s)
  | cons category categories ih =>
    rw [Plain.chooseFrom, chooseFrom_apply hd category categories ho]
    rw [List.all_cons] at hw
    obtain ⟨hcategory, hw⟩ := hw.and
    split
    · exact .error (.refl s) (by simp [Explains])
    split
    · exact readCategory_chosen hd hp ho hcategory
    · exact ih ho hw

/-- In front of a token the blame is never on the end of the tokens. -/
theorem blame_of_ahead {t : Token} {rest : List Token} (hahead : s.ahead = t :: rest)
    (ht : t.kind ∉ Grammar.newlines) : ∃ line text, s.blame = .unexpectedToken line text := by
  have hcurrent : (s.cursor.skip Grammar.newlines).current = some t := by
    have hskip : (s.skip Grammar.newlines).ahead = t :: rest := by
      rw [ahead_skip, hahead, Lookahead.significant]
      exact List.dropWhile_cons_of_neg (by simpa [Token.isOneOf] using ht)
    exact congrArg List.head? hskip
  unfold State.blame
  simp only [hcurrent]
  rcases s.furthest with _ | ⟨position, token⟩
  · exact ⟨_, _, rfl⟩
  · by_cases hle : (s.cursor.skip Grammar.newlines).position ≤ position
    · simp only [hle, if_true]
      exact ⟨_, _, rfl⟩
    · simp only [hle, if_false]
      exact ⟨_, _, rfl⟩

/-- Statements that are read further on are read from here, if the tree is the same. -/
theorem Listed.of_extends {o : Except Fault (List Phrase × List Token)}
    {r : EStateM.Result ParseError State (List NodeId)} (h : Extends s s')
    (htree : s'.tree = s.tree) (hl : Listed owner level s' o r) : Listed owner level s o r := by
  cases hl with
  | error h' he => exact .error (h.trans h') he
  | ok h' =>
    rw [htree]
    exact .ok ⟨h.trans h'.extends_, h'.ahead, by rw [h'.tree, htree]⟩

/-- Reading statements does what the plain reading does. -/
theorem readStatements_listed (hd : Follows mode d p) (hp : Sound p) (closing : Option Kind)
    (n : Nat) (ho : Owns s owner parent level) (hw : Whole mode s) :
    Listed owner level s (Plain.statements p parent closing n s.ahead)
      (readStatements d owner closing n s) := by
  induction n generalizing s with
  | zero => exact .error (.refl s) (by simp [Explains])
  | succ n ih =>
    rw [Plain.statements, readStatements]
    simp only [bind_apply, modify_apply, get_apply, ← ahead_skip]
    have hskip := extends_skip s [.newline, .semicolon]
    apply Listed.of_extends hskip rfl
    replace ho := ho.of_extends hskip
    replace hw := hw.of_extends hskip
    have hfirst {t : Token} {rest : List Token}
        (h : (s.skip [.newline, .semicolon]).ahead = t :: rest) : t.kind ∉ Grammar.newlines := by
      rw [ahead_skip] at h
      have hne := Plain.significant_head h
      simp_all [Grammar.newlines]
    generalize s.skip [.newline, .semicolon] = s at ho hw hfirst ⊢
    cases hahead : s.ahead with
    | nil =>
      rw [currentKind_of_end hahead]
      cases closing with
      | none => exact .ok (by simpa [hahead] using Advanced.refl owner level s)
      | some kind => exact .error (.refl s) (by simp [Explains])
    | cons t rest =>
      rw [currentKind_of_ahead hahead]
      dsimp only
      split
      · exact .ok (by simpa [hahead] using Advanced.refl owner level s)
      · have hclear : Same s { s with furthest := none } := ⟨rfl, rfl, rfl⟩
        have h : Chosen owner level s (p.choose Grammar.statements parent s.ahead)
            (d.choose Grammar.statements owner { s with furthest := none }) :=
          .of_same hclear
            (hd.choose (ho.of_extends hclear.extends) (.inl (hw.of_extends hclear.extends)))
        rw [hahead] at h
        simp only [bind_apply, modify_apply]
        generalize d.choose Grammar.statements owner _ = r at h
        generalize hplain : p.choose Grammar.statements parent _ = o at h
        cases h with
        | error h he => exact .error h he
        | none h => exact .error h.extends (blame_of_ahead (h.ahead.trans hahead) (hfirst hahead))
        | @some q rest' s' h =>
          have hposition := h.extends_.position_eq_iff
          rw [h.ahead, hahead] at hposition
          -- every statement takes up tokens, so none is read that stays where it is
          have hstalled : rest'.length ≠ (t :: rest).length := Nat.ne_of_lt (hp.progress hplain)
          have hmoved : (s'.cursor.position == s.cursor.position) = false := by
            simpa using fun h => hstalled (hposition.mp h)
          simp only [hstalled, if_false, bind_apply, get_apply, hmoved, Bool.false_eq_true]
          have hmore := ih (ho.of_extends h.extends_) (hw.of_extends h.extends_)
          rw [h.ahead] at hmore
          generalize readStatements d owner closing n s' = r at hmore
          generalize Plain.statements p parent closing n rest' = o at hmore
          cases hmore with
          | error h' he => exact .error (h.extends_.trans h') he
          | @ok ps rest'' s'' h' =>
            have hok : Listed owner level s (.ok ([q] ++ ps, rest'')) (.ok _ s'') :=
              .ok (h.trans h')
            simpa [Phrase.starts, h.size] using hok

end

/-- Every level of the descent does what the same level of plain reading does. -/
theorem descent_follows (mode : SplitMode) (n : Nat) :
    Follows mode (descent mode n) (Plain.level n) := by
  induction n with
  | zero =>
    exact ⟨fun _ _ => .error (.refl _) (by simp [Explains]),
      fun _ _ => .error (.refl _) (by simp [Explains]), fun _ => rfl⟩
  | succ n ih =>
    exact ⟨fun ho hw => chooseFrom_chosen ih (Plain.level_sound n) _ ho hw,
      fun ho hw => readStatements_listed ih (Plain.level_sound n) _ n ho hw, fun _ => rfl⟩

end Parse

namespace Plain

/-- The statements of a manifest, read with a number of levels. -/
def manifest (n : Nat) (tokens : List Token) : Except Fault (List Phrase) :=
  match (level n).statements .manifest none tokens with
  | .error f => .error f
  | .ok (ps, _) => .ok ps

/-- All tokens of a manifest are read. -/
theorem manifest_spells {n : Nat} {tokens : List Token} {ps : List Phrase}
    (h : manifest n tokens = .ok ps) : Spells (.body .manifest ps) tokens := by
  unfold manifest at h
  split at h
  · cases h
  · rename_i rest hstatements
    cases h
    obtain ⟨⟨w, rfl, hw⟩, hrest⟩ := (level_sound n).statements hstatements
    obtain rfl : rest = [] := by simpa using hrest
    rwa [List.append_nil]

end Plain

/-- Completing the root of a tree that has grown from the start gives the tree of all nodes. -/
theorem Tree.complete_grow_start (statements : List NodeId) (entries : List Node) :
    (Tree.start.grow entries).complete Tree.root (.manifest statements) =
      ⟨(⟨.manifest statements, none, -1, 1, false, false⟩ :: entries).toArray,
        Nat.succ_pos entries.length⟩ := by
  simp [Tree.start, Tree.grow, Tree.complete, Tree.update, Tree.root, Node.root]

/-- A parse that never splits resources is a plain reading of the tokens. -/
theorem parse_render (tokens : List Token) :
    match Plain.manifest (Parse.levels tokens) tokens with
    | .error f => ∃ e, parse .render tokens = .error e ∧ Parse.Explains f e
    | .ok ps => parse .render tokens = .ok (Tree.ofPhrases ps) := by
  have howns : Parse.Owns (.start tokens) Tree.root .manifest 0 := ⟨Nat.one_pos, rfl, rfl⟩
  have h : Parse.Listed Tree.root 0 (.start tokens)
      ((Plain.level (Parse.levels tokens)).statements .manifest none tokens)
      ((Parse.descent .render (Parse.levels tokens)).statements Tree.root none (.start tokens)) :=
    (Parse.descent_follows .render _).statements howns (.inl rfl)
  unfold Plain.manifest parse
  generalize (Plain.level (Parse.levels tokens)).statements .manifest none tokens = o at h
  generalize (Parse.descent .render _).statements Tree.root none _ = r at h
  cases h with
  | error h he => exact ⟨_, rfl, he⟩
  | @ok ps rest s' h =>
    have htree : s'.tree = Tree.start.grow (Phrase.forest 1 Tree.root 0 ps) := h.tree
    simp only [htree, Tree.complete_grow_start]
    rfl

/-- The tree of a parse that never splits resources. -/
theorem parse_render_eq_ok {tokens : List Token} {t : Tree} (h : parse .render tokens = .ok t) :
    ∃ ps, Plain.manifest (Parse.levels tokens) tokens = .ok ps ∧ t = Tree.ofPhrases ps := by
  have hplain := parse_render tokens
  split at hplain
  · obtain ⟨e, he, -⟩ := hplain
    cases h.symm.trans he
  · rename_i ps hps
    exact ⟨ps, hps, Except.ok.inj (h.symm.trans hplain)⟩

end TidyManifest
