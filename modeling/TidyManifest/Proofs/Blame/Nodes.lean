import TidyManifest.Proofs.Blame.Lines

/-!
# What the reading of a node remembers

Every reading that holds no resource which may be split takes notes (`descent_noting`), and so does
every reading of a node that is not found (`choose_none_notes`): it has made no split either.
-/

namespace TidyManifest.Parse

open Plain (Oracle Sound)
open Grammar (newlines)

section

variable {mode : SplitMode} {d : Descent} {p : Oracle} {owner : NodeId} {level : Int} {s s' : State}
  {log : Captures} {maySplit seen : Bool}

/-- One item and those after it. -/
theorem item_notes (hd : Follows mode d p) (hn : Noting d) (ho : Owns s owner .resource level)
    {categories : List Category} (hcategories : categories.all (keepsWhole .resource) = true)
    {more : Reader (Option (List NodeId))} {found : Option (List NodeId)}
    (hmore : ∀ {s found s'}, Owns s owner .resource level → more s = .ok found s' →
      (maySplit = true → found = none) → Notes s s')
    (h : (do
        match ← d.choose categories owner with
        | none => return none
        | some item =>
          let rest ← more
          return rest.map (item :: ·) : Reader (Option (List NodeId))) s = .ok found s')
    (hsplit : maySplit = true → found = none) : Notes s s' := by
  have hchosen : Chosen owner level s (p.choose categories .resource _)
      (d.choose categories owner _) := hd.choose ho (.inr hcategories)
  simp only [bind_apply] at h
  rcases hr : d.choose categories owner s with ⟨_ | item, s₁⟩ | ⟨e, s₁⟩
  · rw [hr] at h
    cases h
    exact hn.choose ho hcategories hr
  · rw [hr] at h hchosen
    generalize p.choose categories .resource s.ahead = o at hchosen
    cases hchosen with
    | some hadvanced =>
      simp only [bind_apply] at h
      rcases hrest : more s₁ with ⟨found', s₂⟩ | ⟨e, s₂⟩
      all_goals
        rw [hrest] at h
        cases h
      refine (hn.choose ho hcategories hr).trans
        (hmore (ho.of_extends hadvanced.extends_) hrest fun hmay => ?_)
      simpa using hsplit hmay
  · rw [hr] at h
    cases h

/-- The items of a resource take notes, unless it is split; then they are found. -/
theorem readItems_notes (hd : Follows mode d p) (hn : Noting d) {n : Nat}
    {found : Option (List NodeId)} (ho : Owns s owner .resource level)
    (h : readItems d owner log maySplit n seen s = .ok found s')
    (hsplit : maySplit = true → found = none) : Notes s s' := by
  induction n generalizing s s' seen found with
  | zero => cases h
  | succ n ih =>
    rw [readItems] at h
    simp only [bind_apply, modify_apply, get_apply] at h
    refine (notes_skip s newlines).trans ?_
    replace ho := ho.of_extends (extends_skip s newlines)
    generalize s.skip newlines = s at ho h ⊢
    have item {categories : List Category} (seen : Bool)
        (hcategories : categories.all (keepsWhole .resource) = true) :
        _ → Notes s s' :=
      fun h => item_notes hd hn ho hcategories
        (fun {s found s'} ho (h : readItems d owner log maySplit n seen s = .ok found s') =>
          ih ho h) h hsplit
    cases hkind : s.cursor.currentKind with
    | none =>
      rw [hkind] at h
      cases h
    | some kind =>
      rw [hkind] at h
      dsimp only at h
      split at h
      · cases h
        exact notes_advance s
      split at h
      · exact (notes_advance s).trans (ih (ho.of_extends (extends_advance s)) h hsplit)
      split at h
      · exact item seen (show Grammar.comments.all _ = true from rfl) h
      split at h
      · exact item seen (show [Category.pair].all _ = true from rfl) h
      split at h
      · rename_i hmay
        obtain ⟨rfl, rfl⟩ : seen = true ∧ maySplit = true := by simpa using hmay
        obtain rfl := hsplit rfl
        -- after a split the next token closes the resource, so the items are found
        simp only [bind_apply] at h
        rcases hr : d.choose [.title] owner s with ⟨_ | id, s₁⟩ | ⟨e, s₁⟩
        · rw [hr] at h
          cases h
          exact hn.choose ho (show [Category.title].all _ = true from rfl) hr
        · rw [hr] at h
          simp only [bind_apply, modify_apply] at h
          cases n with
          | zero => cases h
          | succ n =>
            generalize s₁.returnTo s.mark = s₂ at h
            obtain ⟨s₃, hs₃, -⟩ := readItems_closing d owner level true log n
              (s := { s₂ with cursor := s₂.cursor.insert (splitTokens log s₂.line) }) rfl rfl
            rw [hs₃] at h
            cases h
        · rw [hr] at h
          cases h
      · exact item true (show [Category.title].all _ = true from rfl) h

/-- The contents of a resource take notes if they are not found, or if it is a member of a chain. -/
theorem readResource_notes (hd : Follows mode d p) (hn : Noting d) {found : Option Form}
    (ho : Owns s owner .resource level) (h : readResource mode d owner log s = .ok found s')
    (hsplit : found = none ∨ inChain s owner = true) : Notes s s' := by
  unfold readResource at h
  cases hhead : resourceHead? log with
  | none =>
    rw [hhead] at h
    cases h
    exact .refl s
  | some head =>
    rw [hhead] at h
    simp only [bind_apply, get_apply, modify_apply] at h
    have hskip := notes_skip s newlines
    split at h
    · split at h
      · cases h
        exact .of_furthest hskip.returnTo.tokens hskip.returnTo.onward rfl
      · cases h
        exact hskip.trans (notes_recordFailure (onLine_skip s))
    · have hadvance := hskip.trans (notes_advance (s.skip newlines))
      have hextends := (extends_skip s newlines).trans
        (extends_advance (s.skip newlines))
      simp only [bind_apply, modify_apply] at h
      generalize hmay : (_ && _) = maySplit at h
      rcases hitems : readItems d owner log maySplit d.rounds false
        (s.skip newlines).advance with ⟨ids, s₁⟩ | ⟨e, s₁⟩
      all_goals
        rw [hitems] at h
        cases h
      refine hadvance.trans (readItems_notes hd hn (ho.of_extends hextends) hitems fun htrue => ?_)
      rcases hsplit with hnone | hchain
      · simpa using hnone
      · rw [htrue] at hmay
        rw [inChain] at hchain
        simp [State.skip, hchain] at hmay

end

section

variable {mode : SplitMode} {d : Descent} {p : Oracle} {owner : NodeId} {level : Int}
  {category parent : Category} {s s' : State}

theorem notes_entered (category : Category) (owner : NodeId) (s : State) :
    Notes s (entered category owner s) :=
  .of_furthest (notes_skip s _).tokens (notes_skip s _).onward rfl

/-- Completing a node leaves the furthest failure as it is. -/
@[simp] theorem furthest_completed (category : Category) (id : NodeId) (form : Form) (s : State) :
    (completed category id form s).furthest = s.furthest := by
  unfold completed
  split <;> rfl

/-- Completing a node takes no notes. -/
theorem notes_completed (category : Category) (id : NodeId) (form : Form) (s : State) :
    Notes s (completed category id form s) :=
  .of_furthest (by rw [cursor_completed]) (Nat.le_of_eq (by rw [cursor_completed]))
    (furthest_completed category id form s)

/-- A node that is found or not takes notes with its contents. -/
theorem concluded_notes {r : EStateM.Result ParseError State (Option Form)} {found : Option NodeId}
    (hr : ∀ {form s₁}, r = .ok form s₁ → form.isSome = found.isSome → Notes s s₁)
    (h : concluded category s r = .ok found s') : Notes s s' := by
  rcases r with ⟨_ | form, s₁⟩ | ⟨e, s₁⟩
  all_goals cases h
  · exact (hr rfl rfl).returnTo
  · exact (hr rfl rfl).trans (notes_completed ..)

/-- What has a body does not keep resources whole. -/
theorem keepsWhole_of_hasBody (h : category.hasBody = true) :
    keepsWhole parent category = false := by
  cases category <;> first | rfl | cases h

/-- In front of a body all steps skip newlines. -/
theorem skipsNewlines_of_hasBody (h : category.hasBody = true) {init : List Step} {last : Step}
    (hinit : category.rule.steps = init ++ [last]) : everySteps skipsNewlines init = true := by
  have hrule : everySteps skipsNewlines category.rule.steps = true := by
    rcases skipsNewlines_rule category with hskips | rfl | rfl
    · exact hskips
    · cases h
    · cases h
  rw [hinit] at hrule
  clear hinit
  induction init with
  | nil => rfl
  | cons step init ih =>
    rw [List.cons_append, everySteps, Bool.and_eq_true] at hrule
    rw [everySteps, hrule.1, ih hrule.2]
    rfl

/-- A node takes notes if it is not found, or if it holds no resource that may be split. -/
theorem readCategory_notes (hd : Follows mode d p) (hp : Sound p) (hn : Noting d)
    (ho : Owns s owner parent level) {found : Option NodeId}
    (haccepts : Plain.accepts p category parent s.ahead = true)
    (h : readCategory mode d category owner s = .ok found s')
    (hsplit : found = none ∨ keepsWhole parent category = true) : Notes s s' := by
  have hentered := notes_entered category owner s
  rw [readCategory_apply] at h
  rcases stepsKeep_or_hasBody category with hkeep | hbody
  · have hloose := readSteps_loose hd category.rule.steps {} (owns_entered ho) (.inr hkeep)
    rcases hr : readSteps d s.tree.size category.rule.steps {} (entered category owner s) with
      ⟨⟨matched, log⟩, s₁⟩ | ⟨e, s₁⟩
    · rw [hr] at h hloose
      have hsteps := hentered.trans (rule_notes hd hn ho haccepts hkeep hr)
      refine concluded_notes (fun {form s₂} hform hfound => ?_) h
      split at hform
      · cases hform
        exact hsteps
      split at hform
      · rename_i hresource
        obtain rfl : category = .resource := eq_of_beq hresource
        refine hsteps.trans (readResource_notes hd hn
          ((owns_entered ho).of_extends hloose.extends) hform (hsplit.imp ?_ ?_))
        · rintro rfl
          simpa using hfound
        · intro hkeeps
          rw [inChain_of_entered ho hloose.extends]
          exact hkeeps
      · cases hform
        exact hsteps
    · rw [hr] at h
      cases h
  · -- a body that is found makes a node, so it was the brace that was missed
    obtain rfl : found = none := by
      rw [keepsWhole_of_hasBody hbody] at hsplit
      exact hsplit.resolve_right (by simp)
    obtain ⟨init, hinit, hkeep, -⟩ := Plain.steps_of_hasBody hbody
    have hskips := skipsNewlines_of_hasBody hbody hinit
    have hloose := readSteps_loose hd init {} (owns_entered ho) (.inr hkeep)
    rw [hinit, readSteps_append] at h
    rcases hr : readSteps d s.tree.size init {} (entered category owner s) with
      ⟨⟨matched, log⟩, s₁⟩ | ⟨e, s₁⟩
    · have hsteps := hentered.trans (readSteps_notes hd hn _ (owns_entered ho) hkeep hskips hr)
      rw [hr] at h hloose
      generalize hplain : Plain.inOrder p category init _ = o at hloose
      cases hloose with
      | none =>
        cases h
        exact hsteps.returnTo
      | @some trace _ _ hsome =>
        obtain ⟨hfits, -⟩ := Plain.inOrder_sound hp _ hplain
        simp only [Plain.beq_resource_of_hasBody hbody, Bool.false_eq_true, if_false] at h
        rcases hlast : readSteps d s.tree.size [Step.braces.named "body"] _ s₁ with
          ⟨⟨_ | _, kept⟩, s₂⟩ | ⟨e, s₂⟩
        · rw [hlast] at h
          cases h
          rw [readSteps_single d _ _ s₁ rfl rfl] at hlast
          unfold Step.braces Step.named Step.withUsage at hlast
          rw [readOnce] at hlast
          exact (hsteps.trans
            (attempt_notes (readBlock_none_notes (onLine_atLead (by simp))) hlast)).returnTo
        · obtain ⟨ids, rfl⟩ := readBody_some hlast
          obtain ⟨form, hform⟩ := Plain.ofCaptures?_body hbody hinit hfits
            (entered category owner s).tree.size ids
          rw [hlast] at h
          simp only [List.nil_append, ← Plain.logOf_append, hform, Bool.not_true,
            Bool.false_eq_true, if_false, pure_apply] at h
          cases h
        · rw [hlast] at h
          cases h
    · rw [hr] at h
      cases h

/-- Candidates take notes if none is found, or if none holds a resource that may be split. -/
theorem chooseFrom_notes (hd : Follows mode d p) (hp : Sound p) (hn : Noting d)
    {categories : List Category} (ho : Owns s owner parent level) {found : Option NodeId}
    (h : chooseFrom mode d categories owner s = .ok found s')
    (hsplit : found = none ∨ categories.all (keepsWhole parent) = true) : Notes s s' := by
  rcases chooseFrom_read hd categories ho with hnone | hout | ⟨category, hmem, haccepts, hread⟩
  · rw [hnone] at h
    cases h
    exact .refl s
  · cases hout.symm.trans h
  · rw [hread] at h
    exact readCategory_notes hd hp hn ho haccepts h
      (hsplit.imp_right fun hall => List.all_eq_true.mp hall category hmem)

end

section

variable {mode : SplitMode} {n : Nat} {owner : NodeId} {level : Int} {parent : Category}
  {categories : List Category} {s s' : State}

/-- Every level of the descent takes notes. -/
theorem descent_noting (mode : SplitMode) (n : Nat) : Noting (descent mode n) := by
  induction n with
  | zero => exact ⟨fun _ _ h => (by cases h), fun _ h => (by cases h)⟩
  | succ n ih =>
    have hd := descent_follows mode n
    refine ⟨fun ho hkeeps h => chooseFrom_notes hd (Plain.level_sound n) ih ho h (.inr hkeeps),
      fun ho h => ?_⟩
    rcases chooseFrom_read hd [.list] ho with hnone | hout | ⟨category, hmem, -, hread⟩
    · cases hnone.symm.trans h
    · cases hout.symm.trans h
    · obtain rfl := List.mem_singleton.mp hmem
      exact passed_of_list (hread.symm.trans h)

/-- Candidates of which none is found take notes: nothing has been put in. -/
theorem choose_none_notes (ho : Owns s owner parent level)
    (h : (descent mode n).choose categories owner s = .ok none s') : Notes s s' := by
  cases n with
  | zero => cases h
  | succ n =>
    exact chooseFrom_notes (descent_follows mode n) (Plain.level_sound n) (descent_noting mode n) ho
      h (.inl rfl)

end

end TidyManifest.Parse
