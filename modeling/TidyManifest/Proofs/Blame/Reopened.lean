import TidyManifest.Proofs.Blame.Titles

/-!
# What is blamed after a split

A resource that is split leaves the head of the next resource in front of the title at which it was
cut.  If that next resource cannot be read, the blame must not fall on its head, which is no part of
the input.

It never does.  The title at which a resource was cut has been read once already, so it is read
again as the first item of the next resource, and the failure that it leaves is remembered from then
on (`readItems_failed`).  The next resource may also be the first member of a chain
(`chain_reopened`); nothing else starts with such a head (`choose_reopened`).

`Pending` keeps apart what is put in and what is input: the tokens of the input that are still to be
read are a part of those before, whether or not a resource has been split on the way.
-/

namespace TidyManifest.Parse

open Plain (Reopening full)
open Grammar (newlines)

/-- The next item of a resource is a title. -/
structure AtTitle (tokens : List Token) : Prop where
  first : ∃ t rest, tokens = t :: rest ∧
    t.kind ∉ [Kind.newline, .rightBrace, .semicolon, .comma, .comment, .blockComment]
  unpaired : atPair tokens = false
  title : ∃ found, full.choose [.title] .resource tokens = .ok (some found)

/-- The tokens of the input that are still to be read: all the tokens ahead, or those after the head
of a resource that has been put in. -/
inductive Pending (tokens : List Token) (s : State) : Prop
  | whole (h : s.ahead = tokens)
  | reopened (r : Reopening) (h : Lookahead.significant newlines s.ahead = r.tokens tokens)
      (htitle : AtTitle tokens)

/-- A state in which a part of some tokens is still to be read, none of them after a head that was
put in unless a resource may have been split. -/
def Leaves (maySplit : Bool) (tokens : List Token) (s : State) : Prop :=
  ∃ rest, rest <:+ tokens ∧ Pending rest s ∧ (maySplit = false → s.ahead = rest)

section

variable {tokens rest : List Token} {maySplit : Bool} {s s' : State}

/-- What leaves a part of some tokens leaves a part of those in front of them. -/
theorem Leaves.of_suffix (h : Leaves maySplit rest s) (hsuffix : rest <:+ tokens) :
    Leaves maySplit tokens s := by
  obtain ⟨left, hleft, hpending⟩ := h
  exact ⟨left, hleft.trans hsuffix, hpending⟩

/-- What is left is a matter of the tokens ahead. -/
theorem Leaves.of_ahead (h : Leaves maySplit tokens s) (hahead : s'.ahead = s.ahead) :
    Leaves maySplit tokens s' := by
  obtain ⟨rest, hrest, hpending, hwhole⟩ := h
  refine ⟨rest, hrest, ?_, fun hmay => hahead.trans (hwhole hmay)⟩
  cases hpending with
  | whole h => exact .whole (hahead.trans h)
  | reopened r h htitle => exact .reopened r (by rw [hahead, h]) htitle

/-- Tokens ahead that were there before are left whole. -/
theorem leaves_whole (h : s.ahead <:+ tokens) : Leaves maySplit tokens s :=
  ⟨s.ahead, h, .whole rfl, fun _ => rfl⟩

/-- An extension leaves a part of the tokens ahead. -/
theorem Extends.suffix (h : Extends s s') : s'.ahead <:+ s.ahead := by
  obtain ⟨w, hw⟩ := ahead_suffix h.tokens h.onward
  exact ⟨w, hw.symm⟩

theorem significant_suffix (kinds : List Kind) (tokens : List Token) :
    Lookahead.significant kinds tokens <:+ tokens :=
  List.dropWhile_suffix _

theorem suffix_tokens (r : Reopening) (tokens : List Token) : tokens <:+ r.tokens tokens :=
  ⟨r.sigils ++ [r.type, r.opening], by simp [Plain.Reopening.tokens]⟩

/-- The tokens that are still to be read are among those ahead. -/
theorem Pending.suffix (h : Pending tokens s) : tokens <:+ s.ahead := by
  cases h with
  | whole h => exact h ▸ List.suffix_refl _
  | reopened r h htitle =>
    exact (suffix_tokens r tokens).trans (h ▸ significant_suffix newlines s.ahead)

end

/-- A log from which the head of a typed resource can be put in again. -/
structure KeepsHead {ι : Type} (log : Captures ι) : Prop where
  sigils : ∀ t ∈ log.tokens "sigil", t.kind = .atSign
  type : ∃ t, log.token? "type" = some t ∧ t.kind ∈ Grammar.resourceTypes

/-- The head of a resource that has a type can be put in again. -/
theorem keepsHead_of_fits {trace : Plain.Trace Phrase} {first : NodeId} {head : Head}
    (hfits : Plain.Fits Phrase.category Category.resource.rule.steps trace)
    (hhead : resourceHead? (⟨Plain.logOf (Plain.numbers first trace)⟩ : Captures) = some head)
    (htype : head.hasType = true) :
    KeepsHead (⟨Plain.logOf (Plain.numbers first trace)⟩ : Captures) := by
  obtain ⟨sigils, head₀, collector, schema⟩ := Plain.headSchema_of_fits hfits
  obtain ⟨head', -, hhead', -, -, htype', -⟩ := Plain.resource_numbers first hfits schema
  obtain rfl : head = head' := Option.some.inj (hhead.symm.trans hhead')
  rw [htype] at htype'
  cases schema with
  | reference => cases htype'
  | @type t _ _ hsigils ht hcollector =>
    have schema := Plain.HeadSchema.type hsigils ht hcollector
    refine ⟨?_, t, ?_, ht⟩
    · rw [Plain.tokens_numbers, schema.sigils_eq]
      exact hsigils
    · rw [Plain.token?_numbers]
      cases hcollector <;> simp [Captures.token?, Capture.token?]

/-- What is put in at a split: a brace that closes the resource, a newline and a head. -/
theorem splitTokens_eq {log : Captures} (h : KeepsHead log) (line : Nat) (tokens : List Token) :
    ∃ (closing newline : Token) (r : Reopening), closing.kind = .rightBrace ∧
      newline.kind = .newline ∧
      splitTokens log line ++ tokens = closing :: newline :: r.tokens tokens := by
  obtain ⟨t, htoken, ht⟩ := h.type
  refine ⟨⟨.rightBrace, "\x7d", line⟩, ⟨.newline, "\n", line⟩,
    ⟨log.tokens "sigil", t, ⟨.leftBrace, "\x7b", line⟩, h.sigils, ht, rfl⟩, rfl, rfl, ?_⟩
  simp [splitTokens, htoken, Plain.Reopening.tokens]

section

variable {mode : SplitMode} {m k : Nat} {d : Descent} {owner : NodeId} {level : Int}
  {log : Captures} {maySplit seen : Bool} {ids : List NodeId} {s s' : State}

/-- In front of a further title the resource is closed, and its head is put in again. -/
theorem title_leaves (hd : Follows mode d (Plain.level m)) (hlog : KeepsHead log)
    (ho : Owns s owner .resource level) (hm : 8 * s.ahead.length + 6 ≤ m)
    (hfirst : ∃ t rest, s.ahead = t :: rest ∧
      t.kind ∉ [Kind.newline, .rightBrace, .semicolon, .comma, .comment, .blockComment])
    (hpair : atPair s.ahead = false)
    (h : (do
        match ← d.choose [.title] owner with
        | none => return none
        | some _ =>
          modify (·.returnTo s.mark)
          modify fun s => { s with cursor := s.cursor.insert (splitTokens log s.line) }
          readItems d owner log true k true : Reader (Option (List NodeId))) s =
      .ok (some ids) s') :
    Leaves true s.ahead s' := by
  have hchosen := choose_full hd ho
    (show [Category.title].all (keepsWhole .resource) = true from rfl) hm
  simp only [bind_apply] at h
  generalize d.choose [.title] owner s = r at h hchosen
  generalize hplain : full.choose [.title] .resource s.ahead = o at hchosen
  cases hchosen with
  | error => cases h
  | none => cases h
  | @some _ _ s₁ hsome =>
    simp only [bind_apply, modify_apply] at h
    have hback := hsome.extends_.returnTo
    generalize s₁.returnTo s.mark = s₂ at h hback
    obtain ⟨closing, newline, r, hclosing, hnewline, htokens⟩ :=
      splitTokens_eq hlog s₂.line s₂.cursor.ahead
    cases k with
    | zero => cases h
    | succ k =>
      obtain ⟨s₃, hs₃, hgrown, -⟩ := readItems_closing d owner level true log k
        (s := { s₂ with cursor := s₂.cursor.insert (splitTokens log s₂.line) }) htokens hclosing
      rw [hs₃] at h
      cases h
      refine ⟨s.ahead, List.suffix_refl _, .reopened r ?_ ⟨hfirst, hpair, _, hplain⟩, by simp⟩
      have hrest : s₂.cursor.ahead = s.ahead := hback.ahead
      rw [hgrown.ahead, hrest, Lookahead.significant, List.dropWhile_cons_of_pos
        (by simp [Token.isOneOf, hnewline, newlines]), ← Lookahead.significant]
      exact r.significant_tokens _ (by decide)

/-- One item and those after it. -/
theorem item_leaves (ids : List NodeId) (hd : Follows mode d (Plain.level m))
    (ho : Owns s owner .resource level)
    {categories : List Category} (hcategories : categories.all (keepsWhole .resource) = true)
    {more : Reader (Option (List NodeId))}
    (hmore : ∀ {s ids s'}, Owns s owner .resource level → 8 * s.ahead.length + 6 ≤ m →
      more s = .ok (some ids) s' → Leaves maySplit s.ahead s')
    (hm : 8 * s.ahead.length + 6 ≤ m)
    (h : (do
        match ← d.choose categories owner with
        | none => return none
        | some item =>
          let rest ← more
          return rest.map (item :: ·) : Reader (Option (List NodeId))) s = .ok (some ids) s') :
    Leaves maySplit s.ahead s' := by
  have hchosen : Chosen owner level s ((Plain.level m).choose categories .resource _)
      (d.choose categories owner _) := hd.choose ho (.inr hcategories)
  simp only [bind_apply] at h
  generalize d.choose categories owner s = r at h hchosen
  generalize (Plain.level m).choose categories .resource s.ahead = o at hchosen
  cases hchosen with
  | error => cases h
  | none => cases h
  | @some _ _ s₁ hsome =>
    simp only [bind_apply] at h
    rcases hrest : more s₁ with ⟨_ | ids, s₂⟩ | ⟨e, s₂⟩
    all_goals
      rw [hrest] at h
      cases h
    have hle := hsome.extends_.onward
    exact (hmore (ho.of_extends hsome.extends_) (by omega) hrest).of_suffix hsome.extends_.suffix

/-- After the items of a resource a part of the tokens is still to be read. -/
theorem readItems_leaves (hd : Follows mode d (Plain.level m))
    (hlog : maySplit = true → KeepsHead log) (ho : Owns s owner .resource level)
    (hm : 8 * s.ahead.length + 6 ≤ m)
    (h : readItems d owner log maySplit k seen s = .ok (some ids) s') :
    Leaves maySplit s.ahead s' := by
  induction k generalizing s s' seen ids with
  | zero => cases h
  | succ k ih =>
    rw [readItems] at h
    simp only [bind_apply, modify_apply, get_apply] at h
    have hskip := extends_skip s newlines
    refine Leaves.of_suffix ?_ hskip.suffix
    replace hm : 8 * (s.skip newlines).ahead.length + 6 ≤ m := by
      have := hskip.onward
      omega
    replace ho := ho.of_extends hskip
    have hsignificant (t : Token) (rest : List Token)
        (hahead : (s.skip newlines).ahead = t :: rest) : t.kind ∉ newlines := by
      rw [ahead_skip] at hahead
      exact Plain.significant_head hahead
    generalize s.skip newlines = s at ho hm hsignificant h ⊢
    have item {categories : List Category} (seen : Bool)
        (hcategories : categories.all (keepsWhole .resource) = true) :
        _ → Leaves maySplit s.ahead s' :=
      item_leaves ids hd ho hcategories
        (fun {s ids s'} ho hm (h : readItems d owner log maySplit k seen s = .ok (some ids) s') =>
          ih ho hm h) hm
    cases hahead : s.ahead with
    | nil =>
      rw [currentKind_of_end hahead] at h
      cases h
    | cons t rest =>
      rw [currentKind_of_ahead hahead] at h
      rw [← hahead]
      dsimp only at h
      split at h
      · cases h
        exact leaves_whole (extends_advance s).suffix
      rename_i hbrace
      split at h
      · have hadvance := extends_advance s
        have hle := hadvance.onward
        exact (ih (ho.of_extends hadvance) (by omega) h).of_suffix hadvance.suffix
      rename_i hseparator
      split at h
      · exact item seen (show Grammar.comments.all _ = true from rfl) h
      rename_i hcomment
      split at h
      · exact item seen (show [Category.pair].all _ = true from rfl) h
      rename_i hpair
      split at h
      · rename_i hmay
        obtain ⟨rfl, rfl⟩ : seen = true ∧ maySplit = true := by simpa using hmay
        refine title_leaves hd (hlog rfl) ho hm ⟨t, rest, hahead, ?_⟩ (by simpa using hpair) h
        have hnewline := hsignificant t rest hahead
        simp_all [newlines]
      · exact item true (show [Category.title].all _ = true from rfl) h

/-- In front of a brace a resource is read by reading its items, and it may be split only if it has
a type and is no member of a chain. -/
theorem readResource_items (mode : SplitMode) (d : Descent) (owner : NodeId) {head : Head}
    (hhead : resourceHead? log = some head)
    (hbrace : (s.skip newlines).cursor.currentKind = some .leftBrace) :
    ∃ maySplit make, (maySplit = true → head.hasType = true ∧ inChain s owner = false) ∧
      readResource mode d owner log s =
        match readItems d owner log maySplit d.rounds false (s.skip newlines).advance with
        | .ok items s' => .ok (items.map make) s'
        | .error e s' => .error e s' := by
  unfold readResource
  simp only [hhead, bind_apply, get_apply, modify_apply, hbrace, bne_self_eq_false,
    Bool.false_eq_true, if_false]
  generalize hmay : (_ && _) = maySplit
  refine ⟨maySplit, Form.resource (String.join ((log.tokens "sigil").map (·.text))) head
    (log.node? "collector") true, ?_, ?_⟩
  · rintro rfl
    simp only [Bool.and_eq_true, Bool.not_eq_true'] at hmay
    exact ⟨hmay.1.1.1.2, hmay.1.1.2⟩
  · generalize readItems d owner log maySplit _ false _ = r
    cases r <;> rfl

/-- Without a brace nothing is read after the head. -/
theorem readResource_unbraced {form : Form}
    (hbrace : (s.skip newlines).cursor.currentKind ≠ some .leftBrace)
    (h : readResource mode d owner log s = .ok (some form) s') : s'.cursor = s.cursor := by
  unfold readResource at h
  cases hhead : resourceHead? log with
  | none =>
    rw [hhead] at h
    cases h
  | some head =>
    have hne : ((s.skip newlines).cursor.currentKind != some .leftBrace) = true := by
      simpa using hbrace
    simp only [hhead, bind_apply, get_apply, modify_apply, hne, if_true] at h
    split at h
    · cases h
      exact (extends_skip s newlines).returnTo.cursor
    · cases h

/-- After the contents of a resource a part of the tokens is still to be read. -/
theorem readResource_leaves (hd : Follows mode d (Plain.level m))
    (hlog : ∀ head, resourceHead? log = some head → head.hasType = true → KeepsHead log)
    (ho : Owns s owner .resource level) (hm : 8 * s.ahead.length + 6 ≤ m) {form : Form}
    (h : readResource mode d owner log s = .ok (some form) s') : Leaves true s.ahead s' := by
  by_cases hbrace : (s.skip newlines).cursor.currentKind = some .leftBrace
  · cases hhead : resourceHead? log with
    | none =>
      unfold readResource at h
      rw [hhead] at h
      cases h
    | some head =>
      obtain ⟨maySplit, make, hmay, hread⟩ := readResource_items mode d owner hhead hbrace
      rw [hread] at h
      have hextends := (extends_skip s newlines).trans (extends_advance (s.skip newlines))
      have hle := hextends.onward
      rcases hitems : readItems d owner log maySplit d.rounds false (s.skip newlines).advance with
        ⟨_ | ids, s₁⟩ | ⟨e, s₁⟩
      all_goals
        rw [hitems] at h
        cases h
      obtain ⟨rest, hrest, hpending, -⟩ := readItems_leaves hd
        (fun htrue => hlog head hhead (hmay htrue).1) (ho.of_extends hextends) (by omega) hitems
      exact ⟨rest, hrest.trans hextends.suffix, hpending, by simp⟩
  · have hahead : s'.ahead = s.ahead := congrArg Cursor.ahead (readResource_unbraced hbrace h)
    exact leaves_whole (hahead ▸ List.suffix_refl _)

theorem ahead_completed (category : Category) (id : NodeId) (form : Form) (s : State) :
    (completed category id form s).ahead = s.ahead :=
  congrArg Cursor.ahead (cursor_completed category id form s)

/-- After a resource a part of the tokens is still to be read. -/
theorem resource_leaves (hd : Follows mode d (Plain.level m)) {parent : Category}
    (ho : Owns s owner parent level) (hm : 8 * s.ahead.length + 6 ≤ m) {id : NodeId}
    (h : readCategory mode d .resource owner s = .ok (some id) s') : Leaves true s.ahead s' := by
  have hkeep : stepsKeep .resource Category.resource.rule.steps = true := by decide
  have hsteps := readSteps_loose hd Category.resource.rule.steps {} (owns_entered ho) (.inr hkeep)
  rw [readCategory_apply] at h
  generalize readSteps d s.tree.size Category.resource.rule.steps {} _ = r at h hsteps
  generalize hplain : Plain.inOrder (Plain.level m) .resource Category.resource.rule.steps _ = o
    at hsteps
  cases hsteps with
  | error => cases h
  | none => cases h
  | @some trace _ s₁ hsome =>
    obtain ⟨hfits, -⟩ := Plain.inOrder_sound (Plain.level_sound m) _ hplain
    have hextends := (extends_entered .resource ho).trans hsome.extends_
    have hle := hextends.onward
    simp only [Bool.not_true, Bool.false_eq_true, if_false, beq_self_eq_true, if_true,
      List.nil_append] at h
    rcases hr : readResource mode d s.tree.size
      ⟨Plain.logOf (Plain.numbers (entered .resource owner s).tree.size trace)⟩ s₁ with
      ⟨_ | form, s₂⟩ | ⟨e, s₂⟩
    all_goals
      rw [hr] at h
      cases h
    have hleaves := readResource_leaves hd (fun _ => keepsHead_of_fits hfits)
      ((owns_entered ho).of_extends hsome.extends_) (by omega) hr
    exact (hleaves.of_suffix hextends.suffix).of_ahead (ahead_completed ..)

end

section

variable {mode : SplitMode} {n m k : Nat} {d : Descent} {owner : NodeId} {level : Int}
  {parent : Category} {log : Captures} {maySplit : Bool} {tokens : List Token} {s s' : State}

/-- A head that was put in is read as the head of a resource, whose items are read from there on. -/
theorem readCategory_reopened (hd : Follows mode d (Plain.level m)) (ho : Owns s owner parent level)
    (hm : 8 * s.ahead.length + 5 ≤ m) (r : Reopening)
    (hahead : Lookahead.significant newlines s.ahead = r.tokens tokens) :
    ∃ s₁ log maySplit make, Owns s₁ s.tree.size .resource (level + 1) ∧ s₁.ahead = tokens ∧
      KeepsHead log ∧ (maySplit = true → (parent == .chain) = false) ∧
      readCategory mode d .resource owner s = concluded .resource s
        (match readItems d s.tree.size log maySplit d.rounds false s₁ with
        | .ok items s' => .ok (items.map make) s'
        | .error e s' => .error e s') := by
  have hentered : (entered .resource owner s).ahead = r.tokens tokens :=
    (ahead_skip s newlines).trans hahead
  have hle := (extends_entered .resource ho).onward
  have hplain : Plain.inOrder full .resource Category.resource.rule.steps
      (entered .resource owner s).ahead = _ := hentered ▸ r.inOrder_head tokens
  obtain ⟨hfits, -⟩ := Plain.inOrder_sound Plain.full_sound _ hplain
  have hsteps : Loose s.tree.size (level + 1) {} (entered .resource owner s)
      (Plain.inOrder full .resource Category.resource.rule.steps _)
      (readSteps d _ Category.resource.rule.steps {} _) :=
    readSteps_full hd {} (owns_entered ho) (by decide) (Plain.one_lt_rank .resource)
      (Plain.startBelow_rule .resource) (by simp only [Plain.rank]; omega)
  rw [hplain] at hsteps
  rw [readCategory_apply]
  generalize readSteps d s.tree.size Category.resource.rule.steps {} _ = read at hsteps
  cases hsteps with
  | @some _ _ s₁ hsome =>
    have hskip : (s₁.skip newlines).ahead = r.opening :: tokens := by
      rw [ahead_skip, hsome.ahead, Lookahead.significant_cons (by simp [r.hopening, newlines])]
    have hbrace : (s₁.skip newlines).cursor.currentKind = some .leftBrace := by
      rw [currentKind_of_ahead hskip, r.hopening]
    obtain ⟨head, -, hhead, -, -, htype, -⟩ :=
      Plain.resource_numbers (entered .resource owner s).tree.size hfits r.headSchema
    obtain ⟨maySplit, make, hmay, hread⟩ := readResource_items mode d s.tree.size hhead hbrace
    have hextends := (extends_skip s₁ newlines).trans (extends_advance (s₁.skip newlines))
    refine ⟨(s₁.skip newlines).advance, _, maySplit, make,
      (owns_entered ho).of_extends (hsome.extends_.trans hextends), by simp [hskip],
      keepsHead_of_fits hfits hhead htype, fun htrue => ?_, ?_⟩
    · rw [← inChain_of_entered ho hsome.extends_]
      exact (hmay htrue).2
    · simp only [Bool.not_true, Bool.false_eq_true, if_false, beq_self_eq_true, if_true,
        List.nil_append, hread]

/-- Reading items from a title on remembers a failure there, unless the resource is split. -/
theorem readItems_failed (ho : Owns s owner .resource level) (hm : 8 * s.ahead.length + 6 ≤ n)
    (htitle : AtTitle s.ahead) {found : Option (List NodeId)}
    (h : readItems (descent mode n) owner log maySplit k false s = .ok found s')
    (hsplit : maySplit = true → found = none) : FailedIn s.ahead.length s' := by
  cases k with
  | zero => cases h
  | succ k =>
    obtain ⟨⟨t, rest, hahead, ht⟩, hpair, ⟨title, after⟩, hchoose⟩ := htitle
    have hnewline : t.kind ∉ newlines := fun h => by simp_all [newlines]
    have hbrace : (t.kind == .rightBrace) = false := by simp_all
    have hseparator : (t.kind == .semicolon || t.kind == .comma) = false := by simp_all
    have hcomment : (t.kind == .comment || t.kind == .blockComment) = false := by simp_all
    rw [readItems] at h
    simp only [bind_apply, modify_apply, get_apply] at h
    have hskip : (s.skip newlines).ahead = s.ahead := by
      rw [ahead_skip, hahead, Lookahead.significant_cons hnewline]
    replace ho := ho.of_extends (extends_skip s newlines)
    rw [← hskip] at hm hchoose hpair hahead ⊢
    generalize s.skip newlines = s at ho hm hchoose hpair hahead h ⊢
    have hchosen := choose_full (descent_follows mode n) ho
      (show [Category.title].all (keepsWhole .resource) = true from rfl) hm
    rw [hchoose] at hchosen
    rw [currentKind_of_ahead hahead] at h
    simp only [hbrace, hseparator, hcomment, hpair, Bool.false_and, Bool.false_eq_true, if_false,
      bind_apply] at h
    rcases hr : (descent mode n).choose [.title] owner s with ⟨_ | id, s₁⟩ | ⟨e, s₁⟩
    all_goals rw [hr] at h hchosen
    · cases hchosen
    · cases hchosen with
      | some hsome =>
        simp only [bind_apply] at h
        rcases hmore : readItems (descent mode n) owner log maySplit k true s₁ with
          ⟨more, s₂⟩ | ⟨e, s₂⟩
        all_goals
          rw [hmore] at h
          cases h
        refine (title_failed ho hr).of_notes (readItems_notes (descent_follows mode n)
          (descent_noting mode n) (ho.of_extends hsome.extends_) hmore fun hmay => ?_)
        simpa using hsplit hmay
    · cases hchosen

/-- A head that is put in takes up two tokens at least. -/
theorem length_reopened (r : Reopening)
    (hahead : Lookahead.significant newlines s.ahead = r.tokens tokens) :
    tokens.length + 2 ≤ s.ahead.length := by
  have hle := (significant_suffix newlines s.ahead).length_le
  rw [hahead] at hle
  simp only [Plain.Reopening.tokens, List.length_append, List.length_cons] at hle
  omega

/-- A resource whose head was put in: if it is found it leaves a part of the tokens after the head,
and unless it is split again it leaves a failure among them. -/
theorem resource_reopened (ho : Owns s owner parent level) (hm : 8 * s.ahead.length + 5 ≤ n)
    (r : Reopening) (hahead : Lookahead.significant newlines s.ahead = r.tokens tokens)
    (htitle : AtTitle tokens) {found : Option NodeId}
    (h : readCategory mode (descent mode n) .resource owner s = .ok found s') :
    (found.isSome = true → Leaves (parent != .chain) tokens s') ∧
      (found = none ∨ parent = .chain → FailedIn tokens.length s') := by
  have hd := descent_follows mode n
  have hlength := length_reopened r hahead
  obtain ⟨s₁, log, maySplit, make, ho₁, rfl, hlog, hmay, hread⟩ :=
    readCategory_reopened hd ho hm r hahead
  rw [hread] at h
  rcases hitems : readItems (descent mode n) s.tree.size log maySplit (descent mode n).rounds false
    s₁ with ⟨_ | ids, s₂⟩ | ⟨e, s₂⟩
  all_goals
    rw [hitems] at h
    cases h
  · have hfailed := readItems_failed ho₁ (by omega) htitle hitems fun _ => rfl
    exact ⟨by simp, fun _ => hfailed.returnTo _⟩
  · constructor
    · intro _
      obtain ⟨rest, hrest, hpending, hwhole⟩ :=
        readItems_leaves hd (fun _ => hlog) ho₁ (by omega) hitems
      refine Leaves.of_ahead ⟨rest, hrest, hpending, fun hchain => hwhole ?_⟩ (ahead_completed ..)
      cases maySplit with
      | false => rfl
      | true =>
        rw [bne, hmay rfl] at hchain
        cases hchain
    · rintro (hnone | rfl)
      · cases hnone
      · refine (readItems_failed ho₁ (by omega) htitle hitems fun htrue => ?_).of_notes
          (notes_completed ..)
        cases hmay htrue

/-- A member of a chain, if its head was put in. -/
theorem member_reopened (ho : Owns s owner .chain level) (hm : 8 * s.ahead.length + 6 ≤ n)
    (r : Reopening) (hahead : s.ahead = r.tokens tokens) (htitle : AtTitle tokens)
    {found : Option NodeId}
    (h : (descent mode n).choose Grammar.chainMembers owner s = .ok found s') :
    (found.isSome = true → s'.ahead <:+ tokens) ∧ FailedIn tokens.length s' := by
  cases n with
  | zero => cases h
  | succ n =>
    have hfix : Lookahead.significant newlines s.ahead = r.tokens tokens := by
      rw [hahead, r.significant_tokens _ (by decide)]
    have haccepts : Plain.accepts (Plain.level n) .resource .chain s.ahead = true :=
      hahead ▸ r.atResource_tokens tokens
    have hread : chooseFrom mode (descent mode n) Grammar.chainMembers owner s = _ :=
      chooseFrom_of_accepts (descent_follows mode n) (by decide) (by decide) ho haccepts _
    replace h := hread.symm.trans h
    obtain ⟨hleaves, hfailed⟩ := resource_reopened ho (by omega) r hfix htitle h
    refine ⟨fun hsome => ?_, hfailed (.inr rfl)⟩
    obtain ⟨rest, hrest, -, hwhole⟩ := hleaves hsome
    rwa [hwhole rfl]

/-- The first member of a chain that starts with a head that was put in is that resource. -/
theorem readMember_reopened (ho : Owns s owner .chain level) (hm : 8 * s.ahead.length + 6 ≤ n)
    (r : Reopening) (hahead : Lookahead.significant newlines s.ahead = r.tokens tokens)
    (htitle : AtTitle tokens) {found : Bool} {kept : Captures}
    (h : readSteps (descent mode n) owner [(Step.oneOf Grammar.chainMembers).named "members"] log
      s = .ok (found, kept) s') :
    (found = true → s'.ahead <:+ tokens) ∧ FailedIn tokens.length s' := by
  rw [readSteps_single _ owner log s rfl rfl] at h
  unfold Step.oneOf Step.named Step.withUsage at h
  have hskip := extends_skip s newlines
  have hle := hskip.onward
  simp only [readOnce, attempt_apply, atLead, Bool.false_eq_true, if_false, readNode,
    bind_apply] at h
  rcases hr : (descent mode n).choose Grammar.chainMembers owner (s.skip newlines) with
    ⟨member, s₁⟩ | ⟨e, s₁⟩
  · obtain ⟨hsuffix, hfailed⟩ := member_reopened (ho.of_extends hskip) (by omega) r
      ((ahead_skip s newlines).trans hahead) htitle hr
    rw [hr] at h
    cases member with
    | none =>
      cases h
      have hline := (onLine_skip s).of_same (choose_none (ho.of_extends hskip) hr)
      exact ⟨by simp, (hfailed.of_notes (notes_recordFailure hline)).returnTo _⟩
    | some id =>
      cases h
      exact ⟨fun _ => hsuffix rfl, hfailed⟩
  · rw [hr] at h
    cases h

/-- A chain whose first member has a head that was put in. -/
theorem chain_reopened (ho : Owns s owner parent level) (hm : 8 * s.ahead.length + 6 ≤ n)
    (r : Reopening) (hahead : Lookahead.significant newlines s.ahead = r.tokens tokens)
    (htitle : AtTitle tokens) {found : Option NodeId}
    (h : readCategory mode (descent mode n) .chain owner s = .ok found s') :
    (found.isSome = true → s'.ahead <:+ tokens) ∧ FailedIn tokens.length s' := by
  have hd := descent_follows mode n
  have ho₀ : Owns (entered .chain owner s) s.tree.size .chain (level + 1) := owns_entered ho
  have hle := (extends_entered .chain ho).onward
  have hentered :
      Lookahead.significant newlines (entered .chain owner s).ahead = r.tokens tokens := by
    rw [show (entered .chain owner s).ahead = Lookahead.significant newlines s.ahead from
      ahead_skip s newlines, hahead, r.significant_tokens _ (by decide)]
  rw [readCategory_apply, show Category.chain.rule.steps =
    [(Step.oneOf Grammar.chainMembers).named "members"] ++ Category.chain.rule.steps.tail from rfl,
    readSteps_append] at h
  rcases hmember : readSteps (descent mode n) s.tree.size
    [(Step.oneOf Grammar.chainMembers).named "members"] {} (entered .chain owner s) with
    ⟨⟨_ | _, log₁⟩, s₁⟩ | ⟨e, s₁⟩
  · obtain ⟨-, hfailed⟩ := readMember_reopened ho₀ (by omega) r hentered htitle hmember
    rw [hmember] at h
    cases h
    exact ⟨by simp, hfailed.returnTo _⟩
  · obtain ⟨hsuffix, hfailed⟩ := readMember_reopened ho₀ (by omega) r hentered htitle hmember
    have hfirst := readSteps_loose hd [(Step.oneOf Grammar.chainMembers).named "members"] {} ho₀
      (.inr rfl)
    rw [hmember] at h hfirst
    have ho₁ := ho₀.of_extends hfirst.extends
    have hkeep : stepsKeep .chain Category.chain.rule.steps.tail = true := rfl
    have hmore := readSteps_loose hd Category.chain.rule.steps.tail log₁ ho₁ (.inr hkeep)
    dsimp only at h
    rcases hr : readSteps (descent mode n) s.tree.size Category.chain.rule.steps.tail log₁ s₁ with
      ⟨⟨matched, log₂⟩, s₂⟩ | ⟨e, s₂⟩
    · have hnotes := readSteps_notes hd (descent_noting mode n) _ ho₁ hkeep rfl hr
      rw [hr] at h hmore
      obtain ⟨form?, hform⟩ : ∃ form?, (if !matched then pure none
          else if Category.chain == .resource then
            readResource mode (descent mode n) s.tree.size log₂
          else pure (Form.ofCaptures? .chain log₂) : Reader (Option Form)) s₂ = .ok form? s₂ := by
        cases matched <;> exact ⟨_, rfl⟩
      dsimp only at h
      rw [hform] at h
      have hfailed₂ := hfailed.of_notes hnotes
      cases form? with
      | none =>
        cases h
        exact ⟨by simp, hfailed₂.returnTo _⟩
      | some form =>
        cases h
        refine ⟨fun _ => ?_, hfailed₂.of_notes (notes_completed ..)⟩
        rw [ahead_completed]
        exact hmore.extends.suffix.trans (hsuffix rfl)
    · rw [hr] at h
      cases h
  · rw [hmember] at h
    cases h

/-- A statement that starts with a head that was put in is a chain or a resource. -/
theorem choose_reopened (mode : SplitMode) (ho : Owns s owner parent level)
    (hm : 8 * s.ahead.length + 5 ≤ n) (r : Reopening) (hahead : s.ahead = r.tokens tokens) :
    ∃ c, (c = .chain ∨ c = .resource) ∧ (descent mode (n + 1)).choose Grammar.statements owner s =
      readCategory mode (descent mode n) c owner s := by
  have hread := chooseFrom_recognised (descent_follows mode n) Grammar.statements ho hm
  have hstatements : Grammar.statements =
    Plain.Reopening.otherStatements ++ [.chain, .resource, .call] := rfl
  have hother : Plain.Reopening.otherStatements.find?
      (fun c => Plain.accepts full c parent s.ahead) = none := by
    rw [List.find?_eq_none, hahead]
    intro c hc
    simp [r.not_accepts tokens parent c hc]
  have hresource : Plain.accepts full .resource parent s.ahead = true :=
    hahead ▸ r.atResource_tokens tokens
  rw [Plain.recognised, hstatements, List.find?_append, hother, Option.none_or] at hread
  cases hchain : Plain.accepts full .chain parent s.ahead with
  | true =>
    simp only [List.find?_cons, hchain] at hread
    exact ⟨.chain, .inl rfl, hread⟩
  | false =>
    simp only [List.find?_cons, hchain, hresource] at hread
    exact ⟨.resource, .inr rfl, hread⟩

/-- A statement that starts with a head that was put in: if it is found it leaves a part of the
tokens after the head, and otherwise a failure among them is remembered. -/
theorem statement_reopened (ho : Owns s owner parent level) (hm : 8 * s.ahead.length + 6 ≤ n)
    (r : Reopening) (hahead : s.ahead = r.tokens tokens) (htitle : AtTitle tokens)
    {found : Option NodeId}
    (h : (descent mode (n + 1)).choose Grammar.statements owner s = .ok found s') :
    (found.isSome = true → Leaves true tokens s') ∧ (found = none → FailedIn tokens.length s') := by
  have hfix : Lookahead.significant newlines s.ahead = r.tokens tokens := by
    rw [hahead, r.significant_tokens _ (by decide)]
  obtain ⟨c, rfl | rfl, hread⟩ := choose_reopened mode ho (Nat.le_of_succ_le hm) r hahead
  all_goals rw [hread] at h
  · obtain ⟨hsuffix, hfailed⟩ := chain_reopened ho hm r hfix htitle h
    exact ⟨fun hsome => leaves_whole (hsuffix hsome), fun _ => hfailed⟩
  · obtain ⟨hleaves, hfailed⟩ := resource_reopened ho (by omega) r hfix htitle h
    refine ⟨fun hsome => ?_, fun hnone => hfailed (.inl hnone)⟩
    obtain ⟨rest, hrest, hpending, -⟩ := hleaves hsome
    exact ⟨rest, hrest, hpending, by simp⟩

end

end TidyManifest.Parse
