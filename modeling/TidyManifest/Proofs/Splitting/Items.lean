import TidyManifest.Proofs.Agree.Parse
import TidyManifest.Proofs.Splitting.Reopened
import TidyManifest.Proofs.Splitting.Split

/-!
# Reading items up to the second title

Where a resource may be split, its items are read up to the second title.  What is read then are
the items in front of that title, and the tokens ahead are the head of a resource and the title.
`Cut` says so next to the plain reading, which reads all items at once.
-/

namespace TidyManifest

namespace Plain

open Parse Grammar

/-- Reading at full depth agrees with itself, so it is settled everywhere. -/
theorem full_agrees (n : Nat) : Agrees n full full := by
  have h := agrees_full n
  refine ⟨fun hpos hn => ?_, fun hn => ?_, fun hn => ?_⟩
  · obtain ⟨heq, hne⟩ := h.choose hpos hn
    exact ⟨rfl, heq ▸ hne⟩
  · obtain ⟨heq, hne⟩ := h.statements hn
    exact ⟨rfl, heq ▸ hne⟩
  · exact ⟨(h.rounds hn).2, (h.rounds hn).2⟩

/-- The items of a resource, with enough levels and rounds. -/
def allItems (tokens : List Token) : Outcome (List Phrase) :=
  items full (tokens.length + 1) tokens

/-- Enough rounds read all items. -/
theorem items_eq_allItems {k : Nat} {tokens : List Token} (hk : tokens.length < k) :
    items full k tokens = allItems tokens :=
  (items_settled (full_agrees (8 * tokens.length + 6)) full_sound (Nat.le_refl _) hk
    (Nat.lt_succ_self _)).1

/-- The category of the item that starts at a token which is no separator and no brace. -/
def itemCategories (t : Token) (rest : List Token) : List Category :=
  if t.kind == .comment || t.kind == .blockComment then comments
  else if atPair (t :: rest) then [.pair]
  else [.title]

/-- What a reading goes on with matters only after what it reads. -/
theorem andThen_congr {α β : Type} {o : Outcome α} {next next' : α → List Token → Outcome β}
    (h : ∀ a rest, o = .ok (some (a, rest)) → next a rest = next' a rest) :
    andThen o next = andThen o next' := by
  rcases o with _ | _ | ⟨a, rest⟩
  · rfl
  · rfl
  · exact h a rest rfl

/-- One item, and those after it. -/
def withItem (item : Outcome Phrase) : Outcome (List Phrase) :=
  andThen item fun item rest =>
    andThen (allItems rest) fun more rest => .ok (some (item :: more, rest))

/-- All items are read one by one, up to the closing brace. -/
theorem allItems_eq (tokens : List Token) :
    allItems tokens =
      match Lookahead.significant newlines tokens with
      | [] => .error .ended
      | t :: rest =>
        if t.kind == .rightBrace then .ok (some ([], rest))
        else if t.kind == .semicolon || t.kind == .comma then allItems rest
        else withItem (full.choose (itemCategories t rest) .resource (t :: rest)) := by
  have hle := length_significant_le newlines tokens
  rw [allItems, items]
  cases hrest : Lookahead.significant newlines tokens with
  | nil => rfl
  | cons t rest =>
    rw [hrest, List.length_cons] at hle
    dsimp only
    split
    · rfl
    split
    · exact items_eq_allItems (by omega)
    · refine andThen_congr fun item rest' hitem => ?_
      have hlt := full_sound.progress hitem
      rw [List.length_cons] at hlt
      rw [items_eq_allItems (by omega)]

/-- Newlines in front of items make no difference. -/
theorem allItems_significant (tokens : List Token) :
    allItems (Lookahead.significant newlines tokens) = allItems tokens := by
  rw [allItems_eq, Lookahead.significant_significant, ← allItems_eq]

/-- Every entry of a trace takes up a token at least. -/
theorem Spells.length_le {owner : Category} {trace : Trace Phrase} {w : List Token}
    (h : Spells (.trace owner trace) w) : trace.length ≤ w.length := by
  generalize hr : Reading.trace owner trace = r at h
  induction h generalizing trace with
  | done => cases hr; simp
  | newline _ _ ih => cases hr; exact Nat.le_succ_of_le (ih rfl)
  | token _ ih => cases hr; simpa using ih rfl
  | node phrase _ _ ih =>
    cases hr
    have hpos : 0 < _ := phrase.length_pos
    have hmore := ih rfl
    simp only [List.length_cons, List.length_append]
    omega
  | block _ _ _ _ _ ih =>
    cases hr
    have hmore := ih rfl
    simp only [List.length_cons, List.length_append]
    omega
  | _ => cases hr

/-- A title takes up two tokens at least, and one of them is a colon. -/
theorem Spells.title {parent : Category} {p : Phrase} {w : List Token}
    (h : Spells (.phrase parent p) w) (htitle : p.category = .title) :
    2 ≤ w.length ∧ ∃ t ∈ w, t.kind = .colon := by
  cases h with
  | rule schema _ spelled =>
    obtain rfl := schema.category_eq.symm.trans htitle
    have hlength := spelled.length_le
    cases schema with
    | @title titles trace colon htitles hcolon =>
      refine ⟨?_, colon, spelled.mem_of_token (by simp [word]), hcolon⟩
      cases htitles
      simp only [List.length_append, List.length_cons, List.length_nil] at hlength
      omega
  | collected => cases htitle
  | resource => cases htitle

/-- A title takes up two tokens at least, an expression and the colon. -/
theorem length_title {parent : Category} {tokens rest : List Token} {p : Phrase}
    (h : full.choose [.title] parent tokens = .ok (some (p, rest))) :
    p.isTitle = true ∧ rest.length + 2 ≤ tokens.length := by
  obtain ⟨hcategory, w, rfl, hw⟩ := full_sound.choose h
  have htitle : p.category = .title := by simpa using hcategory
  obtain ⟨hlength, -⟩ := hw.title htitle
  rw [List.length_append]
  exact ⟨by simp [Phrase.isTitle, htitle], by omega⟩

/-- The first title counts for the split that it makes possible. -/
theorem first_title {parent : Category} {tokens rest : List Token} {p : Phrase}
    (h : full.choose [.title] parent tokens = .ok (some (p, rest))) :
    p.isTitle.toNat + false.toNat = true.toNat ∧
      rest.length + 2 * true.toNat ≤ tokens.length + 2 * false.toNat := by
  obtain ⟨htitle, hlength⟩ := length_title h
  rw [htitle]
  exact ⟨rfl, hlength⟩

/-- What is no title does not count. -/
theorem not_title {categories : List Category} {parent : Category} {tokens rest : List Token}
    {p : Phrase} (h : full.choose categories parent tokens = .ok (some (p, rest)))
    (htitle : Category.title ∉ categories) (seen : Bool) :
    p.isTitle.toNat + seen.toNat = seen.toNat ∧
      rest.length + 2 * seen.toNat ≤ tokens.length + 2 * seen.toNat := by
  have hcategory := (full_sound.choose h).1
  have hlt := full_sound.progress h
  have hp : p.isTitle = false := by
    rw [Phrase.isTitle, beq_eq_false_iff_ne]
    rintro heq
    exact htitle (heq ▸ hcategory)
  rw [hp]
  exact ⟨Nat.zero_add _, by omega⟩

end Plain

namespace Parse

open Plain (Fault Outcome full allItems withItem)

/-- A later state in which phrases were added below an owner.  Tokens may have been put in. -/
structure Grown (owner : NodeId) (level : Int) (s : State) (ps : List Phrase) (rest : List Token)
    (s' : State) : Prop where
  ahead : s'.ahead = rest
  tree : s'.tree = s.tree.grow (Phrase.forest s.tree.size owner level ps)
  trials : s'.trials = s.trials
  onward : s.cursor.position ≤ s'.cursor.position

section

variable {owner owner' : NodeId} {level level' : Int} {category : Category} {s s' s'' : State}
  {ps qs : List Phrase} {middle rest : List Token}

/-- An extension never moves the cursor back. -/
theorem Extends.position_le (h : Extends s s') : s.cursor.position ≤ s'.cursor.position := by
  have hlength := congrArg List.length h.tokens
  have hle := h.onward
  rw [Cursor.length_toList, Cursor.length_toList] at hlength
  simp only [State.ahead] at hle
  omega

theorem Advanced.grown (h : Advanced owner level s ps rest s') : Grown owner level s ps rest s' :=
  ⟨h.ahead, h.tree, h.extends_.trials, h.extends_.position_le⟩

/-- The tree has grown by the nodes of what was added. -/
theorem Grown.size (h : Grown owner level s ps rest s') :
    s'.tree.size = s.tree.size + Phrase.total ps := by
  simp [h.tree]

/-- What has grown in two steps has grown together. -/
theorem Grown.trans (h : Grown owner level s ps middle s')
    (h' : Grown owner level s' qs rest s'') : Grown owner level s (ps ++ qs) rest s'' :=
  ⟨h'.ahead, by rw [h'.tree, h.size, h.tree]; simp, h'.trials.trans h.trials,
    Nat.le_trans h.onward h'.onward⟩

/-- Tokens that were skipped before do not matter. -/
theorem Grown.of_extends (h : Extends s s') (htree : s'.tree = s.tree)
    (h' : Grown owner level s' ps rest s'') : Grown owner level s ps rest s'' :=
  ⟨h'.ahead, by rw [h'.tree, htree], h'.trials.trans h.trials, Nat.le_trans h.position_le h'.onward⟩

/-- An owner stays the owner while the tree grows. -/
theorem Owns.of_grow {entries : List Node} (h : Owns s owner category level)
    (htree : s'.tree = s.tree.grow entries) : Owns s' owner category level := by
  have hnode := Tree.node_grow_lt h.lt entries
  refine ⟨?_, ?_, by rw [htree, hnode]; exact h.level⟩
  · rw [htree, Tree.size_grow]
    exact Nat.lt_add_right _ h.lt
  · rw [htree, Tree.category, hnode]
    exact h.category

end

/-- What reading the items of a resource gives where it may be split, next to the plain outcome.
`seen` says whether a title has been read already. -/
inductive Cut (owner : NodeId) (level : Int) (sigils : List Token) (type : Token) (seen : Bool)
    (s : State) : Outcome (List Phrase) → EStateM.Result ParseError State (Option (List NodeId)) → Prop
  | error {f : Fault} {e : ParseError} {s' : State} (he : Explains f e) :
      Cut owner level sigils type seen s (.error f) (.error e s')
  | none {s' : State} (h : Extends s s') :
      Cut owner level sigils type seen s (.ok none) (.ok none s')
  | whole {ps : List Phrase} {rest : List Token} {s' : State}
      (h : Grown owner level s ps rest s')
      (htitles : ps.countP Phrase.isTitle + seen.toNat ≤ 1) :
      Cut owner level sigils type seen s (.ok (some (ps, rest)))
        (.ok (some (Phrase.starts s.tree.size ps)) s')
  | cut {ps : List Phrase} {tail : List Token} {s' : State} {r : Plain.Reopening} {newline : Token}
      (hsigils : r.sigils = sigils) (htype : r.type = type) (hnewline : newline.kind = .newline)
      (h : Grown owner level s ps (newline :: r.tokens tail) s')
      (htitles : ps.countP Phrase.isTitle + seen.toNat = 1)
      (hlength : tail.length + 2 ≤ s.ahead.length + 2 * seen.toNat)
      (htail : ∀ more rest, allItems tail = .ok (some (more, rest)) →
        ∃ title others, more = title :: others ∧ title.isTitle = true) :
      Cut owner level sigils type seen s
        (Plain.andThen (allItems tail) fun more rest => .ok (some (ps ++ more, rest)))
        (.ok (some (Phrase.starts s.tree.size ps)) s')

section

variable {m : Nat} {d : Descent} {owner : NodeId} {level : Int} {sigils : List Token} {type : Token}
  {seen : Bool} {s s' : State}

/-- A body that is cut further on is cut from here, if the tree is the same. -/
theorem Cut.of_extends {o : Outcome (List Phrase)}
    {r : EStateM.Result ParseError State (Option (List NodeId))} (h : Extends s s')
    (htree : s'.tree = s.tree) (hc : Cut owner level sigils type seen s' o r) :
    Cut owner level sigils type seen s o r := by
  cases hc with
  | error he => exact .error he
  | none h' => exact .none (h.trans h')
  | whole h' htitles =>
    rw [htree]
    exact .whole (h'.of_extends h htree) htitles
  | cut hsigils htype hnewline h' htitles hlength htail =>
    rw [htree]
    have := h.onward
    exact .cut hsigils htype hnewline (h'.of_extends h htree) htitles (by omega) htail

/-- Choosing an item, next to the plain reading with enough levels. -/
theorem choose_full {mode : SplitMode} (hd : Follows mode d (Plain.level m)) {category : Category}
    {categories : List Category} (ho : Owns s owner category level)
    (hk : categories.all (keepsWhole category) = true) (hm : 8 * s.ahead.length + 6 ≤ m) :
    Chosen owner level s (full.choose categories category s.ahead) (d.choose categories owner s) := by
  have hchosen : Chosen owner level s ((Plain.level m).choose categories category s.ahead)
      (d.choose categories owner s) := hd.choose ho (.inr hk)
  have hfull : Plain.Settled ((Plain.level m).choose categories category s.ahead)
      (full.choose categories category s.ahead) := by
    refine (Plain.agrees_full m).choose (by omega) fun c _ => ?_
    have := Plain.rank_lt c
    omega
  rwa [hfull.1] at hchosen

/-- One item and those after it, where the resource may be split. -/
theorem item_cut (hd : Follows .splice d (Plain.level m)) {categories : List Category}
    {seen' : Bool} {more : Reader (Option (List NodeId))}
    (ho : Owns s owner .resource level) (hk : categories.all (keepsWhole .resource) = true)
    (hm : 8 * s.ahead.length + 6 ≤ m)
    (hseen : ∀ item rest, full.choose categories .resource s.ahead = .ok (some (item, rest)) →
      item.isTitle.toNat + seen.toNat = seen'.toNat ∧
        rest.length + 2 * seen'.toNat ≤ s.ahead.length + 2 * seen.toNat)
    (hmore : ∀ {s'}, Owns s' owner .resource level → s'.ahead.length < s.ahead.length →
      Cut owner level sigils type seen' s' (allItems s'.ahead) (more s')) :
    Cut owner level sigils type seen s (withItem (full.choose categories .resource s.ahead))
      ((do
        match ← d.choose categories owner with
        | none => return none
        | some item =>
          let rest ← more
          return rest.map (item :: ·) : Reader (Option (List NodeId))) s) := by
  have h := choose_full hd ho hk hm
  have hlt {item : Phrase} {rest : List Token}
      (hitem : full.choose categories .resource s.ahead = .ok (some (item, rest))) :=
    Plain.full_sound.progress hitem
  simp only [bind_apply, withItem]
  generalize d.choose categories owner s = r at h
  generalize full.choose categories .resource s.ahead = o at h hseen hlt
  cases h with
  | error h he => exact .error he
  | none h => exact .none h.extends
  | @some item rest s' h =>
    obtain ⟨htitle, hlength⟩ := hseen item rest rfl
    have h' := hmore (ho.of_extends h.extends_) (by rw [h.ahead]; exact hlt rfl)
    have hahead := h.ahead
    simp only [Plain.andThen_some, bind_apply]
    rw [hahead] at h'
    have hstarts (ps : List Phrase) : s.tree.size :: Phrase.starts s'.tree.size ps =
        Phrase.starts s.tree.size (item :: ps) := by
      simp [Phrase.starts, h.size]
    have hcount (ps : List Phrase) : (item :: ps).countP Phrase.isTitle =
        ps.countP Phrase.isTitle + item.isTitle.toNat := by
      rw [List.countP_cons]
      cases item.isTitle <;> rfl
    generalize more s' = r at h'
    generalize allItems rest = o at h'
    cases h' with
    | error he => exact .error he
    | none h' => exact .none (h.extends_.trans h')
    | @whole ps rest s'' h' htitles =>
      simp only [Plain.andThen_some, Option.map_some, hstarts]
      exact .whole (h.grown.trans h') (by rw [hcount]; omega)
    | @cut ps tail s'' r newline hsigils htype hnewline h' htitles htail hfirst =>
      have hall : (Plain.andThen (Plain.andThen (allItems tail) fun more rest =>
            .ok (some (ps ++ more, rest))) fun more rest => .ok (some (item :: more, rest))) =
          Plain.andThen (allItems tail) fun more rest => .ok (some (item :: ps ++ more, rest)) := by
        rcases allItems tail with _ | _ | _ <;> rfl
      rw [hall]
      simp only [Option.map_some, hstarts]
      rw [hahead] at htail
      exact .cut hsigils htype hnewline (h.grown.trans h') (by rw [hcount]; omega)
        (by omega) hfirst

/-- At a closing brace the items end. -/
theorem readItems_closing (d : Descent) (owner : NodeId) (level : Int) (seen : Bool) (log : Captures)
    (n : Nat) {t : Token} {rest : List Token} (hahead : s.ahead = t :: rest) (ht : t.kind = .rightBrace) :
    ∃ s', readItems d owner log true (n + 1) seen s = .ok (some []) s' ∧
      Grown owner level s [] rest s' ∧ Extends s s' := by
  have hskip := extends_skip s Grammar.newlines
  have hadvance := hskip.trans (extends_advance (s.skip Grammar.newlines))
  have hahead' : (s.skip Grammar.newlines).ahead = t :: rest := by
    rw [ahead_skip, hahead, Lookahead.significant_cons (by simp [ht, Grammar.newlines])]
  refine ⟨(s.skip Grammar.newlines).advance, ?_, ⟨by simp [hahead'],
    by simp [State.advance, State.skip], rfl, hadvance.position_le⟩, hadvance⟩
  rw [readItems]
  simp only [bind_apply, modify_apply, get_apply, currentKind_of_ahead hahead', ht]
  rfl

/-- In front of a second title the resource is closed and its head is put in again. -/
theorem title_cut (hd : Follows .splice d (Plain.level m)) {log : Captures}
    (hsigils : log.tokens "sigil" = sigils) (htype : log.token? "type" = some type)
    (hkinds : ∀ s ∈ sigils, s.kind = .atSign) (hkind : type.kind ∈ Grammar.resourceTypes)
    (n : Nat) (ho : Owns s owner .resource level) (hm : 8 * s.ahead.length + 6 ≤ m)
    (hall : allItems s.ahead = withItem (full.choose [.title] .resource s.ahead)) :
    Cut owner level sigils type true s (allItems s.ahead)
      ((do
        match ← d.choose [.title] owner with
        | none => return none
        | some _ =>
          modify (·.returnTo s.mark)
          modify fun s => { s with cursor := s.cursor.insert (splitTokens log s.line) }
          readItems d owner log true (n + 1) true : Reader (Option (List NodeId))) s) := by
  have h := choose_full hd ho (show [Category.title].all (keepsWhole .resource) = true from rfl) hm
  simp only [bind_apply, hall]
  have htitle {p : Phrase} {rest : List Token}
      (hp : full.choose [.title] .resource s.ahead = .ok (some (p, rest))) :=
    (Plain.length_title hp).1
  generalize d.choose [.title] owner s = r at h
  generalize full.choose [.title] .resource s.ahead = o at h hall htitle
  cases h with
  | error _ he => exact .error he
  | none h => exact .none h.extends
  | @some p rest s₁ h =>
    simp only [bind_apply, modify_apply]
    have hback := h.extends_.returnTo
    generalize s₁.returnTo s.mark = s₂ at hback
    let opened : State := { s₂ with cursor := s₂.cursor.insert (splitTokens log s₂.line) }
    let r : Plain.Reopening :=
      ⟨sigils, type, ⟨.leftBrace, "\x7b", s₂.line⟩, hkinds, hkind, rfl⟩
    have hopened : opened.ahead = ⟨.rightBrace, "\x7d", s₂.line⟩ :: ⟨.newline, "\n", s₂.line⟩ ::
        r.tokens s.ahead := by
      rw [← hback.ahead]
      simp [opened, State.ahead, Cursor.insert, splitTokens, hsigils, htype, Plain.Reopening.tokens, r]
    obtain ⟨s₃, hs₃, hgrown, -⟩ := readItems_closing d owner level true log n hopened rfl
    have hgrown' : Grown owner level s [] (⟨.newline, "\n", s₂.line⟩ :: r.tokens s.ahead) s₃ := by
      refine ⟨hgrown.ahead, by rw [hgrown.tree, ← hback.tree], hgrown.trials.trans hback.trials, ?_⟩
      rw [← hback.cursor]
      exact hgrown.onward
    have hcut : Cut owner level sigils type true s _ (.ok (some []) s₃) :=
      .cut rfl rfl rfl hgrown' rfl (Nat.le_refl _) fun more rest' hmore => by
        rw [hall] at hmore
        simp only [withItem, Plain.andThen_some] at hmore
        rcases hothers : allItems rest with _ | _ | ⟨others, rest''⟩
        all_goals
          rw [hothers] at hmore
          cases hmore
        exact ⟨p, others, rfl, htitle rfl⟩
    have hsame : (Plain.andThen (allItems s.ahead) fun more rest => .ok (some ([] ++ more, rest))) =
        allItems s.ahead := by
      rcases allItems s.ahead with _ | _ | _ <;> rfl
    rw [hsame, hall] at hcut
    rw [hs₃]
    exact hcut

/-- Reading the items of a resource where it may be split. -/
theorem readItems_cut (hd : Follows .splice d (Plain.level m)) {log : Captures}
    (hsigils : log.tokens "sigil" = sigils) (htype : log.token? "type" = some type)
    (hkinds : ∀ s ∈ sigils, s.kind = .atSign) (hkind : type.kind ∈ Grammar.resourceTypes)
    (k : Nat) (ho : Owns s owner .resource level) (hm : 8 * s.ahead.length + 6 ≤ m)
    (hk : s.ahead.length < k) :
    Cut owner level sigils type seen s (allItems s.ahead) (readItems d owner log true k seen s) := by
  induction k generalizing s seen with
  | zero => omega
  | succ k ih =>
    rw [← Plain.allItems_significant, readItems]
    simp only [bind_apply, modify_apply, get_apply, ← ahead_skip]
    have hskip := extends_skip s Grammar.newlines
    apply Cut.of_extends hskip rfl
    have hle := hskip.onward
    have hfix : Lookahead.significant Grammar.newlines (s.skip Grammar.newlines).ahead =
        (s.skip Grammar.newlines).ahead := by
      rw [ahead_skip, Lookahead.significant_significant]
    replace ho := ho.of_extends hskip
    generalize s.skip Grammar.newlines = s' at ho hle hfix ⊢
    cases hahead : s'.ahead with
    | nil =>
      rw [currentKind_of_end hahead]
      exact .error rfl
    | cons t rest =>
      have hall := Plain.allItems_eq s'.ahead
      rw [hfix, hahead] at hall
      rw [hahead, List.length_cons] at hle
      rw [currentKind_of_ahead hahead]
      dsimp only at hall ⊢
      by_cases hbrace : (t.kind == .rightBrace) = true
      · rw [hall]
        simp only [hbrace, if_true]
        exact .whole ⟨by simp [hahead], by simp [State.advance], rfl,
          (extends_advance _).position_le⟩ (by cases seen <;> simp)
      by_cases hseparator : (t.kind == .semicolon || t.kind == .comma) = true
      · rw [hall]
        simp only [hbrace, hseparator, Bool.false_eq_true, if_true, if_false]
        have hadvance := extends_advance s'
        have hahead' : s'.advance.ahead = rest := by simp [hahead]
        have h : Cut owner level sigils type seen _ _ _ :=
          ih (ho.of_extends hadvance) (by rw [hahead']; omega) (by rw [hahead']; omega)
        rw [hahead'] at h
        exact h.of_extends hadvance rfl
      have hcategories : allItems (t :: rest) =
          withItem (full.choose (Plain.itemCategories t rest) .resource (t :: rest)) := by
        simpa only [hbrace, hseparator, Bool.false_eq_true, if_false] using hall
      have hm' : 8 * s'.ahead.length + 6 ≤ m := by
        rw [hahead, List.length_cons]
        omega
      have next {seen' : Bool} {s'' : State} (ho : Owns s'' owner .resource level)
          (hlt : s''.ahead.length < s'.ahead.length) :
          Cut owner level sigils type seen' s'' (allItems s''.ahead)
            (readItems d owner log true k seen' s'') := by
        rw [hahead, List.length_cons] at hlt
        exact ih ho (by omega) (by omega)
      -- comments and pairs leave open whether a title was read
      have other {categories : List Category} (hk : categories.all (keepsWhole .resource) = true)
          (htitle : Category.title ∉ categories) :=
        item_cut hd ho hk hm' (fun item rest hitem => Plain.not_title hitem htitle seen) next
      have title : Cut owner level sigils type false s' _ _ :=
        item_cut hd ho (show [Category.title].all _ = true from rfl) hm'
          (fun item rest hitem => Plain.first_title hitem) next
      have second := title_cut hd hsigils htype hkinds hkind (k - 1) ho hm'
      rw [Nat.sub_add_cancel (by omega)] at second
      rw [hahead] at other title second
      simp only [hbrace, hseparator, Bool.false_eq_true, if_false]
      rw [hcategories] at second ⊢
      unfold Plain.itemCategories at second ⊢
      by_cases hcomment : (t.kind == .comment || t.kind == .blockComment) = true
      · simp only [hcomment, if_true]
        exact other (show Grammar.comments.all _ = true from rfl) (by decide)
      by_cases hpair : atPair (t :: rest) = true
      · simp only [hcomment, Bool.false_eq_true, if_false, hpair, if_true]
        exact other (show [Category.pair].all _ = true from rfl) (by decide)
      simp only [hcomment, hpair, Bool.and_true, Bool.false_eq_true, if_false] at second ⊢
      cases seen with
      | true => exact second trivial
      | false => exact title

end

end Parse

end TidyManifest
