import TidyManifest.Proofs.Splitting.Split

/-!
# The layout of split phrases

A resource with several titles is written as one block for each title, and statements that are set
off are written in the same way: with a blank line between them.  So the text of statements does not
change when they are split (`phraseLines_split_of`), and neither does the text of a manifest
(`manifestText_split`).
-/

namespace TidyManifest

namespace Phrase

/-- Whether the phrase is an `else` or `elsif` branch. -/
def isElse (p : Phrase) : Bool :=
  match p.form with
  | .branch keyword _ _ => keyword.text != "if"
  | _ => false

/-- What decides about the blank lines around a phrase is the same for two phrases. -/
structure SameSpacing (p q : Phrase) : Prop where
  category : q.category = p.category
  outerSpacing : q.outerSpacing = p.outerSpacing
  isElse : q.isElse = p.isElse

theorem SameSpacing.refl (p : Phrase) : SameSpacing p p :=
  ⟨rfl, rfl, rfl⟩

/-- Other bodies do not change how a phrase is set off. -/
theorem sameSpacing_withBodies (p : Phrase) :
    SameSpacing p ⟨p.line, p.form.withBodies id split⟩ := by
  obtain ⟨line, form⟩ := p
  refine ⟨Form.category_withBodies _ _ form, ?_, ?_⟩
  · cases form with
    | chain members edges =>
      simp [Phrase.outerSpacing, Phrase.category, Form.category, Phrase.children, Form.withBodies,
        Form.map]
    | pending category => rfl
    | _ => rfl
  · cases form <;> rfl

/-- A resource is no branch. -/
theorem isElse_of_resource {p : Phrase} (h : p.category = .resource) : p.isElse = false := by
  obtain ⟨line, form⟩ := p
  cases form <;> first | rfl | cases h

/-- All resources are set off alike. -/
theorem sameSpacing_of_resource {p q : Phrase} (hp : p.category = .resource)
    (hq : q.category = .resource) : SameSpacing p q :=
  ⟨by rw [hp, hq], by simp [Phrase.outerSpacing, hp, hq],
    by rw [isElse_of_resource hp, isElse_of_resource hq]⟩

end Phrase

namespace Layout

/-- A statement of a given level. -/
abbrev statementAt (level : Int) (p : Phrase) : Placed :=
  ⟨false, level, p⟩

/-- The statements after a given one. -/
abbrev placedAfter (o : Options) (x : Placed) (xs : List Placed) : String :=
  following Placed.view o (fun y depth => y.text o depth) x xs

/-- A placed phrase is a branch as its phrase is. -/
theorem view_isElse (x : Placed) : Placed.view.isElse x = x.phrase.isElse := by
  obtain ⟨inChain, level, line, form⟩ := x
  cases form <;> rfl

theorem view_category (x : Placed) : Placed.view.category x = x.phrase.category :=
  Form.category_map _ _

section

variable (o : Options) {level : Int} {p q : Phrase}

/-- The gap in front of a statement depends on its spacing only. -/
theorem gap_next (h : Phrase.SameSpacing p q) (x : Placed) :
    gap Placed.view o x (statementAt level q) = gap Placed.view o x (statementAt level p) := by
  have houter : Placed.view.outerSpacing (statementAt level q) =
      Placed.view.outerSpacing (statementAt level p) := h.outerSpacing
  simp only [gap, view_isElse, h.isElse, houter]
  rfl

/-- The gap after a statement depends on its spacing only. -/
theorem gap_previous (h : Phrase.SameSpacing p q) (x : Placed) :
    gap Placed.view o (statementAt level q) x = gap Placed.view o (statementAt level p) x := by
  have houter : Placed.view.outerSpacing (statementAt level q) =
      Placed.view.outerSpacing (statementAt level p) := h.outerSpacing
  simp only [gap, View.isComment, view_category, h.category, houter]

/-- What follows a statement depends on its spacing only. -/
theorem placedAfter_previous (h : Phrase.SameSpacing p q) (xs : List Placed) :
    placedAfter o (statementAt level q) xs = placedAfter o (statementAt level p) xs := by
  cases xs with
  | nil => rfl
  | cons x xs => simp only [placedAfter, following, gap_previous o h]

/-- Between two resources there is a blank line. -/
theorem gap_resources (hp : p.category = .resource) (hq : q.category = .resource) :
    gap Placed.view o (statementAt level p) (statementAt level q) =
      "\n\n" ++ margin o level.toNat := by
  have houter : Placed.view.outerSpacing (statementAt level p) = true := by
    show p.outerSpacing = true
    simp [Phrase.outerSpacing, hp, Category.rule]
  simp only [gap, view_isElse, Phrase.isElse_of_resource hq, houter]
  simp [View.depth, Placed.view]

end

/-- The text of a statement, with whatever follows it, is that of the statements it is split
into. -/
def SplitsText (o : Options) (p : Phrase) : Prop :=
  ∀ (level : Int) (xs : List Placed), ∃ q qs, p.split = q :: qs ∧ Phrase.SameSpacing p q ∧
    (statementAt level p).text o level.toNat ++ placedAfter o (statementAt level p) xs =
      (statementAt level q).text o level.toNat ++
        placedAfter o (statementAt level q) (qs.map (statementAt level) ++ xs)

section

variable {o : Options} {level : Int} {ps : List Phrase}

/-- Statements that are split are written after each other as their parts are. -/
theorem placedAfter_split (h : ∀ p ∈ ps, SplitsText o p) (x : Placed) :
    placedAfter o x (ps.map (statementAt level)) =
      placedAfter o x ((ps.flatMap Phrase.split).map (statementAt level)) := by
  induction ps generalizing x with
  | nil => rfl
  | cons p ps ih =>
    obtain ⟨q, qs, hsplit, hspacing, htext⟩ :=
      h p (by simp) level ((ps.flatMap Phrase.split).map (statementAt level))
    have hrest := ih (fun p hp => h p (by simp [hp])) (statementAt level p)
    simp only [List.map_cons, List.flatMap_cons, hsplit, List.cons_append, List.map_append]
    simp only [placedAfter, following] at hrest htext ⊢
    rw [String.append_assoc, String.append_assoc, hrest, gap_next o hspacing]
    exact congrArg _ htext

/-- Statements have the same text when they are split. -/
theorem phraseLines_split_of (h : ∀ p ∈ ps, SplitsText o p) :
    phraseLines o (ps.map (statementAt level)) =
      phraseLines o ((ps.flatMap Phrase.split).map (statementAt level)) := by
  cases ps with
  | nil => rfl
  | cons p ps =>
    obtain ⟨q, qs, hsplit, -, htext⟩ :=
      h p (by simp) level ((ps.flatMap Phrase.split).map (statementAt level))
    have hrest : placedAfter o (statementAt level p) (ps.map (statementAt level)) =
        placedAfter o (statementAt level p) ((ps.flatMap Phrase.split).map (statementAt level)) :=
      placedAfter_split (fun p hp => h p (by simp [hp])) _
    simp only [List.map_cons, List.flatMap_cons, hsplit, List.cons_append, List.map_append,
      phraseLines]
    simp only [placedAfter] at hrest
    rw [String.append_assoc, String.append_assoc, hrest]
    exact congrArg _ htext

/-- A block with split statements is written as the block with their parts. -/
theorem block_split (h : ∀ p ∈ ps, SplitsText o p) (x y : Placed) (depth : Nat) :
    block Placed.view o (fun y depth => y.text o depth) x (ps.map (statementAt level)) depth =
      block Placed.view o (fun y depth => y.text o depth) y
        ((ps.flatMap Phrase.split).map (statementAt level)) depth := by
  have hempty : (ps.map (statementAt level)).isEmpty =
      ((ps.flatMap Phrase.split).map (statementAt level)).isEmpty := by
    cases ps with
    | nil => rfl
    | cons p ps => simp [Phrase.split_ne_nil]
  simp only [block, statementLines_placed, hempty, phraseLines_split_of h]

end

/-- The text of a phrase is the same when the statements inside it are split. -/
theorem text_withBodies {o : Options} {p : Phrase} (h : ∀ q ∈ p.children, SplitsText o q)
    (inChain : Bool) (level : Int) (depth : Nat) :
    (⟨inChain, level, p⟩ : Placed).text o depth =
      (⟨inChain, level, ⟨p.line, p.form.withBodies id Phrase.split⟩⟩ : Placed).text o depth := by
  obtain ⟨line, form⟩ := p
  by_cases hbody : form.category.hasBody = true
  · rw [Placed.text_eq, Placed.text_eq]
    have hstatements {body : List Phrase} (hsub : body ⊆ form.children) (x y : Placed) :
        block Placed.view o (fun y depth => y.text o depth) x
            (body.map (statementAt (level + 1))) depth =
          block Placed.view o (fun y depth => y.text o depth) y
            ((body.flatMap Phrase.split).map (statementAt (level + 1))) depth :=
      block_split (fun q hq => h q (hsub hq)) x y depth
    have hbelow {form : Form Phrase} (hform : form.category.hasBody = true) :
        Placed.below ⟨inChain, level, ⟨line, form⟩⟩ = statementAt (level + 1) := by
      have hchain : (form.category == .chain) = false := by
        cases hc : form.category <;> simp_all [Category.hasBody]
      funext q
      simp [Placed.below, Phrase.category, hchain]
    have hform (form' : Form Phrase) (hform' : form'.category.hasBody = true) :
        Placed.view.form ⟨inChain, level, ⟨line, form'⟩⟩ = form'.map (statementAt (level + 1)) := by
      show form'.map _ = _
      rw [hbelow hform']
    have hbodies : (form.withBodies id Phrase.split).category.hasBody = true := by
      rw [Form.category_withBodies, hbody]
    simp only [formText, hform form hbody, Phrase.line_mk, Phrase.form_mk, hform _ hbodies]
    cases form with
    | classBlock name params inherits body =>
      simp only [Form.withBodies, Form.map, List.map_id]
      exact congrArg _ (hstatements (show body ⊆ _ by simp [Form.children]) _ _)
    | defineBlock name params body =>
      simp only [Form.withBodies, Form.map, List.map_id]
      exact congrArg _ (hstatements (show body ⊆ _ by simp [Form.children]) _ _)
    | nodeBlock names inherits body =>
      simp only [Form.withBodies, Form.map]
      exact congrArg _ (hstatements (show body ⊆ _ by simp [Form.children]) _ _)
    | branch keyword condition body =>
      simp only [Form.withBodies, Form.map, Option.map_id, id_eq]
      exact congrArg _ (hstatements (show body ⊆ _ by simp [Form.children]) _ _)
    | caseBlock subject body =>
      simp only [Form.withBodies, Form.map, id_eq]
      exact congrArg _ (hstatements (show body ⊆ _ by simp [Form.children]) _ _)
    | caseOption values body =>
      simp only [Form.withBodies, Form.map, List.map_id]
      exact congrArg _ (hstatements (show body ⊆ _ by simp [Form.children]) _ _)
    | pending category => rfl
    | _ => cases hbody
  · rw [Bool.not_eq_true] at hbody
    rw [Phrase.form_mk, Form.withBodies_id hbody]
    rfl

/-- Joining with a separator puts it in front of every further text. -/
theorem intercalate_cons (separator text : String) (texts : List String) :
    separator.intercalate (text :: texts) =
      text ++ String.join (texts.map (separator ++ ·)) := by
  induction texts generalizing text with
  | nil => simp
  | cons text' texts ih =>
    rw [String.intercalate_cons_cons, ih]
    simp [String.append_assoc]

section

variable {o : Options} {level : Int} {line : Nat} {sigil : String} {token : Token}

/-- One title with its attributes, as a block of its own. -/
def sectionText (o : Options) (level : Int) (head : String) (s : Phrase × List Phrase) : String :=
  titleBlock Placed.view o (fun y depth => y.text o depth) level.toNat head
    (statementAt (level + 1) s.1, s.2.map (statementAt (level + 1)))

/-- Placing items does not move titles. -/
theorem sections_statementAt (items : List Phrase) :
    sections Placed.view (items.map (statementAt (level + 1))) =
      mapSections (statementAt (level + 1)) (sectionsBy Phrase.isTitle items) := by
  unfold sections
  induction items with
  | nil => rfl
  | cons item items ih =>
    have htitle : (Placed.view.category (statementAt (level + 1) item) == .title) = item.isTitle := by
      rw [view_category]
      rfl
    simp only [List.map_cons, sectionsBy, ih, htitle]
    split <;> simp [mapSections]

/-- What a resource with titles moves above its head. -/
def leadText (o : Options) (level : Int) (lead : List Placed) : String :=
  String.join ((lead.filter Placed.view.isComment).map fun x =>
    x.text o level.toNat ++ "\n" ++ margin o level.toNat)

/-- The text of a typed resource with titles, as a statement. -/
theorem text_titled {items lead : List Phrase} {first : Phrase × List Phrase}
    {rest : List (Phrase × List Phrase)}
    (h : sectionsBy Phrase.isTitle items = (lead, first :: rest)) :
    (statementAt level ⟨line, .resource sigil (.type token) none true items⟩).text o level.toNat =
      leadText o level (lead.map (statementAt (level + 1))) ++
        (titleBlock Placed.view o (fun y depth => y.text o depth) level.toNat
            (sigil ++ token.text ++ "") (statementAt (level + 1) first.1,
              (lead.map (statementAt (level + 1))).filter (fun x => !Placed.view.isComment x) ++
                first.2.map (statementAt (level + 1))) ++
          String.join (rest.map fun s =>
            "\n\n" ++ margin o level.toNat ++ sectionText o level (sigil ++ token.text ++ "") s)) := by
  have hform : Placed.view.form
      (statementAt level ⟨line, .resource sigil (.type token) none true items⟩) =
        .resource sigil (.type token) none true (items.map (statementAt (level + 1))) := rfl
  have hsections : sections Placed.view (items.map (statementAt (level + 1))) = _ :=
    sections_statementAt items
  rw [h] at hsections
  rw [Placed.text_eq, formText, hform]
  simp only [if_true]
  rw [resourceBody_titled _ _ _ _ _ _ hsections]
  refine congrArg _ ?_
  simp only [titledBody, Placed.view, Bool.false_and, Bool.false_eq_true, if_false]
  simp only [prepend, List.map_cons, intercalate_cons, List.map_map]
  rfl

/-- A title and what is below it are one section. -/
theorem sectionsBy_single {s : Phrase × List Phrase} (htitle : s.1.isTitle = true)
    (hmembers : ∀ x ∈ s.2, x.isTitle = false) :
    sectionsBy Phrase.isTitle (s.1 :: s.2) = ([], [s]) := by
  have h : Sectioned Phrase.isTitle [] [s] :=
    ⟨by simp, by simpa using htitle, by simpa using hmembers⟩
  simpa using sectionsBy_flatten h

/-- Resources with one title each, written after another resource. -/
theorem placedAfter_sections {p : Phrase} (hp : p.category = .resource)
    {rest : List (Phrase × List Phrase)} (htitles : ∀ s ∈ rest, s.1.isTitle = true)
    (hmembers : ∀ s ∈ rest, ∀ x ∈ s.2, x.isTitle = false) (xs : List Placed) :
    placedAfter o (statementAt level p)
        ((Phrase.resources line sigil token (rest.map fun s => s.1 :: s.2)).map (statementAt level) ++
          xs) =
      String.join (rest.map fun s =>
          "\n\n" ++ margin o level.toNat ++ sectionText o level (sigil ++ token.text ++ "") s) ++
        placedAfter o (statementAt level p) xs := by
  induction rest generalizing p with
  | nil => simp [Phrase.resources]
  | cons s rest ih =>
    let q : Phrase := ⟨line, .resource sigil (.type token) none true (s.1 :: s.2)⟩
    have hq : q.category = .resource := rfl
    have htext : (statementAt level q).text o level.toNat =
        sectionText o level (sigil ++ token.text ++ "") s := by
      rw [text_titled (sectionsBy_single (htitles s (by simp)) (hmembers s (by simp)))]
      simp [leadText, sectionText]
    have hspacing := Phrase.sameSpacing_of_resource hp hq
    have hrest := ih hq (fun s hs => htitles s (by simp [hs])) fun s hs => hmembers s (by simp [hs])
    rw [placedAfter_previous o hspacing xs] at hrest
    simp only [placedAfter, Phrase.resources, List.map_cons, List.cons_append, following] at hrest ⊢
    rw [gap_resources o hp hq, hrest]
    simp only [View.depth, Placed.view] at htext ⊢
    rw [htext]
    simp [String.append_assoc]

/-- A resource is written as the resources it is split into are. -/
theorem splitsText_resource (o : Options) (line : Nat) (sigil : String) (token : Token)
    (items : List Phrase) :
    SplitsText o ⟨line, .resource sigil (.type token) none true items⟩ := by
  intro level xs
  have hsectioned := sectioned_sectionsBy Phrase.isTitle items
  have hflatten := flatten_sectionsBy Phrase.isTitle items
  rw [Phrase.split_resource]
  rcases hs : sectionsBy Phrase.isTitle items with ⟨lead, _ | ⟨first, rest⟩⟩
  · rw [hs] at hflatten
    obtain rfl : lead = items := by simpa using hflatten
    exact ⟨_, _, rfl, .refl _, rfl⟩
  · rw [hs] at hsectioned
    let q : Phrase := ⟨line, .resource sigil (.type token) none true (lead ++ first.1 :: first.2)⟩
    refine ⟨q, _, rfl, Phrase.sameSpacing_of_resource rfl rfl, ?_⟩
    have hfirst : sectionsBy Phrase.isTitle (lead ++ first.1 :: first.2) = (lead, [first]) := by
      have h : Sectioned Phrase.isTitle lead [first] :=
        ⟨hsectioned.lead, fun s hs => hsectioned.titles s (by simp_all),
          fun s hs => hsectioned.members s (by simp_all)⟩
      simpa using sectionsBy_flatten h
    have hafter : placedAfter o (statementAt level q)
        ((Phrase.resources line sigil token (rest.map fun s => s.1 :: s.2)).map
          (statementAt level) ++ xs) = _ :=
      placedAfter_sections rfl (fun s hs => hsectioned.titles s (by simp [hs]))
        (fun s hs => hsectioned.members s (by simp [hs])) xs
    have hspacing : Phrase.SameSpacing ⟨line, .resource sigil (.type token) none true items⟩ q :=
      Phrase.sameSpacing_of_resource rfl rfl
    simp only [Phrase.resources] at hafter
    rw [hafter, text_titled hs, text_titled hfirst, placedAfter_previous o hspacing xs]
    simp [String.append_assoc]

end

/-- Every statement is written as the statements it is split into are. -/
theorem splitsText (o : Options) (p : Phrase) : SplitsText o p := by
  induction p using Phrase.induct with
  | step p ih =>
    by_cases h : ∃ sigil token items, p.form = .resource sigil (.type token) none true items
    · obtain ⟨sigil, token, items, hform⟩ := h
      rw [← Phrase.mk_line_form p, hform]
      exact splitsText_resource o p.line sigil token items
    · intro level xs
      have hspacing := Phrase.sameSpacing_withBodies p
      refine ⟨_, _, Phrase.split_other fun sigil token items hform => h ⟨sigil, token, items, hform⟩,
        hspacing, ?_⟩
      rw [text_withBodies ih, List.map_nil, List.nil_append, placedAfter_previous o hspacing]

/-- The text of a manifest is the same when its statements are split. -/
theorem manifestText_split (o : Options) (ps : List Phrase) :
    manifestText o (ps.flatMap Phrase.split) = manifestText o ps := by
  have hlines : phraseLines o (ps.map (statementAt 0)) =
      phraseLines o ((ps.flatMap Phrase.split).map (statementAt 0)) :=
    phraseLines_split_of fun p _ => splitsText o p
  simp only [manifestText]
  rw [← hlines]

/-- The canonical text of a tree of phrases is the same when they are split. -/
theorem render_split (o : Options) (ps : List Phrase) :
    render (Tree.ofPhrases (ps.flatMap Phrase.split)) o = render (Tree.ofPhrases ps) o := by
  have haligned : (ps.flatMap Phrase.split).map Phrase.aligned =
      (ps.map Phrase.aligned).flatMap Phrase.split := by
    rw [List.map_flatMap, List.flatMap_map]
    simp only [Phrase.split_aligned]
  rw [render_ofPhrases, render_ofPhrases]
  split
  · rw [haligned, manifestText_split]
  · rw [manifestText_split]

end Layout

end TidyManifest
