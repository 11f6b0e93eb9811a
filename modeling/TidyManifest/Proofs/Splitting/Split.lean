import TidyManifest.Proofs.Layout.Alignment

/-!
# Resources with one title each

A resource with several titles declares several resources.  `Phrase.split` gives them, one for each
title: what stands in front of the first title goes with it, and statements inside blocks are split
in their places.  References with attributes, collectors and the members of a chain stay whole.

Splitting and aligning can be done in any order (`split_aligned`), because the pairs that share a
column are those below one title.
-/

namespace TidyManifest

open Layout

namespace Layout

variable {ι : Type} {starts : ι → Bool}

/-- Sections as they come from cutting a list: each starts with an item that starts a section, and
no other item does. -/
structure Sectioned (starts : ι → Bool) (lead : List ι) (sections : List (ι × List ι)) : Prop where
  lead : ∀ x ∈ lead, starts x = false
  titles : ∀ s ∈ sections, starts s.1 = true
  members : ∀ s ∈ sections, ∀ x ∈ s.2, starts x = false

/-- Cutting at titles gives sections. -/
theorem sectioned_sectionsBy (starts : ι → Bool) (items : List ι) :
    Sectioned starts (sectionsBy starts items).1 (sectionsBy starts items).2 := by
  induction items with
  | nil => exact ⟨by simp [sectionsBy], by simp [sectionsBy], by simp [sectionsBy]⟩
  | cons item items ih =>
    simp only [sectionsBy]
    split
    · rename_i hitem
      exact ⟨by simp, by simpa [hitem] using ih.titles, by simpa using ⟨ih.lead, fun a b => ih.members (a, b)⟩⟩
    · rename_i hitem
      exact ⟨by simpa [hitem] using ih.lead, ih.titles, ih.members⟩

/-- Items that start no section go in front. -/
theorem sectionsBy_append {lead : List ι} (hlead : ∀ x ∈ lead, starts x = false) (items : List ι) :
    sectionsBy starts (lead ++ items) =
      (lead ++ (sectionsBy starts items).1, (sectionsBy starts items).2) := by
  induction lead with
  | nil => rfl
  | cons item lead ih =>
    have hitem : starts item = false := hlead item (by simp)
    simp [sectionsBy, hitem, ih fun x hx => hlead x (by simp [hx])]

/-- Cutting gives back the sections that were put together. -/
theorem sectionsBy_flatten {lead : List ι} {sections : List (ι × List ι)}
    (h : Sectioned starts lead sections) :
    sectionsBy starts (lead ++ sections.flatMap fun s => s.1 :: s.2) = (lead, sections) := by
  rw [sectionsBy_append h.lead]
  suffices sectionsBy starts (sections.flatMap fun s => s.1 :: s.2) = ([], sections) by
    simp [this]
  obtain ⟨-, htitles, hmembers⟩ := h
  induction sections with
  | nil => rfl
  | cons s sections ih =>
    have hs : starts s.1 = true := htitles s (by simp)
    have hrest := ih (fun s hs => htitles s (by simp [hs])) fun s hs => hmembers s (by simp [hs])
    rw [List.flatMap_cons, List.cons_append, sectionsBy,
      sectionsBy_append (hmembers s (by simp)), hrest]
    simp [hs]

/-- The items of a resource body, cut in front of every title but the first. -/
def cutSections : List ι × List (ι × List ι) → List (List ι)
  | (lead, []) => [lead]
  | (lead, first :: rest) => (lead ++ first.1 :: first.2) :: rest.map fun s => s.1 :: s.2

/-- A body has at least one part. -/
theorem cutSections_ne_nil (s : List ι × List (ι × List ι)) : cutSections s ≠ [] := by
  rcases s with ⟨lead, _ | ⟨first, rest⟩⟩ <;> simp [cutSections]

/-- Items without a title stand in front of the first section. -/
theorem sectionsBy_of_countP_eq_zero {items : List ι} (h : items.countP starts = 0) (more : List ι) :
    sectionsBy starts (items ++ more) =
      (items ++ (sectionsBy starts more).1, (sectionsBy starts more).2) :=
  sectionsBy_append (by simpa using h) more

/-- Items with one title are not cut, and in front of a further title they are cut off. -/
theorem cutSections_append {items more : List ι} (h : items.countP starts = 1)
    (hmore : ∃ title others, more = title :: others ∧ starts title = true) :
    cutSections (sectionsBy starts (items ++ more)) = items :: cutSections (sectionsBy starts more) := by
  induction items with
  | nil => cases h
  | cons item items ih =>
    rw [List.countP_cons] at h
    cases hitem : starts item with
    | true =>
      have hzero : items.countP starts = 0 := by simpa [hitem] using h
      obtain ⟨title, others, rfl, htitle⟩ := hmore
      rw [List.cons_append, sectionsBy, sectionsBy_of_countP_eq_zero hzero]
      simp [hitem, sectionsBy, htitle, cutSections]
    | false =>
      have hcut := ih (by simpa [hitem] using h)
      rw [List.cons_append, sectionsBy]
      rcases hs : sectionsBy starts (items ++ more) with ⟨lead, _ | ⟨first, rest⟩⟩
      · rw [hs] at hcut
        exact absurd (List.cons.inj hcut).2.symm (cutSections_ne_nil _)
      · rw [hs] at hcut
        obtain ⟨hfirst, hrest⟩ := List.cons.inj hcut
        simp [hitem, cutSections, hfirst, hrest]

/-- A body with at most one title is not cut. -/
theorem cutSections_of_countP_le_one {items : List ι} (h : items.countP starts ≤ 1) :
    cutSections (sectionsBy starts items) = [items] := by
  induction items with
  | nil => rfl
  | cons item items ih =>
    rw [List.countP_cons] at h
    cases hitem : starts item with
    | true =>
      have hzero : items.countP starts = 0 := by simpa [hitem] using h
      have hitems := sectionsBy_of_countP_eq_zero hzero []
      rw [List.append_nil] at hitems
      simp [sectionsBy, hitem, hitems, cutSections]
    | false =>
      have hcut := ih (by simpa [hitem] using h)
      rw [sectionsBy]
      rcases hs : sectionsBy starts items with ⟨lead, _ | ⟨first, rest⟩⟩
      · rw [hs] at hcut
        simpa [hitem, cutSections] using hcut
      · rw [hs] at hcut
        obtain ⟨hfirst, hrest⟩ := List.cons.inj hcut
        rw [List.map_eq_nil_iff] at hrest
        simp [hitem, cutSections, hfirst, hrest]

end Layout

/-- Whether phrases of a category have a body of statements. -/
def Category.hasBody : Category → Bool
  | classBlock | defineBlock | nodeBlock | branch | caseBlock | caseOption => true
  | _ => false

namespace Form

variable {α β γ : Type}

/-- The contents with other references, where each statement of a body gives several. -/
def withBodies (f : α → β) (g : α → List β) : Form α → Form β
  | classBlock name params inherits body => classBlock name (params.map f) inherits (body.flatMap g)
  | defineBlock name params body => defineBlock name (params.map f) (body.flatMap g)
  | nodeBlock names inherits body => nodeBlock names inherits (body.flatMap g)
  | branch keyword condition body => branch keyword (condition.map f) (body.flatMap g)
  | caseBlock subject body => caseBlock (f subject) (body.flatMap g)
  | caseOption values body => caseOption (values.map f) (body.flatMap g)
  | form => form.map f

/-- Other bodies do not change the category. -/
@[simp] theorem category_withBodies (f : α → β) (g : α → List β) (form : Form α) :
    (form.withBodies f g).category = form.category := by
  cases form <;> rfl

/-- Without a body nothing else changes. -/
theorem withBodies_id {g : α → List α} {form : Form α} (h : form.category.hasBody = false) :
    form.withBodies id g = form := by
  have hid := map_id form
  cases form <;> first
    | exact hid
    | cases h

/-- Bodies can be put in whatever the references were. -/
theorem withBodies_map (f : β → γ) (g : β → List γ) (h : α → β) (form : Form α) :
    (form.map h).withBodies f g = form.withBodies (f ∘ h) (g ∘ h) := by
  have hpart : Part.map f ∘ Part.map h = Part.map (f ∘ h) := by
    funext part
    cases part <;> rfl
  cases form with
  | resource sigil head => cases head <;> simp [map, withBodies, Head.map]
  | expression parts => simp [map, withBodies, ← hpart]
  | _ => simp [map, withBodies, List.flatMap_map, Function.comp_def]

end Form

namespace Phrase

/-- One resource for each part of the items. -/
def resources (line : Nat) (sigil : String) (token : Token) (parts : List (List Phrase)) :
    List Phrase :=
  parts.map fun items => ⟨line, .resource sigil (.type token) none true items⟩

/-- The phrases that a phrase with given contents becomes, where its own parts are known both whole
and split. -/
def splitStep (line : Nat) : Form (Phrase × List Phrase) → List Phrase
  | .resource sigil (.type token) none true items =>
    resources line sigil token (cutSections (sectionsBy isTitle (items.map (·.1))))
  | form => [⟨line, form.withBodies (·.1) (·.2)⟩]

/-- The phrase as statements in which every resource has one title at most. -/
def split (p : Phrase) : List Phrase :=
  (p.fold fun line form => ((⟨line, form.map (·.1)⟩ : Phrase), splitStep line form)).2

/-- A phrase is split from inside out. -/
theorem split_eq (p : Phrase) :
    p.split = splitStep p.line (p.form.map fun q => (q, q.split)) := by
  have hwhole (p : Phrase) :
      (p.fold fun line form => ((⟨line, form.map (·.1)⟩ : Phrase), splitStep line form)).1 = p := by
    induction p using induct with
    | step p ih =>
      rw [fold_eq, Form.map_map]
      calc (⟨p.line, p.form.map _⟩ : Phrase)
        _ = ⟨p.line, p.form.map id⟩ := congrArg _ (Form.map_congr default ih)
        _ = p := by rw [Form.map_id, mk_line_form]
  have hboth : (fold fun line form => ((⟨line, form.map (·.1)⟩ : Phrase), splitStep line form)) =
      fun q => (q, q.split) := funext fun q => Prod.ext (hwhole q) rfl
  rw [split, fold_eq, hboth]

/-- A typed resource with a block is cut in front of every title but the first. -/
theorem split_resource (line : Nat) (sigil : String) (token : Token) (items : List Phrase) :
    split ⟨line, .resource sigil (.type token) none true items⟩ =
      resources line sigil token (cutSections (sectionsBy isTitle items)) := by
  rw [split_eq]
  simp [Form.map, Head.map, splitStep, Function.comp_def]

/-- A resource with one title at most is not cut. -/
theorem split_of_one_title {line : Nat} {sigil : String} {token : Token} {items : List Phrase}
    (h : items.countP isTitle ≤ 1) :
    split ⟨line, .resource sigil (.type token) none true items⟩ =
      [⟨line, .resource sigil (.type token) none true items⟩] := by
  rw [split_resource, cutSections_of_countP_le_one h]
  rfl

/-- In front of a further title the first resource is cut off. -/
theorem split_of_more_titles {line : Nat} {sigil : String} {token : Token}
    {items more : List Phrase} (h : items.countP isTitle = 1)
    (hmore : ∃ title others, more = title :: others ∧ title.isTitle = true) :
    split ⟨line, .resource sigil (.type token) none true (items ++ more)⟩ =
      ⟨line, .resource sigil (.type token) none true items⟩ ::
        split ⟨line, .resource sigil (.type token) none true more⟩ := by
  rw [split_resource, split_resource, cutSections_append h hmore]
  rfl

/-- Everything else stays one phrase, with its statements split. -/
theorem split_other {p : Phrase}
    (h : ∀ sigil token items, p.form ≠ .resource sigil (.type token) none true items) :
    p.split = [⟨p.line, p.form.withBodies id split⟩] := by
  rw [split_eq]
  obtain ⟨line, form⟩ := p
  have hbodies := Form.withBodies_map (·.1) (·.2) (fun q : Phrase => (q, q.split)) form
  have hstep : splitStep line (form.map fun q => (q, q.split)) =
      [⟨line, (form.map fun q => (q, q.split)).withBodies (·.1) (·.2)⟩] := by
    cases form with
    | resource sigil head collector hasBlock items =>
      cases head <;> cases collector <;> cases hasBlock <;> first
        | rfl
        | exact absurd rfl (h _ _ _)
    | _ => rfl
  rw [line_mk, form_mk, hstep, hbodies]
  rfl

/-- Splitting leaves something. -/
theorem split_ne_nil (p : Phrase) : p.split ≠ [] := by
  by_cases h : ∃ sigil token items, p.form = .resource sigil (.type token) none true items
  · obtain ⟨sigil, token, items, hform⟩ := h
    rw [← mk_line_form p, hform, split_resource]
    simp [resources, cutSections_ne_nil]
  · rw [split_other fun sigil token items hform => h ⟨sigil, token, items, hform⟩]
    simp

/-- A column turns nothing into a title. -/
theorem isTitle_withWidth (w : Nat) (p : Phrase) : (p.withWidth w).isTitle = p.isTitle := by
  simp [isTitle]

/-- A section with its pairs aligned. -/
def alignSection (s : Phrase × List Phrase) : Phrase × List Phrase :=
  (s.1, s.2.map (withWidth (widest s.2)))

/-- Sections are aligned one by one. -/
theorem alignSections_eq (sections : List (Phrase × List Phrase)) :
    alignSections sections = (sections.map alignSection).flatMap fun s => s.1 :: s.2 := by
  induction sections with
  | nil => rfl
  | cons s sections ih => simp [alignSections, ih, alignSection]

/-- Sections stay sections when columns are set. -/
theorem sectioned_withWidth {lead : List Phrase} {title : Phrase} {members : List Phrase}
    {rest : List (Phrase × List Phrase)} (h : Sectioned isTitle lead ((title, members) :: rest))
    (w : Nat) :
    Sectioned isTitle (lead.map (withWidth w))
      ((title, members.map (withWidth w)) :: rest.map alignSection) := by
  have htitles := h.titles
  have hmembers := h.members
  simp only [List.forall_mem_cons] at htitles hmembers
  refine ⟨?_, ?_, ?_⟩
  · simpa [isTitle_withWidth] using h.lead
  · rw [List.forall_mem_cons, List.forall_mem_map]
    exact htitles
  · simp only [List.forall_mem_cons, List.forall_mem_map, alignSection, isTitle_withWidth]
    exact hmembers

/-- Aligning the items of a resource and cutting them can be done in any order. -/
theorem cutSections_alignItems (items : List Phrase) :
    cutSections (sectionsBy isTitle (alignItems items)) =
      (cutSections (sectionsBy isTitle items)).map alignItems := by
  have hsectioned := sectioned_sectionsBy isTitle items
  rcases hs : sectionsBy isTitle items with ⟨lead, _ | ⟨⟨title, members⟩, rest⟩⟩
  · rw [hs] at hsectioned
    have hitems : sectionsBy isTitle lead = (lead, []) := by
      simpa using sectionsBy_flatten hsectioned
    have hwidth (w : Nat) : sectionsBy isTitle (lead.map (withWidth w)) =
        (lead.map (withWidth w), []) := by
      have h : Sectioned isTitle (lead.map (withWidth w)) [] :=
        ⟨by simpa [isTitle_withWidth] using hsectioned.lead, by simp, by simp⟩
      simpa using sectionsBy_flatten h
    simp only [alignItems, hs, hitems, hwidth, cutSections, List.map_cons, List.map_nil]
  · rw [hs] at hsectioned
    let w := widest (lead ++ members)
    have hwhole : sectionsBy isTitle (alignItems items) =
        (lead.map (withWidth w), (title, members.map (withWidth w)) :: rest.map alignSection) := by
      rw [← sectionsBy_flatten (sectioned_withWidth hsectioned w)]
      simp only [alignItems, hs, alignSections_eq, w]
      simp
    have hfirst : sectionsBy isTitle (lead ++ title :: members) = (lead, [(title, members)]) := by
      have h : Sectioned isTitle lead [(title, members)] :=
        ⟨hsectioned.lead, fun s hs => hsectioned.titles s (by simp_all),
          fun s hs => hsectioned.members s (by simp_all)⟩
      simpa using sectionsBy_flatten h
    have hother (s : Phrase × List Phrase) (hmem : s ∈ rest) :
        alignItems (s.1 :: s.2) = (alignSection s).1 :: (alignSection s).2 := by
      have h : Sectioned isTitle [] [s] :=
        ⟨by simp, fun s' hs' => hsectioned.titles s' (by simp_all),
          fun s' hs' => hsectioned.members s' (by simp_all)⟩
      have hsections : sectionsBy isTitle (s.1 :: s.2) = ([], [s]) := by
        simpa using sectionsBy_flatten h
      simp [alignItems, hsections, alignSections, alignSection]
    have hrest : rest.map (fun s => alignItems (s.1 :: s.2)) =
        (rest.map alignSection).map fun s => s.1 :: s.2 := by
      rw [List.map_map]
      exact List.map_congr_left fun s hs => hother s hs
    simp only [hwhole, cutSections, List.map_cons, List.map_map, Function.comp_def] at hrest ⊢
    rw [hrest]
    simp [alignItems, hfirst, alignSections, w]

/-- A body can be cut before or after alignment. -/
theorem cutSections_aligned (items : List Phrase) :
    cutSections (sectionsBy isTitle (items.map aligned)) =
      (cutSections (sectionsBy isTitle items)).map (List.map aligned) := by
  rw [sectionsBy_aligned]
  rcases sectionsBy isTitle items with ⟨lead, _ | ⟨first, rest⟩⟩ <;>
    simp [cutSections, Function.comp_def]

/-- Aligning makes no resource that can be cut. -/
theorem alignForm_ne {line : Nat} {form : Form Phrase}
    (h : ∀ sigil token items, form ≠ .resource sigil (.type token) none true items) :
    ∀ sigil token items, (mk line (alignForm (form.map aligned))).form ≠
      .resource sigil (.type token) none true items := by
  cases form with
  | resource sigil head collector hasBlock items =>
    cases head <;> cases collector <;> cases hasBlock <;>
      simp_all [alignForm, Form.map, Head.map]
  | _ => simp [alignForm, Form.map]

/-- Statements in a body can be split before or after they are aligned. -/
theorem withBodies_alignForm {form : Form Phrase}
    (h : ∀ q ∈ form.children, q.aligned.split = q.split.map aligned) :
    (alignForm (form.map aligned)).withBodies id split =
      alignForm ((form.withBodies id split).map aligned) := by
  by_cases hbody : form.category.hasBody = true
  · have hstatements {body : List Phrase} (hsub : body ⊆ form.children) :
        (body.map aligned).flatMap split = (body.flatMap split).map aligned := by
      rw [List.flatMap_map, List.map_flatMap, List.flatMap_def, List.flatMap_def]
      exact congrArg List.flatten (List.map_congr_left fun q hq => h q (hsub hq))
    cases form with
    | pending category => rfl
    | classBlock name params inherits body =>
      simp only [Form.map, alignForm, Form.withBodies, hstatements
        (show body ⊆ _ by simp [Form.children]), List.map_id]
    | defineBlock name params body =>
      simp only [Form.map, alignForm, Form.withBodies, hstatements
        (show body ⊆ _ by simp [Form.children]), List.map_id]
    | nodeBlock names inherits body =>
      simp only [Form.map, alignForm, Form.withBodies, hstatements
        (show body ⊆ _ by simp [Form.children])]
    | branch keyword condition body =>
      simp only [Form.map, alignForm, Form.withBodies, hstatements
        (show body ⊆ _ by simp [Form.children]), Option.map_id, id_eq]
    | caseBlock subject body =>
      simp only [Form.map, alignForm, Form.withBodies, hstatements
        (show body ⊆ _ by simp [Form.children]), id_eq]
    | caseOption values body =>
      simp only [Form.map, alignForm, Form.withBodies, hstatements
        (show body ⊆ _ by simp [Form.children]), List.map_id]
    | _ => cases hbody
  · rw [Bool.not_eq_true] at hbody
    have haligned : (alignForm (form.map aligned)).category.hasBody = false := by
      rw [category_alignForm, Form.category_map, hbody]
    rw [Form.withBodies_id hbody, Form.withBodies_id haligned]

/-- Splitting and aligning can be done in any order. -/
theorem split_aligned (p : Phrase) : p.aligned.split = p.split.map aligned := by
  induction p using induct with
  | step p ih =>
    obtain ⟨line, form⟩ := p
    by_cases h : ∃ sigil token items, form = .resource sigil (.type token) none true items
    · obtain ⟨sigil, token, items, rfl⟩ := h
      simp only [aligned_eq, line_mk, form_mk, Form.map, Head.map, Option.map_none, alignForm,
        split_resource, resources, cutSections_alignItems, cutSections_aligned, List.map_map]
      refine List.map_congr_left fun part _ => ?_
      simp [aligned_eq, Form.map, Head.map, alignForm]
    · have hother : ∀ sigil token items,
          form ≠ .resource sigil (.type token) none true items :=
        fun sigil token items heq => h ⟨sigil, token, items, heq⟩
      rw [aligned_eq, line_mk, form_mk, split_other (alignForm_ne hother),
        split_other (p := ⟨line, form⟩) hother, line_mk, form_mk, List.map_singleton, aligned_eq,
        line_mk, form_mk, line_mk, form_mk]
      exact congrArg (fun form => [mk line form]) (withBodies_alignForm ih)

end Phrase

end TidyManifest
