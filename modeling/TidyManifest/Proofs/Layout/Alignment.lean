import TidyManifest.Proofs.Layout.Phrases

/-!
# Aligned phrases

Alignment sets the columns of arrows in a table of nodes.  On phrases it is a function from inside
out, `Phrase.aligned`: a hash, a selector and a resource set the columns of the pairs among their
own items.  Aligning the tree of some phrases gives the tree of the aligned phrases
(`align_ofPhrases`).
-/

namespace TidyManifest

open Layout

namespace Phrase

/-- The length of the key, if the phrase is a pair. -/
def keyLength? (p : Phrase) : Option Nat :=
  match p.form with
  | .pair key _ _ _ => some key.text.length
  | _ => none

/-- The phrase with its arrow in a column, if it is a pair. -/
def withWidth (width : Nat) (p : Phrase) : Phrase :=
  match p.form with
  | .pair key arrow value _ => ⟨p.line, .pair key arrow value width⟩
  | _ => p

/-- The length of the longest key among phrases. -/
def widest (ps : List Phrase) : Nat :=
  ((ps.filterMap keyLength?).max?).getD 0

/-- Whether the phrase is a title. -/
def isTitle (p : Phrase) : Bool :=
  p.category == .title

/-- The sections of items after the first title, each aligned for itself. -/
def alignSections : List (Phrase × List Phrase) → List Phrase
  | [] => []
  | (title, members) :: rest =>
    title :: (members.map (withWidth (widest members)) ++ alignSections rest)

/-- The items of a resource, aligned section by section. -/
def alignItems (items : List Phrase) : List Phrase :=
  match sectionsBy isTitle items with
  | (lead, []) => lead.map (withWidth (widest lead))
  | (lead, (title, members) :: rest) =>
    lead.map (withWidth (widest (lead ++ members))) ++
      title :: (members.map (withWidth (widest (lead ++ members))) ++ alignSections rest)

/-- The contents of a phrase with the pairs among its items aligned. -/
def alignForm : Form Phrase → Form Phrase
  | .hash items => .hash (items.map (withWidth (widest items)))
  | .selector subject items => .selector subject (items.map (withWidth (widest items)))
  | .resource sigil head collector hasBlock items =>
    .resource sigil head collector hasBlock (alignItems items)
  | form => form

/-- The phrase with all arrows inside it aligned. -/
def aligned (p : Phrase) : Phrase :=
  p.fold fun line form => ⟨line, alignForm form⟩

theorem aligned_eq (p : Phrase) : p.aligned = ⟨p.line, alignForm (p.form.map aligned)⟩ :=
  fold_eq _ p

section

variable (w : Nat) (p : Phrase)

/-- A column does not change the category. -/
@[simp] theorem category_withWidth : (p.withWidth w).category = p.category := by
  unfold withWidth
  split <;> simp_all [category, Form.category]

/-- A column does not change the children. -/
@[simp] theorem children_withWidth : (p.withWidth w).children = p.children := by
  unfold withWidth
  split <;> simp_all [children, Form.children]

/-- A column does not change the line. -/
@[simp] theorem line_withWidth : (p.withWidth w).line = p.line := by
  unfold withWidth
  split <;> rfl

/-- A column takes up no nodes. -/
@[simp] theorem size_withWidth : (p.withWidth w).size = p.size := by
  rw [size_eq, size_eq, children_withWidth]

end

/-- Setting columns among the items does not change the category. -/
@[simp] theorem category_alignForm (form : Form Phrase) : (alignForm form).category = form.category := by
  cases form <;> rfl

/-- Alignment does not change the category of a phrase. -/
@[simp] theorem category_aligned (p : Phrase) : p.aligned.category = p.category := by
  rw [aligned_eq, category, form_mk, category_alignForm, Form.category_map, category]

/-- Alignment does not change the line of a phrase. -/
@[simp] theorem line_aligned (p : Phrase) : p.aligned.line = p.line := by
  rw [aligned_eq, line_mk]

end Phrase

namespace Phrase

/-- The numbers of the pairs among phrases that stand one after the other, with a column. -/
def columns (width : Nat) (first : NodeId) : List Phrase → List (NodeId × Nat)
  | [] => []
  | p :: ps =>
    (if p.keyLength?.isSome then [(first, width)] else []) ++ columns width (first + p.size) ps

/-- The columns of the sections after the first title. -/
def sectionColumns (first : NodeId) : List (Phrase × List Phrase) → List (NodeId × Nat)
  | [] => []
  | (title, members) :: rest =>
    columns (widest members) (first + title.size) members ++
      sectionColumns (first + title.size + total members) rest

/-- The columns of the items of a resource. -/
def itemColumns (first : NodeId) (items : List Phrase) : List (NodeId × Nat) :=
  match sectionsBy isTitle items with
  | (lead, []) => columns (widest lead) first lead
  | (lead, (title, members) :: rest) =>
    columns (widest (lead ++ members)) first lead ++
      (columns (widest (lead ++ members)) (first + total lead + title.size) members ++
        sectionColumns (first + total lead + title.size + total members) rest)

/-- The columns that a phrase sets, where its children stand from a number on. -/
def ownColumns (first : NodeId) (p : Phrase) : List (NodeId × Nat) :=
  match p.form with
  | .hash items => columns (widest items) first items
  | .selector subject items => columns (widest items) (first + subject.size) items
  | .resource _ (.type _) collector _ items => itemColumns (first + total collector.toList) items
  | .resource _ (.reference head) collector _ items =>
    itemColumns (first + head.size + total collector.toList) items
  | _ => []

mutual

/-- The columns that a phrase and the phrases below it set. -/
def allColumns (id : NodeId) (p : Phrase) : List (NodeId × Nat) :=
  ownColumns (id + 1) p ++ forestColumns (id + 1) p.children
termination_by sizeOf p
decreasing_by exact weight_children p

/-- The columns set by phrases that stand one after the other. -/
def forestColumns (first : NodeId) : List Phrase → List (NodeId × Nat)
  | [] => []
  | p :: ps => allColumns first p ++ forestColumns (first + p.size) ps
termination_by ps => weight ps
decreasing_by
  · rw [weight_cons]; omega
  · rw [weight_cons]; omega

end

@[simp] theorem forestColumns_nil (first : NodeId) : forestColumns first [] = [] := by
  rw [forestColumns]

/-- The columns of phrases are those of the first one, of its children and of the rest. -/
@[simp] theorem forestColumns_cons (first : NodeId) (p : Phrase) (ps : List Phrase) :
    forestColumns first (p :: ps) =
      ownColumns (first + 1) p ++
        (forestColumns (first + 1) p.children ++ forestColumns (first + p.size) ps) := by
  rw [forestColumns, allColumns, List.append_assoc]

/-- The columns that a phrase sets do not depend on its own. -/
@[simp] theorem ownColumns_withWidth (w : Nat) (first : NodeId) (p : Phrase) :
    ownColumns first (p.withWidth w) = ownColumns first p := by
  unfold withWidth
  split <;> simp_all [ownColumns]

/-- Columns take up no nodes. -/
@[simp] theorem total_map_withWidth (w : Nat) (ps : List Phrase) :
    total (ps.map (withWidth w)) = total ps := by
  simp [total, Function.comp_def]

/-- The entries with the arrows of some nodes in columns. -/
def setColumns (cs : List (NodeId × Nat)) (entries : List Node) : List Node :=
  cs.foldl (fun entries c => entries.modify c.1 (widened c.2)) entries

@[simp] theorem setColumns_nil (entries : List Node) : setColumns [] entries = entries := rfl

theorem setColumns_append (cs ds : List (NodeId × Nat)) (entries : List Node) :
    setColumns (cs ++ ds) entries = setColumns ds (setColumns cs entries) :=
  List.foldl_append ..

/-- Setting the column of a node is setting it in the phrase. -/
theorem widened_entry (w : Nat) (id parent : NodeId) (level : Int) (p : Phrase) :
    widened w (p.entry id parent level) = (p.withWidth w).entry id parent level := by
  obtain ⟨line, form⟩ := p
  cases form with
  | resource sigil head => cases head <;> rfl
  | _ => rfl

/-- Only pairs have a column. -/
theorem withWidth_of_not_pair {w : Nat} {p : Phrase} (h : ¬ p.keyLength?.isSome) :
    p.withWidth w = p := by
  unfold keyLength? at h
  unfold withWidth
  split <;> simp_all

/-- A column changes the first node of a phrase only. -/
theorem nodes_withWidth (w : Nat) (id parent : NodeId) (level : Int) (p : Phrase) :
    (p.withWidth w).nodes id parent level =
      widened w (p.entry id parent level) :: forest (id + 1) id (level + 1) p.children := by
  rw [nodes_eq, widened_entry, children_withWidth]

/-- Setting the columns of a group changes the pairs of the group. -/
theorem setColumns_columns (w : Nat) {first : NodeId} (parent : NodeId) (level : Int)
    (ps : List Phrase) {before : List Node} (h : before.length = first) (after : List Node) :
    setColumns (columns w first ps) (before ++ (forest first parent level ps ++ after)) =
      before ++ (forest first parent level (ps.map (withWidth w)) ++ after) := by
  induction ps generalizing first before with
  | nil => simp [columns]
  | cons p ps ih =>
    have hone : setColumns (if p.keyLength?.isSome then [(first, w)] else [])
        (before ++ (forest first parent level (p :: ps) ++ after)) =
          before ++ (p.withWidth w).nodes first parent level ++
            (forest (first + p.size) parent level ps ++ after) := by
      by_cases hp : p.keyLength?.isSome
      · rw [if_pos hp, nodes_withWidth, forest_cons, nodes_eq]
        simp [setColumns, ← h, List.modify_eq_take_drop]
      · rw [if_neg hp, withWidth_of_not_pair hp]
        simp
    have hlength : (before ++ (p.withWidth w).nodes first parent level).length = first + p.size := by
      simp [h]
    rw [columns, setColumns_append, hone, ih hlength]
    simp

/-- Setting the columns of sections in the nodes is setting them in the phrases. -/
theorem setColumns_sectionColumns {first : NodeId} (parent : NodeId) (level : Int)
    (titles : List (Phrase × List Phrase)) {before : List Node} (h : before.length = first)
    (after : List Node) :
    setColumns (sectionColumns first titles)
        (before ++ (forest first parent level (titles.flatMap fun s => s.1 :: s.2) ++ after)) =
      before ++ (forest first parent level (alignSections titles) ++ after) := by
  induction titles generalizing first before with
  | nil => simp [sectionColumns, alignSections]
  | cons s rest ih =>
    obtain ⟨title, members⟩ := s
    have hmembers := setColumns_columns (widest members) parent level members
      (show (before ++ title.nodes first parent level).length = first + title.size by simp [h])
      (forest (first + title.size + total members) parent level
        (rest.flatMap fun s => s.1 :: s.2) ++ after)
    have hrest := ih (show (before ++ (title.nodes first parent level ++
        forest (first + title.size) parent level
          (members.map (withWidth (widest members))))).length =
      first + title.size + total members by simp [h]; omega)
    simp only [List.append_assoc] at hmembers hrest
    simp only [sectionColumns, setColumns_append, List.flatMap_cons, List.cons_append, forest_cons,
      forest_append, List.append_assoc, hmembers, hrest, alignSections, total_map_withWidth]

end Phrase

/-- The sections of a list, one after the other, are the list. -/
theorem Layout.flatten_sectionsBy {ι : Type} (starts : ι → Bool) (items : List ι) :
    (sectionsBy starts items).1 ++ (sectionsBy starts items).2.flatMap (fun s => s.1 :: s.2) =
      items := by
  induction items with
  | nil => rfl
  | cons item rest ih =>
    simp only [sectionsBy]
    split <;> simp_all

namespace Phrase

/-- Setting the columns of a resource body in the nodes is setting them in the phrases. -/
theorem setColumns_itemColumns {first : NodeId} (parent : NodeId) (level : Int)
    (items : List Phrase) {before : List Node} (h : before.length = first) (after : List Node) :
    setColumns (itemColumns first items) (before ++ (forest first parent level items ++ after)) =
      before ++ (forest first parent level (alignItems items) ++ after) := by
  have hitems := flatten_sectionsBy isTitle items
  unfold itemColumns alignItems
  rcases hsections : sectionsBy isTitle items with ⟨lead, _ | ⟨⟨title, members⟩, rest⟩⟩
  · rw [hsections] at hitems
    obtain rfl : lead = items := by simpa using hitems
    exact setColumns_columns _ parent level lead h after
  · rw [hsections] at hitems
    obtain rfl : items = lead ++ (title :: members ++ rest.flatMap fun s => s.1 :: s.2) := by
      simpa using hitems.symm
    dsimp only
    generalize widest (lead ++ members) = w
    have hlead := setColumns_columns w parent level lead h
      (title.nodes (first + total lead) parent level ++
        (forest (first + total lead + title.size) parent level members ++
          (forest (first + total lead + title.size + total members) parent level
            (rest.flatMap fun s => s.1 :: s.2) ++ after)))
    have hmembers := setColumns_columns w parent level members
      (show (before ++ (forest first parent level (lead.map (withWidth w)) ++
          title.nodes (first + total lead) parent level)).length =
        first + total lead + title.size by simp [h]; omega)
      (forest (first + total lead + title.size + total members) parent level
        (rest.flatMap fun s => s.1 :: s.2) ++ after)
    have hrest := setColumns_sectionColumns parent level rest
      (show (before ++ (forest first parent level (lead.map (withWidth w)) ++
          (title.nodes (first + total lead) parent level ++
            forest (first + total lead + title.size) parent level
              (members.map (withWidth w))))).length =
        first + total lead + title.size + total members by simp [h]; omega) after
    simp only [List.append_assoc] at hlead hmembers hrest
    simp only [setColumns_append, forest_append, forest_cons, List.cons_append, List.append_assoc,
      hlead, hmembers, hrest, total_map_withWidth]

/-- A phrase sets the columns of its own items. -/
theorem setColumns_ownColumns {first : NodeId} (parent : NodeId) (level : Int) (p : Phrase)
    {before : List Node} (h : before.length = first) (after : List Node) :
    setColumns (ownColumns first p) (before ++ (forest first parent level p.children ++ after)) =
      before ++ (forest first parent level (alignForm p.form).children ++ after) := by
  obtain ⟨line, form⟩ := p
  simp only [ownColumns, children, form_mk]
  cases form with
  | hash items => exact setColumns_columns _ parent level items h after
  | selector subject items =>
    have := setColumns_columns (widest items) parent level items
      (show (before ++ subject.nodes first parent level).length = first + subject.size by simp [h])
      after
    simpa [alignForm, Form.children] using this
  | resource sigil head collector hasBlock items =>
    cases head with
    | type token =>
      have := setColumns_itemColumns parent level items
        (show (before ++ forest first parent level collector.toList).length =
          first + total collector.toList by simp [h]) after
      simpa [alignForm, Form.children] using this
    | reference head =>
      have := setColumns_itemColumns parent level items
        (show (before ++ forest first parent level (head :: collector.toList)).length =
          first + head.size + total collector.toList by simp [h]; omega) after
      simpa [alignForm, Form.children, Nat.add_assoc] using this
  | _ => rfl

/-- A column can be set before or after alignment. -/
theorem withWidth_aligned (w : Nat) (p : Phrase) : p.aligned.withWidth w = (p.withWidth w).aligned := by
  rw [aligned_eq, aligned_eq (p.withWidth w)]
  obtain ⟨line, form⟩ := p
  cases form <;> rfl

/-- Alignment does not change keys. -/
theorem keyLength?_aligned (p : Phrase) : p.aligned.keyLength? = p.keyLength? := by
  rw [aligned_eq]
  obtain ⟨line, form⟩ := p
  cases form <;> rfl

/-- Alignment does not change the longest key. -/
@[simp] theorem widest_map_aligned (ps : List Phrase) : widest (ps.map aligned) = widest ps := by
  simp only [widest, List.filterMap_map, Function.comp_def, keyLength?_aligned]

/-- A group can be given its column before or after alignment. -/
theorem alignGroup_aligned (w : Nat) (ps : List Phrase) :
    (ps.map aligned).map (withWidth w) = (ps.map (withWidth w)).map aligned := by
  simp [withWidth_aligned]

/-- Alignment does not move titles. -/
theorem sectionsBy_aligned (items : List Phrase) :
    sectionsBy isTitle (items.map aligned) =
      ((sectionsBy isTitle items).1.map aligned,
        (sectionsBy isTitle items).2.map fun s => (s.1.aligned, s.2.map aligned)) := by
  induction items with
  | nil => rfl
  | cons item rest ih =>
    have htitle : isTitle item.aligned = isTitle item := by simp [isTitle]
    simp only [List.map_cons, sectionsBy, ih, htitle]
    split <;> simp

/-- The columns of sections can be set before or after alignment. -/
theorem alignSections_aligned (titles : List (Phrase × List Phrase)) :
    alignSections (titles.map fun s => (s.1.aligned, s.2.map aligned)) =
      (alignSections titles).map aligned := by
  induction titles with
  | nil => rfl
  | cons s rest ih =>
    simp only [List.map_cons, alignSections, ih, widest_map_aligned, alignGroup_aligned,
      List.map_append]

/-- The columns of a resource body can be set before or after alignment. -/
theorem alignItems_aligned (items : List Phrase) :
    alignItems (items.map aligned) = (alignItems items).map aligned := by
  unfold alignItems
  rw [sectionsBy_aligned]
  rcases sectionsBy isTitle items with ⟨lead, _ | ⟨⟨title, members⟩, rest⟩⟩
  · simp only [List.map_nil, widest_map_aligned, alignGroup_aligned]
  · simp only [List.map_cons, ← List.map_append, widest_map_aligned, alignGroup_aligned,
      alignSections_aligned]
    simp

/-- The items of a phrase can be aligned before what is inside them. -/
theorem alignForm_aligned (form : Form Phrase) :
    alignForm (form.map aligned) = (alignForm form).map aligned := by
  cases form with
  | hash items => simp only [Form.map, alignForm, widest_map_aligned, alignGroup_aligned]
  | selector subject items =>
    simp only [Form.map, alignForm, widest_map_aligned, alignGroup_aligned]
  | resource sigil head collector hasBlock items =>
    simp only [Form.map, alignForm, alignItems_aligned]
  | _ => rfl

section

variable {α : Type} {f : Phrase → α} (hf : ∀ w p, f (withWidth w p) = f p)

include hf

/-- What does not depend on columns is the same after one is set. -/
theorem map_withWidth (w : Nat) (ps : List Phrase) : (ps.map (withWidth w)).map f = ps.map f := by
  simp [hf]

/-- What does not depend on columns is the same after those of sections are set. -/
theorem map_alignSections (titles : List (Phrase × List Phrase)) :
    (alignSections titles).map f = (titles.flatMap fun s => s.1 :: s.2).map f := by
  induction titles with
  | nil => rfl
  | cons s rest ih =>
    simp only [alignSections, List.map_cons, List.map_append, List.flatMap_cons,
      List.cons_append, map_withWidth hf, ih]

/-- What the columns of pairs do not change is not changed by aligning the items of a phrase. -/
theorem map_alignForm (form : Form Phrase) : (alignForm form).map f = form.map f := by
  have hitems (items : List Phrase) : (alignItems items).map f = items.map f := by
    rw [← congrArg (List.map f) (flatten_sectionsBy isTitle items), List.map_append,
      ← map_alignSections hf]
    unfold alignItems
    rcases sectionsBy isTitle items with ⟨lead, _ | ⟨⟨title, members⟩, rest⟩⟩
    · simp only [map_withWidth hf, alignSections, List.map_nil, List.append_nil]
    · simp only [alignSections, List.map_append, List.map_cons, map_withWidth hf]
  cases form with
  | hash items => simp only [alignForm, Form.map, map_withWidth hf]
  | selector subject items => simp only [alignForm, Form.map, map_withWidth hf]
  | resource sigil head collector hasBlock items => simp only [alignForm, Form.map, hitems]
  | _ => rfl

/-- What does not depend on columns is the same for the children of aligned contents. -/
theorem children_alignForm (form : Form Phrase) :
    (alignForm form).children.map f = form.children.map f := by
  rw [← Form.children_map, map_alignForm hf, Form.children_map]

end

/-- Phrases of the same sizes have as many nodes. -/
theorem total_congr {ps qs : List Phrase} (h : ps.map size = qs.map size) : total ps = total qs := by
  rw [total, h, total]

/-- Phrases of the same sizes start at the same numbers. -/
theorem starts_congr {ps qs : List Phrase} (h : ps.map size = qs.map size) (first : NodeId) :
    starts first ps = starts first qs := by
  induction ps generalizing qs first with
  | nil => cases qs with
    | nil => rfl
    | cons q qs => simp at h
  | cons p ps ih => cases qs with
    | nil => simp at h
    | cons q qs =>
      simp only [List.map_cons, List.cons.injEq] at h
      rw [starts, starts, h.1, ih h.2]

/-- Phrases that set the same columns, and whose children do, set the same columns altogether. -/
theorem forestColumns_congr {ps qs : List Phrase}
    (h : ps.map (fun p => (p.children, fun first => ownColumns first p)) =
      qs.map fun p => (p.children, fun first => ownColumns first p)) (first : NodeId) :
    forestColumns first ps = forestColumns first qs := by
  induction ps generalizing qs first with
  | nil => cases qs with
    | nil => rfl
    | cons q qs => simp at h
  | cons p ps ih => cases qs with
    | nil => simp at h
    | cons q qs =>
      simp only [List.map_cons, List.cons.injEq, Prod.mk.injEq] at h
      obtain ⟨⟨hchildren, hown⟩, hrest⟩ := h
      rw [forestColumns_cons, forestColumns_cons, congrFun hown, hchildren, ih hrest, size_eq p,
        size_eq q, hchildren]

/-- The children of an aligned phrase are aligned, with columns. -/
theorem children_aligned (p : Phrase) :
    p.aligned.children = (alignForm p.form).children.map aligned := by
  rw [aligned_eq, children, form_mk, alignForm_aligned, Form.children_map]

/-- Alignment takes up no nodes. -/
@[simp] theorem size_aligned (p : Phrase) : p.aligned.size = p.size := by
  induction p using induct with
  | step p ih =>
    have hsizes : p.aligned.children.map size = p.children.map size := by
      rw [aligned_eq, children, form_mk, children_alignForm size_withWidth, Form.children_map,
        List.map_map]
      exact List.map_congr_left ih
    rw [size_eq, size_eq, total_congr hsizes]

/-- What is found by going through a phrase does not depend on columns, unless a step looks at
them. -/
theorem fold_aligned {α : Type} [Inhabited α] {step : Nat → Form α → α}
    (h : ∀ line key arrow value w w',
      step line (.pair key arrow value w) = step line (.pair key arrow value w')) (p : Phrase) :
    p.aligned.fold step = p.fold step := by
  have hwidth (w : Nat) (p : Phrase) : (p.withWidth w).fold step = p.fold step := by
    rw [fold_eq, fold_eq step p]
    obtain ⟨line, form⟩ := p
    cases form with
    | pair key arrow value width => exact h line key arrow _ w width
    | _ => rfl
  induction p using induct with
  | step p ih =>
    rw [fold_eq, fold_eq step p, aligned_eq, form_mk, line_mk, map_alignForm hwidth, Form.map_map]
    exact congrArg _ (Form.map_congr default ih)

/-- Alignment does not change the sizes of children. -/
theorem map_size_aligned (p : Phrase) : p.aligned.children.map size = p.children.map size := by
  rw [children_aligned, List.map_map, show size ∘ aligned = size from funext size_aligned]
  exact children_alignForm size_withWidth p.form

/-- Alignment does not change the categories of children. -/
theorem map_category_aligned (p : Phrase) :
    p.aligned.children.map category = p.children.map category := by
  rw [children_aligned, List.map_map, show category ∘ aligned = category from funext category_aligned]
  exact children_alignForm category_withWidth p.form

/-- Once numbers are put in, aligned contents are the contents: columns belong to the children. -/
theorem withChildren_alignForm {β : Type} (default : β) (ids : List β) (form : Form Phrase) :
    (alignForm (form.map aligned)).withChildren default ids = form.withChildren default ids := by
  have halign (form : Form Phrase) :
      (alignForm form).withChildren default ids = form.withChildren default ids := by
    cases form with
    | resource sigil head collector => cases head <;> cases collector <;> rfl
    | _ => rfl
  rw [halign, Form.withChildren_of_map]

/-- The entry of an aligned phrase is the entry of the phrase. -/
theorem entry_aligned (id parent : NodeId) (level : Int) (p : Phrase) :
    p.aligned.entry id parent level = p.entry id parent level := by
  have hany : p.aligned.outerSpacing = p.outerSpacing := by
    have := congrArg (List.any · (· == .resource)) (map_category_aligned p)
    simp only [List.any_map] at this
    simp only [outerSpacing, category_aligned]
    split
    · exact this
    · rfl
  have hform : p.aligned.form.withChildren 0 (starts (id + 1) p.aligned.children) =
      p.form.withChildren 0 (starts (id + 1) p.children) := by
    rw [starts_congr (map_size_aligned p), aligned_eq, form_mk, withChildren_alignForm]
  simp only [entry, hform, hany, category_aligned, line_aligned]

/-- Setting all columns of phrases aligns them. -/
theorem setColumns_forestColumns {first : NodeId} (parent : NodeId) (level : Int)
    (ps : List Phrase) {before : List Node} (h : before.length = first) (after : List Node) :
    setColumns (forestColumns first ps) (before ++ (forest first parent level ps ++ after)) =
      before ++ (forest first parent level (ps.map aligned) ++ after) := by
  generalize hn : total ps = n
  induction n using Nat.strongRecOn generalizing first parent level ps before after with
  | ind n ih =>
    cases ps with
    | nil => simp
    | cons p ps =>
      have hsize := size_eq p
      simp only [total_cons] at hn
      -- the phrase sets the columns of its items
      have hown := setColumns_ownColumns first (level + 1) p
        (show (before ++ [p.entry first parent level]).length = first + 1 by simp [h])
        (forest (first + p.size) parent level ps ++ after)
      -- then what is inside the items is aligned
      have htotal : total (alignForm p.form).children = total p.children :=
        total_congr (children_alignForm size_withWidth p.form)
      have hcolumns : forestColumns (first + 1) p.children =
          forestColumns (first + 1) (alignForm p.form).children :=
        forestColumns_congr
          (children_alignForm (fun w p => by simp) p.form).symm _
      have hinside := ih (total p.children) (by omega) first (level + 1)
        (alignForm p.form).children
        (show (before ++ [p.entry first parent level]).length = first + 1 by simp [h])
        (forest (first + p.size) parent level ps ++ after) htotal
      -- and then the phrases that follow
      have hrest := ih (total ps) (by have := p.size_pos; omega) parent level ps
        (show (before ++ p.aligned.nodes first parent level).length = first + p.size by simp [h])
        after rfl
      rw [nodes_eq, entry_aligned, children_aligned] at hrest
      simp only [List.append_assoc, List.cons_append, List.nil_append] at hown hinside hrest
      simp only [forestColumns_cons, setColumns_append, List.map_cons, forest_cons, nodes_eq,
        entry_aligned, children_aligned, size_aligned, List.append_assoc, List.cons_append,
        hown, hcolumns, hinside, hrest]

end Phrase

namespace Located

theorem list_cons (first : NodeId) (place : Phrase → Placed) (p : Phrase) (ps : List Phrase) :
    list first place (p :: ps) = ⟨first, place p⟩ :: list (first + p.size) place ps := rfl

/-- Placed phrases are numbered part by part. -/
theorem list_append (first : NodeId) (place : Phrase → Placed) (ps qs : List Phrase) :
    list first place (ps ++ qs) =
      list first place ps ++ list (first + Phrase.total ps) place qs := by
  induction ps generalizing first with
  | nil => rfl
  | cons p ps ih => simp [list_cons, ih, Nat.add_assoc]

/-- A node has the key of its phrase. -/
theorem HeldBy.keyLength?_eq {t : Tree} {x : Located} (h : x.HeldBy t) :
    keyLength? t.view x.id = x.place.phrase.keyLength? := by
  obtain ⟨parent, hnode, -⟩ := h.node_eq
  simp only [keyLength?, Phrase.keyLength?, Tree.view, Tree.form, hnode, Phrase.entry]
  cases x.place.phrase.form with
  | resource sigil head => cases head <;> rfl
  | _ => rfl

end Located

namespace Layout

/-- The groups of sections: what stands in front of the first title belongs to it. -/
def sectionGroups : List ι × List (ι × List ι) → List (List ι)
  | (lead, []) => [lead]
  | (lead, first :: rest) => (lead ++ first.2) :: rest.map (·.2)

/-- Behind a title, the group that is open takes the items up to the next title, and every further
title opens a group of its own. -/
theorem titleGroups_seen (v : View ι) (group items : List ι) :
    titleGroups v group true items =
      (group ++ (sections v items).1) :: (sections v items).2.map (·.2) := by
  induction items generalizing group with
  | nil => simp [titleGroups, sections, sectionsBy]
  | cons item rest ih =>
    rw [titleGroups, ih, ih]
    unfold sections
    rw [sectionsBy]
    by_cases htitle : v.category item = .title
    · simp [htitle]
    · simp [htitle]

/-- In front of the first title, the group that is open takes what stands there and what stands below
the first title. -/
theorem titleGroups_unseen (v : View ι) (group items : List ι) :
    titleGroups v group false items =
      sectionGroups (group ++ (sections v items).1, (sections v items).2) := by
  induction items generalizing group with
  | nil => simp [titleGroups, sections, sectionsBy, sectionGroups]
  | cons item rest ih =>
    rw [titleGroups, ih, titleGroups_seen v group]
    unfold sections
    rw [sectionsBy]
    by_cases htitle : v.category item = .title
    · simp [htitle, sectionGroups]
    · simp [htitle]

/-- The alignment and the layout cut the body of a resource at the same places: the groups that are
collected item by item are those of the sections. -/
theorem titleGroups_eq (v : View ι) (items : List ι) :
    titleGroups v [] false items = sectionGroups (sections v items) :=
  titleGroups_unseen v [] items

/-- The column of a group is the longest key, for each of its pairs. -/
theorem groupWidths_eq {ι : Type} (v : View ι) (items : List ι) :
    groupWidths v items =
      (items.filter fun id => (keyLength? v id).isSome).map
        fun id => (id, (items.filterMap (keyLength? v)).max?.getD 0) := by
  have hkeys : (items.filter fun id => (keyLength? v id).isSome).filterMap (keyLength? v) =
      items.filterMap (keyLength? v) := by
    induction items with
    | nil => rfl
    | cons item items ih =>
      rcases hkey : keyLength? v item with _ | n <;> simp [hkey, ih]
  simp only [groupWidths, hkeys]
  rcases hmax : (items.filterMap (keyLength? v)).max? with _ | width
  · have hnone : items.filterMap (keyLength? v) = [] := List.max?_eq_none_iff.mp hmax
    have : (items.filter fun id => (keyLength? v id).isSome) = [] := by
      simpa [List.filterMap_eq_nil_iff, List.filter_eq_nil_iff] using hnone
    simp [this]
  · rfl

variable {t : Tree} {place : Phrase → Placed} (hplace : ∀ p, (place p).phrase = p)

include hplace

/-- The keys of nodes are those of their phrases. -/
theorem filterMap_keyLength? {first : NodeId} {ps : List Phrase}
    (h : ∀ x ∈ Located.list first place ps, x.HeldBy t) :
    (Phrase.starts first ps).filterMap (keyLength? t.view) = ps.filterMap Phrase.keyLength? := by
  induction ps generalizing first with
  | nil => rfl
  | cons p ps ih =>
    rw [Located.list_cons, List.forall_mem_cons] at h
    have hkey : keyLength? t.view first = p.keyLength? := by
      rw [h.1.keyLength?_eq, hplace]
    rw [Phrase.starts, List.filterMap_cons, List.filterMap_cons, hkey, ih h.2]

/-- The pairs among nodes are those among their phrases. -/
theorem columns_eq (w : Nat) {first : NodeId} {ps : List Phrase}
    (h : ∀ x ∈ Located.list first place ps, x.HeldBy t) :
    ((Phrase.starts first ps).filter fun id => (keyLength? t.view id).isSome).map (fun id => (id, w)) =
      Phrase.columns w first ps := by
  induction ps generalizing first with
  | nil => rfl
  | cons p ps ih =>
    rw [Located.list_cons, List.forall_mem_cons] at h
    have hkey : keyLength? t.view first = p.keyLength? := by
      rw [h.1.keyLength?_eq, hplace]
    rw [Phrase.starts, Phrase.columns, ← ih h.2, List.filter_cons, hkey]
    split <;> rfl

/-- The columns of a group of nodes are those of their phrases. -/
theorem groupWidths_columns {first : NodeId} {ps : List Phrase}
    (h : ∀ x ∈ Located.list first place ps, x.HeldBy t) :
    groupWidths t.view (Phrase.starts first ps) = Phrase.columns (Phrase.widest ps) first ps := by
  rw [groupWidths_eq, filterMap_keyLength? hplace h]
  exact columns_eq hplace _ h

/-- The numbers of sections, where the first title has a given number. -/
def numberSections (first : NodeId) : List (Phrase × List Phrase) → List (NodeId × List NodeId)
  | [] => []
  | (title, members) :: rest =>
    (first, Phrase.starts (first + title.size) members) ::
      numberSections (first + title.size + Phrase.total members) rest

/-- A resource body is cut at the numbers of its titles. -/
theorem sections_starts {first : NodeId} {items : List Phrase}
    (h : ∀ x ∈ Located.list first place items, x.HeldBy t) :
    sections t.view (Phrase.starts first items) =
      (Phrase.starts first (sectionsBy Phrase.isTitle items).1,
        numberSections (first + Phrase.total (sectionsBy Phrase.isTitle items).1)
          (sectionsBy Phrase.isTitle items).2) := by
  induction items generalizing first with
  | nil => rfl
  | cons item rest ih =>
    rw [Located.list_cons, List.forall_mem_cons] at h
    have htitle : (t.view.category first == .title) = item.isTitle := by
      have := h.1.category_eq
      rw [hplace] at this
      exact congrArg (· == Category.title) this
    have hrest := ih h.2
    unfold sections at hrest ⊢
    simp only [Phrase.starts, sectionsBy, hrest, htitle]
    split <;> simp [numberSections, Phrase.starts, Nat.add_assoc]

/-- The columns of sections of nodes are those of their phrases. -/
theorem sectionColumns_eq {first : NodeId} {titles : List (Phrase × List Phrase)}
    (h : ∀ x ∈ Located.list first place (titles.flatMap fun s => s.1 :: s.2), x.HeldBy t) :
    ((numberSections first titles).map (·.2)).flatMap (groupWidths t.view) =
      Phrase.sectionColumns first titles := by
  induction titles generalizing first with
  | nil => rfl
  | cons s rest ih =>
    obtain ⟨title, members⟩ := s
    simp only [List.flatMap_cons, List.cons_append, Located.list_cons, Located.list_append,
      List.forall_mem_cons, List.forall_mem_append] at h
    simp only [numberSections, List.map_cons, List.flatMap_cons, Phrase.sectionColumns,
      groupWidths_columns hplace h.2.1, ih h.2.2]

/-- The columns that a resource body gets are those of its phrases. -/
theorem itemColumns_eq {first : NodeId} {items : List Phrase}
    (h : ∀ x ∈ Located.list first place items, x.HeldBy t) :
    (titleGroups t.view [] false (Phrase.starts first items)).flatMap (groupWidths t.view) =
      Phrase.itemColumns first items := by
  have hitems := flatten_sectionsBy Phrase.isTitle items
  rw [titleGroups_eq, sections_starts hplace h, Phrase.itemColumns]
  rcases hsections : sectionsBy Phrase.isTitle items with ⟨lead, _ | ⟨⟨title, members⟩, rest⟩⟩
  · rw [hsections] at hitems
    obtain rfl : lead = items := by simpa using hitems
    simpa [numberSections, sectionGroups] using groupWidths_columns hplace h
  · rw [hsections] at hitems
    obtain rfl : items = lead ++ (title :: members ++ rest.flatMap fun s => s.1 :: s.2) := by
      simpa using hitems.symm
    simp only [List.cons_append, Located.list_cons, Located.list_append, List.forall_mem_cons,
      List.forall_mem_append] at h
    obtain ⟨hlead, -, hmembers, hrest⟩ := h
    simp only [numberSections, sectionGroups, List.flatMap_cons, sectionColumns_eq hplace hrest,
      groupWidths_eq,
      List.filterMap_append, filterMap_keyLength? hplace hlead, filterMap_keyLength? hplace hmembers,
      List.filter_append, List.map_append, columns_eq hplace _ hlead, columns_eq hplace _ hmembers,
      List.append_assoc, Phrase.widest]

omit hplace in
/-- The columns that a node of a tree sets are those that the phrase there sets. -/
theorem groups_heldBy {x : Located} (h : x.HeldBy t) :
    (groups t.view x.id).flatMap (groupWidths t.view) =
      Phrase.ownColumns (x.id + 1) x.place.phrase := by
  have hchildren := h.children
  obtain ⟨parent, hnode, -⟩ := h.node_eq
  have hform : t.view.form x.id = x.place.phrase.form.withChildren 0
      (Phrase.starts (x.id + 1) x.place.phrase.children) := by
    simp [Tree.view, Tree.form, hnode, Phrase.entry]
  have hlist : (Located.view.form x).children =
      Located.list (x.id + 1) x.place.below x.place.phrase.children :=
    Form.children_withChildren _ _ (by simp [Located.list, Phrase.children])
  have hplace (p : Phrase) : (x.place.below p).phrase = p := rfl
  rw [hlist] at hchildren
  simp only [groups, hform, Phrase.ownColumns, Phrase.children] at hchildren ⊢
  generalize x.place.phrase.form = form at hchildren
  cases form with
  | hash items => simpa [Form.withChildren, Form.children] using groupWidths_columns hplace hchildren
  | selector subject items =>
    rw [Form.children, Located.list_cons, List.forall_mem_cons] at hchildren
    simpa [Form.withChildren, Form.children, Phrase.starts] using
      groupWidths_columns hplace hchildren.2
  | resource sigil head collector hasBlock items =>
    cases head with
    | type token =>
      rw [Form.children, Located.list_append, List.forall_mem_append] at hchildren
      have := itemColumns_eq hplace hchildren.2
      cases collector <;> simpa [Form.withChildren, Form.children, Phrase.starts] using this
    | reference head =>
      rw [Form.children, Located.list_cons, Located.list_append, List.forall_mem_cons,
        List.forall_mem_append] at hchildren
      have := itemColumns_eq hplace hchildren.2.2
      cases collector <;> simpa [Form.withChildren, Form.children, Phrase.starts] using this
  | _ => rfl

omit hplace in
/-- Going through the numbers of a forest is going through its phrases. -/
theorem flatMap_groups {first parent : NodeId} {level : Int} {inChain : Bool} (ps : List Phrase)
    {before after : List Node}
    (h : t.nodes.toList = before ++ Phrase.forest first parent level ps ++ after)
    (hbefore : before.length = first) (hchain : (t.category parent == .chain) = inChain) :
    (List.range' first (Phrase.total ps)).flatMap
        (fun id => (groups t.view id).flatMap (groupWidths t.view)) =
      Phrase.forestColumns first ps := by
  generalize hn : Phrase.total ps = n
  induction n using Nat.strongRecOn generalizing first parent level inChain ps before after with
  | ind n ih =>
    cases ps with
    | nil => simp [← hn]
    | cons p ps =>
      have hsize := p.size_eq
      simp only [Phrase.total_cons] at hn
      have hheld := Located.heldBy_list h hbefore hchain ⟨first, inChain, level, p⟩
        (by simp [Located.list_cons])
      have hparent : (t.category first == .chain) = (p.category == .chain) :=
        congrArg (· == Category.chain) hheld.category_eq
      have hchildren : t.nodes.toList = (before ++ [p.entry first parent level]) ++
          Phrase.forest (first + 1) first (level + 1) p.children ++
            (Phrase.forest (first + p.size) parent level ps ++ after) := by
        rw [h, Phrase.forest_cons, Phrase.nodes_eq]
        simp
      have hrest : t.nodes.toList = (before ++ p.nodes first parent level) ++
          Phrase.forest (first + p.size) parent level ps ++ after := by
        rw [h, Phrase.forest_cons]
        simp
      have hinside := ih (Phrase.total p.children) (by omega) p.children hchildren
        (by simp [hbefore]) hparent rfl
      have hafter := ih (Phrase.total ps) (by have := p.size_pos; omega) ps hrest
        (by simp [hbefore]) hchain rfl
      have hrange : List.range' first n = first :: (List.range' (first + 1) (Phrase.total p.children) ++
          List.range' (first + p.size) (Phrase.total ps)) := by
        have hfirst : first + p.size = first + 1 + Phrase.total p.children := by
          rw [hsize, Nat.add_assoc]
        have hcount : n = Phrase.total p.children + Phrase.total ps + 1 := by omega
        rw [hfirst, List.range'_append_1, hcount, List.range'_succ]
      rw [hrange, List.flatMap_cons, List.flatMap_append, hinside, hafter, groups_heldBy hheld,
        Phrase.forestColumns_cons]

omit hplace in
/-- Alignment sets the columns in the list of nodes. -/
theorem toList_align (t : Tree) :
    (align t).nodes.toList = Phrase.setColumns (widths t) t.nodes.toList := by
  unfold align Phrase.setColumns
  generalize widths t = cs
  induction cs generalizing t with
  | nil => rfl
  | cons c cs ih =>
    rw [List.foldl_cons, List.foldl_cons, ih]
    congr 1
    simp [setWidth, Tree.update, Array.toList_modify]

omit hplace in
/-- Aligning a tree of phrases aligns the phrases. -/
theorem align_ofPhrases (ps : List Phrase) :
    align (Tree.ofPhrases ps) = Tree.ofPhrases (ps.map Phrase.aligned) := by
  let manifest : Node := ⟨.manifest (Phrase.starts 1 ps), none, -1, 1, false, false⟩
  have hnodes : (Tree.ofPhrases ps).nodes.toList =
      [manifest] ++ Phrase.forest 1 Tree.root 0 ps ++ [] := by
    simp [Tree.ofPhrases, manifest]
  have hsize : (Tree.ofPhrases ps).size = Phrase.total ps + 1 := by
    simp [Tree.size, Tree.ofPhrases]
  have hwidths : widths (Tree.ofPhrases ps) = Phrase.forestColumns 1 ps := by
    have := flatMap_groups ps hnodes rfl rfl
    rw [widths, hsize, List.range_eq_range', List.range'_succ, List.flatMap_cons, this]
    rfl
  have hcolumns := Phrase.setColumns_forestColumns Tree.root 0 ps
    (show [manifest].length = 1 from rfl) []
  have hstarts : Phrase.starts 1 (ps.map Phrase.aligned) = Phrase.starts 1 ps :=
    Phrase.starts_congr (by simp [Function.comp_def]) 1
  have hlist : (align (Tree.ofPhrases ps)).nodes.toList =
      (Tree.ofPhrases (ps.map Phrase.aligned)).nodes.toList := by
    rw [toList_align, hwidths, hnodes, List.append_assoc, hcolumns]
    simp [Tree.ofPhrases, hstarts, manifest]
  have harray := Array.toList_inj.mp hlist
  rcases h₁ : align (Tree.ofPhrases ps) with ⟨nodes₁, hpos₁⟩
  rcases h₂ : Tree.ofPhrases (ps.map Phrase.aligned) with ⟨nodes₂, hpos₂⟩
  rw [h₁, h₂] at harray
  obtain rfl : nodes₁ = nodes₂ := harray
  rfl

omit hplace in
/-- The canonical text of a tree of phrases. -/
theorem render_ofPhrases (o : Options) (ps : List Phrase) :
    render (Tree.ofPhrases ps) o =
      manifestText o (if o.alignArrows then ps.map Phrase.aligned else ps) := by
  unfold render
  split
  · rw [align_ofPhrases, manifest_ofPhrases]
  · rw [manifest_ofPhrases]

end Layout

end TidyManifest
