import TidyManifest.Proofs.Conservation.Ink
import TidyManifest.Proofs.Tree.Filled

/-!
# Arrows in columns

Two parts of the program cut the body of a resource into groups: the alignment, which gives the pairs
of a group one column, and the layout, which writes the items of a group on lines below each other.
`writtenGroups` are the groups of the layout, and `together_formText` says that they are: the texts of
their items stand together in the text of the node.

The column of every pair of a parsed manifest is decided by the longest key of its written group, and
nothing else changes (`parse_columns`).  For this the groups of the alignment need to have the same
pairs (`mem_widths`), and no pair may be in two of them (`widths_unique`), because a table of nodes is
changed in place.  The alignment makes its groups in one pass over the items, with an open group and
whether a title was seen; `titleGroups_eq` says that these are the sections.
-/

namespace TidyManifest

open Grammar (statements terms chainMembers)

namespace Layout

section

variable {ι : Type}

/-- The groups of items in the body of a resource: one for each title, and one if there is none.
Comments in front of the first title stand apart. -/
def bodyGroups (v : View ι) (items : List ι) : List (List ι) :=
  match sections v items with
  | (lead, []) => [lead]
  | (lead, titles) => (prepend (lead.filter fun id => !v.isComment id) titles).map (·.2)

/-- The groups of items that the layout of a node writes together. -/
def writtenGroups (v : View ι) (id : ι) : List (List ι) :=
  match v.form id with
  | .hash items => [items]
  | .selector _ items => [items]
  | .resource _ _ _ _ items => bodyGroups v items
  | _ => []

/-- The length of the longest key, in characters, among the pairs of a group. -/
def longestKey (v : View ι) (items : List ι) : Nat :=
  (items.filterMap (keyLength? v)).max?.getD 0

/-- A text that consists of given texts in their order, with nothing but white space, commas and
semicolons in front of them, between them and behind them. -/
def Strung : List String → String → Prop
  | [], whole => ink whole = []
  | text :: texts, whole => ∃ gap rest, ink gap = [] ∧ whole = gap ++ text ++ rest ∧ Strung texts rest

/-- White space in front of texts that are strung together changes nothing. -/
theorem Strung.after {gap : String} {texts : List String} {whole : String} (hgap : ink gap = [])
    (h : Strung texts whole) : Strung texts (gap ++ whole) := by
  cases texts with
  | nil => rw [Strung, ink_append, hgap, h]; rfl
  | cons text texts =>
    obtain ⟨first, rest, hfirst, rfl, hrest⟩ := h
    exact ⟨gap ++ first, rest, by simp [hgap, hfirst], by simp [String.append_assoc], hrest⟩

/-- One more text in front, with white space before it and a mark after it. -/
theorem Strung.cons {texts : List String} {whole : String} (h : Strung texts whole) {gap : String}
    (hgap : ink gap = []) (text : String) {mark : String} (hmark : ink mark = []) :
    Strung (text :: texts) (gap ++ text ++ (mark ++ whole)) :=
  ⟨gap, mark ++ whole, hgap, rfl, h.after hmark⟩

variable {v : View ι} {o : Options} {write : ι → Nat → String}

/-- The texts of some nodes stand together in a text. -/
def Together (write : ι → Nat → String) (ids : List ι) (whole : String) : Prop :=
  ∃ depth before body after, whole = before ++ body ++ after ∧
    Strung (ids.map fun id => write id depth) body

/-- Texts that stand together in a part of a text stand together in it. -/
theorem Together.within {ids : List ι} {inner : String} (h : Together write ids inner)
    (before after : String) : Together write ids (before ++ inner ++ after) := by
  obtain ⟨depth, first, body, last, rfl, hbody⟩ := h
  exact ⟨depth, before ++ first, body, last ++ after, by simp [String.append_assoc], hbody⟩

theorem Together.nil (whole : String) : Together write [] whole :=
  ⟨0, whole, "", "", by simp, ink_empty⟩

/-- Items on lines of their own stand together. -/
theorem together_onePerLine (items : List ι) (depth : Nat) (opening closing : String) :
    Together write items (onePerLine v o write items depth opening closing) := by
  let line (id : ι) : String :=
    margin o (depth + 1) ++ write id (depth + 1) ++ (if v.isComment id then "\n" else ",\n")
  refine ⟨depth + 1, opening ++ "\n", String.join (items.map line), margin o depth ++ closing,
    by simp only [onePerLine, String.append_assoc, line], ?_⟩
  induction items with
  | nil => exact ink_empty
  | cons item items ih =>
    have hmark : ink (if v.isComment item then "\n" else ",\n") = [] := by split <;> decide
    have hcons := ih.cons (ink_margin o (depth + 1)) (write item (depth + 1)) hmark
    simpa only [List.map_cons, String.join_cons, String.append_assoc, line] using hcons

/-- The items below a title in a chain stand together. -/
theorem together_compactMembers (members : List ι) (depth : Nat) :
    Together write members (compactMembers v o write depth members) := by
  refine ⟨depth, "", compactMembers v o write depth members, "", by simp, ?_⟩
  induction members with
  | nil => exact ink_empty
  | cons member rest ih =>
    have hmark : ink ((if v.isComment member then "" else if rest.all v.isComment then ";" else ",") ++
        "\n") = [] := by
      split
      · decide
      · split <;> decide
    have hcons := ih.cons (ink_margin o depth) (write member depth) hmark
    simpa only [List.map_cons, compactMembers, String.append_assoc] using hcons

/-- The items below a title stand together in the block of the title. -/
theorem together_titleBlock (depth : Nat) (head : String) (s : ι × List ι) :
    Together write s.2 (titleBlock v o write depth head s) := by
  obtain ⟨title, members⟩ := s
  unfold titleBlock
  dsimp only
  split
  · rename_i hempty
    rw [List.isEmpty_iff.mp hempty]
    exact .nil _
  · have h : Together write members (onePerLine v o write members depth "" "\x7d") :=
      together_onePerLine ..
    simpa using h.within (head ++ " \x7b " ++ write title depth) ""

/-- The items below a title stand together in a resource that is one block. -/
theorem together_compactSection (depth : Nat) (s : ι × List ι) :
    Together write s.2 (compactSection v o write depth s) := by
  obtain ⟨title, members⟩ := s
  have h : Together write members (compactMembers v o write (depth + 2) members) :=
    together_compactMembers ..
  simpa [compactSection] using h.within (margin o (depth + 1) ++ write title (depth + 1) ++
    (if members.all v.isComment then ";" else "") ++ "\n") ""

/-- What stands together in one of some texts does so after they are joined. -/
theorem together_join {s : String} {texts : List String} (hs : s ∈ texts) {ids : List ι}
    (h : Together write ids s) : Together write ids (String.join texts) := by
  obtain ⟨before, after, rfl⟩ := List.append_of_mem hs
  have h := h.within (String.join before) (String.join after)
  simpa [String.join_append, String.join_cons, String.append_assoc] using h

/-- What stands together in one of some texts does so after they are joined with a separator. -/
theorem together_intercalate {s separator : String} {texts : List String} (hs : s ∈ texts)
    {ids : List ι} (h : Together write ids s) : Together write ids (separator.intercalate texts) := by
  match texts, hs with
  | [text], hs =>
    obtain rfl := List.mem_singleton.mp hs
    rwa [String.intercalate_singleton]
  | text :: text' :: texts, hs =>
    rw [String.intercalate_cons_cons]
    rcases List.mem_cons.mp hs with rfl | hs
    · have h := h.within "" (separator ++ separator.intercalate (text' :: texts))
      simpa [String.append_assoc] using h
    · have h : Together write ids (separator.intercalate (text' :: texts)) :=
        together_intercalate hs h
      simpa using h.within (text ++ separator) ""

/-- The items of each title stand together in the body of a resource, whichever way it is written.
-/
theorem together_titledBody {whole : List (ι × List ι)} {s : ι × List ι} (hs : s ∈ whole)
    (depth : Nat) (inChain : Bool) (head : String) :
    Together write s.2 (titledBody v o write depth inChain head whole) := by
  unfold titledBody
  split
  · have h : Together write s.2 (String.join (whole.map (compactSection v o write depth))) :=
      together_join (List.mem_map_of_mem hs) (together_compactSection depth s)
    have h := h.within (head ++ " " ++ ("\x7b" ++ "\n")) (margin o depth ++ "\x7d")
    simpa only [braced, String.append_assoc] using h
  · exact together_intercalate (List.mem_map_of_mem hs) (together_titleBlock depth head s)

/-- The pairs of a hash stand together. -/
theorem together_hashText (items : List ι) (depth : Nat) :
    Together write items (hashText v o write items depth) := by
  unfold hashText
  split
  · rename_i hempty
    rw [List.isEmpty_iff.mp hempty]
    exact .nil _
  · split
    · rename_i text hshort
      obtain ⟨item, rfl, -, rfl⟩ := shortHash?_eq_some hshort
      refine ⟨depth, "\x7b", " " ++ write item depth ++ " ", "\x7d", rfl, ?_⟩
      exact ⟨" ", " ", ink_blank, rfl, ink_blank⟩
    · exact together_onePerLine ..

/-- Every group of the layout stands together in the body of a resource. -/
theorem together_resourceBody {items group : List ι} (hgroup : group ∈ bodyGroups v items)
    (depth : Nat) (inChain : Bool) (head : String) :
    Together write group (resourceBody v o write depth inChain head items) := by
  unfold bodyGroups at hgroup
  rcases hsections : sections v items with ⟨lead, _ | ⟨first, rest⟩⟩
  · rw [hsections] at hgroup
    obtain rfl := List.mem_singleton.mp hgroup
    rw [resourceBody_untitled v o write depth inChain head hsections]
    split
    · rename_i hempty
      rw [List.isEmpty_iff.mp hempty]
      exact .nil _
    · have h : Together write group (onePerLine v o write group depth "\x7b" "\x7d") :=
        together_onePerLine ..
      simpa using h.within (head ++ " ") ""
  · rw [hsections] at hgroup
    obtain ⟨s, hs, rfl⟩ := List.mem_map.mp hgroup
    rw [resourceBody_titled v o write depth inChain head hsections]
    have h : Together write s.2 (titledBody v o write depth inChain head
        (prepend (lead.filter fun id => !v.isComment id) (first :: rest))) :=
      together_titledBody hs depth inChain head
    have h := h.within
      (String.join ((lead.filter v.isComment).map fun id => write id depth ++ "\n" ++ margin o depth)) ""
    simpa using h

/-- The texts of the items of a written group stand together in the text of the node. -/
theorem together_formText {id : ι} {group : List ι} (hgroup : group ∈ writtenGroups v id)
    (hblock : ∀ sigil head collector items,
      v.form id = .resource sigil head collector false items → items = [])
    (depth : Nat) : Together write group (formText v o write id depth) := by
  unfold writtenGroups at hgroup
  unfold formText
  cases hform : v.form id with
  | hash items =>
    rw [hform] at hgroup
    obtain rfl := List.mem_singleton.mp hgroup
    exact together_hashText group depth
  | selector subject items =>
    rw [hform] at hgroup
    obtain rfl := List.mem_singleton.mp hgroup
    have hitems : Together write group (if group.isEmpty then braced ""
        else onePerLine v o write group depth "\x7b" "\x7d") := by
      split
      · rename_i hempty
        rw [List.isEmpty_iff.mp hempty]
        exact .nil _
      · exact together_onePerLine ..
    simpa using hitems.within (write subject depth ++ " ? ") ""
  | resource sigil head collector hasBlock items =>
    rw [hform] at hgroup
    cases hasBlock with
    | true => exact together_resourceBody hgroup depth _ _
    | false =>
      rw [hblock sigil head collector items hform] at hgroup
      obtain rfl := List.mem_singleton.mp hgroup
      exact .nil _
  | _ => rw [hform] at hgroup; cases hgroup

/-- Only a pair has a key. -/
theorem isSome_keyLength? {v : View ι} {id : ι} :
    (keyLength? v id).isSome = true ↔
      ∃ key arrow value width, v.form id = .pair key arrow value width := by
  unfold keyLength?
  cases v.form id <;> simp

/-- The key of a pair has the length of its text. -/
theorem keyLength?_of_form {v : View ι} {id : ι} {key arrow : Token} {value : ι} {width : Nat}
    (h : v.form id = .pair key arrow value width) : keyLength? v id = some key.text.length := by
  rw [keyLength?, h]

/-- The pairs among some items. -/
def pairsOf (v : View ι) (items : List ι) : List ι :=
  items.filter fun id => (keyLength? v id).isSome

/-- The pairs of a group are those of its items that have a key. -/
theorem mem_pairsOf {v : View ι} {items : List ι} {id : ι} :
    id ∈ pairsOf v items ↔ id ∈ items ∧ (keyLength? v id).isSome = true :=
  List.mem_filter

/-- Leaving out what is no pair leaves the keys of a group as they are. -/
theorem filterMap_pairsOf (v : View ι) (items : List ι) :
    (pairsOf v items).filterMap (keyLength? v) = items.filterMap (keyLength? v) := by
  induction items with
  | nil => rfl
  | cons item items ih =>
    rw [pairsOf] at ih ⊢
    rcases hkey : keyLength? v item with _ | n <;> simp [hkey, ih]

/-- The longest key of a group is that of its pairs. -/
theorem longestKey_pairsOf (v : View ι) (items : List ι) :
    longestKey v (pairsOf v items) = longestKey v items := by
  rw [longestKey, filterMap_pairsOf, longestKey]

/-- What has a key is a pair. -/
theorem category_of_keyLength? {v : View ι} {id : ι} (h : (keyLength? v id).isSome = true) :
    v.category id = .pair := by
  obtain ⟨key, arrow, value, width, hform⟩ := isSome_keyLength?.mp h
  rw [View.category, hform]
  rfl

/-- The groups of the alignment have the pairs of the groups of the layout. -/
theorem pairsOf_groups (v : View ι) (id : ι) :
    (groups v id).map (pairsOf v) = (writtenGroups v id).map (pairsOf v) := by
  unfold groups writtenGroups
  cases v.form id with
  | resource sigil head collector hasBlock items =>
    dsimp only
    rw [titleGroups_eq]
    unfold bodyGroups
    rcases sections v items with ⟨lead, _ | ⟨first, rest⟩⟩
    · rfl
    · have hlead : pairsOf v (lead.filter fun id => !v.isComment id) = pairsOf v lead := by
        rw [pairsOf, List.filter_filter]
        refine List.filter_congr fun id _ => ?_
        cases hpair : (keyLength? v id).isSome with
        | true => rw [View.isComment, category_of_keyLength? hpair]; rfl
        | false => rfl
      rw [pairsOf, pairsOf] at hlead
      simp [sectionGroups, prepend, pairsOf, hlead]
  | _ => rfl

/-- A manifest has no groups of its own. -/
theorem category_ne_of_writtenGroups {v : View ι} {id : ι} {group : List ι}
    (h : group ∈ writtenGroups v id) : v.category id ≠ .manifest := by
  unfold writtenGroups at h
  unfold View.category
  cases hform : v.form id <;> simp_all [Form.category]

/-- No key of a group is longer than its longest one. -/
theorem le_longestKey {v : View ι} {id : ι} {group : List ι} {n : Nat} (hid : id ∈ group)
    (hkey : keyLength? v id = some n) : n ≤ longestKey v group :=
  List.le_max?_getD_of_mem (List.mem_filterMap.mpr ⟨id, hid, hkey⟩)

/-- The groups in the body of a resource have its items in order, some left out. -/
theorem bodyGroups_sublist (v : View ι) (items : List ι) :
    (bodyGroups v items).flatten.Sublist items := by
  have hitems := flatten_sectionsBy (fun id => v.category id == .title) items
  have hrest (rest : List (ι × List ι)) :
      (rest.map (·.2)).flatten.Sublist (rest.flatMap fun s => s.1 :: s.2) := by
    induction rest with
    | nil => exact List.Sublist.refl _
    | cons s rest ih =>
      rw [List.map_cons, List.flatten_cons, List.flatMap_cons, List.cons_append]
      exact ((List.Sublist.refl s.2).append ih).cons s.1
  unfold bodyGroups
  rcases hsections : sections v items with ⟨lead, _ | ⟨first, rest⟩⟩
  · rw [← sections, hsections] at hitems
    obtain rfl : lead = items := by simpa using hitems
    simp
  · rw [← sections, hsections] at hitems
    rw [← hitems]
    simp only [prepend, List.map_cons, List.flatten_cons, List.flatMap_cons, List.append_assoc,
      List.cons_append]
    exact List.filter_sublist.append (((List.Sublist.refl first.2).append (hrest rest)).cons first.1)

/-- The groups of a node have its children in order, some left out. -/
theorem writtenGroups_sublist (v : View ι) (id : ι) :
    (writtenGroups v id).flatten.Sublist (v.form id).children := by
  unfold writtenGroups
  cases v.form id with
  | hash items => simp [Form.children]
  | selector subject items => simp [Form.children]
  | resource sigil head collector hasBlock items =>
    refine (bodyGroups_sublist v items).trans ?_
    cases head with
    | type token => exact List.sublist_append_right collector.toList items
    | reference head => exact (List.sublist_append_right collector.toList items).cons head
  | _ => simp

/-- Every pair among the items of a resource is in a group. -/
theorem exists_bodyGroup {v : View ι} {items : List ι} {id : ι} (hmem : id ∈ items)
    (hpair : (keyLength? v id).isSome = true) : ∃ group ∈ bodyGroups v items, id ∈ group := by
  have hcategory := category_of_keyLength? hpair
  have hcomment : v.isComment id = false := by rw [View.isComment, hcategory]; rfl
  have htitle : v.category id ≠ .title := by simp [hcategory]
  have hitems := flatten_sectionsBy (fun id => v.category id == .title) items
  have hsectioned := sectioned_sectionsBy (fun id => v.category id == .title) items
  rw [← sections] at hitems hsectioned
  unfold bodyGroups
  rcases hsections : sections v items with ⟨lead, _ | ⟨first, rest⟩⟩
  · rw [hsections] at hitems
    obtain rfl : lead = items := by simpa using hitems
    exact ⟨lead, by simp, hmem⟩
  · rw [hsections] at hitems hsectioned
    rw [← hitems] at hmem
    have hsection : id ∈ lead ∨ ∃ s ∈ first :: rest, id ∈ s.2 := by
      rcases List.mem_append.mp hmem with hlead | hsections
      · exact .inl hlead
      · obtain ⟨s, hs, hid⟩ := List.mem_flatMap.mp hsections
        rcases List.mem_cons.mp hid with rfl | hid
        · exact absurd (by simpa using hsectioned.titles s hs) htitle
        · exact .inr ⟨s, hs, hid⟩
    rcases hsection with hlead | ⟨s, hs, hid⟩
    · exact ⟨_, List.mem_cons_self, List.mem_append_left _
        (List.mem_filter.mpr ⟨hlead, by simp [hcomment]⟩)⟩
    · rcases List.mem_cons.mp hs with rfl | hs
      · exact ⟨_, List.mem_cons_self, List.mem_append_right _ hid⟩
      · exact ⟨s.2, List.mem_cons_of_mem _ (List.mem_map_of_mem hs), hid⟩

end

/-- Lists without a common element, each in its place. -/
theorem eq_of_mem_of_nodup_flatten {α : Type} {lists : List (List α)} (h : lists.flatten.Nodup)
    {as bs : List α} (has : as ∈ lists) (hbs : bs ∈ lists) {a : α} (ha : a ∈ as) (hb : a ∈ bs) :
    as = bs := by
  induction lists with
  | nil => cases has
  | cons cs lists ih =>
    rw [List.flatten_cons, List.nodup_append] at h
    obtain ⟨-, hlists, hdisjoint⟩ := h
    rcases List.mem_cons.mp has with hcs | has
    · rcases List.mem_cons.mp hbs with hcs' | hbs
      · rw [hcs, hcs']
      · exact absurd rfl (hdisjoint a (hcs ▸ ha) a (List.mem_flatten_of_mem hbs hb))
    · rcases List.mem_cons.mp hbs with hcs | hbs
      · exact absurd rfl (hdisjoint a (hcs ▸ hb) a (List.mem_flatten_of_mem has ha))
      · exact ih hlists has hbs

/-- The columns of a tree, by the groups of the layout. -/
theorem mem_widths {t : Tree} {id : NodeId} {width : Nat} :
    (id, width) ∈ widths t ↔ ∃ owner < t.size, ∃ group ∈ writtenGroups t.view owner,
      id ∈ pairsOf t.view group ∧ width = longestKey t.view group := by
  -- both sides ask for a list of pairs, and the lists of pairs are the same
  have hgroups (owner : NodeId) :
      (∃ group ∈ groups t.view owner, id ∈ pairsOf t.view group ∧ width = longestKey t.view group) ↔
        ∃ group ∈ writtenGroups t.view owner,
          id ∈ pairsOf t.view group ∧ width = longestKey t.view group := by
    have hlists (lists : List (List NodeId)) :
        (∃ group ∈ lists, id ∈ pairsOf t.view group ∧ width = longestKey t.view group) ↔
          ∃ pairs ∈ lists.map (pairsOf t.view), id ∈ pairs ∧ width = longestKey t.view pairs := by
      simp only [List.mem_map]
      constructor
      · rintro ⟨group, hgroup, hid, hwidth⟩
        exact ⟨_, ⟨group, hgroup, rfl⟩, hid, by rw [longestKey_pairsOf, hwidth]⟩
      · rintro ⟨_, ⟨group, hgroup, rfl⟩, hid, hwidth⟩
        exact ⟨group, hgroup, hid, by rw [hwidth, longestKey_pairsOf]⟩
    rw [hlists, hlists, pairsOf_groups]
  have hwidths (group : List NodeId) : (id, width) ∈ groupWidths t.view group ↔
      id ∈ pairsOf t.view group ∧ width = longestKey t.view group := by
    rw [groupWidths_eq, List.mem_map]
    constructor
    · rintro ⟨_, hid, heq⟩
      cases heq
      exact ⟨hid, rfl⟩
    · rintro ⟨hid, rfl⟩
      exact ⟨id, hid, rfl⟩
  simp only [widths, List.mem_flatMap, List.mem_range, hwidths, hgroups]

/-- Setting a column again changes nothing. -/
theorem widened_widened (w : Nat) (n : Node) : widened w (widened w n) = widened w n := by
  obtain ⟨form, parent, level, line, inner, outer⟩ := n
  cases form <;> rfl

/-- Setting a column adds no nodes. -/
@[simp] theorem size_setWidth (t : Tree) (id : NodeId) (w : Nat) : (setWidth t id w).size = t.size := by
  simp [setWidth, Tree.update, Tree.size]

/-- Setting a column changes one node and leaves all others as they are. -/
theorem node_setWidth (t : Tree) (target id : NodeId) (w : Nat) :
    (setWidth t target w).node id = if target = id then widened w (t.node id) else t.node id := by
  simp only [setWidth, Tree.update, Tree.node, Array.getElem?_modify]
  split
  · cases t.nodes[id]? <;> rfl
  · rfl

/-- Setting columns one after the other, where no node gets two different ones. -/
theorem node_setWidths {ws : List (NodeId × Nat)} {id : NodeId} {w : Nat}
    (hone : ∀ w', (id, w') ∈ ws → w' = w) (t : Tree) :
    (ws.foldl (fun t (id, width) => setWidth t id width) t).node id =
      if (id, w) ∈ ws then widened w (t.node id) else t.node id := by
  induction ws generalizing t with
  | nil => rfl
  | cons c ws ih =>
    obtain ⟨target, w'⟩ := c
    rw [List.foldl_cons, ih fun w' h => hone w' (by simp [h]), node_setWidth]
    by_cases htarget : target = id
    · subst htarget
      obtain rfl := hone w' (by simp)
      simp only [if_true, List.mem_cons, true_or, widened_widened]
      split <;> rfl
    · have hne : ¬ (id, w) = (target, w') := fun h => htarget (Prod.mk.inj h).1.symm
      simp [htarget, hne]

/-- Alignment adds no nodes. -/
theorem size_align (t : Tree) : (align t).size = t.size := by
  have hsize (ws : List (NodeId × Nat)) (t : Tree) :
      (ws.foldl (fun t (id, width) => setWidth t id width) t).size = t.size := by
    induction ws generalizing t with
    | nil => rfl
    | cons c ws ih => rw [List.foldl_cons, ih, size_setWidth]
  exact hsize _ t

end Layout

namespace Form

variable {ι : Type} {categoryOf : ι → Category} {ok : Token → Prop}

/-- The items of contents whose arrows are aligned. -/
def items : Form ι → List ι
  | hash items => items
  | selector _ items => items
  | resource _ _ _ _ items => items
  | _ => []

/-- Pairs stand among items only. -/
theorem Filled.mem_items {form : Form ι} (h : (form.map categoryOf).Filled ok) {x : ι}
    (hx : x ∈ form.children) (hpair : categoryOf x = .pair) : x ∈ form.items := by
  have hstatements : Category.pair ∉ statements := by decide
  have hmembers : Category.pair ∉ chainMembers := by decide
  have hterms : Category.pair ∉ terms := by decide
  cases form with
  | pending => exact False.elim h
  | manifest => exact False.elim h
  | resource sigil head collector hasBlock items =>
    obtain ⟨-, hhead, hcollector, -⟩ := h
    rw [forall_mem_option_map] at hcollector
    cases head with
    | type => grind [Form.children, Form.items]
    | reference y => grind [Form.children, Form.items, Head.map, Head.Filled]
  | expression parts =>
    obtain ⟨part, hpart, hterm⟩ := List.mem_filterMap.mp hx
    have hfilled := h.2 _ (List.mem_map_of_mem hpart)
    cases part <;> grind [Part.term?, Part.map, Part.Filled]
  | _ =>
    simp only [Form.map, Form.Filled, Form.children, Expressions, List.subset_def,
      List.forall_mem_map, forall_mem_option_map] at h hx
    grind [Form.items]

end Form

/-- Every node of a tree of filled phrases is filled. -/
theorem Tree.filled_ofPhrases {ps : List Phrase} {ok : Token → Prop} (h : ∀ p ∈ ps, p.Filled ok)
    {id : NodeId} (hid : (ofPhrases ps).category id ≠ .manifest) :
    (((ofPhrases ps).form id).map (ofPhrases ps).category).Filled ok := by
  have hpos : 0 < id := Nat.pos_of_ne_zero fun hzero => hid (by rw [hzero]; rfl)
  have hlt := lt_size_of_category hid
  rw [size_ofPhrases] at hlt
  obtain ⟨parent, p, hstands, hp⟩ := (stands_ofPhrases ps).find (P := fun _ p => p.Filled ok)
    (fun h q hq => h.child hq) h hpos hlt
  rw [hstands.heldBy.map_category]
  exact hp.filled_form

/-- Trees with the same nodes. -/
theorem Tree.ext_node {t t' : Tree} (hsize : t.size = t'.size) (hnode : ∀ id, t.node id = t'.node id) :
    t = t' := by
  obtain ⟨nodes, hpos⟩ := t
  obtain ⟨nodes', hpos'⟩ := t'
  have : nodes = nodes' := by
    refine Array.ext hsize fun id hid hid' => ?_
    have := hnode id
    simpa [Tree.node, hid, hid'] using this
  subst this
  rfl

namespace Layout

/-- Every pair of a tree of statements is in a group. -/
theorem exists_writtenGroup {ps : List Phrase} {ok : Token → Prop}
    (h : ∀ p ∈ ps, p.category ∈ Grammar.statements ∧ p.Filled ok) {id : NodeId}
    (hid : (Tree.ofPhrases ps).category id = .pair) :
    ∃ owner, ∃ group ∈ writtenGroups (Tree.ofPhrases ps).view owner, id ∈ group := by
  have hpos : 0 < id := Nat.pos_of_ne_zero fun hzero => by rw [hzero] at hid; cases hid
  have hlt : id < (Tree.ofPhrases ps).size := Tree.lt_size_of_category (by simp [hid])
  rw [Tree.size_ofPhrases] at hlt
  -- statements are not pairs, so the parent is not the root
  obtain ⟨owner, q, hstands, hstatement, hq⟩ := (Tree.stands_ofPhrases ps).find
    (P := fun parent p => (parent = .manifest → p.category ∈ Grammar.statements) ∧ p.Filled ok)
    (fun hp q hq => ⟨fun hmanifest => absurd hmanifest hp.2.category_ne, hp.2.child hq⟩)
    (fun p hp => ⟨fun _ => (h p hp).1, (h p hp).2⟩) hpos hlt
  have hcategory : q.category = .pair := hstands.heldBy.category_eq.symm.trans hid
  have howner : (Tree.ofPhrases ps).category owner ≠ .manifest := fun hmanifest => by
    have := hstatement hmanifest
    rw [hcategory] at this
    exact absurd this (by decide)
  have hitems : id ∈ ((Tree.ofPhrases ps).form owner).items :=
    (Tree.filled_ofPhrases (fun p hp => (h p hp).2) howner).mem_items
      (hstands.children id (by simp [Phrase.starts])) hid
  have hpair : (keyLength? (Tree.ofPhrases ps).view id).isSome = true := by
    obtain ⟨key, arrow, value, width, hform⟩ := hq.form_eq_pair hcategory
    rw [hstands.heldBy.keyLength?_eq, Phrase.keyLength?, hform]
    rfl
  refine ⟨owner, ?_⟩
  unfold writtenGroups
  change id ∈ ((Tree.ofPhrases ps).view.form owner).items at hitems
  cases hform : (Tree.ofPhrases ps).view.form owner with
  | resource sigil head collector hasBlock items =>
    rw [hform] at hitems
    exact exists_bodyGroup hitems hpair
  | hash items => rw [hform] at hitems; exact ⟨items, by simp, hitems⟩
  | selector subject items => rw [hform] at hitems; exact ⟨items, by simp, hitems⟩
  | _ => rw [hform] at hitems; cases hitems

/-- No pair of a tree of phrases gets two columns. -/
theorem widths_unique {ps : List Phrase} {id : NodeId} {w w' : Nat}
    (h : (id, w) ∈ widths (Tree.ofPhrases ps)) (h' : (id, w') ∈ widths (Tree.ofPhrases ps)) :
    w = w' := by
  obtain ⟨owner, hlt, group, hgroup, hid, rfl⟩ := mem_widths.mp h
  obtain ⟨owner', hlt', group', hgroup', hid', rfl⟩ := mem_widths.mp h'
  have hchild {owner : NodeId} {group : List NodeId}
      (hgroup : group ∈ writtenGroups (Tree.ofPhrases ps).view owner) (hid : id ∈ group) :
      id ∈ (Tree.ofPhrases ps).children owner :=
    (writtenGroups_sublist _ _).subset (List.mem_flatten_of_mem hgroup hid)
  have hid := (mem_pairsOf.mp hid).1
  have hid' := (mem_pairsOf.mp hid').1
  have hparent := (Tree.children_ofPhrases hlt).2 id (hchild hgroup hid)
  have hparent' := (Tree.children_ofPhrases hlt').2 id (hchild hgroup' hid')
  obtain rfl : owner = owner' := Option.some.inj (hparent.symm.trans hparent')
  have hnodup := (writtenGroups_sublist (Tree.ofPhrases ps).view owner).nodup
    (Tree.children_ofPhrases hlt).1
  rw [eq_of_mem_of_nodup_flatten hnodup hgroup hgroup' hid hid']

/-- A text is padded to its width with blanks. -/
theorem padRight_eq {text : String} {width : Nat} (h : text.length ≤ width) :
    ∃ blanks : String, (∀ c ∈ blanks.toList, c = ' ') ∧ (text ++ blanks).length = width + 1 ∧
      padRight width text ++ " " = text ++ blanks := by
  refine ⟨String.ofList (List.replicate (width - text.length) ' ') ++ " ", ?_, ?_, ?_⟩
  · intro c hc
    rw [String.toList_append, String.toList_ofList, List.mem_append] at hc
    rcases hc with hc | hc
    · exact List.eq_of_mem_replicate hc
    · simpa using hc
  · simp only [String.length_append, String.length_ofList, List.length_replicate]
    have : " ".length = 1 := rfl
    omega
  · rw [padRight, String.append_assoc]

/-- A pair is written with its key padded to the column of its arrow. -/
theorem formText_pair {ι : Type} {v : View ι} {id value : ι} {key arrow : Token} {width : Nat}
    (h : v.form id = .pair key arrow value width) (o : Options) (write : ι → Nat → String)
    (depth : Nat) :
    formText v o write id depth =
      padRight width key.text ++ " " ++ arrow.text ++ " " ++ write value depth := by
  simp only [formText, h]

/-- Views of the same nodes, which differ at most in the columns of pairs. -/
def SameButColumns {ι : Type} (v v' : View ι) : Prop :=
  ∀ id, v'.form id = v.form id ∨ ∃ key arrow value width width',
    v.form id = .pair key arrow value width ∧ v'.form id = .pair key arrow value width'

namespace SameButColumns

variable {ι : Type} {v v' : View ι} (h : SameButColumns v v')

include h

/-- Views that differ in columns show the same categories. -/
theorem category_eq : v'.category = v.category := by
  funext id
  rcases h id with heq | ⟨key, arrow, value, width, width', hform, hform'⟩
  · rw [View.category, heq, View.category]
  · rw [View.category, hform', View.category, hform]
    rfl

/-- Views that differ in columns show the same keys. -/
theorem keyLength?_eq : keyLength? v' = keyLength? v := by
  funext id
  rcases h id with heq | ⟨key, arrow, value, width, width', hform, hform'⟩
  · rw [keyLength?, heq, keyLength?]
  · rw [keyLength?, hform', keyLength?, hform]

/-- Views that differ in columns are aligned in the same groups. -/
theorem groups_eq : groups v' = groups v := by
  funext id
  have hbodies (items : List ι) : titleGroups v' [] false items = titleGroups v [] false items := by
    rw [titleGroups_eq, titleGroups_eq, sections, h.category_eq, sections]
  rcases h id with heq | ⟨key, arrow, value, width, width', hform, hform'⟩
  · simp only [groups, heq, hbodies]
  · rw [groups, hform', groups, hform]

/-- Views that differ in columns are written in the same groups. -/
theorem writtenGroups_eq : writtenGroups v' = writtenGroups v := by
  funext id
  have hbodies : bodyGroups v' = bodyGroups v := by
    funext items
    simp only [bodyGroups, sections, View.isComment, h.category_eq]
  rcases h id with heq | ⟨key, arrow, value, width, width', hform, hform'⟩
  · rw [writtenGroups, heq, writtenGroups, hbodies]
  · rw [writtenGroups, hform', writtenGroups, hform]

/-- Views that differ in columns ask for the same columns. -/
theorem groupWidths_eq : groupWidths v' = groupWidths v := by
  funext items
  rw [groupWidths, h.keyLength?_eq, groupWidths]

end SameButColumns

section

variable {ps : List Phrase} {id : NodeId} {w : Nat}

/-- A pair in a group gets the column of the group. -/
theorem node_align_of_mem (h : (id, w) ∈ widths (Tree.ofPhrases ps)) :
    (align (Tree.ofPhrases ps)).node id = widened w ((Tree.ofPhrases ps).node id) := by
  rw [align, node_setWidths fun w' h' => widths_unique h' h, if_pos h]

/-- A node for which no column is set stays as it is. -/
theorem node_align_of_not_mem (h : ∀ w, (id, w) ∉ widths (Tree.ofPhrases ps)) :
    (align (Tree.ofPhrases ps)).node id = (Tree.ofPhrases ps).node id := by
  rw [align, node_setWidths (w := 0) fun w' h' => absurd h' (h w'), if_neg (h 0)]

/-- Alignment changes pairs only. -/
theorem node_align_of_not_pair (h : (Tree.ofPhrases ps).category id ≠ .pair) :
    (align (Tree.ofPhrases ps)).node id = (Tree.ofPhrases ps).node id := by
  refine node_align_of_not_mem fun w hmem => h ?_
  obtain ⟨-, -, group, -, hid, -⟩ := mem_widths.mp hmem
  exact category_of_keyLength? (mem_pairsOf.mp hid).2

/-- Alignment changes columns only. -/
theorem sameButColumns_align (ps : List Phrase) :
    SameButColumns (Tree.ofPhrases ps).view (align (Tree.ofPhrases ps)).view := by
  intro id
  change (align (Tree.ofPhrases ps)).form id = (Tree.ofPhrases ps).form id ∨ _
  by_cases h : ∃ w, (id, w) ∈ widths (Tree.ofPhrases ps)
  · obtain ⟨w, hw⟩ := h
    obtain ⟨-, -, group, -, hid, -⟩ := mem_widths.mp hw
    obtain ⟨key, arrow, value, width, hform⟩ := isSome_keyLength?.mp (mem_pairsOf.mp hid).2
    refine .inr ⟨key, arrow, value, width, w, hform, ?_⟩
    change ((align (Tree.ofPhrases ps)).node id).form = _
    rw [node_align_of_mem hw]
    change ((Tree.ofPhrases ps).node id).form = _ at hform
    rw [widened, hform]
  · exact .inl (by rw [Tree.form, node_align_of_not_mem (not_exists.mp h), Tree.form])

/-- Aligning twice is aligning once. -/
theorem align_align (ps : List Phrase) :
    align (align (Tree.ofPhrases ps)) = align (Tree.ofPhrases ps) := by
  have hsame := sameButColumns_align ps
  have hwidths : widths (align (Tree.ofPhrases ps)) = widths (Tree.ofPhrases ps) := by
    simp only [widths, size_align, hsame.groups_eq, hsame.groupWidths_eq]
  refine Tree.ext_node (size_align _) fun id => ?_
  rw [align, hwidths]
  by_cases h : ∃ w, (id, w) ∈ widths (Tree.ofPhrases ps)
  · obtain ⟨w, hw⟩ := h
    rw [node_setWidths fun w' h' => widths_unique h' hw, if_pos hw, node_align_of_mem hw,
      widened_widened]
  · have h := not_exists.mp h
    rw [node_setWidths (w := 0) fun w' h' => absurd h' (h w'), if_neg (h 0)]

section

variable {owner : NodeId} {group : List NodeId}
  (hgroup : group ∈ writtenGroups (Tree.ofPhrases ps).view owner)

include hgroup

/-- A pair in a group gets the length of the longest key there. -/
theorem node_align_pair (hid : id ∈ group) {key arrow : Token} {value : NodeId} {width : Nat}
    (hform : (Tree.ofPhrases ps).form id = .pair key arrow value width) :
    (align (Tree.ofPhrases ps)).node id = { (Tree.ofPhrases ps).node id with
      form := .pair key arrow value (longestKey (Tree.ofPhrases ps).view group) } := by
  have hmem : (id, longestKey (Tree.ofPhrases ps).view group) ∈ widths (Tree.ofPhrases ps) :=
    mem_widths.mpr ⟨owner, Tree.lt_size_of_category (category_ne_of_writtenGroups hgroup), group,
      hgroup, mem_pairsOf.mpr ⟨hid, isSome_keyLength?.mpr ⟨key, arrow, value, width, hform⟩⟩, rfl⟩
  rw [Tree.form] at hform
  rw [node_align_of_mem hmem, widened, hform]

/-- The arrow of a pair stands behind the longest key of its group. -/
theorem text_align_pair (hid : id ∈ group) {key arrow : Token} {value : NodeId} {width : Nat}
    (hform : (Tree.ofPhrases ps).form id = .pair key arrow value width) (o : Options) (depth : Nat) :
    ∃ blanks : String, (∀ c ∈ blanks.toList, c = ' ') ∧
      (key.text ++ blanks).length = longestKey (Tree.ofPhrases ps).view group + 1 ∧
      text (align (Tree.ofPhrases ps)) o id depth = key.text ++ blanks ++ arrow.text ++ " " ++
        text (align (Tree.ofPhrases ps)) o value depth := by
  have haligned := congrArg Node.form (node_align_pair hgroup hid hform)
  obtain ⟨blanks, hblanks, hlength, hpad⟩ := padRight_eq (le_longestKey hid
    (keyLength?_of_form (v := (Tree.ofPhrases ps).view) hform))
  refine ⟨blanks, hblanks, hlength, ?_⟩
  rw [align_ofPhrases] at haligned ⊢
  have hcategory : (Tree.ofPhrases (ps.map Phrase.aligned)).category id ≠ .manifest := by
    rw [Tree.category, Node.category, haligned]
    simp [Form.category]
  rw [Tree.text_ofPhrases hcategory, formText_pair (v := (Tree.ofPhrases _).view) haligned, hpad]

/-- The items of a group stand together in the text of the aligned tree. -/
theorem together_align (hregular : (Tree.ofPhrases ps).Regular) (o : Options) (depth : Nat) :
    Together (text (align (Tree.ofPhrases ps)) o) group
      (text (align (Tree.ofPhrases ps)) o owner depth) := by
  have howner := category_ne_of_writtenGroups hgroup
  have hsame := sameButColumns_align ps
  have hblock : ∀ sigil head collector items,
      (align (Tree.ofPhrases ps)).view.form owner = .resource sigil head collector false items →
        items = [] := by
    intro sigil head collector items hform
    have hsource : (Tree.ofPhrases ps).form owner = .resource sigil head collector false items := by
      rcases hsame owner with heq | ⟨key, arrow, value, width, width', -, hpair⟩
      · exact heq.symm.trans hform
      · cases hform.symm.trans hpair
    have hown := hregular.form owner (Tree.lt_size_of_category howner)
    rw [hsource] at hown
    simpa using (hown.2 rfl).2
  rw [← hsame.writtenGroups_eq] at hgroup
  have hcategory : (align (Tree.ofPhrases ps)).view.category owner ≠ .manifest := by
    rwa [hsame.category_eq]
  rw [align_ofPhrases] at hgroup hblock hcategory ⊢
  rw [Tree.text_ofPhrases hcategory]
  exact together_formText hgroup hblock depth

end

end

/-- The arrows of a tree are in columns when it is aligned. -/
structure Columns (t : Tree) (o : Options) : Prop where
  size : (align t).size = t.size
  /-- nodes that are not pairs stay as they are -/
  others : ∀ id, t.category id ≠ .pair → (align t).node id = t.node id
  /-- every pair is in a group that is written together -/
  grouped : ∀ id, t.category id = .pair →
    ∃ owner, ∃ group ∈ writtenGroups t.view owner, id ∈ group
  /-- a pair gets the length of the longest key of its group, and stays as it is otherwise -/
  pairs : ∀ owner, ∀ group ∈ writtenGroups t.view owner, ∀ id ∈ group, ∀ key arrow value width,
    t.form id = .pair key arrow value width →
      (align t).node id =
        { t.node id with form := .pair key arrow value (longestKey t.view group) }
  /-- so its arrow comes after the key and blanks, one more character than the longest key has -/
  arrows : ∀ owner, ∀ group ∈ writtenGroups t.view owner, ∀ id ∈ group, ∀ key arrow value width,
    t.form id = .pair key arrow value width → ∀ depth, ∃ blanks : String,
      (∀ c ∈ blanks.toList, c = ' ') ∧ (key.text ++ blanks).length = longestKey t.view group + 1 ∧
        text (align t) o id depth =
          key.text ++ blanks ++ arrow.text ++ " " ++ text (align t) o value depth
  /-- the items of a group stand together in the text of the node -/
  together : ∀ owner, ∀ group ∈ writtenGroups t.view owner, ∀ depth,
    Together (text (align t) o) group (text (align t) o owner depth)
  /-- aligning again changes nothing -/
  stable : align (align t) = align t

end Layout

open Layout

/-- The arrows of every parsed manifest are aligned in columns, by the groups that are written
together. -/
theorem parse_columns {mode : SplitMode} {tokens : List Token} {t : Tree}
    (h : parse mode tokens = .ok t) (o : Options) : Columns t o := by
  obtain ⟨ps, hps, rfl⟩ := parse_eq_ok h
  have hregular : (Tree.ofPhrases (mode.statements ps)).Regular :=
    Tree.regular_ofPhrases (regular_statements hps)
  have hfilled : ∀ p ∈ mode.statements ps, p.category ∈ Grammar.statements ∧
      p.Filled fun _ => True := filled_statements hps fun _ _ => trivial
  exact {
    size := size_align _
    others := fun _ => node_align_of_not_pair
    grouped := fun _ => exists_writtenGroup hfilled
    pairs := fun _ _ hgroup _ hid _ _ _ _ => node_align_pair hgroup hid
    arrows := fun _ _ hgroup _ hid _ _ _ _ hform => text_align_pair hgroup hid hform o
    together := fun _ _ hgroup => together_align hgroup hregular o
    stable := align_align _ }

/-- A resource with two titles: a short key in front of the first one and a long key below it, and a
hash below the second one. -/
theorem parse_columns_of_titles :
    let tokens : List Token :=
      [⟨.name, "f", 1⟩, ⟨.leftBrace, "\x7b", 1⟩, ⟨.comment, "#c", 1⟩, ⟨.newline, "\n", 1⟩,
       ⟨.name, "x", 2⟩, ⟨.fatArrow, "=>", 2⟩, ⟨.number, "1", 2⟩, ⟨.comma, ",", 2⟩, ⟨.name, "a", 2⟩,
       ⟨.colon, ":", 2⟩, ⟨.name, "long", 2⟩, ⟨.fatArrow, "=>", 2⟩, ⟨.number, "2", 2⟩,
       ⟨.semicolon, ";", 2⟩, ⟨.name, "b", 2⟩, ⟨.colon, ":", 2⟩, ⟨.name, "yy", 2⟩,
       ⟨.fatArrow, "=>", 2⟩, ⟨.leftBrace, "\x7b", 2⟩, ⟨.name, "z", 2⟩, ⟨.fatArrow, "=>", 2⟩,
       ⟨.number, "3", 2⟩, ⟨.rightBrace, "\x7d", 2⟩, ⟨.rightBrace, "\x7d", 2⟩]
    ∃ t, parse .render tokens = .ok t ∧
      (List.range t.size).map (writtenGroups t.view) =
        [[], [[3, 9], [15]], [], [], [], [], [], [], [], [], [], [], [], [], [], [], [], [[18]],
          [], [], []] ∧
      (List.range t.size).filterMap (fun id =>
        match (align t).form id with
        | .pair key _ _ width => some (key.text, width)
        | _ => none) = [("x", 4), ("long", 4), ("yy", 2), ("z", 1)] ∧ Columns t {} := by
  intro tokens
  have hok : (parse .render tokens).toOption.map (fun t =>
      ((List.range t.size).map (writtenGroups t.view), (List.range t.size).filterMap fun id =>
        match (align t).form id with
        | .pair key _ _ width => some (key.text, width)
        | _ => none)) =
      some ([[], [[3, 9], [15]], [], [], [], [], [], [], [], [], [], [], [], [], [], [], [], [[18]],
          [], [], []], [("x", 4), ("long", 4), ("yy", 2), ("z", 1)]) := by decide +kernel
  rcases hparse : parse .render tokens with e | t
  · rw [hparse] at hok
    cases hok
  · rw [hparse] at hok
    obtain ⟨hgroups, hwidths⟩ := Prod.mk.inj (Option.some.inj hok)
    exact ⟨t, rfl, hgroups, hwidths, parse_columns hparse {}⟩

end TidyManifest
