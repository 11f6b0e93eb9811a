import TidyManifest.Proofs.Agree.State
import TidyManifest.Proofs.Layout.Naturality

/-!
# The layout of phrases

A tree that holds phrases in preorder is laid out as the phrases are: the numbers of nodes and the
number of nodes in the tree have no influence (`manifest_ofPhrases`).  From here on the layout is a
function of phrases, `Placed.text`, and satisfies one equation (`Placed.text_eq`).
-/

namespace TidyManifest

/-- A phrase at a place: whether its parent is a chain, and its level. -/
structure Placed where
  inChain : Bool
  level : Int
  phrase : Phrase

namespace Placed

/-- A child, with its place. -/
def below (x : Placed) (p : Phrase) : Placed :=
  ⟨x.phrase.category == .chain, x.level + 1, p⟩

/-- Phrases as they are seen by the layout. -/
def view : View Placed where
  form x := x.phrase.form.map x.below
  level x := x.level
  innerSpacing x := x.phrase.category.rule.innerSpacing
  outerSpacing x := x.phrase.outerSpacing
  inChain x := x.inChain

/-- The text of a phrase.  Phrases cannot be nested more deeply than they have nodes. -/
def text (o : Layout.Options) (x : Placed) (depth : Nat) : String :=
  Layout.textWithin view o x.phrase.size x depth

end Placed

namespace Layout

/-- A view seen through itself. -/
theorem maps_id {α : Type} (v : View α) (x : α) : v.Maps v id x :=
  ⟨by simp, rfl, rfl, rfl, rfl⟩

section

variable {o : Options}

/-- A view is alike to itself if the texts are the same. -/
theorem alike_id {α : Type} {v : View α} {write write' : α → Nat → String} {xs : List α}
    (h : ∀ x ∈ xs, ∀ depth, write' x depth = write x depth) : Alike v v id write write' xs :=
  fun x hx => ⟨maps_id v x, h x hx⟩

/-- A child that the view shows has fewer nodes than its parent. -/
theorem mem_children_view {x y : Placed} (h : y ∈ (Placed.view.form x).children) :
    y.phrase.size < x.phrase.size := by
  simp only [Placed.view, Form.children_map, List.mem_map] at h
  obtain ⟨q, hq, rfl⟩ := h
  exact Phrase.size_lt_of_mem hq

/-- More levels than a phrase has nodes do not change its text. -/
theorem textWithin_eq {n m : Nat} {x : Placed} (hn : x.phrase.size ≤ n) (hm : x.phrase.size ≤ m)
    (depth : Nat) : textWithin Placed.view o n x depth = textWithin Placed.view o m x depth := by
  induction n generalizing m x depth with
  | zero => exact absurd hn (Nat.not_le.mpr x.phrase.size_pos)
  | succ n ih =>
    cases m with
    | zero => exact absurd hm (Nat.not_le.mpr x.phrase.size_pos)
    | succ m =>
      rw [textWithin, textWithin]
      refine formText_map (maps_id Placed.view x) (alike_id fun y hy depth => ?_) depth
      have := mem_children_view hy
      exact ih (by omega) (by omega) depth

end

end Layout

/-- The text of a phrase from the texts of its children. -/
theorem Placed.text_eq (o : Layout.Options) (x : Placed) (depth : Nat) :
    x.text o depth = Layout.formText Placed.view o (fun y depth => y.text o depth) x depth := by
  obtain ⟨n, hn⟩ := Nat.exists_eq_succ_of_ne_zero (Nat.ne_of_gt x.phrase.size_pos)
  rw [text, hn, Layout.textWithin]
  refine Layout.formText_map (Layout.maps_id Placed.view x)
    (Layout.alike_id fun y hy depth => ?_) depth
  have := Layout.mem_children_view hy
  exact Layout.textWithin_eq (by omega) (Nat.le_refl _) depth

/-- A phrase at a place, with the number of its node. -/
structure Located where
  id : NodeId
  place : Placed

namespace Located

/-- The phrases of a list, from a number on. -/
def list (first : NodeId) (place : Phrase → Placed) (ps : List Phrase) : List Located :=
  List.zipWith (fun id p => ⟨id, place p⟩) (Phrase.starts first ps) ps

/-- Phrases in a tree as they are seen by the layout. -/
def view : View Located where
  form x := x.place.phrase.form.withChildren ⟨0, x.place⟩
    (list (x.id + 1) x.place.below x.place.phrase.children)
  level x := x.place.level
  innerSpacing x := x.place.phrase.category.rule.innerSpacing
  outerSpacing x := x.place.phrase.outerSpacing
  inChain x := x.place.inChain

/-- Placed phrases have the numbers at which they start. -/
@[simp] theorem map_id_list (first : NodeId) (place : Phrase → Placed) (ps : List Phrase) :
    (list first place ps).map Located.id = Phrase.starts first ps := by
  induction ps generalizing first with
  | nil => rfl
  | cons p ps ih => simpa [list, Phrase.starts] using ih _

/-- Placed phrases have the places that they are given. -/
@[simp] theorem map_place_list (first : NodeId) (place : Phrase → Placed) (ps : List Phrase) :
    (list first place ps).map Located.place = ps.map place := by
  induction ps generalizing first with
  | nil => rfl
  | cons p ps ih => simpa [list, Phrase.starts] using ih _

/-- The layout does not see the numbers. -/
theorem maps_place (x : Located) : view.Maps Placed.view Located.place x :=
  ⟨by simp [view, Placed.view, Form.map_withChildren, Phrase.children, Form.withChildren_children],
    rfl, rfl, rfl, rfl⟩

/-- The tree holds the phrase, with all its nodes, at its number. -/
def HeldBy (t : Tree) (x : Located) : Prop :=
  ∃ parent before after,
    t.nodes.toList = before ++ x.place.phrase.nodes x.id parent x.place.level ++ after ∧
      before.length = x.id ∧ (t.category parent == .chain) = x.place.inChain

/-- A tree that has the nodes of some phrases in a row holds each of them. -/
theorem heldBy_list {t : Tree} {first parent : NodeId} {level : Int} {inChain : Bool}
    {before after : List Node} {ps : List Phrase}
    (h : t.nodes.toList = before ++ Phrase.forest first parent level ps ++ after)
    (hbefore : before.length = first) (hchain : (t.category parent == .chain) = inChain) :
    ∀ x ∈ list first (fun p => ⟨inChain, level, p⟩) ps, x.HeldBy t := by
  induction ps generalizing first before with
  | nil => simp [list]
  | cons p ps ih =>
    simp only [Phrase.forest_cons] at h
    intro x hx
    simp only [list, Phrase.starts, List.zipWith_cons_cons, List.mem_cons] at hx
    rcases hx with rfl | hx
    · exact ⟨parent, before, _, by simpa using h, hbefore, hchain⟩
    · have hrest : t.nodes.toList = before ++ p.nodes first parent level ++
          Phrase.forest (first + p.size) parent level ps ++ after := by simpa using h
      exact ih hrest (by simp [hbefore]) x hx

/-- A tree of phrases holds each of them. -/
theorem heldBy_ofPhrases (ps : List Phrase) :
    ∀ x ∈ list 1 (fun p => ⟨false, 0, p⟩) ps, x.HeldBy (Tree.ofPhrases ps) := by
  have hnodes : (Tree.ofPhrases ps).nodes.toList =
      [⟨.manifest (Phrase.starts 1 ps), none, -1, 1, false, false⟩] ++
        Phrase.forest 1 Tree.root 0 ps ++ [] := by simp [Tree.ofPhrases]
  exact heldBy_list hnodes rfl rfl

theorem mem_place_list {first : NodeId} {place : Phrase → Placed} {p : Phrase} {ps : List Phrase}
    (h : p ∈ ps) : ∃ id, ⟨id, place p⟩ ∈ list first place ps := by
  have hmem : place p ∈ (list first place ps).map Located.place := by
    rw [map_place_list]
    exact List.mem_map_of_mem h
  obtain ⟨⟨id, _⟩, hx, rfl⟩ := List.mem_map.mp hmem
  exact ⟨id, hx⟩

section

variable {t : Tree} {x : Located}

/-- The node of a phrase that a tree holds is its own. -/
theorem HeldBy.node_eq (h : x.HeldBy t) :
    ∃ parent, t.node x.id = x.place.phrase.entry x.id parent x.place.level ∧
      (t.category parent == .chain) = x.place.inChain := by
  obtain ⟨parent, before, after, hnodes, hbefore, hchain⟩ := h
  refine ⟨parent, ?_, hchain⟩
  have : t.nodes[x.id]? = some (x.place.phrase.entry x.id parent x.place.level) := by
    rw [← Array.getElem?_toList, hnodes, Phrase.nodes_eq, ← hbefore]
    simp
  simp [Tree.node, this]

/-- The node of a phrase that a tree holds has its category. -/
theorem HeldBy.category_eq (h : x.HeldBy t) : t.category x.id = x.place.phrase.category := by
  obtain ⟨parent, hnode, -⟩ := h.node_eq
  rw [Tree.category, hnode]
  exact Phrase.category_entry _ _ _ _

/-- A tree that holds a phrase holds its children. -/
theorem HeldBy.children (h : x.HeldBy t) : ∀ y ∈ (view.form x).children, y.HeldBy t := by
  have hcategory := h.category_eq
  obtain ⟨parent, before, after, hnodes, hbefore, -⟩ := h
  have hchildren : (view.form x).children =
      list (x.id + 1) x.place.below x.place.phrase.children :=
    Form.children_withChildren _ _ (by simp [list, Phrase.children])
  rw [hchildren]
  have hforest : t.nodes.toList =
      before ++ [x.place.phrase.entry x.id parent x.place.level] ++
        Phrase.forest (x.id + 1) x.id (x.place.level + 1) x.place.phrase.children ++ after := by
    rw [hnodes, Phrase.nodes_eq]
    simp
  exact heldBy_list hforest (by simp [hbefore]) (by rw [hcategory])

/-- A phrase that a tree holds has a number of the tree. -/
theorem HeldBy.lt_size (h : x.HeldBy t) : x.id < t.size := by
  obtain ⟨parent, before, after, hnodes, hbefore, -⟩ := h
  have hlength := congrArg List.length hnodes
  have := x.place.phrase.size_pos
  simp only [List.length_append, Phrase.length_nodes, Array.length_toList, hbefore] at hlength
  rw [Tree.size, hlength, Nat.add_assoc]
  exact Nat.lt_add_of_pos_right (by omega)

/-- The contents of a node, with the categories of its children. -/
theorem HeldBy.map_category (h : x.HeldBy t) :
    (t.form x.id).map t.category = x.place.phrase.form.map Phrase.category := by
  obtain ⟨parent, hnode, -⟩ := h.node_eq
  have hchildren : (Phrase.starts (x.id + 1) x.place.phrase.children).map t.category =
      x.place.phrase.children.map Phrase.category := by
    have hheld := h.children
    have hlist : (view.form x).children = list (x.id + 1) x.place.below x.place.phrase.children :=
      Form.children_withChildren _ _ (by simp [list, Phrase.children])
    rw [hlist] at hheld
    have hcategories := List.map_congr_left fun y hy => (hheld y hy).category_eq
    rw [← map_id_list (x.id + 1) x.place.below, List.map_map]
    refine hcategories.trans ?_
    have := congrArg (List.map fun y : Placed => y.phrase.category)
      (map_place_list (x.id + 1) x.place.below x.place.phrase.children)
    simp only [List.map_map] at this
    exact this
  rw [Tree.form, hnode, Phrase.entry, Form.map_withChildren, hchildren, Phrase.children,
    Form.withChildren_children]

/-- A tree shows the phrases that it holds. -/
theorem HeldBy.maps (h : x.HeldBy t) : view.Maps t.view Located.id x := by
  obtain ⟨parent, hnode, hchain⟩ := h.node_eq
  refine ⟨?_, ?_, ?_, ?_, ?_⟩
  · simp [Tree.view, Tree.form, hnode, view, Form.map_withChildren, Phrase.entry]
  · simp [Tree.view, hnode, view, Phrase.entry]
  · simp [Tree.view, hnode, view, Phrase.entry]
  · simp [Tree.view, hnode, view, Phrase.entry]
  · simp [Tree.view, hnode, view, Phrase.entry, hchain]

/-- The text of a node is that of the phrase that the tree holds there. -/
theorem HeldBy.textWithin_eq (h : x.HeldBy t) (o : Layout.Options) (n depth : Nat) :
    Layout.textWithin t.view o n x.id depth = Layout.textWithin Placed.view o n x.place depth := by
  have hid : Layout.textWithin t.view o n x.id depth = Layout.textWithin view o n x depth := by
    induction n generalizing x depth with
    | zero => rfl
    | succ n ih =>
      exact Layout.formText_map h.maps
        (fun y hy => ⟨(h.children y hy).maps, fun depth => ih (h.children y hy) depth⟩) depth
  have hplace : Layout.textWithin Placed.view o n x.place depth =
      Layout.textWithin view o n x depth := by
    clear h hid
    induction n generalizing x depth with
    | zero => rfl
    | succ n ih =>
      exact Layout.formText_map x.maps_place (fun y _ => ⟨y.maps_place, fun depth => ih depth⟩) depth
  rw [hid, hplace]

/-- The text of a node is the text of its phrase at its place. -/
theorem HeldBy.text_eq (h : x.HeldBy t) (o : Layout.Options) (depth : Nat) :
    Layout.text t o x.id depth = x.place.text o depth := by
  have hsize : x.place.phrase.size ≤ t.size := by
    obtain ⟨parent, before, after, hnodes, -⟩ := h
    have := congrArg List.length hnodes
    simp only [List.length_append, Phrase.length_nodes, Array.length_toList] at this
    unfold Tree.size
    omega
  rw [Layout.text, h.textWithin_eq]
  exact Layout.textWithin_eq hsize (Nat.le_refl _) depth

/-- The layout of one node, where the texts of its children are known. -/
theorem HeldBy.formText_eq (h : x.HeldBy t) (o : Layout.Options) (depth : Nat) :
    Layout.formText t.view o (Layout.text t o) x.id depth =
      Layout.formText Placed.view o (fun y depth => y.text o depth) x.place depth := by
  have hid : Layout.formText t.view o (Layout.text t o) x.id depth =
      Layout.formText view o (fun y depth => y.place.text o depth) x depth :=
    Layout.formText_map h.maps
      (fun y hy => ⟨(h.children y hy).maps, (h.children y hy).text_eq o⟩) depth
  rw [hid]
  exact (Layout.formText_map x.maps_place (fun y _ => ⟨y.maps_place, fun _ => rfl⟩) depth).symm

end

end Located

namespace Layout

/-- Statements on lines of their own. -/
def phraseLines (o : Options) (xs : List Placed) : String :=
  match xs with
  | [] => ""
  | first :: rest =>
    margin o (Placed.view.depth first) ++ first.text o (Placed.view.depth first) ++
      following Placed.view o (fun y depth => y.text o depth) first rest

/-- The text of a manifest with given statements. -/
def manifestText (o : Options) (ps : List Phrase) : String :=
  let body := trimNewlines (phraseLines o (ps.map (⟨false, 0, ·⟩)))
  if body.isEmpty then "" else body ++ "\n"

/-- No category has blank lines inside its braces. -/
theorem innerSpacing_eq_false (category : Category) : category.rule.innerSpacing = false := by
  cases category <;> rfl

/-- Statements in a block are lines of phrases. -/
theorem statementLines_placed (o : Options) (parent : Placed) (xs : List Placed) :
    statementLines Placed.view o (fun y depth => y.text o depth) parent xs = phraseLines o xs := by
  have hedge : Placed.view.innerSpacing parent = false := innerSpacing_eq_false _
  cases xs <;> simp [statementLines, phraseLines, hedge]

/-- Phrases that a tree holds one after the other, as statements. -/
theorem statementLines_located {t : Tree} (o : Options) {parent : NodeId} {xs : List Located}
    (hparent : (t.node parent).innerSpacing = false) (h : ∀ x ∈ xs, x.HeldBy t) :
    statements t o (text t o) parent (xs.map Located.id) = phraseLines o (xs.map Located.place) := by
  have hedge : t.view.innerSpacing parent = false := hparent
  have hid : Alike Located.view t.view Located.id (fun x depth => x.place.text o depth) (text t o)
      xs := fun x hx => ⟨(h x hx).maps, (h x hx).text_eq o⟩
  have hplace : Alike Located.view Placed.view Located.place (fun x depth => x.place.text o depth)
      (fun y depth => y.text o depth) xs := fun x _ => ⟨x.maps_place, fun _ => rfl⟩
  cases xs with
  | nil => simp [statements, statementLines, phraseLines, hedge]
  | cons x xs =>
    obtain ⟨hx, htext, hxs⟩ := hid.cons
    obtain ⟨hx', -, hxs'⟩ := hplace.cons
    simp [statements, statementLines, phraseLines, hedge, following_map hx hxs,
      following_map hx' hxs', htext, hx.depth, hx'.depth]

/-- A manifest of phrases is laid out as the phrases are. -/
theorem manifest_ofPhrases (o : Options) (ps : List Phrase) :
    manifest (Tree.ofPhrases ps) o = manifestText o ps := by
  let xs := Located.list 1 (fun p => ⟨false, 0, p⟩) ps
  have hids : xs.map Located.id = Phrase.starts 1 ps := Located.map_id_list ..
  have hplaces : xs.map Located.place = ps.map fun p => ⟨false, 0, p⟩ := Located.map_place_list ..
  have htree : statements (Tree.ofPhrases ps) o (text (Tree.ofPhrases ps) o) Tree.root
      (Phrase.starts 1 ps) = phraseLines o (ps.map fun p => ⟨false, 0, p⟩) := by
    rw [← hids, ← hplaces]
    exact statementLines_located o rfl (Located.heldBy_ofPhrases ps)
  have hroot : (Tree.ofPhrases ps).form Tree.root = .manifest (Phrase.starts 1 ps) := rfl
  simp only [manifest, hroot, htree]
  rfl

end Layout

end TidyManifest
