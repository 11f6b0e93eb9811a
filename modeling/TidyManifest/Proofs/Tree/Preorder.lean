import TidyManifest.Proofs.Layout.Phrases

/-!
# The preorder of a tree

A table of nodes is the preorder of one tree if visiting the root, then each child in order with all
that is below it, meets the numbers of the table one after the other.  This holds of every tree of
phrases (`preorder_ofPhrases`).

The proof follows one relation, `Stands`: phrases stand one after the other below a parent, from some
number on.  It passes from a phrase to its children, and every number of the table is reached that
way (`Stands.find`).
-/

namespace TidyManifest

namespace Phrase

/-- A phrase starts after the phrases in front of it. -/
theorem mem_starts {first id : Nat} {ps : List Phrase} :
    id ∈ starts first ps ↔ ∃ before p after, ps = before ++ p :: after ∧ id = first + total before := by
  induction ps generalizing first with
  | nil => simp [starts]
  | cons p ps ih =>
    rw [starts, List.mem_cons, ih]
    constructor
    · rintro (rfl | ⟨before, q, after, rfl, rfl⟩)
      · exact ⟨[], p, ps, rfl, by simp⟩
      · exact ⟨p :: before, q, after, rfl, by rw [total_cons]; omega⟩
    · rintro ⟨_ | ⟨p', before⟩, q, after, heq, rfl⟩
      · exact .inl (by simp)
      · cases heq
        exact .inr ⟨before, q, after, rfl, by rw [total_cons]; omega⟩

/-- Numbers that phrases take grow from one phrase to the next. -/
theorem starts_increasing (first : Nat) (ps : List Phrase) :
    (starts first ps).Pairwise (· < ·) ∧ ∀ id ∈ starts first ps, first ≤ id := by
  induction ps generalizing first with
  | nil => simp [starts]
  | cons p ps ih =>
    have hpos := p.size_pos
    obtain ⟨hincreasing, hle⟩ := ih (first + p.size)
    have hlt : ∀ id ∈ starts (first + p.size) ps, first < id := by
      intro id hid
      have := hle id hid
      omega
    refine ⟨List.pairwise_cons.mpr ⟨hlt, hincreasing⟩, fun id hid => ?_⟩
    rcases List.mem_cons.mp hid with rfl | hid
    · exact Nat.le_refl _
    · exact Nat.le_of_lt (hlt id hid)

/-- No two phrases start at one number. -/
theorem nodup_starts (first : Nat) (ps : List Phrase) : (starts first ps).Nodup :=
  (starts_increasing first ps).1.imp Nat.ne_of_lt

/-- The phrase in which a number falls. -/
theorem exists_of_lt_total {first id : Nat} {ps : List Phrase} (hle : first ≤ id)
    (hlt : id < first + total ps) :
    ∃ before p after, ps = before ++ p :: after ∧ first + total before ≤ id ∧
      id < first + total before + p.size := by
  induction ps generalizing first with
  | nil => rw [total_nil] at hlt; omega
  | cons p ps ih =>
    rw [total_cons] at hlt
    by_cases hp : id < first + p.size
    · exact ⟨[], p, ps, rfl, by simpa using hle, by simpa using hp⟩
    · obtain ⟨before, q, after, rfl, hbefore, hq⟩ := ih (Nat.le_of_not_lt hp) (by omega)
      exact ⟨p :: before, q, after, rfl, by rw [total_cons]; omega, by rw [total_cons]; omega⟩

end Phrase

namespace Tree

/-- The numbers met below a node, itself first, where nodes are nested to a depth below `n`. -/
def visitWithin (t : Tree) : Nat → NodeId → List NodeId
  | 0, _ => []
  | n + 1, id => id :: (t.children id).flatMap (t.visitWithin n)

/-- The numbers met from the root on.  Nodes cannot be nested more deeply than there are nodes. -/
def visit (t : Tree) : List NodeId :=
  t.visitWithin t.size root

/-- Phrases stand one after the other below a parent, which has them as children. -/
structure Stands (t : Tree) (parent : NodeId) (first : Nat) (ps : List Phrase) : Prop where
  nodes : ∃ before after, t.nodes.toList = before ++
    Phrase.forest first parent ((t.node parent).level + 1) ps ++ after ∧ before.length = first
  lt : parent < first
  children : ∀ id ∈ Phrase.starts first ps, id ∈ t.children parent

section

variable {t : Tree} {parent first : Nat} {ps qs : List Phrase} {p : Phrase}

/-- Of phrases that stand in a tree the first ones stand there. -/
theorem Stands.left (h : t.Stands parent first (ps ++ qs)) : t.Stands parent first ps := by
  obtain ⟨⟨before, after, hnodes, hbefore⟩, hlt, hchildren⟩ := h
  refine ⟨⟨before, Phrase.forest (first + Phrase.total ps) parent ((t.node parent).level + 1) qs ++
    after, ?_, hbefore⟩, hlt, fun id hid => hchildren id (by simp [hid])⟩
  rw [hnodes, Phrase.forest_append]
  simp only [List.append_assoc]

/-- Of phrases that stand in a tree the last ones stand there, further on. -/
theorem Stands.right (h : t.Stands parent first (ps ++ qs)) :
    t.Stands parent (first + Phrase.total ps) qs := by
  obtain ⟨⟨before, after, hnodes, hbefore⟩, hlt, hchildren⟩ := h
  refine ⟨⟨before ++ Phrase.forest first parent ((t.node parent).level + 1) ps, after, ?_, ?_⟩,
    Nat.lt_add_right _ hlt, fun id hid => hchildren id (by simp [hid])⟩
  · rw [hnodes, Phrase.forest_append, ← List.append_assoc]
  · simp [hbefore]

/-- The node of a phrase that stands in a tree. -/
theorem Stands.node_eq (h : t.Stands parent first [p]) :
    t.node first = p.entry first parent ((t.node parent).level + 1) := by
  obtain ⟨⟨before, after, hnodes, hbefore⟩, -, -⟩ := h
  have : t.nodes[first]? = some (p.entry first parent ((t.node parent).level + 1)) := by
    rw [← Array.getElem?_toList, hnodes, ← hbefore]
    simp [Phrase.nodes_eq]
  simp [Tree.node, this]

/-- The children of a phrase that stands in a tree are numbered from the next number on. -/
theorem Stands.children_eq (h : t.Stands parent first [p]) :
    t.children first = Phrase.starts (first + 1) p.children := by
  rw [Tree.children, Tree.form, h.node_eq]
  exact Form.children_withChildren 0 _ (by simp [Phrase.children])

/-- A phrase that stands in a tree is held by it. -/
theorem Stands.heldBy (h : t.Stands parent first [p]) :
    Located.HeldBy t ⟨first, t.category parent == .chain, (t.node parent).level + 1, p⟩ := by
  obtain ⟨⟨before, after, hnodes, hbefore⟩, -, -⟩ := h
  exact ⟨parent, before, after, by simpa using hnodes, hbefore, rfl⟩

/-- The children of a phrase stand below it, right after its own node. -/
theorem Stands.below (h : t.Stands parent first [p]) : t.Stands first (first + 1) p.children := by
  have hnode := h.node_eq
  have hchildren := h.children_eq
  obtain ⟨⟨before, after, hnodes, hbefore⟩, -, -⟩ := h
  refine ⟨⟨before ++ [p.entry first parent ((t.node parent).level + 1)], after, ?_, by simp [hbefore]⟩,
    Nat.lt_succ_self _, fun id hid => hchildren ▸ hid⟩
  have hlevel : (t.node first).level = (t.node parent).level + 1 := by rw [hnode]; rfl
  rw [hnodes, hlevel]
  simp [Phrase.nodes_eq]

/-- What passes from a phrase to its children holds wherever a phrase stands. -/
theorem Stands.find {P : Category → Phrase → Prop}
    (hP : ∀ {parent p}, P parent p → ∀ q ∈ p.children, P p.category q)
    (h : t.Stands parent first ps) (hps : ∀ p ∈ ps, P (t.category parent) p) {id : Nat}
    (hle : first ≤ id) (hlt : id < first + Phrase.total ps) :
    ∃ above q, t.Stands above id [q] ∧ P (t.category above) q := by
  -- by induction on the number of nodes: a number falls in one of the phrases, and is the number of
  -- that phrase itself or falls in its children
  induction hn : Phrase.total ps using Nat.strongRecOn generalizing parent first ps with
  | _ n ih =>
    obtain ⟨before, p, after, rfl, hbefore, hp⟩ := Phrase.exists_of_lt_total hle hlt
    have hstands : t.Stands parent (first + Phrase.total before) [p] :=
      Stands.left (by simpa using h.right)
    have hown : P (t.category parent) p := hps p (by simp)
    rcases Nat.eq_or_lt_of_le hbefore with rfl | hinner
    · exact ⟨parent, p, hstands, hown⟩
    · have hcategory : t.category (first + Phrase.total before) = p.category := by
        rw [Tree.category, hstands.node_eq, Phrase.category_entry]
      have hsize := p.size_eq
      refine ih (Phrase.total p.children) ?_ hstands.below ?_ hinner (by omega) rfl
      · simp only [Phrase.total_append, Phrase.total_cons] at hn
        omega
      · rw [hcategory]
        exact hP hown

/-- Visiting phrases meets the numbers from the first one on. -/
theorem Stands.visit_eq (h : t.Stands parent first ps) {n : Nat} (hn : Phrase.total ps ≤ n) :
    (Phrase.starts first ps).flatMap (t.visitWithin n) = List.range' first (Phrase.total ps) := by
  induction hw : Phrase.total ps using Nat.strongRecOn generalizing parent first ps n with
  | _ w ih =>
    cases ps with
    | nil => simp [Phrase.starts, ← hw]
    | cons p ps =>
      rw [Phrase.total_cons] at hn hw
      have hsize := p.size_eq
      have hpos := p.size_pos
      have hboth : t.Stands parent first ([p] ++ ps) := h
      have hp : t.Stands parent first [p] := hboth.left
      have hps : t.Stands parent (first + p.size) ps := by simpa using hboth.right
      obtain ⟨m, rfl⟩ : ∃ m, n = m + 1 := ⟨n - 1, by omega⟩
      have hbelow := ih _ (by omega) hp.below (n := m) (by omega) rfl
      have hmore := ih _ (by omega) hps (n := m + 1) (by omega) rfl
      rw [Phrase.starts, List.flatMap_cons, hmore, visitWithin, hp.children_eq, hbelow, ← hw, hsize,
        List.cons_append, ← List.range'_append_1, Nat.add_comm 1, List.range'_succ, List.cons_append]

/-- The statements of a manifest stand below the root. -/
theorem stands_ofPhrases (ps : List Phrase) : (ofPhrases ps).Stands root 1 ps :=
  ⟨⟨[_], [], by rw [List.append_nil]; rfl, rfl⟩, Nat.one_pos, fun _ hid => hid⟩

/-- The tree of some phrases has their nodes and the root. -/
@[simp] theorem size_ofPhrases (ps : List Phrase) : (ofPhrases ps).size = 1 + Phrase.total ps := by
  simp [ofPhrases, size, Nat.add_comm]

end

/-- The table of a tree is its preorder. -/
structure Preorder (t : Tree) : Prop where
  /-- no node is still being read -/
  complete : t.hasPending = false
  /-- node zero is a manifest -/
  manifest : ∃ statements, t.form root = .manifest statements
  root_level : (t.node root).level = -1
  root_parent : (t.node root).parent = none
  /-- every other node is one child of one earlier node, one level below it -/
  parent : ∀ id, 0 < id → id < t.size → ∃ p < id,
    (t.node id).parent = some p ∧ (t.node id).level = (t.node p).level + 1 ∧
      (t.children p).count id = 1 ∧ ∀ q < t.size, q ≠ p → id ∉ t.children q
  /-- visiting from the root meets all numbers in order -/
  visit : t.visit = List.range t.size

/-- Beyond the table there are only manifests without contents. -/
theorem lt_size_of_category {t : Tree} {id : Nat} (h : t.category id ≠ .manifest) : id < t.size := by
  by_cases hlt : id < t.size
  · exact hlt
  · have hnone : t.nodes[id]? = none := Array.getElem?_eq_none (Nat.not_lt.mp hlt)
    exact absurd (by rw [category, node, hnone]; rfl) h

section

variable {ps : List Phrase}

/-- Every node but the root stands somewhere. -/
theorem exists_stands {id : Nat} (hpos : 0 < id) (hlt : id < (ofPhrases ps).size) :
    ∃ parent p, (ofPhrases ps).Stands parent id [p] := by
  rw [size_ofPhrases] at hlt
  obtain ⟨parent, p, h, -⟩ := (stands_ofPhrases ps).find (P := fun _ _ => True)
    (fun _ _ _ => trivial) (fun _ _ => trivial) hpos hlt
  exact ⟨parent, p, h⟩

/-- A node that is no manifest stands somewhere. -/
theorem exists_stands_of_category {id : Nat} (h : (ofPhrases ps).category id ≠ .manifest) :
    ∃ parent p, (ofPhrases ps).Stands parent id [p] := by
  have hpos : 0 < id := Nat.pos_of_ne_zero fun hzero => h (by rw [hzero]; rfl)
  exact exists_stands hpos (lt_size_of_category h)

/-- The text of a node that is no manifest, from the texts of its children. -/
theorem text_ofPhrases {id : Nat} (h : (ofPhrases ps).category id ≠ .manifest) (o : Layout.Options)
    (depth : Nat) :
    Layout.text (ofPhrases ps) o id depth =
      Layout.formText (ofPhrases ps).view o (Layout.text (ofPhrases ps) o) id depth := by
  obtain ⟨parent, p, hstands⟩ := exists_stands_of_category h
  have hheld := hstands.heldBy
  rw [hheld.text_eq, hheld.formText_eq, Placed.text_eq]

/-- The children of a node are phrases that stand below it. -/
theorem exists_below {id : Nat} (hlt : id < (ofPhrases ps).size) :
    ∃ qs, (ofPhrases ps).Stands id (id + 1) qs ∧
      (ofPhrases ps).children id = Phrase.starts (id + 1) qs := by
  rcases Nat.eq_zero_or_pos id with rfl | hpos
  · exact ⟨ps, stands_ofPhrases ps, rfl⟩
  · obtain ⟨parent, p, h⟩ := exists_stands hpos hlt
    exact ⟨p.children, h.below, h.children_eq⟩

/-- The children of a node are phrases that stand below it, each once. -/
theorem children_ofPhrases {id : Nat} (hlt : id < (ofPhrases ps).size) :
    ((ofPhrases ps).children id).Nodup ∧
      ∀ child ∈ (ofPhrases ps).children id, ((ofPhrases ps).node child).parent = some id := by
  obtain ⟨qs, h, heq⟩ := exists_below hlt
  rw [heq]
  refine ⟨Phrase.nodup_starts (id + 1) qs, fun child hchild => ?_⟩
  obtain ⟨before, q, after, rfl, rfl⟩ := Phrase.mem_starts.mp hchild
  have hq : (ofPhrases ps).Stands id (id + 1 + Phrase.total before) [q] :=
    Stands.left (by simpa using h.right)
  rw [hq.node_eq]
  rfl

/-- Children come after their parent. -/
theorem lt_of_mem_children {id child : Nat} (hlt : id < (ofPhrases ps).size)
    (h : child ∈ (ofPhrases ps).children id) : id < child := by
  obtain ⟨qs, -, hchildren⟩ := exists_below hlt
  rw [hchildren] at h
  obtain ⟨before, q, after, -, rfl⟩ := Phrase.mem_starts.mp h
  omega

/-- A tree of phrases is in preorder, if no phrase is still being read. -/
theorem preorder_ofPhrases (hcomplete : (ofPhrases ps).hasPending = false) :
    (ofPhrases ps).Preorder where
  complete := hcomplete
  manifest := ⟨_, rfl⟩
  root_level := rfl
  root_parent := rfl
  parent id hpos hlt := by
    obtain ⟨parent, p, h⟩ := exists_stands hpos hlt
    have hparent : ((ofPhrases ps).node id).parent = some parent := by rw [h.node_eq]; rfl
    have hmem : id ∈ (ofPhrases ps).children parent := h.children id (by simp [Phrase.starts])
    refine ⟨parent, h.lt, hparent, by rw [h.node_eq]; rfl, ?_, fun q hq hne hother => hne ?_⟩
    · rw [(children_ofPhrases (Nat.lt_trans h.lt hlt)).1.count, if_pos hmem]
    · have := (children_ofPhrases hq).2 id hother
      exact Option.some.inj (this.symm.trans hparent)
  visit := by
    have hchildren : (ofPhrases ps).children root = Phrase.starts 1 ps := rfl
    rw [visit, size_ofPhrases, Nat.add_comm, visitWithin, hchildren,
      (stands_ofPhrases ps).visit_eq (Nat.le_refl _), List.range_eq_range', List.range'_succ]
    rfl

end

end Tree

end TidyManifest
