import TidyManifest.Proofs.Tree.Preorder

/-!
# The shape of a tree from the levels of its nodes

In preorder, the levels of the nodes say which node is below which: the parent of a node is the last
node before it that is one level higher, because all nodes between the two are below the parent
(`level_between`).  So two trees of phrases whose nodes have the same levels and categories, one
after the other, have the same shape (`sameShape_of_levels`).
-/

namespace TidyManifest.Tree

/-- Two trees have the same nodes in the same places, whatever tokens they hold. -/
structure SameShape (t t' : Tree) : Prop where
  size : t.size = t'.size
  category : ∀ id, t.category id = t'.category id
  parent : ∀ id, (t.node id).parent = (t'.node id).parent
  children : ∀ id, t.children id = t'.children id

/-- A number that no node has is given the root. -/
theorem node_of_size_le {t : Tree} {id : Nat} (h : t.size ≤ id) : t.node id = .root := by
  have hnone : t.nodes[id]? = none := Array.getElem?_eq_none h
  rw [node, hnone]
  rfl

/-- Everything that stands below a parent is on a deeper level. -/
theorem Stands.level_lt {t : Tree} {parent first id : Nat} {ps : List Phrase}
    (h : t.Stands parent first ps) (hle : first ≤ id) (hlt : id < first + Phrase.total ps) :
    (t.node parent).level < (t.node id).level := by
  induction hn : Phrase.total ps using Nat.strongRecOn generalizing parent first ps with
  | _ n ih =>
    obtain ⟨before, p, after, rfl, hbefore, hp⟩ := Phrase.exists_of_lt_total hle hlt
    have hstands : t.Stands parent (first + Phrase.total before) [p] :=
      Stands.left (by simpa using h.right)
    have hlevel : (t.node (first + Phrase.total before)).level = (t.node parent).level + 1 := by
      rw [hstands.node_eq]
      rfl
    rcases Nat.eq_or_lt_of_le hbefore with rfl | hinner
    · omega
    · have hsize := p.size_eq
      have hfewer : Phrase.total p.children < n := by
        simp only [Phrase.total_append, Phrase.total_cons] at hn
        omega
      have hdeeper := ih _ hfewer hstands.below hinner (by omega) rfl
      omega

section

variable {ps qs : List Phrase} {parent between id child : Nat} {p : Phrase}

/-- Between a node and its parent there are only nodes below the parent. -/
theorem level_between (h : (ofPhrases ps).Stands parent id [p]) (hlt : id < (ofPhrases ps).size)
    (hparent : parent < between) (hid : between < id) :
    ((ofPhrases ps).node id).level ≤ ((ofPhrases ps).node between).level := by
  obtain ⟨qs, hbelow, hchildren⟩ := exists_below (Nat.lt_trans h.lt hlt)
  have hmem : id ∈ Phrase.starts (parent + 1) qs :=
    hchildren ▸ h.children id (by simp [Phrase.starts])
  obtain ⟨before, q, after, rfl, rfl⟩ := Phrase.mem_starts.mp hmem
  have hdeeper := hbelow.left.level_lt hparent hid
  have hlevel : ((ofPhrases ps).node (parent + 1 + Phrase.total before)).level =
      ((ofPhrases ps).node parent).level + 1 := by
    rw [h.node_eq]
    rfl
  omega

/-- The children of a node are the nodes that have it as their parent. -/
theorem mem_children_ofPhrases :
    child ∈ (ofPhrases ps).children id ↔ ((ofPhrases ps).node child).parent = some id := by
  constructor
  · intro hchild
    by_cases hlt : id < (ofPhrases ps).size
    · exact (children_ofPhrases hlt).2 child hchild
    · rw [children, form, node_of_size_le (Nat.not_lt.mp hlt)] at hchild
      cases hchild
  · intro hparent
    have hlt : child < (ofPhrases ps).size := by
      by_cases hlt : child < (ofPhrases ps).size
      · exact hlt
      · rw [node_of_size_le (Nat.not_lt.mp hlt)] at hparent
        cases hparent
    have hpos : 0 < child := by
      refine Nat.pos_of_ne_zero ?_
      rintro rfl
      cases hparent
    obtain ⟨above, q, h⟩ := exists_stands hpos hlt
    rw [h.node_eq] at hparent
    cases hparent
    exact h.children child (by simp [Phrase.starts])

/-- The children of a node stand in the order of their numbers. -/
theorem children_increasing : ((ofPhrases ps).children id).Pairwise (· < ·) := by
  by_cases hlt : id < (ofPhrases ps).size
  · obtain ⟨qs, -, hchildren⟩ := exists_below hlt
    rw [hchildren]
    exact (Phrase.starts_increasing (id + 1) qs).1
  · rw [children, form, node_of_size_le (Nat.not_lt.mp hlt)]
    exact List.Pairwise.nil

/-- The parent of a node is the last node before it that is one level higher, so it is the same in
trees with the same levels. -/
theorem parent_eq_of_levels (hsize : (ofPhrases ps).size = (ofPhrases qs).size)
    (hlevel : ∀ id, ((ofPhrases ps).node id).level = ((ofPhrases qs).node id).level) (id : Nat) :
    ((ofPhrases ps).node id).parent = ((ofPhrases qs).node id).parent := by
  by_cases hlt : id < (ofPhrases ps).size
  · rcases Nat.eq_zero_or_pos id with rfl | hpos
    · rfl
    · have hlt' : id < (ofPhrases qs).size := hsize ▸ hlt
      obtain ⟨above, p, h⟩ := exists_stands hpos hlt
      obtain ⟨above', q, h'⟩ := exists_stands hpos hlt'
      have hown : ((ofPhrases ps).node id).level = ((ofPhrases ps).node above).level + 1 := by
        rw [h.node_eq]
        rfl
      have hown' : ((ofPhrases qs).node id).level = ((ofPhrases qs).node above').level + 1 := by
        rw [h'.node_eq]
        rfl
      have habove : above = above' := by
        rcases Nat.lt_trichotomy above above' with hless | heq | hless
        · have hbetween := level_between h hlt hless h'.lt
          have := hlevel above'
          have := hlevel id
          omega
        · exact heq
        · have hbetween := level_between h' hlt' hless h.lt
          have := hlevel above
          have := hlevel id
          omega
      rw [h.node_eq, h'.node_eq, habove]
      rfl
  · rw [node_of_size_le (Nat.not_lt.mp hlt), node_of_size_le (hsize ▸ Nat.not_lt.mp hlt)]

/-- Trees of phrases have the same shape if their nodes have the same levels and categories. -/
theorem sameShape_of_levels (hsize : (ofPhrases ps).size = (ofPhrases qs).size)
    (hlevel : ∀ id, ((ofPhrases ps).node id).level = ((ofPhrases qs).node id).level)
    (hcategory : ∀ id, (ofPhrases ps).category id = (ofPhrases qs).category id) :
    (ofPhrases ps).SameShape (ofPhrases qs) where
  size := hsize
  category := hcategory
  parent := parent_eq_of_levels hsize hlevel
  children id := by
    have hperm : ((ofPhrases ps).children id).Perm ((ofPhrases qs).children id) := by
      refine (List.perm_ext_iff_of_nodup ?_ ?_).mpr fun child => ?_
      · exact children_increasing.imp Nat.ne_of_lt
      · exact children_increasing.imp Nat.ne_of_lt
      · rw [mem_children_ofPhrases, mem_children_ofPhrases, parent_eq_of_levels hsize hlevel]
    exact hperm.eq_of_pairwise (fun _ _ _ _ hab hba => absurd hba (Nat.lt_asymm hab))
      children_increasing children_increasing

end

end TidyManifest.Tree
