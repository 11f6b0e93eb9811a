import TidyManifest.Parse.State
import TidyManifest.Proofs.Phrase.Basic

/-!
# What a reading keeps of the state

Between two splits of a resource the tokens of a parse stay the same, its cursor moves forward and
its tree grows.  `Extends` says so of two states.  Going back to a mark then gives back the cursor
and the tree that stood there (`Extends.returnTo`), so a failed reading leaves no trace but the
furthest failure that it remembers: the states are `Same`.
-/

namespace TidyManifest

namespace Cursor

/-- The tokens are those behind the cursor and those ahead of it. -/
theorem length_toList (c : Cursor) : c.toList.length = c.position + c.ahead.length := by
  simp [toList, c.position_eq]

/-- What is ahead of a cursor are the tokens from its position on. -/
theorem drop_position (c : Cursor) : c.toList.drop c.position = c.ahead := by
  rw [toList, c.position_eq, ← List.length_reverse, List.drop_left]

/-- A cursor is known from its tokens and its position. -/
theorem eq_of_position {c c' : Cursor} (h : c.toList = c'.toList) (hp : c.position = c'.position) :
    c = c' := by
  have hlength : c.passed.reverse.length = c'.passed.reverse.length := by
    rw [List.length_reverse, List.length_reverse, ← c.position_eq, ← c'.position_eq, hp]
  obtain ⟨hpassed, hahead⟩ := List.append_inj h hlength
  cases c
  cases c'
  simp_all

/-- Stepping on takes one token from those ahead. -/
@[simp] theorem ahead_advance (c : Cursor) : c.advance.ahead = c.ahead.tail := by
  unfold advance
  split <;> simp_all

/-- Stepping on several times takes as many tokens from those ahead. -/
@[simp] theorem ahead_advanceBy (c : Cursor) (n : Nat) : (c.advanceBy n).ahead = c.ahead.drop n := by
  induction n generalizing c with
  | zero => rfl
  | succ n ih => simp [advanceBy, ih]

/-- Stepping back lowers the position by one. -/
theorem position_retreat (c : Cursor) : c.retreat.position = c.position - 1 := by
  unfold retreat
  have := c.position_eq
  split <;> simp_all

/-- Stepping back several times lowers the position by as many. -/
theorem position_retreatBy (c : Cursor) (n : Nat) : (c.retreatBy n).position = c.position - n := by
  induction n generalizing c with
  | zero => rfl
  | succ n ih => rw [retreatBy, ih, position_retreat]; omega

/-- Going to a position that exists arrives there. -/
theorem position_goTo {c : Cursor} {position : Nat} (h : position ≤ c.toList.length) :
    (c.goTo position).position = position := by
  unfold goTo
  split
  · rw [position_retreatBy]; omega
  · have hadvance := length_toList (c.advanceBy (position - c.position))
    rw [toList_advanceBy, ahead_advanceBy, List.length_drop] at hadvance
    have := length_toList c
    omega

/-- After skipping, the next token is one that was not to be skipped. -/
@[simp] theorem ahead_skip (c : Cursor) (kinds : List Kind) :
    (c.skip kinds).ahead = Lookahead.significant kinds c.ahead := by
  simp only [skip, countLeading, Lookahead.significant, ahead_advanceBy]
  induction c.ahead with
  | nil => rfl
  | cons t rest ih => by_cases h : t.isOneOf kinds <;> simp [h, ih]

end Cursor

namespace Tree

/-- A tree grows by the nodes that are added. -/
@[simp] theorem size_grow (t : Tree) (entries : List Node) :
    (t.grow entries).size = t.size + entries.length := by
  simp [grow, size]

@[simp] theorem grow_nil (t : Tree) : t.grow [] = t := by
  cases t; simp [grow]

/-- Nodes that are added in two steps are added together. -/
@[simp] theorem grow_grow (t : Tree) (first more : List Node) :
    (t.grow first).grow more = t.grow (first ++ more) := by
  simp [grow]

/-- Growing leaves the nodes that were there. -/
theorem node_grow_lt {t : Tree} {id : NodeId} (h : id < t.size) (entries : List Node) :
    (t.grow entries).node id = t.node id := by
  unfold size at h
  simp [node, grow, Array.getElem?_append_left h]

/-- The added nodes stand after those that were there. -/
theorem node_grow_add (t : Tree) (entries : List Node) (i : Nat) :
    (t.grow entries).node (t.size + i) = (entries[i]?).getD .root := by
  unfold size
  simp [node, grow, Array.getElem?_append_right]

/-- Shrinking to the former size takes back what was added. -/
theorem shrink_grow (t : Tree) (entries : List Node) : (t.grow entries).shrink t.size = t := by
  have := t.size_pos
  cases t with
  | mk nodes h =>
    simp only [grow, shrink, size, Nat.max_eq_left h]
    congr 1
    simp

/-- Entering a node is growing by a node whose contents are pending. -/
theorem addPending_eq (t : Tree) (category : Category) (parent : NodeId) (line : Nat) :
    t.addPending category parent line =
      t.grow [⟨.pending category, some parent, (t.node parent).level + 1, line, false, false⟩] := by
  simp [addPending, grow]

/-- Changing the first of the nodes that were added. -/
theorem update_grow (t : Tree) (n : Node) (entries : List Node) (change : Node → Node) :
    (t.grow (n :: entries)).update t.size change = t.grow (change n :: entries) := by
  have hsize : t.size = t.nodes.size := rfl
  simp only [update, grow, hsize, Tree.mk.injEq]
  apply Array.ext
  · simp
  · intro i h₁ h₂
    simp only [Array.getElem_modify, Array.getElem_append]
    by_cases hi : i < t.nodes.size
    · simp [hi, Nat.ne_of_gt hi]
    · rcases Nat.eq_or_lt_of_le (Nat.le_of_not_lt hi) with rfl | hlt
      · simp
      · obtain ⟨j, rfl⟩ : ∃ j, i = t.nodes.size + (j + 1) :=
          ⟨i - t.nodes.size - 1, by omega⟩
        simp

end Tree

namespace Parse

/-- A later state of a parse without splits. -/
structure Extends (s s' : State) : Prop where
  tokens : s'.cursor.toList = s.cursor.toList
  onward : s'.ahead.length ≤ s.ahead.length
  tree : ∃ entries, s'.tree = s.tree.grow entries
  trials : s'.trials = s.trials

/-- Two states that differ in the furthest failure at most. -/
structure Same (s s' : State) : Prop where
  cursor : s'.cursor = s.cursor
  tree : s'.tree = s.tree
  trials : s'.trials = s.trials

variable {s s' s'' : State}

theorem Extends.refl (s : State) : Extends s s :=
  ⟨rfl, Nat.le_refl _, ⟨[], by simp⟩, rfl⟩

/-- Extensions can be put together. -/
theorem Extends.trans (h : Extends s s') (h' : Extends s' s'') : Extends s s'' := by
  obtain ⟨entries, htree⟩ := h.tree
  obtain ⟨more, htree'⟩ := h'.tree
  exact ⟨h'.tokens.trans h.tokens, Nat.le_trans h'.onward h.onward,
    ⟨entries ++ more, by rw [htree', htree, Tree.grow_grow]⟩, h'.trials.trans h.trials⟩

theorem Same.refl (s : State) : Same s s :=
  ⟨rfl, rfl, rfl⟩

theorem Same.trans (h : Same s s') (h' : Same s' s'') : Same s s'' :=
  ⟨h'.cursor.trans h.cursor, h'.tree.trans h.tree, h'.trials.trans h.trials⟩

/-- The same state has the same tokens ahead. -/
theorem Same.ahead (h : Same s s') : s'.ahead = s.ahead := by
  rw [State.ahead, h.cursor]; rfl

theorem Same.extends (h : Same s s') : Extends s s' :=
  ⟨by rw [h.cursor], Nat.le_of_eq (congrArg List.length h.ahead), ⟨[], by simp [h.tree]⟩, h.trials⟩

/-- Going back to a mark takes back everything since then. -/
theorem Extends.returnTo (h : Extends s s') : Same s (s'.returnTo s.mark) := by
  refine ⟨?_, ?_, h.trials⟩
  · refine Cursor.eq_of_position (by simp [State.returnTo, h.tokens]) ?_
    refine Cursor.position_goTo ?_
    rw [h.tokens, Cursor.length_toList]
    exact Nat.le_add_right _ _
  · obtain ⟨entries, htree⟩ := h.tree
    simp [State.returnTo, State.mark, htree, Tree.shrink_grow]

/-- The position tells whether tokens were consumed. -/
theorem Extends.position_eq_iff (h : Extends s s') :
    s'.cursor.position = s.cursor.position ↔ s'.ahead.length = s.ahead.length := by
  have := congrArg List.length h.tokens
  rw [Cursor.length_toList, Cursor.length_toList] at this
  simp only [State.ahead]
  omega

/-- Skipping in a state is skipping in the tokens ahead. -/
@[simp] theorem ahead_skip (s : State) (kinds : List Kind) :
    (s.skip kinds).ahead = Lookahead.significant kinds s.ahead :=
  Cursor.ahead_skip _ _

@[simp] theorem ahead_advance (s : State) : s.advance.ahead = s.ahead.tail :=
  Cursor.ahead_advance _

theorem extends_skip (s : State) (kinds : List Kind) : Extends s (s.skip kinds) :=
  ⟨by simp [State.skip], by rw [ahead_skip]; exact (List.dropWhile_sublist _).length_le,
    ⟨[], by simp [State.skip]⟩, rfl⟩

theorem extends_advance (s : State) : Extends s s.advance :=
  ⟨by simp [State.advance], by rw [ahead_advance, List.length_tail]; exact Nat.sub_le _ _,
    ⟨[], by simp [State.advance]⟩, rfl⟩

/-- A note of a failure changes nothing else. -/
theorem same_recordFailure (s : State) : Same s s.recordFailure := by
  unfold State.recordFailure
  split
  · exact .refl s
  · dsimp only
    split
    · exact ⟨rfl, rfl, rfl⟩
    · exact .refl s

end Parse

end TidyManifest
