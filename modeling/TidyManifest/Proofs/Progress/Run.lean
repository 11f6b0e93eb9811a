import TidyManifest.Proofs.Splitting.Failures

/-!
# What a reading does to the tokens

A reading moves the cursor forward, and it may put tokens in where it splits resources.  `Run k`
relates the states before and after a reading with `k` splits.

Every split uses up a colon: the tokens ahead afterwards hold fewer colons than those at the start
of the resource, because the first title is not among them and the head that is put in has none.
The tokens ahead do not get more either, because that head and the braces are no longer than the
resource up to its first title.  So the colons bound the number of splits, and each split puts in at
most as many tokens as there were ahead at first.
-/

namespace TidyManifest.Parse

open Plain (Reopening)

/-- How many colons there are. -/
def colons (tokens : List Token) : Nat :=
  tokens.countP fun t => t.kind == .colon

/-- Tokens in which a number of splits were made: each put in a closing brace, a newline and the
head of a resource with its brace. -/
inductive Inserted (tokens : List Token) : Nat → List Token → Prop
  | none : Inserted tokens 0 tokens
  | split {k : Nat} {before after : List Token} {closing newline : Token} (r : Reopening)
      (h : Inserted tokens k (before ++ after)) (hclosing : closing.kind = .rightBrace)
      (hnewline : newline.kind = .newline) :
      Inserted tokens (k + 1) (before ++ closing :: newline :: r.tokens after)

/-- Splits in two steps are splits together. -/
theorem Inserted.trans {first second third : List Token} {j k : Nat} (h : Inserted first j second)
    (h' : Inserted second k third) : Inserted first (j + k) third := by
  induction h' with
  | none => exact h
  | split r _ hclosing hnewline ih => exact .split r ih hclosing hnewline

theorem colons_append (first second : List Token) :
    colons (first ++ second) = colons first + colons second :=
  List.countP_append

/-- A head that is put in has no colon. -/
theorem colons_reopening (r : Reopening) (tail : List Token) :
    colons (r.tokens tail) = colons tail := by
  have hsigils : colons r.sigils = 0 :=
    List.countP_eq_zero.mpr fun t ht => by simp [r.hsigils t ht]
  have htype : r.type.kind ≠ .colon := by
    have hkinds : ∀ kind ∈ Grammar.resourceTypes, kind ≠ .colon := by decide
    exact hkinds _ r.htype
  rw [Reopening.tokens, colons_append, hsigils]
  simp [colons, htype, r.hopening]

/-- A later state of a parse, with the number of splits on the way. -/
structure Run (k : Nat) (s s' : State) : Prop where
  position : s.cursor.position ≤ s'.cursor.position
  onward : s'.ahead.length ≤ s.ahead.length
  size : s.tree.size ≤ s'.tree.size
  spends : k + colons s'.ahead ≤ colons s.ahead
  inserted : Inserted s.cursor.toList k s'.cursor.toList
  growth : s'.cursor.toList.length ≤ s.cursor.toList.length + k * s.ahead.length

/-- A later state of a parse, with any number of splits on the way. -/
def Runs (s s' : State) : Prop :=
  ∃ k, Run k s s'

section

variable {s s' s'' : State} {j k : Nat}

/-- Runs can be put together. -/
theorem Run.trans (h : Run j s s') (h' : Run k s' s'') : Run (j + k) s s'' := by
  have hposition := h'.position
  have honward := h'.onward
  have hcolons := h'.spends
  have hmul : k * s'.ahead.length ≤ k * s.ahead.length := Nat.mul_le_mul_left k h.onward
  have hgrowth := h'.growth
  refine ⟨Nat.le_trans h.position hposition, Nat.le_trans honward h.onward,
    Nat.le_trans h.size h'.size, ?_, h.inserted.trans h'.inserted, ?_⟩
  · have := h.spends
    omega
  · have := h.growth
    rw [Nat.add_mul]
    omega

/-- Where the cursor has moved on, the tokens ahead are the end of those before. -/
theorem ahead_suffix (htokens : s'.cursor.toList = s.cursor.toList)
    (honward : s'.ahead.length ≤ s.ahead.length) : ∃ w, s.ahead = w ++ s'.ahead := by
  have hsuffix : s'.ahead <:+ s.ahead := by
    have hall : s'.ahead <:+ s.cursor.toList := htokens ▸ ⟨_, rfl⟩
    exact List.suffix_of_suffix_length_le hall ⟨_, rfl⟩ honward
  obtain ⟨w, hw⟩ := hsuffix
  exact ⟨w, hw.symm⟩

/-- Moving on in the same tokens is a run without splits. -/
theorem Run.of_tokens (htokens : s'.cursor.toList = s.cursor.toList)
    (honward : s'.ahead.length ≤ s.ahead.length) (hsize : s.tree.size ≤ s'.tree.size) :
    Run 0 s s' := by
  obtain ⟨w, hw⟩ := ahead_suffix htokens honward
  have hlength := congrArg List.length htokens
  rw [Cursor.length_toList, Cursor.length_toList] at hlength
  refine ⟨?_, honward, hsize, ?_, htokens ▸ .none, ?_⟩
  · simp only [State.ahead] at honward
    omega
  · rw [hw, colons_append]
    omega
  · rw [htokens]
    exact Nat.le_add_right _ _

/-- An extension is a run without splits. -/
theorem Extends.run (h : Extends s s') : Run 0 s s' := by
  obtain ⟨entries, htree⟩ := h.tree
  refine .of_tokens h.tokens h.onward ?_
  rw [htree, Tree.size_grow]
  exact Nat.le_add_right _ _

/-- Runs with any number of splits can be put together. -/
theorem Runs.trans (h : Runs s s') (h' : Runs s' s'') : Runs s s'' := by
  obtain ⟨j, hj⟩ := h
  obtain ⟨k, hk⟩ := h'
  exact ⟨j + k, hj.trans hk⟩

theorem Extends.runs (h : Extends s s') : Runs s s' :=
  ⟨0, h.run⟩

/-- A run never moves the cursor back. -/
theorem Runs.position_le (h : Runs s s') : s.cursor.position ≤ s'.cursor.position := by
  obtain ⟨k, hk⟩ := h
  exact hk.position

/-- A run never takes nodes from the tree. -/
theorem Runs.size_le (h : Runs s s') : s.tree.size ≤ s'.tree.size := by
  obtain ⟨k, hk⟩ := h
  exact hk.size

/-- Putting the head of a resource in again, where enough tokens and a colon have been passed since
its start. -/
theorem Run.of_split {tail : List Token} {closing newline : Token} (r : Reopening)
    (htokens : s'.cursor.toList = s.cursor.toList) (hsize : s.tree.size ≤ s'.tree.size)
    (hlength : s'.ahead.length + r.sigils.length + 4 ≤ s.ahead.length)
    (hcolons : colons s'.ahead < colons s.ahead) (hclosing : closing.kind = .rightBrace)
    (hnewline : newline.kind = .newline) (htail : tail = closing :: newline :: r.tokens s'.ahead) :
    Run 1 s { s' with cursor := { s'.cursor with ahead := tail } } := by
  subst htail
  have hall := congrArg List.length htokens
  rw [Cursor.length_toList, Cursor.length_toList] at hall
  have htail : (closing :: newline :: r.tokens s'.ahead).length =
      s'.ahead.length + r.sigils.length + 4 := by
    simp only [Reopening.tokens, List.length_cons, List.length_append]
    omega
  have hcount : colons (closing :: newline :: r.tokens s'.ahead) = colons s'.ahead := by
    rw [← colons_reopening r s'.ahead]
    simp [colons, hclosing, hnewline]
  refine ⟨?_, ?_, hsize, ?_, ?_, ?_⟩
  · simp only [State.ahead] at hlength ⊢
    omega
  · exact Nat.le_trans (Nat.le_of_eq htail) hlength
  · change 1 + colons (closing :: newline :: r.tokens s'.ahead) ≤ _
    omega
  · refine .split r ?_ hclosing hnewline
    rw [← htokens]
    exact .none
  · rw [Cursor.length_toList, Cursor.length_toList]
    change s'.cursor.position + (closing :: newline :: r.tokens s'.ahead).length ≤ _
    rw [htail]
    simp only [State.ahead] at hlength ⊢
    omega

end

end TidyManifest.Parse

namespace TidyManifest.Plain

open Parse (colons)

/-- Reading a title takes up two tokens at least, and one of them is a colon. -/
theorem Sound.title {d : Oracle} (hd : Sound d) {parent : Category} {tokens rest : List Token}
    {p : Phrase} (h : d.choose [.title] parent tokens = .ok (some (p, rest))) :
    rest.length + 2 ≤ tokens.length ∧ colons rest < colons tokens := by
  obtain ⟨hcategory, w, rfl, hw⟩ := hd.choose h
  have htitle : p.category = .title := by simpa using hcategory
  obtain ⟨hlength, t, ht, hkind⟩ := hw.title htitle
  have hpos : 0 < colons w := List.countP_pos_iff.mpr ⟨t, ht, by simp [hkind]⟩
  rw [List.length_append, Parse.colons_append]
  omega

end TidyManifest.Plain
