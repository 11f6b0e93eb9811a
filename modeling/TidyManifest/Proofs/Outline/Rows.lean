import TidyManifest.Outline.Drawing
import TidyManifest.Proofs.Lexing.Refusal
import TidyManifest.Proofs.Tree.Levels
import TidyManifest.Proofs.Tree.Parsed
import Mathlib.Data.List.Forall2

/-!
# The rows of a drawing

A drawing has one row for each node but the root, in the order of their numbers.  A row starts with
two characters for each level above it, and goes on with a connector, which says whether the node is
the last child of its parent, the icon of its category and the name of its category.  Labels do not
disturb this, since only one line of them is shown.

Levels and categories can be read off the rows, and they fix the shape of the tree: trees with the
same drawing differ in their tokens only (`draw_parse`).
-/

namespace TidyManifest.Outline

/-- Whether a node is the last child of its parent. -/
def isLast (t : Tree) (id : NodeId) : Bool :=
  (t.node id).parent.any fun parent => (t.children parent).getLast? == some id

/-- What leads to a node directly. -/
def connector (last : Bool) : String :=
  if last then "└─ " else "├─ "

/-- What leads past a node to the nodes below it. -/
def passing (last : Bool) : String :=
  if last then "  " else "│ "

/-- A row shows a node: two characters for each level above it, the connector, the icon and the name
of its category, and perhaps a label. -/
def Shows (t : Tree) (id : NodeId) (row : String) : Prop :=
  ∃ lead tail : String, (lead.length : Int) = 2 * (t.node id).level ∧
    (∀ c ∈ lead.toList, c = ' ' ∨ c = '│') ∧ '\n' ∉ tail.toList ∧
    row = lead ++ (connector (isLast t id) ++
      (icon (t.category id) ++ " " ++ (t.category id).label ++ tail))

/-- A text draws a tree: its rows, each ended by a line feed, show the nodes below the root in the
order of their numbers. -/
structure Draws (t : Tree) (rows : List String) : Prop where
  count : rows.length = t.size - 1
  shows : ∀ id, 0 < id → id < t.size → ∃ row, rows[id - 1]? = some row ∧ Shows t id row

mutual

/-- The rows of a node and of what is below it. -/
def rowsOf (lead : String) (last : Bool) : Outline → List String
  | .mk category label _ _ _ children =>
    (lead ++ (connector last ++ caption category label)) :: rowsAll (lead ++ passing last) children

/-- The rows of siblings. -/
def rowsAll (lead : String) : List Outline → List String
  | [] => []
  | outline :: rest => rowsOf lead rest.isEmpty outline ++ rowsAll lead rest

end

mutual

/-- The drawing of a node consists of its rows. -/
theorem drawNode_eq (lead : String) (last : Bool) (outline : Outline) :
    drawNode lead last outline = String.join ((rowsOf lead last outline).map (· ++ "\n")) := by
  cases outline with
  | mk category label line level attributes children =>
    rw [drawNode, rowsOf, List.map_cons, String.join_cons, drawAll_eq]
    simp only [connector, passing, String.append_assoc]

/-- The drawing of siblings consists of their rows. -/
theorem drawAll_eq (lead : String) (outlines : List Outline) :
    drawAll lead outlines = String.join ((rowsAll lead outlines).map (· ++ "\n")) := by
  cases outlines with
  | nil => rfl
  | cons outline rest =>
    rw [drawAll, rowsAll, List.map_append, String.join_append, drawNode_eq, drawAll_eq]

end

/-- An icon is on one line. -/
theorem newline_not_mem_icon (category : Category) : '\n' ∉ (icon category).toList := by
  cases category <;> decide

/-- A label is on one line. -/
theorem newline_not_mem_label (category : Category) : '\n' ∉ category.label.toList := by
  cases category <;> decide

/-- A text that is cut short stays on its line. -/
theorem newline_not_mem_shortened (limit : Nat) {text : String} (h : '\n' ∉ text.toList) :
    '\n' ∉ (shortened limit text).toList := by
  unfold shortened
  split
  · have htake : '\n' ∉ text.toList.take limit := fun hmem => h (List.mem_of_mem_take hmem)
    simp [htake]
  · exact h

/-- Only one line of a label is shown. -/
theorem caption_eq (category : Category) (label : String) :
    ∃ tail : String, '\n' ∉ tail.toList ∧
      caption category label = icon category ++ " " ++ category.label ++ tail := by
  refine ⟨_, ?_, rfl⟩
  split
  · simp
  · have hline : '\n' ∉ ((Text.lines label).headD "").toList := by
      cases hlines : Text.lines label with
      | nil => simp
      | cons line rest =>
        exact Text.newline_not_mem_linesFrom List.not_mem_nil line (hlines ▸ List.mem_cons_self)
    have hshown := newline_not_mem_shortened 30 hline
    rw [String.toList_append, List.mem_append]
    exact not_or.mpr ⟨by decide, hshown⟩

/-- What shows a node is one row. -/
theorem Shows.newline_not_mem {t : Tree} {id : NodeId} {row : String} (h : Shows t id row) :
    '\n' ∉ row.toList := by
  obtain ⟨lead, tail, -, hlead, htail, rfl⟩ := h
  have hnone : '\n' ∉ lead.toList := fun hmem => by simpa using hlead _ hmem
  have hconnector : '\n' ∉ (connector (isLast t id)).toList := by
    cases isLast t id <;> decide
  simp [hnone, hconnector, htail, newline_not_mem_icon, newline_not_mem_label]

section

variable {t : Tree} {parent first n : Nat} {p : Phrase} {ps : List Phrase} {lead : String}

/-- Each level adds two characters in front of a row. -/
theorem length_passing (lead : String) (last : Bool) :
    ((lead ++ passing last).length : Int) = lead.length + 2 := by
  have htwo : (passing last).length = 2 := by cases last <;> decide
  rw [String.length_append, htwo]
  rfl

/-- What stands in front of a row are blanks and bars. -/
theorem mem_passing {last : Bool} (h : ∀ c ∈ lead.toList, c = ' ' ∨ c = '│') :
    ∀ c ∈ (lead ++ passing last).toList, c = ' ' ∨ c = '│' := by
  intro c hc
  rw [String.toList_append, List.mem_append] at hc
  rcases hc with hc | hc
  · exact h c hc
  · have hpassing : ∀ last, ∀ c ∈ (passing last).toList, c = ' ' ∨ c = '│' := by decide
    exact hpassing last c hc

/-- A phrase is the last child if none stands after it. -/
theorem isLast_of_stands (h : t.Stands parent first (p :: ps))
    (hsuffix : Phrase.starts first (p :: ps) <:+ t.children parent) :
    isLast t first = ps.isEmpty := by
  have hboth : t.Stands parent first ([p] ++ ps) := h
  have hp : t.Stands parent first [p] := hboth.left
  have hparent : (t.node first).parent = some parent := by
    rw [hp.node_eq]
    rfl
  obtain ⟨before, hchildren⟩ := hsuffix
  rw [isLast, hparent, Option.any_some, ← hchildren, Phrase.starts, List.getLast?_append]
  cases ps with
  | nil => simp [Phrase.starts]
  | cons q qs =>
    have hne : Phrase.starts (first + p.size) (q :: qs) ≠ [] := by simp [Phrase.starts]
    have hlast := List.getLast_mem hne
    have hle := (Phrase.starts_increasing (first + p.size) (q :: qs)).2 _ hlast
    have hpos := p.size_pos
    rw [List.getLast?_cons_of_ne_nil hne, List.getLast?_eq_some_getLast hne, Option.some_or]
    refine beq_eq_false_iff_ne.mpr fun heq => ?_
    rw [Option.some.inj heq] at hle
    omega

/-- The rows of phrases show their nodes one after the other. -/
theorem rowsAll_shows (h : t.Stands parent first ps)
    (hsuffix : Phrase.starts first ps <:+ t.children parent) (hn : Phrase.total ps ≤ n)
    (hlead : (lead.length : Int) = 2 * ((t.node parent).level + 1))
    (hchars : ∀ c ∈ lead.toList, c = ' ' ∨ c = '│') :
    List.Forall₂ (Shows t) (List.range' first (Phrase.total ps))
      (rowsAll lead ((Phrase.starts first ps).map (within t n))) := by
  induction hw : Phrase.total ps using Nat.strongRecOn generalizing parent first ps lead n with
  | _ w ih =>
    cases ps with
    | nil =>
      cases hw
      exact .nil
    | cons p ps =>
      rw [Phrase.total_cons] at hn hw
      have hsize := p.size_eq
      obtain ⟨m, rfl⟩ : ∃ m, n = m + 1 := ⟨n - 1, by omega⟩
      have hboth : t.Stands parent first ([p] ++ ps) := h
      have hp : t.Stands parent first [p] := hboth.left
      have hps : t.Stands parent (first + p.size) ps := by simpa using hboth.right
      have hlast := isLast_of_stands h hsuffix
      have hlevel : (t.node first).level = (t.node parent).level + 1 := by
        rw [hp.node_eq]
        rfl
      have hown : Shows t first (lead ++ (connector ps.isEmpty ++
          caption (t.category first) (labelOf (t.form first)))) := by
        obtain ⟨tail, htail, hcaption⟩ := caption_eq (t.category first) (labelOf (t.form first))
        exact ⟨lead, tail, by rw [hlead, hlevel], hchars, htail, by rw [hlast, hcaption]⟩
      have hbelow : List.Forall₂ (Shows t) (List.range' (first + 1) (Phrase.total p.children))
          (rowsAll (lead ++ passing ps.isEmpty) ((t.children first).map (within t m))) := by
        have hall : Phrase.starts (first + 1) p.children <:+ t.children first :=
          hp.children_eq ▸ List.suffix_rfl
        rw [hp.children_eq]
        refine ih _ (by omega) hp.below hall (by omega) ?_ (mem_passing hchars) rfl
        rw [length_passing, hlevel]
        omega
      have hmore : List.Forall₂ (Shows t) (List.range' (first + p.size) (Phrase.total ps))
          (rowsAll lead ((Phrase.starts (first + p.size) ps).map (within t (m + 1)))) :=
        ih _ (by omega) hps ((List.suffix_cons _ _).trans hsuffix) (by omega) hlead hchars rfl
      have hrange : List.range' first w =
          (first :: List.range' (first + 1) (Phrase.total p.children)) ++
            List.range' (first + p.size) (Phrase.total ps) := by
        rw [← hw, ← List.range'_append_1, hsize, Nat.add_comm 1, List.range'_succ]
      have hempty : ((Phrase.starts (first + p.size) ps).map (within t (m + 1))).isEmpty =
          ps.isEmpty := by
        cases ps <;> rfl
      rw [hrange, Phrase.starts, List.map_cons, rowsAll, hempty]
      exact List.rel_append (.cons hown hbelow) hmore

end

/-- The category with a given first character of its icon. -/
def ofSign? (sign : Option Char) : Option Category :=
  Category.all.find? fun category => (icon category).toList.head? == sign

/-- A category can be told from the first character of its icon. -/
theorem ofSign?_icon (category : Category) :
    ofSign? (icon category).toList.head? = some category := by
  cases category <;> decide

/-- The characters that lead to a connector. -/
def isLead (c : Char) : Bool :=
  c == ' ' || c == '│'

/-- The level and the category of a node can be read off its row. -/
theorem Shows.read {t : Tree} {id : NodeId} {row : String} (h : Shows t id row) :
    ((row.toList.takeWhile isLead).length : Int) = 2 * (t.node id).level ∧
      ofSign? ((row.toList.dropWhile isLead).drop 3).head? = some (t.category id) := by
  obtain ⟨lead, tail, hlength, hchars, -, rfl⟩ := h
  have hlead : ∀ c ∈ lead.toList, isLead c = true := by
    intro c hc
    rcases hchars c hc with rfl | rfl <;> rfl
  have hicon : (icon (t.category id)).toList ≠ [] := by
    cases t.category id <;> decide
  have hsign := ofSign?_icon (t.category id)
  obtain ⟨c, hc, hconnector⟩ : ∃ c, isLead c = false ∧
      (connector (isLast t id)).toList = [c, '─', ' '] := by
    cases isLast t id
    · exact ⟨'├', by decide, by decide⟩
    · exact ⟨'└', by decide, by decide⟩
  have hrow : (lead ++ (connector (isLast t id) ++ (icon (t.category id) ++ " " ++
      (t.category id).label ++ tail))).toList = lead.toList ++ c :: '─' :: ' ' ::
        ((icon (t.category id)).toList ++ (" " ++ (t.category id).label ++ tail).toList) := by
    simp [hconnector]
  rw [hrow]
  constructor
  · rw [List.takeWhile_append_of_pos hlead, List.takeWhile_cons_of_neg (by simp [hc]),
      List.append_nil, String.length_toList, hlength]
  · rw [List.dropWhile_append_of_pos hlead, List.dropWhile_cons_of_neg (by simp [hc]),
      List.drop_succ_cons, List.drop_succ_cons, List.drop_succ_cons, List.drop_zero,
      List.head?_append_of_ne_nil _ hicon, hsign]

section

variable {ps qs : List Phrase}

/-- The rows of the drawing of a tree. -/
theorem draws_ofPhrases (ps : List Phrase) :
    ∃ rows, Text.rows (draw (ofTree (Tree.ofPhrases ps))) = rows ++ [""] ∧
      Draws (Tree.ofPhrases ps) rows := by
  have hsize := Tree.size_ofPhrases ps
  have hshows : List.Forall₂ (Shows (Tree.ofPhrases ps)) (List.range' 1 (Phrase.total ps))
      (rowsAll "" ((Phrase.starts 1 ps).map (within (Tree.ofPhrases ps) (Phrase.total ps)))) :=
    rowsAll_shows (Tree.stands_ofPhrases ps) List.suffix_rfl (Nat.le_refl _) rfl (by simp)
  have hdrawing : draw (ofTree (Tree.ofPhrases ps)) =
      drawAll "" ((Phrase.starts 1 ps).map (within (Tree.ofPhrases ps) (Phrase.total ps))) := by
    rw [ofTree, ofNode, hsize, Nat.add_comm]
    rfl
  generalize hrows : rowsAll "" ((Phrase.starts 1 ps).map (within (Tree.ofPhrases ps)
    (Phrase.total ps))) = rows at hshows
  have hlength : Phrase.total ps = rows.length := by simpa using hshows.length_eq
  have hget := (List.forall₂_iff_get.mp hshows).2
  refine ⟨rows, ?_, by omega, fun id hpos hlt => ?_⟩
  · rw [hdrawing, drawAll_eq, hrows, Text.rows_join]
    intro row hrow
    obtain ⟨i, rfl⟩ := List.get_of_mem hrow
    exact (hget i (by simp [hlength, i.2]) i.2).newline_not_mem
  · have hi : id - 1 < rows.length := by omega
    refine ⟨rows[id - 1], List.getElem?_eq_getElem hi, ?_⟩
    have hid := hget (id - 1) (by simpa [hlength] using hi) hi
    rw [List.get_eq_getElem, List.getElem_range', Nat.one_mul, Nat.add_sub_cancel' hpos] at hid
    exact hid

/-- Trees with the same rows have the same shape. -/
theorem sameShape_of_draws {rows : List String} (h : Draws (Tree.ofPhrases ps) rows)
    (h' : Draws (Tree.ofPhrases qs) rows) : (Tree.ofPhrases ps).SameShape (Tree.ofPhrases qs) := by
  have hsize : (Tree.ofPhrases ps).size = (Tree.ofPhrases qs).size := by
    have := h.count
    have := h'.count
    have := (Tree.ofPhrases ps).size_pos
    have := (Tree.ofPhrases qs).size_pos
    simp only [Tree.size] at *
    omega
  have hboth (id : Nat) :
      ((Tree.ofPhrases ps).node id).level = ((Tree.ofPhrases qs).node id).level ∧
        (Tree.ofPhrases ps).category id = (Tree.ofPhrases qs).category id := by
    by_cases hlt : id < (Tree.ofPhrases ps).size
    · rcases Nat.eq_zero_or_pos id with rfl | hpos
      · exact ⟨rfl, rfl⟩
      · obtain ⟨row, hrow, hshows⟩ := h.shows id hpos hlt
        obtain ⟨row', hrow', hshows'⟩ := h'.shows id hpos (hsize ▸ hlt)
        obtain rfl : row = row' := Option.some.inj (hrow.symm.trans hrow')
        obtain ⟨hlevel, hcategory⟩ := hshows.read
        obtain ⟨hlevel', hcategory'⟩ := hshows'.read
        exact ⟨by omega, Option.some.inj (hcategory.symm.trans hcategory')⟩
    · have hle := Nat.not_lt.mp hlt
      rw [Tree.category, Tree.category, Tree.node_of_size_le hle,
        Tree.node_of_size_le (hsize ▸ hle)]
      exact ⟨rfl, rfl⟩
  exact Tree.sameShape_of_levels hsize (fun id => (hboth id).1) fun id => (hboth id).2

end

/-- The drawing of a tree has one row for each node but the root, in the order of their numbers, and
every row shows its node: two characters for each level above it, the closing connector if it is the
last child of its parent and the other one if not, then icon and name of its category.  No other
shape has the same drawing. -/
theorem draw_parse {mode : SplitMode} {tokens : List Token} {t : Tree}
    (h : parse mode tokens = .ok t) :
    (∃ rows, Text.rows (draw (ofTree t)) = rows ++ [""] ∧ Draws t rows) ∧
      ∀ (mode' : SplitMode) (tokens' : List Token) (t' : Tree), parse mode' tokens' = .ok t' →
        draw (ofTree t') = draw (ofTree t) → t'.SameShape t := by
  obtain ⟨ps, -, rfl⟩ := parse_eq_ok h
  obtain ⟨rows, hrows, hdraws⟩ := draws_ofPhrases (mode.statements ps)
  refine ⟨⟨rows, hrows, hdraws⟩, fun mode' tokens' t' h' hsame => ?_⟩
  obtain ⟨qs, -, rfl⟩ := parse_eq_ok h'
  obtain ⟨rows', hrows', hdraws'⟩ := draws_ofPhrases (mode'.statements qs)
  rw [hsame, hrows] at hrows'
  obtain rfl : rows = rows' := List.append_cancel_right hrows'
  exact sameShape_of_draws hdraws' hdraws

/-- A comment over two lines and a text over two lines, of which one line each is shown. -/
theorem draw_parse_of_lines :
    ∃ tokens t, Token.lex "/* a\nb */\n$c = 'd\ne'" = .ok tokens ∧ parse .render tokens = .ok t ∧
      draw (ofTree t) = "├─ ¶ MultilineComment: /* a\n└─ ≔ VarAssignment: $c\n" ++
        "  └─ ∑ Expression\n    └─ ◦ Simple: 'd\n" ∧
      (∃ rows, Text.rows (draw (ofTree t)) = rows ++ [""] ∧ Draws t rows) ∧
      ∀ (mode' : SplitMode) (tokens' : List Token) (t' : Tree), parse mode' tokens' = .ok t' →
        draw (ofTree t') = draw (ofTree t) → t'.SameShape t := by
  have hok : ((Token.lex "/* a\nb */\n$c = 'd\ne'").toOption.any fun tokens =>
      (parse .render tokens).toOption.any fun t => draw (ofTree t) ==
        "├─ ¶ MultilineComment: /* a\n└─ ≔ VarAssignment: $c\n" ++
          "  └─ ∑ Expression\n    └─ ◦ Simple: 'd\n") = true := by
    decide +kernel
  obtain ⟨tokens, hlex, hok⟩ := ok_of_any hok
  obtain ⟨t, hparse, hdrawing⟩ := ok_of_any hok
  exact ⟨tokens, t, hlex, hparse, beq_iff_eq.mp hdrawing, draw_parse hparse⟩

end TidyManifest.Outline
