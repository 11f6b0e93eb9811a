import TidyManifest.Proofs.Splitting.Statements
import TidyManifest.Proofs.Tree.Preorder
import TidyManifest.Proofs.Tree.Regular

/-!
# The tree of a manifest

Whatever the tokens and whichever way of splitting, the tree that a parse gives is a tree of regular
phrases (`parse_eq_ok`).  So its table is the preorder of one tree, without gaps and without nodes
that nothing refers to, and every node has the contents that its rule names.
-/

namespace TidyManifest

/-- The statements of a manifest, for a way of splitting. -/
def SplitMode.statements : SplitMode → List Phrase → List Phrase
  | .render, ps => ps
  | .splice, ps => ps.flatMap Phrase.split

/-- The tree of a parse holds the statements that were read, perhaps split. -/
theorem parse_eq_ok {mode : SplitMode} {tokens : List Token} {t : Tree}
    (h : parse mode tokens = .ok t) :
    ∃ ps, Plain.manifest (Parse.levels tokens) tokens = .ok ps ∧
      t = Tree.ofPhrases (mode.statements ps) := by
  cases mode with
  | render => exact parse_render_eq_ok h
  | splice =>
    have hsplice := parse_splice tokens
    split at hsplice
    · obtain ⟨e, he, -⟩ := hsplice
      cases h.symm.trans he
    · rename_i ps hps
      exact ⟨ps, hps, Except.ok.inj (h.symm.trans hsplice)⟩

/-- Where the plain reading finds statements, the parser makes their tree. -/
theorem parse_of_manifest {mode : SplitMode} {tokens : List Token} {ps : List Phrase}
    (h : Plain.manifest (Parse.levels tokens) tokens = .ok ps) :
    parse mode tokens = .ok (Tree.ofPhrases (mode.statements ps)) := by
  cases mode with
  | render =>
    have hrender := parse_render tokens
    rwa [h] at hrender
  | splice =>
    have hsplice := parse_splice tokens
    rwa [h] at hsplice

/-- The error of a parse is that of plain reading, whichever way of splitting. -/
theorem parse_eq_error {mode : SplitMode} {tokens : List Token} {e : ParseError}
    (h : parse mode tokens = .error e) :
    ∃ f, Plain.manifest (Parse.levels tokens) tokens = .error f ∧ Parse.Explains f e := by
  cases hmanifest : Plain.manifest (Parse.levels tokens) tokens with
  | ok ps => cases h.symm.trans (parse_of_manifest hmanifest)
  | error f =>
    have hparse : ∃ e', parse mode tokens = .error e' ∧ Parse.Explains f e' := by
      cases mode with
      | render =>
        have hrender := parse_render tokens
        rwa [hmanifest] at hrender
      | splice =>
        have hsplice := parse_splice tokens
        rwa [hmanifest] at hsplice
    obtain ⟨e', he', hexplains⟩ := hparse
    cases h.symm.trans he'
    exact ⟨f, rfl, hexplains⟩

/-- The statements of a manifest are regular, split or not. -/
theorem regular_statements {mode : SplitMode} {tokens : List Token} {n : Nat} {ps : List Phrase}
    (h : Plain.manifest n tokens = .ok ps) :
    ∀ p ∈ mode.statements ps, Phrase.Regular .manifest p := by
  have hps : ∀ p ∈ ps, Phrase.Regular .manifest p := (Plain.manifest_spells h).regular
  cases mode with
  | render => exact hps
  | splice =>
    intro q hq
    obtain ⟨p, hp, hq⟩ := List.mem_flatMap.mp hq
    exact (hps p hp).split q hq

namespace Tree

/-- What is true of the statements in a tree of phrases is true of the phrases. -/
theorem forall_statements {P : Category → Prop} {ps : List Phrase}
    (h : ∀ id ∈ (ofPhrases ps).children root, P ((ofPhrases ps).category id)) :
    ∀ p ∈ ps, P p.category := by
  intro p hp
  obtain ⟨before, after, rfl⟩ := List.append_of_mem hp
  have hstands : (ofPhrases (before ++ p :: after)).Stands root (1 + Phrase.total before)
      ([p] ++ after) := (stands_ofPhrases (before ++ p :: after)).right
  have hp := hstands.left
  rw [← hp.heldBy.category_eq]
  exact h _ (hp.children _ (by simp [Phrase.starts]))

/-- Every node of a tree has the contents that its rule names, and is set off by blank lines as its
rule says.  A chain is set off if a resource is one of its members. -/
structure Regular (t : Tree) : Prop where
  form : ∀ id < t.size, ((t.form id).map t.category).Regular
  /-- a case option is a child of a case -/
  option : ∀ id < t.size, t.category id = .caseOption →
    ∃ p, (t.node id).parent = some p ∧ t.category p = .caseBlock
  spacing : ∀ id < t.size, (t.node id).outerSpacing =
    if t.category id = .chain then (t.children id).any fun member => t.category member == .resource
    else (t.category id).rule.outerSpacing

/-- A tree of regular phrases is regular. -/
theorem regular_ofPhrases {ps : List Phrase} (h : ∀ p ∈ ps, Phrase.Regular .manifest p) :
    (ofPhrases ps).Regular := by
  -- what a regular phrase says about its own node
  have hnode {id : Nat} (hpos : 0 < id) (hlt : id < (ofPhrases ps).size) :
      ∃ parent p, (ofPhrases ps).Stands parent id [p] ∧
        Phrase.Regular ((ofPhrases ps).category parent) p := by
    rw [size_ofPhrases] at hlt
    exact (stands_ofPhrases ps).find (fun h q hq => h.child hq) h hpos hlt
  refine ⟨fun id hlt => ?_, fun id hlt hoption => ?_, fun id hlt => ?_⟩
  all_goals rcases Nat.eq_zero_or_pos id with rfl | hpos
  · trivial
  · obtain ⟨parent, p, hstands, hregular⟩ := hnode hpos hlt
    have hform := hregular.regular_form
    rwa [← hstands.heldBy.map_category] at hform
  · cases hoption
  · obtain ⟨parent, p, hstands, hregular⟩ := hnode hpos hlt
    rw [hstands.heldBy.category_eq] at hoption
    exact ⟨parent, by rw [hstands.node_eq]; rfl, hregular.parent_eq hoption⟩
  · rfl
  · obtain ⟨parent, p, hstands, -⟩ := hnode hpos hlt
    have hchildren := congrArg Form.children hstands.heldBy.map_category
    rw [Form.children_map, Form.children_map] at hchildren
    have hany := congrArg (List.any · (· == Category.resource)) hchildren
    simp only [List.any_map] at hany
    have hcategory := hstands.heldBy.category_eq
    have houter : ((ofPhrases ps).node id).outerSpacing = p.outerSpacing := by
      rw [hstands.node_eq]; rfl
    rw [houter, Phrase.outerSpacing, hcategory]
    by_cases hchain : p.category = .chain
    · rw [if_pos (beq_iff_eq.mpr hchain), if_pos hchain]
      exact hany.symm
    · rw [if_neg (by simpa using hchain), if_neg hchain]

/-- A regular tree has no node whose contents are pending. -/
theorem Regular.hasPending_eq {t : Tree} (h : t.Regular) : t.hasPending = false := by
  rw [hasPending, Array.any_eq_false]
  intro id hlt hpending
  have hform := h.form id hlt
  have hnode : t.form id = (t.nodes[id]).form := by
    simp [Tree.form, Tree.node, hlt]
  rw [hnode] at hform
  cases hcase : (t.nodes[id]).form with
  | pending c => rw [hcase] at hform; exact hform
  | _ => rw [hcase] at hpending; cases hpending

end Tree

/-- A result of which something is decided is a success. -/
theorem ok_of_any {ε α : Type} {r : Except ε α} {p : α → Bool} (h : r.toOption.any p = true) :
    ∃ a, r = .ok a ∧ p a = true := by
  cases r with
  | error e => cases h
  | ok a => exact ⟨a, rfl, h⟩

/-- The table of a parsed manifest is the preorder of one tree. -/
theorem parse_preorder {mode : SplitMode} {tokens : List Token} {t : Tree}
    (h : parse mode tokens = .ok t) : t.Preorder := by
  obtain ⟨ps, hps, rfl⟩ := parse_eq_ok h
  exact Tree.preorder_ofPhrases (Tree.regular_ofPhrases (regular_statements hps)).hasPending_eq

/-- A resource with two titles becomes two nodes. -/
theorem parse_preorder_of_titles :
    let tokens : List Token :=
      [⟨.name, "f", 1⟩, ⟨.leftBrace, "\x7b", 1⟩, ⟨.name, "a", 1⟩, ⟨.colon, ":", 1⟩,
       ⟨.semicolon, ";", 1⟩, ⟨.name, "b", 1⟩, ⟨.colon, ":", 1⟩, ⟨.name, "m", 1⟩,
       ⟨.fatArrow, "=>", 1⟩, ⟨.number, "1", 1⟩, ⟨.rightBrace, "\x7d", 1⟩]
    ∃ t, parse .splice tokens = .ok t ∧ t.children Tree.root = [1, 5] ∧ t.size = 12 ∧
      t.Preorder := by
  intro tokens
  have hok : (parse .splice tokens).toOption.map (fun t => (t.children Tree.root, t.size)) =
      some ([1, 5], 12) := by decide +kernel
  rcases hparse : parse .splice tokens with e | t
  · rw [hparse] at hok
    cases hok
  · rw [hparse] at hok
    obtain ⟨hchildren, hsize⟩ := Prod.mk.inj (Option.some.inj hok)
    exact ⟨t, rfl, hchildren, hsize, parse_preorder hparse⟩

/-- Every node of a parsed manifest has the contents that its rule names. -/
theorem parse_regular {mode : SplitMode} {tokens : List Token} {t : Tree}
    (h : parse mode tokens = .ok t) : t.Regular := by
  obtain ⟨ps, hps, rfl⟩ := parse_eq_ok h
  exact Tree.regular_ofPhrases (regular_statements hps)

/-- A case whose only option holds a chain of a reference and a resource. -/
theorem parse_regular_of_case :
    let tokens : List Token :=
      [⟨.kwCase, "case", 1⟩, ⟨.dollarVar, "$x", 1⟩, ⟨.leftBrace, "\x7b", 1⟩, ⟨.number, "1", 1⟩,
       ⟨.colon, ":", 1⟩, ⟨.leftBrace, "\x7b", 1⟩, ⟨.classRef, "F", 1⟩, ⟨.leftBracket, "[", 1⟩,
       ⟨.name, "a", 1⟩, ⟨.rightBracket, "]", 1⟩, ⟨.edgeRight, "->", 1⟩, ⟨.name, "f", 1⟩,
       ⟨.leftBrace, "\x7b", 1⟩, ⟨.name, "b", 1⟩, ⟨.colon, ":", 1⟩, ⟨.rightBrace, "\x7d", 1⟩,
       ⟨.rightBrace, "\x7d", 1⟩, ⟨.rightBrace, "\x7d", 1⟩]
    ∃ t, parse .render tokens = .ok t ∧ (List.range t.size).map t.category =
      [.manifest, .caseBlock, .expression, .simple, .caseOption, .expression, .simple, .chain,
       .reference, .list, .expression, .simple, .resource, .title, .expression, .simple] ∧
      t.Regular := by
  intro tokens
  have hok : (parse .render tokens).toOption.map (fun t => (List.range t.size).map t.category) =
      some [.manifest, .caseBlock, .expression, .simple, .caseOption, .expression, .simple, .chain,
        .reference, .list, .expression, .simple, .resource, .title, .expression, .simple] := by
    decide +kernel
  rcases hparse : parse .render tokens with e | t
  · rw [hparse] at hok
    cases hok
  · rw [hparse] at hok
    exact ⟨t, rfl, Option.some.inj hok, parse_regular hparse⟩

end TidyManifest
