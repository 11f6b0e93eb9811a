import TidyManifest.Proofs.Conservation.Tokens
import TidyManifest.Proofs.Splitting.Statements
import TidyManifest.Source

/-!
# Formatting keeps the ink

Formatting changes white space, commas and semicolons only.  The canonical text of a manifest has
the ink of its tokens, in their order, where titles are in order.  Nothing is lost, doubled or
changed, apart from the parentheses of empty parameter lists.
-/

namespace TidyManifest

open Layout

/-- A tree in which every resource with titles has them in order. -/
def Tree.TitlesInOrder (t : Tree) : Prop :=
  ∀ id < t.size, ∀ sigil head collector hasBlock items,
    t.form id = .resource sigil head collector hasBlock items →
      InOrder (t.view.inChain id) (items.map t.category)

instance (inChain : Bool) (items : List Category) : Decidable (InOrder inChain items) :=
  inferInstanceAs (Decidable (_ → _))

/-- Whether the titles of one node are in order. -/
def Tree.titlesInOrderAt (t : Tree) (id : NodeId) : Bool :=
  match t.form id with
  | .resource _ _ _ _ items => decide (InOrder (t.view.inChain id) (items.map t.category))
  | _ => true

/-- The titles of a tree are in order if they are so at every node, which can be decided. -/
theorem Tree.titlesInOrder_iff (t : Tree) :
    t.TitlesInOrder ↔ ∀ id < t.size, t.titlesInOrderAt id = true := by
  refine forall_congr' fun id => forall_congr' fun _ => ?_
  unfold titlesInOrderAt
  cases t.form id with
  | resource sigil head collector hasBlock items =>
    simp only [decide_eq_true_eq]
    exact ⟨fun h => h _ _ _ _ _ rfl, fun h _ _ _ _ _ heq => by cases heq; exact h⟩
  | _ => exact ⟨fun _ => rfl, fun _ _ _ _ _ _ heq => by cases heq⟩

instance (t : Tree) : Decidable t.TitlesInOrder :=
  decidable_of_iff _ t.titlesInOrder_iff.symm

namespace Located

variable {t : Tree}

/-- What a tree says about its resources is true of the phrases that it holds. -/
theorem HeldBy.ordered (ht : t.TitlesInOrder) {x : Located} (h : x.HeldBy t) :
    x.place.Ordered := by
  obtain ⟨id, inChain, level, p⟩ := x
  induction p using Phrase.induct generalizing id inChain level with
  | step p ih =>
    rw [Placed.ordered_iff]
    constructor
    · have hform := h.map_category
      have hchain : t.view.inChain id = inChain := h.maps.inChain
      rw [← hform]
      have hown := ht id h.lt_size
      dsimp only
      cases hresource : t.form id with
      | resource sigil head collector hasBlock items =>
        have := hown _ _ _ _ _ hresource
        rwa [hchain] at this
      | _ => trivial
    · have hchildren := h.children
      have hlist : (view.form ⟨id, inChain, level, p⟩).children =
          list (id + 1) (Placed.below ⟨inChain, level, p⟩) p.children :=
        Form.children_withChildren _ _ (by simp [list, Phrase.children])
      rw [hlist] at hchildren
      intro q hq
      obtain ⟨id', hy⟩ := mem_place_list hq
      exact ih q hq _ _ _ (hchildren _ hy)

end Located

/-- The canonical text of a manifest has the ink of its tokens. -/
theorem ink_of_parse {tokens : List Token} {t : Tree} (hspelled : ∀ t ∈ tokens, t.Spelled)
    (hparse : parse .render tokens = .ok t) (horder : t.TitlesInOrder) (o : Options) :
    ink (render t o) = tokensInk tokens := by
  obtain ⟨ps, hps, rfl⟩ := parse_render_eq_ok hparse
  have hordered : ∀ p ∈ ps, Placed.Ordered ⟨false, 0, p⟩ := by
    intro p hp
    obtain ⟨id, hx⟩ := Located.mem_place_list hp
    exact (Located.heldBy_ofPhrases ps _ hx).ordered horder
  have hink := body_ink (Plain.manifest_spells hps) (fun p _ => spells_ink p) hspelled []
  rw [ink_render hordered, ← List.append_nil tokens, hink]
  simp

/-- With either way of splitting, what is accepted is laid out as the same text. -/
theorem format_eq_render {source : String} {tokens : List Token} {t : Tree}
    (hlex : Token.lex source = .ok tokens) (hparse : parse .render tokens = .ok t) (s : Settings) :
    Source.format source s = .ok (render t s.layout) := by
  obtain ⟨ps, hps, rfl⟩ := parse_render_eq_ok hparse
  have hsplice := parse_splice tokens
  rw [hps] at hsplice
  unfold Source.format Source.parse
  cases hmode : s.splitMode with
  | render => simp only [hlex, hparse]; rfl
  | splice =>
    simp only [hlex, hsplice]
    exact congrArg Except.ok (render_split s.layout ps)

/-- Formatting a source whose titles are in order changes white space, commas and semicolons only,
apart from the parentheses of empty parameter lists, which are left out. -/
theorem format_keeps_ink {source : String} {tokens : List Token} {t : Tree}
    (hlex : Token.lex source = .ok tokens) (hparse : parse .render tokens = .ok t)
    (horder : t.TitlesInOrder) (s : Settings) :
    ∃ out, Source.format source s = .ok out ∧
      ink out = ink (String.join ((shownTokens tokens).map (·.text))) := by
  refine ⟨_, format_eq_render hlex hparse s, ?_⟩
  rw [ink_of_parse (fun t ht => (Token.lex_spelled hlex t ht).1) hparse horder, ink_join,
    List.flatMap_map]
  rfl

/-- A result with a value is a success with it. -/
theorem ok_of_toOption {ε α : Type} {r : Except ε α} {a : α} (h : r.toOption = some a) :
    r = .ok a := by
  cases r with
  | error e => cases h
  | ok a' => cases h; rfl

/-- A class with an empty parameter list, a comment, and a chain in which one member has two titles. -/
theorem format_keeps_ink_of_chain :
    ∃ out, Source.format "class a() \x7b\n# c\nf \x7b b: m => 1; \x7d -> f \x7b c: ; d: \x7d\n\x7d"
        { splitMode := .splice } = .ok out ∧
      ink out = "classa\x7b#cf\x7bb:m=>1\x7d->f\x7bc:d:\x7d\x7d".toList := by
  obtain ⟨tokens, htokens⟩ : ∃ tokens : List Token, tokens =
      [⟨.kwClass, "class", 1⟩, ⟨.name, "a", 1⟩, ⟨.leftParen, "(", 1⟩, ⟨.rightParen, ")", 1⟩,
       ⟨.leftBrace, "\x7b", 1⟩, ⟨.newline, "\n", 1⟩, ⟨.comment, "# c", 2⟩, ⟨.newline, "\n", 2⟩,
       ⟨.name, "f", 3⟩, ⟨.leftBrace, "\x7b", 3⟩, ⟨.name, "b", 3⟩, ⟨.colon, ":", 3⟩, ⟨.name, "m", 3⟩,
       ⟨.fatArrow, "=>", 3⟩, ⟨.number, "1", 3⟩, ⟨.semicolon, ";", 3⟩, ⟨.rightBrace, "\x7d", 3⟩,
       ⟨.edgeRight, "->", 3⟩, ⟨.name, "f", 3⟩, ⟨.leftBrace, "\x7b", 3⟩, ⟨.name, "c", 3⟩,
       ⟨.colon, ":", 3⟩, ⟨.semicolon, ";", 3⟩, ⟨.name, "d", 3⟩, ⟨.colon, ":", 3⟩,
       ⟨.rightBrace, "\x7d", 3⟩, ⟨.newline, "\n", 3⟩, ⟨.rightBrace, "\x7d", 4⟩] := ⟨_, rfl⟩
  have hlex : Token.lex "class a() \x7b\n# c\nf \x7b b: m => 1; \x7d -> f \x7b c: ; d: \x7d\n\x7d" =
      .ok tokens := by
    apply ok_of_toOption
    rw [htokens]
    decide +kernel
  have hordered :
      ((parse .render tokens).toOption.any fun t => decide t.TitlesInOrder) = true := by
    rw [htokens]
    decide +kernel
  rcases hparse : parse .render tokens with e | t
  · rw [hparse] at hordered
    cases hordered
  · rw [hparse] at hordered
    obtain ⟨out, hout, hink⟩ :=
      format_keeps_ink hlex hparse (of_decide_eq_true hordered) { splitMode := .splice }
    refine ⟨out, hout, hink.trans ?_⟩
    rw [htokens]
    decide +kernel

end TidyManifest
