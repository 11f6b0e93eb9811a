import TidyManifest.Proofs.Phrase.Basic

/-!
# Phrases and trees without lines

The lines of tokens and nodes say where they stood in a source.  `Phrase.unlined` and `Tree.unlined`
forget them and nothing else.  Phrases that are equal without lines fill trees that are equal without
lines (`Tree.unlined_ofPhrases`).
-/

namespace TidyManifest

/-- The token without its line. -/
def Token.unlined (t : Token) : Token :=
  { t with line := 0 }

section

variable {α β : Type}

/-- The same part with another operator. -/
def Part.mapToken (f : Token → Token) : Part α → Part α
  | .term x => .term x
  | .operator t => .operator (f t)

/-- The same head with another type. -/
def Head.mapToken (f : Token → Token) : Head α → Head α
  | .type t => .type (f t)
  | .reference x => .reference x

/-- A head with its own type is the head. -/
theorem Head.mapToken_id (head : Head α) : head.mapToken id = head := by
  cases head <;> rfl

namespace Form

/-- The same contents with other tokens. -/
def mapTokens (f : Token → Token) : Form α → Form α
  | classBlock name params inherits body => classBlock (f name) params (inherits.map f) body
  | defineBlock name params body => defineBlock (f name) params body
  | nodeBlock names inherits body => nodeBlock (names.map f) (inherits.map f) body
  | parameter type name value => parameter type (f name) value
  | resource sigil head query hasBlock items => resource sigil (head.mapToken f) query hasBlock items
  | collector opening query closing => collector (f opening) query (f closing)
  | branch keyword condition body => branch (f keyword) condition body
  | inclusion keyword args => inclusion (f keyword) args
  | assignment name operator value => assignment (f name) (f operator) value
  | call name args parenthesized => call (f name) args parenthesized
  | chain members edges => chain members (edges.map f)
  | reference head indexes => reference (f head) indexes
  | pair key arrow value keyWidth => pair (f key) (f arrow) value keyWidth
  | expression parts => expression (parts.map (Part.mapToken f))
  | unary operator operand => unary (f operator) operand
  | simple token => simple (f token)
  | form => form

/-- Contents with their own tokens are the contents. -/
theorem mapTokens_id (form : Form α) : form.mapTokens id = form := by
  cases form with
  | resource sigil head => cases head <;> rfl
  | expression parts =>
    have hid : Part.mapToken id = (id : Part α → Part α) := by
      funext part
      cases part <;> rfl
    rw [mapTokens, hid, List.map_id]
  | classBlock _ _ inherits => simp [mapTokens]
  | nodeBlock names inherits => simp [mapTokens]
  | chain => simp [mapTokens]
  | _ => rfl

/-- The same contents without lines. -/
def unlined (form : Form α) : Form α :=
  form.mapTokens Token.unlined

section

variable (f : Token → Token) (form : Form α)

/-- Other tokens do not change the category. -/
@[simp] theorem category_mapTokens : (form.mapTokens f).category = form.category := by
  cases form <;> rfl

/-- Other tokens do not change the children. -/
@[simp] theorem children_mapTokens : (form.mapTokens f).children = form.children := by
  cases form with
  | resource sigil head => cases head <;> rfl
  | expression parts =>
    simp only [mapTokens, children, List.filterMap_map]
    congr 1
    funext part
    cases part <;> rfl
  | _ => rfl

/-- Children are put into an expression whatever its operators are. -/
theorem partsWith_mapToken (default : β) (parts : List (Part α)) (ids : List β) :
    partsWith default (parts.map (Part.mapToken f)) ids =
      (partsWith default parts ids).map (Part.mapToken f) := by
  induction parts generalizing ids with
  | nil => rfl
  | cons part parts ih => cases part <;> simp [partsWith, Part.mapToken, ih]

/-- Handing out references and changing tokens. -/
theorem withChildren_mapTokens (default : β) (ids : List β) :
    (form.mapTokens f).withChildren default ids = (form.withChildren default ids).mapTokens f := by
  cases form with
  | resource sigil head => cases head <;> rfl
  | expression parts => simp only [mapTokens, withChildren, partsWith_mapToken]
  | _ => rfl

end

end Form

end

namespace Phrase

/-- The phrase without lines. -/
def unlined (p : Phrase) : Phrase :=
  p.fold fun _ form => ⟨0, form.unlined⟩

/-- A phrase without lines is made from its parts without lines. -/
theorem unlined_eq (p : Phrase) : p.unlined = ⟨0, (p.form.map unlined).unlined⟩ :=
  fold_eq _ p

/-- Lines do not change the category of a phrase. -/
@[simp] theorem category_unlined (p : Phrase) : p.unlined.category = p.category := by
  simp [unlined_eq, category, Form.unlined]

/-- The children of a phrase without lines are its children without lines. -/
@[simp] theorem children_unlined (p : Phrase) : p.unlined.children = p.children.map unlined := by
  simp [unlined_eq, children, Form.unlined]

/-- Lines take up no nodes. -/
@[simp] theorem size_unlined (p : Phrase) : p.unlined.size = p.size := by
  induction p using induct with
  | step p ih =>
    rw [size_eq, size_eq p, children_unlined, total, total, List.map_map]
    exact congrArg (fun sizes => 1 + List.foldr (· + ·) 0 sizes) (List.map_congr_left ih)

/-- Lines do not change the numbers at which phrases start. -/
@[simp] theorem starts_unlined (first : NodeId) (ps : List Phrase) :
    starts first (ps.map unlined) = starts first ps := by
  induction ps generalizing first with
  | nil => rfl
  | cons p ps ih => simp [starts, ih]

/-- Lines do not change how a phrase is set off. -/
@[simp] theorem outerSpacing_unlined (p : Phrase) : p.unlined.outerSpacing = p.outerSpacing := by
  simp [outerSpacing, List.any_map, Function.comp_def]

end Phrase

/-- The node without lines. -/
def Node.unlined (n : Node) : Node :=
  { n with form := n.form.unlined, line := 0 }

/-- The tree without lines. -/
def Tree.unlined (t : Tree) : Tree :=
  ⟨t.nodes.map Node.unlined, by simpa using t.size_pos⟩

namespace Phrase

/-- The node of a phrase without lines is its node without lines. -/
theorem entry_unlined (id parent : NodeId) (level : Int) (p : Phrase) :
    p.unlined.entry id parent level = (p.entry id parent level).unlined := by
  have hform : p.unlined.form = (p.form.map unlined).unlined := by rw [unlined_eq, form_mk]
  have hline : p.unlined.line = 0 := by rw [unlined_eq, line_mk]
  rw [entry, children_unlined, starts_unlined, category_unlined, outerSpacing_unlined, hline, hform,
    Form.unlined, Form.withChildren_mapTokens, Form.withChildren_of_map]
  rfl

/-- Phrases have nodes without lines if each of them has. -/
theorem forest_unlined_of {ps : List Phrase}
    (h : ∀ p ∈ ps, ∀ id parent level,
      p.unlined.nodes id parent level = (p.nodes id parent level).map Node.unlined)
    (first parent : NodeId) (level : Int) :
    forest first parent level (ps.map unlined) = (forest first parent level ps).map Node.unlined := by
  induction ps generalizing first with
  | nil => simp
  | cons p ps ih =>
    simp [h p List.mem_cons_self, ih fun q hq => h q (List.mem_cons_of_mem p hq)]

/-- The nodes of a phrase without lines are its nodes without lines. -/
theorem nodes_unlined (p : Phrase) (id parent : NodeId) (level : Int) :
    p.unlined.nodes id parent level = (p.nodes id parent level).map Node.unlined := by
  induction p using induct generalizing id parent level with
  | step p ih =>
    rw [nodes_eq, nodes_eq, children_unlined, forest_unlined_of ih, entry_unlined, List.map_cons]

/-- The nodes of phrases without lines are their nodes without lines. -/
theorem forest_unlined (first parent : NodeId) (level : Int) (ps : List Phrase) :
    forest first parent level (ps.map unlined) = (forest first parent level ps).map Node.unlined :=
  forest_unlined_of (fun p _ => nodes_unlined p) first parent level

end Phrase

/-- Phrases that differ in lines only make trees that differ in lines only. -/
theorem Tree.unlined_ofPhrases {ps qs : List Phrase}
    (h : ps.map Phrase.unlined = qs.map Phrase.unlined) :
    (ofPhrases ps).unlined = (ofPhrases qs).unlined := by
  have hstarts : Phrase.starts 1 ps = Phrase.starts 1 qs := by
    rw [← Phrase.starts_unlined, h, Phrase.starts_unlined]
  have hforest : (Phrase.forest 1 root 0 ps).map Node.unlined =
      (Phrase.forest 1 root 0 qs).map Node.unlined := by
    rw [← Phrase.forest_unlined, h, Phrase.forest_unlined]
  simp only [unlined, ofPhrases, List.map_toArray, List.map_cons, hforest, hstarts]

end TidyManifest
