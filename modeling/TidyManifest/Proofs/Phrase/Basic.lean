import TidyManifest.Grammar.Rule
import TidyManifest.Tree.Basic

/-!
# Phrases

A phrase is a node together with everything below it, held as one value and not as entries of a
table.  Two readings that see the same words give equal phrases, wherever their nodes end up in a
tree; so most of the theory of reading and writing is about phrases.

A tree holds a phrase in preorder: the phrase's own node first, then its children one after the
other.  `Phrase.nodes` lists the entries, and `Tree.ofPhrases` is the tree whose statements are
given phrases.
-/

namespace TidyManifest

section

variable {α β : Type}

/-- The same part with another reference. -/
def Part.map (f : α → β) : Part α → Part β
  | .term id => .term (f id)
  | .operator t => .operator t

/-- The same head with another reference. -/
def Head.map (f : α → β) : Head α → Head β
  | .type t => .type t
  | .reference id => .reference (f id)

/-- The term of a part with another reference is that reference. -/
@[simp] theorem Part.term?_map (f : α → β) (part : Part α) :
    (part.map f).term? = part.term?.map f := by
  cases part <;> rfl

namespace Form

/-- The same contents with other references. -/
def map (f : α → β) : Form α → Form β
  | pending c => pending c
  | manifest statements => manifest (statements.map f)
  | classBlock name params inherits body =>
    classBlock name (params.map f) inherits (body.map f)
  | defineBlock name params body => defineBlock name (params.map f) (body.map f)
  | nodeBlock names inherits body => nodeBlock names inherits (body.map f)
  | parameter type name value => parameter (type.map f) name (value.map f)
  | resource sigil head query hasBlock items =>
    resource sigil (head.map f) (query.map f) hasBlock (items.map f)
  | title titles => title (titles.map f)
  | collector opening query closing => collector opening (query.map f) closing
  | branch keyword condition body => branch keyword (condition.map f) (body.map f)
  | caseBlock subject body => caseBlock (f subject) (body.map f)
  | caseOption values body => caseOption (values.map f) (body.map f)
  | selector subject items => selector (f subject) (items.map f)
  | inclusion keyword args => inclusion keyword (args.map f)
  | assignment name operator value => assignment name operator (f value)
  | call name args parenthesized => call name (args.map f) parenthesized
  | chain members edges => chain (members.map f) edges
  | reference head indexes => reference head (indexes.map f)
  | hash items => hash (items.map f)
  | list items => list (items.map f)
  | pair key arrow value keyWidth => pair key arrow (f value) keyWidth
  | expression parts => expression (parts.map (Part.map f))
  | parens inner => parens (f inner)
  | unary operator operand => unary operator (f operand)
  | comment text => comment text
  | blockComment text => blockComment text
  | simple token => simple token

/-- Parts of an expression with other terms, taken from a list in order. -/
def partsWith (default : β) : List (Part α) → List β → List (Part β)
  | [], _ => []
  | .operator t :: parts, ids => .operator t :: partsWith default parts ids
  | .term _ :: parts, ids => .term (ids.headD default) :: partsWith default parts ids.tail

/-- The same contents with other children, taken from a list in order. -/
def withChildren (default : β) (ids : List β) : Form α → Form β
  | pending c => pending c
  | manifest _ => manifest ids
  | classBlock name params inherits _ =>
    classBlock name (ids.take params.length) inherits (ids.drop params.length)
  | defineBlock name params _ =>
    defineBlock name (ids.take params.length) (ids.drop params.length)
  | nodeBlock names inherits _ => nodeBlock names inherits ids
  | parameter type name value =>
    parameter (type.map fun _ => ids.headD default) name (value.map fun _ => ids.getLastD default)
  | resource sigil (.type t) query hasBlock _ =>
    resource sigil (.type t) (query.map fun _ => ids.headD default) hasBlock
      (ids.drop query.toList.length)
  | resource sigil (.reference _) query hasBlock _ =>
    resource sigil (.reference (ids.headD default)) (query.map fun _ => ids.tail.headD default)
      hasBlock (ids.tail.drop query.toList.length)
  | title _ => title ids
  | collector opening query closing =>
    collector opening (query.map fun _ => ids.headD default) closing
  | branch keyword condition _ =>
    branch keyword (condition.map fun _ => ids.headD default)
      (ids.drop condition.toList.length)
  | caseBlock _ _ => caseBlock (ids.headD default) ids.tail
  | caseOption values _ => caseOption (ids.take values.length) (ids.drop values.length)
  | selector _ _ => selector (ids.headD default) ids.tail
  | inclusion keyword _ => inclusion keyword ids
  | assignment name operator _ => assignment name operator (ids.headD default)
  | call name _ parenthesized => call name ids parenthesized
  | chain _ edges => chain ids edges
  | reference head _ => reference head ids
  | hash _ => hash ids
  | list _ => list ids
  | pair key arrow _ keyWidth => pair key arrow (ids.headD default) keyWidth
  | expression parts => expression (partsWith default parts ids)
  | parens _ => parens (ids.headD default)
  | unary operator _ => unary operator (ids.headD default)
  | comment text => comment text
  | blockComment text => blockComment text
  | simple token => simple token

/-- The category of contents does not depend on the references. -/
@[simp] theorem category_map (f : α → β) (form : Form α) :
    (form.map f).category = form.category := by
  cases form <;> rfl

/-- The children of a form are those of the form it came from, with their new references. -/
@[simp] theorem children_map (f : α → β) (form : Form α) :
    (form.map f).children = form.children.map f := by
  cases form with
  | parameter type name value => cases type <;> cases value <;> rfl
  | resource sigil head query hasBlock items =>
    cases head <;> cases query <;> simp [map, children, Head.map]
  | collector opening query closing => cases query <;> rfl
  | branch keyword condition body => cases condition <;> simp [map, children]
  | expression parts =>
    simp only [map, children, List.filterMap_map, List.map_filterMap]
    congr 1
    funext part
    simp
  | _ => simp [map, children]

/-- The category of contents does not depend on the children that are put in. -/
theorem category_withChildren (default : β) (ids : List β) (form : Form α) :
    (form.withChildren default ids).category = form.category := by
  cases form with
  | resource sigil head => cases head <;> rfl
  | _ => rfl

/-- Handing out the terms of an expression again. -/
theorem partsWith_map {γ : Type} (default : γ) (f : α → γ) (g : α → β) (parts : List (Part α)) :
    partsWith default (parts.map (Part.map g)) ((parts.filterMap Part.term?).map f) =
      parts.map (Part.map f) := by
  induction parts with
  | nil => rfl
  | cons part parts ih => cases part <;> simp [partsWith, Part.term?, Part.map, List.filterMap_cons, ih]

/-- References of one sort can be handed out to the places of another sort. -/
theorem withChildren_map {γ : Type} (default : γ) (f : α → γ) (g : α → β) (form : Form α) :
    (form.map g).withChildren default (form.children.map f) = form.map f := by
  cases form with
  | parameter type name value => cases type <;> cases value <;> rfl
  | resource sigil head query hasBlock items =>
    cases head <;> cases query <;> simp [map, children, withChildren, Head.map]
  | collector opening query closing => cases query <;> rfl
  | branch keyword condition body => cases condition <;> simp [map, children, withChildren]
  | expression parts => simp only [map, children, withChildren, partsWith_map]
  | _ => simp [map, children, withChildren]

/-- Which references an expression had makes no difference once others are put in. -/
theorem partsWith_of_map {γ : Type} (default : γ) (g : α → β) (parts : List (Part α))
    (ids : List γ) : partsWith default (parts.map (Part.map g)) ids = partsWith default parts ids := by
  induction parts generalizing ids with
  | nil => rfl
  | cons part parts ih => cases part <;> simp [partsWith, Part.map, ih]

/-- Only the places of the references count when others are handed out. -/
theorem withChildren_of_map {γ : Type} (default : γ) (g : α → β) (ids : List γ) (form : Form α) :
    (form.map g).withChildren default ids = form.withChildren default ids := by
  cases form with
  | parameter type name value => cases type <;> cases value <;> rfl
  | resource sigil head collector => cases head <;> cases collector <;> rfl
  | collector opening query => cases query <;> rfl
  | branch keyword condition => cases condition <;> rfl
  | expression parts => simp only [map, withChildren, partsWith_of_map]
  | _ => simp [map, withChildren]

section

variable {γ : Type}

/-- Contents with their own references are the contents. -/
@[simp] theorem map_id (form : Form α) : form.map id = form := by
  have hpart : (Part.map id : Part α → Part α) = id := by
    funext part
    cases part <;> rfl
  cases form with
  | resource sigil head => cases head <;> simp [map, Head.map]
  | _ => simp [map, hpart]

/-- Changing the references of an expression is putting changed ones in. -/
theorem map_partsWith (g : β → γ) (default : β) (parts : List (Part α)) (ids : List β) :
    (partsWith default parts ids).map (Part.map g) = partsWith (g default) parts (ids.map g) := by
  induction parts generalizing ids with
  | nil => rfl
  | cons part parts ih =>
    cases part with
    | operator t => simp [partsWith, Part.map, ih]
    | term x => cases ids <;> simp [partsWith, Part.map, ih]

/-- Handing out references and changing them afterwards. -/
theorem map_withChildren (g : β → γ) (default : β) (ids : List β) (form : Form α) :
    (form.withChildren default ids).map g = form.withChildren (g default) (ids.map g) := by
  cases form with
  | resource sigil head => cases head <;> simp [withChildren, map, Head.map, Function.comp_def]
  | expression parts => simp [withChildren, map, map_partsWith]
  | _ => simp [withChildren, map, Function.comp_def, List.map_take]

/-- The terms of an expression are the references that were put in. -/
theorem terms_partsWith (default : β) (parts : List (Part α)) {ids : List β}
    (h : ids.length = (parts.filterMap Part.term?).length) :
    (partsWith default parts ids).filterMap Part.term? = ids := by
  induction parts generalizing ids with
  | nil => simpa [partsWith, eq_comm] using h
  | cons part parts ih =>
    cases part with
    | operator t =>
      simp only [List.filterMap_cons, Part.term?] at h
      simp [partsWith, Part.term?, List.filterMap_cons, ih h]
    | term x =>
      cases ids with
      | nil => simp [Part.term?] at h
      | cons id ids =>
        simp only [List.filterMap_cons, Part.term?, List.length_cons, Nat.add_right_cancel_iff] at h
        simp [partsWith, Part.term?, ih h]

/-- The references that were handed out are the children. -/
theorem children_withChildren (default : β) (form : Form α) {ids : List β}
    (h : ids.length = form.children.length) : (form.withChildren default ids).children = ids := by
  cases form with
  | parameter type name value =>
    rcases ids with _ | ⟨a, _ | ⟨b, ids⟩⟩ <;> cases type <;> cases value <;>
      simp_all [withChildren, children]
  | resource sigil head collector hasBlock items =>
    rcases ids with _ | ⟨a, _ | ⟨b, ids⟩⟩ <;> cases head <;> cases collector <;>
      simp_all [withChildren, children]
  | collector opening query closing =>
    rcases ids with _ | ⟨a, ids⟩ <;> cases query <;> simp_all [withChildren, children]
  | branch keyword condition body =>
    rcases ids with _ | ⟨a, ids⟩ <;> cases condition <;> simp_all [withChildren, children]
  | expression parts => exact terms_partsWith default parts h
  | _ => rcases ids with _ | ⟨a, ids⟩ <;> simp_all [withChildren, children]

/-- References that are handed out to their own places. -/
theorem withChildren_children (default : β) (f : α → β) (form : Form α) :
    form.withChildren default (form.children.map f) = form.map f := by
  simpa using withChildren_map default f id form

/-- Changing references twice is changing them once. -/
theorem map_map (g : β → γ) (f : α → β) (form : Form α) :
    (form.map f).map g = form.map (g ∘ f) := by
  have hpart : Part.map g ∘ Part.map f = Part.map (g ∘ f) := by
    funext part
    cases part <;> rfl
  cases form with
  | resource sigil head => cases head <;> simp [map, Head.map]
  | _ => simp [map, hpart]

end

/-- Only the children of contents matter when references are changed. -/
theorem map_congr (default : β) {f g : α → β} {form : Form α} (h : ∀ x ∈ form.children, f x = g x) :
    form.map f = form.map g := by
  rw [← withChildren_children default f, ← withChildren_children default g, List.map_congr_left h]

end Form

end

/-- A node with everything below it. -/
inductive Phrase where
  | mk (line : Nat) (form : Form Phrase)

namespace Phrase

/-- The line of the first token. -/
def line : Phrase → Nat
  | mk line _ => line

/-- The contents. -/
def form : Phrase → Form Phrase
  | mk _ form => form

/-- The children, in source order. -/
def children (p : Phrase) : List Phrase :=
  p.form.children

/-- The category. -/
def category (p : Phrase) : Category :=
  p.form.category

@[simp] theorem line_mk (line : Nat) (form : Form Phrase) : (mk line form).line = line := rfl

@[simp] theorem form_mk (line : Nat) (form : Form Phrase) : (mk line form).form = form := rfl

theorem mk_line_form (p : Phrase) : mk p.line p.form = p := by
  cases p; rfl

/-- How much of the measure of a phrase a list of phrases takes up. -/
noncomputable def weight (ps : List Phrase) : Nat :=
  ps.foldr (fun p n => sizeOf p + 1 + n) 0

@[simp] theorem weight_nil : weight [] = 0 := rfl

@[simp] theorem weight_cons (p : Phrase) (ps : List Phrase) :
    weight (p :: ps) = sizeOf p + 1 + weight ps := rfl

/-- The weight of phrases adds up. -/
@[simp] theorem weight_append (ps qs : List Phrase) :
    weight (ps ++ qs) = weight ps + weight qs := by
  induction ps with
  | nil => simp
  | cons p ps ih => rw [List.cons_append, weight_cons, weight_cons, ih]; omega

/-- The children in a list weigh less than the list. -/
theorem weight_list (ps : List Phrase) : weight ps < sizeOf ps := by
  induction ps with
  | nil => simp
  | cons p ps ih => simp; omega

/-- A child that may be left out weighs no more than what holds it. -/
theorem weight_option (o : Option Phrase) : weight o.toList ≤ sizeOf o := by
  cases o with
  | none => exact Nat.zero_le _
  | some p =>
    simp only [Option.toList_some, weight_cons, weight_nil, Option.some.sizeOf_spec]
    omega

/-- The terms of an expression weigh less than its parts. -/
theorem weight_parts (parts : List (Part Phrase)) :
    weight (parts.filterMap Part.term?) < sizeOf parts := by
  induction parts with
  | nil => simp
  | cons part parts ih =>
    cases part <;> simp [Part.term?, List.filterMap_cons] <;> omega

/-- The children of a phrase weigh less than the phrase. -/
theorem weight_children (p : Phrase) : weight p.children < sizeOf p := by
  obtain ⟨line, form⟩ := p
  suffices h : weight form.children ≤ sizeOf form by
    simp only [children, form_mk, mk.sizeOf_spec]; omega
  cases form with
  | resource sigil head query hasBlock items =>
    have := weight_list items
    have := weight_option query
    cases head <;> simp [Form.children] <;> omega
  | expression parts =>
    have := weight_parts parts
    simp [Form.children]; omega
  | _ => grind [Form.children, weight_list, weight_option, weight_nil, weight_cons, weight_append]

/-- Each phrase weighs less than all of them. -/
theorem sizeOf_lt_of_mem {p : Phrase} {ps : List Phrase} (h : p ∈ ps) : sizeOf p < weight ps := by
  induction ps with
  | nil => simp at h
  | cons q ps ih =>
    rw [weight_cons]
    rcases List.mem_cons.mp h with rfl | h
    · omega
    · have := ih h; omega

/-- What holds of a phrase whenever it holds of its children holds of all phrases. -/
theorem induct {motive : Phrase → Prop}
    (step : ∀ p, (∀ q ∈ p.children, motive q) → motive p) (p : Phrase) : motive p :=
  step p fun q hq =>
    have : sizeOf q < sizeOf p := Nat.lt_trans (sizeOf_lt_of_mem hq) (weight_children p)
    induct step q
termination_by sizeOf p

instance : Inhabited Phrase := ⟨⟨0, .comment ""⟩⟩

/-- Go through a phrase from inside out, with the line and the contents of every node. -/
def fold {α : Type} [Inhabited α] (step : Nat → Form α → α) (p : Phrase) : α :=
  step p.line (p.form.withChildren default (p.children.attach.map fun q => fold step q.1))
termination_by sizeOf p
decreasing_by exact Nat.lt_trans (sizeOf_lt_of_mem q.2) (weight_children p)

/-- A fold works on what it made of the children. -/
theorem fold_eq {α : Type} [Inhabited α] (step : Nat → Form α → α) (p : Phrase) :
    p.fold step = step p.line (p.form.map (fold step)) := by
  rw [fold, List.attach_map_val, children, Form.withChildren_children]

/-- How many nodes a phrase has. -/
def size (p : Phrase) : Nat :=
  1 + (p.children.attach.map fun q => size q.1).foldr (· + ·) 0
termination_by sizeOf p
decreasing_by exact Nat.lt_trans (sizeOf_lt_of_mem q.2) (weight_children p)

/-- How many nodes the phrases of a list have together. -/
def total (ps : List Phrase) : Nat :=
  (ps.map size).foldr (· + ·) 0

@[simp] theorem total_nil : total [] = 0 := rfl

@[simp] theorem total_cons (p : Phrase) (ps : List Phrase) :
    total (p :: ps) = p.size + total ps := rfl

/-- The nodes of phrases add up. -/
@[simp] theorem total_append (ps qs : List Phrase) : total (ps ++ qs) = total ps + total qs := by
  induction ps with
  | nil => simp
  | cons p ps ih => rw [List.cons_append, total_cons, total_cons, ih]; omega

/-- A phrase has its own node and those of its children. -/
theorem size_eq (p : Phrase) : p.size = 1 + total p.children := by
  rw [size, List.attach_map_val, total]

/-- A phrase has a node. -/
theorem size_pos (p : Phrase) : 0 < p.size := by
  rw [size_eq]; omega

/-- A phrase has no more nodes than all of them. -/
theorem size_le_total {p : Phrase} {ps : List Phrase} (h : p ∈ ps) : p.size ≤ total ps := by
  induction ps with
  | nil => simp at h
  | cons q ps ih =>
    rw [total_cons]
    rcases List.mem_cons.mp h with rfl | h
    · omega
    · have := ih h; omega

/-- A child has fewer nodes than its parent. -/
theorem size_lt_of_mem {p q : Phrase} (h : q ∈ p.children) : q.size < p.size := by
  have := size_le_total h
  rw [size_eq p]
  omega

/-- The numbers of phrases that stand one after the other in a tree, from a number on. -/
def starts (first : NodeId) : List Phrase → List NodeId
  | [] => []
  | p :: ps => first :: starts (first + p.size) ps

/-- Every phrase has a number at which it starts. -/
@[simp] theorem length_starts (first : NodeId) (ps : List Phrase) :
    (starts first ps).length = ps.length := by
  induction ps generalizing first with
  | nil => rfl
  | cons p ps ih => simp [starts, ih]

/-- The numbers go on after the phrases in front. -/
@[simp] theorem starts_append (first : NodeId) (ps qs : List Phrase) :
    starts first (ps ++ qs) = starts first ps ++ starts (first + total ps) qs := by
  induction ps generalizing first with
  | nil => rfl
  | cons p ps ih => simp [starts, ih, Nat.add_assoc]

/-- Whether the phrase is set off by blank lines: its rule says so, and for a chain it depends on
whether a resource is one of its members. -/
def outerSpacing (p : Phrase) : Bool :=
  if p.category == .chain then p.children.any fun member => member.category == .resource
  else p.category.rule.outerSpacing

/-- The entry of a phrase's own node in a tree, where its children follow it directly. -/
def entry (id parent : NodeId) (level : Int) (p : Phrase) : Node where
  form := p.form.withChildren 0 (starts (id + 1) p.children)
  parent := some parent
  level := level
  line := p.line
  innerSpacing := p.category.rule.innerSpacing
  outerSpacing := p.outerSpacing

theorem category_entry (id parent : NodeId) (level : Int) (p : Phrase) :
    (p.entry id parent level).category = p.category :=
  Form.category_withChildren 0 _ p.form

mutual

/-- The entries of a phrase in a tree, in preorder. -/
def nodes (id parent : NodeId) (level : Int) (p : Phrase) : List Node :=
  p.entry id parent level :: forest (id + 1) id (level + 1) p.children
termination_by sizeOf p
decreasing_by exact weight_children p

/-- The entries of phrases that stand one after the other below a parent. -/
def forest (first parent : NodeId) (level : Int) : List Phrase → List Node
  | [] => []
  | p :: ps => nodes first parent level p ++ forest (first + p.size) parent level ps
termination_by ps => weight ps
decreasing_by
  · rw [weight_cons]; omega
  · rw [weight_cons]; omega

end

/-- The nodes of a phrase are its own and those of its children. -/
theorem nodes_eq (id parent : NodeId) (level : Int) (p : Phrase) :
    p.nodes id parent level =
      p.entry id parent level :: forest (id + 1) id (level + 1) p.children := by
  rw [nodes]

@[simp] theorem forest_nil (first parent : NodeId) (level : Int) :
    forest first parent level [] = [] := by
  rw [forest]

/-- The nodes of phrases stand one phrase after the other. -/
@[simp] theorem forest_cons (first parent : NodeId) (level : Int) (p : Phrase)
    (ps : List Phrase) :
    forest first parent level (p :: ps) =
      p.nodes first parent level ++ forest (first + p.size) parent level ps := by
  rw [forest]

/-- Phrases have as many nodes as they should, if each of them has. -/
theorem length_forest_of {ps : List Phrase}
    (h : ∀ p ∈ ps, ∀ id parent level, (p.nodes id parent level).length = p.size)
    (first parent : NodeId) (level : Int) : (forest first parent level ps).length = total ps := by
  induction ps generalizing first with
  | nil => simp
  | cons p ps ih =>
    simp only [forest_cons, List.length_append, total_cons]
    rw [h p (by simp), ih (fun q hq => h q (by simp [hq]))]

/-- A phrase has as many nodes as its size says. -/
@[simp] theorem length_nodes (p : Phrase) (id parent : NodeId) (level : Int) :
    (p.nodes id parent level).length = p.size := by
  induction p using induct generalizing id parent level with
  | step p ih =>
    rw [nodes_eq, List.length_cons, length_forest_of ih, size_eq, Nat.add_comm]

@[simp] theorem length_forest (first parent : NodeId) (level : Int) (ps : List Phrase) :
    (forest first parent level ps).length = total ps :=
  length_forest_of (fun p _ => length_nodes p) first parent level

/-- The nodes of phrases are put down part by part. -/
@[simp] theorem forest_append (first parent : NodeId) (level : Int) (ps qs : List Phrase) :
    forest first parent level (ps ++ qs) =
      forest first parent level ps ++ forest (first + total ps) parent level qs := by
  induction ps generalizing first with
  | nil => simp
  | cons p ps ih => simp [ih, Nat.add_assoc]

end Phrase

namespace Tree

/-- The tree with entries added at its end. -/
def grow (t : Tree) (entries : List Node) : Tree :=
  ⟨t.nodes ++ entries.toArray, by have := t.size_pos; simp only [Array.size_append]; omega⟩

/-- The tree of a manifest with given statements. -/
def ofPhrases (statements : List Phrase) : Tree :=
  ⟨(⟨.manifest (Phrase.starts 1 statements), none, -1, 1, false, false⟩ ::
      Phrase.forest 1 root 0 statements).toArray, by simp⟩

end Tree

end TidyManifest
