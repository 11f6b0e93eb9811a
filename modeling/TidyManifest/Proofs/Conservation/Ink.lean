import TidyManifest.Proofs.Layout.Alignment

/-!
# The ink of a text

The layout is free to choose white space, commas and semicolons.  The rest of a text is its ink.
This module says what ink the layout of a node has, as a function of its contents
(`formInk`), and shows that no choice of the layout changes it (`ink_formText`): neither the
options nor the depth nor which of the forms of a hash, a list or a parameter list is taken.

A resource with several titles is written with its head repeated, and comments in front of a
title move above the head; so for resources with titles a title has to come first, and there has to
be only one unless the resource is a member of a chain.
-/

namespace TidyManifest

open Layout

/-- White space, commas and semicolons. -/
def isLoose (c : Char) : Bool :=
  Text.isBlank c || c == ',' || c == ';'

/-- The characters of a text that are not loose. -/
def ink (text : String) : List Char :=
  text.toList.filter fun c => !isLoose c

section

/-- The ink of two texts is the ink of the one and then that of the other. -/
@[simp] theorem ink_append (a b : String) : ink (a ++ b) = ink a ++ ink b := by
  simp [ink]

@[simp] theorem ink_empty : ink "" = [] := by decide

@[simp] theorem ink_blank : ink " " = [] := by decide

@[simp] theorem ink_newline : ink "\n" = [] := by decide

/-- The ink of joined texts is their ink in order. -/
@[simp] theorem ink_join (texts : List String) : ink (String.join texts) = texts.flatMap ink := by
  induction texts with
  | nil => rfl
  | cons text texts ih => simp [String.join_cons, ih]

/-- A separator without ink adds nothing. -/
theorem ink_intercalate {separator : String} (h : ink separator = []) (texts : List String) :
    ink (separator.intercalate texts) = texts.flatMap ink := by
  match texts with
  | [] => rfl
  | [text] => simp [String.intercalate_singleton]
  | text :: text' :: texts =>
    rw [String.intercalate_cons_cons, ink_append, ink_append, h, ink_intercalate h (text' :: texts)]
    simp

/-- Blanks have no ink. -/
theorem ink_blanks (n : Nat) : ink (String.ofList (List.replicate n ' ')) = [] := by
  have hblank : (!isLoose ' ') = false := by decide
  simp [ink, hblank]

@[simp] theorem ink_margin (o : Options) (depth : Nat) : ink (margin o depth) = [] :=
  ink_blanks _

/-- Padding a text does not change its ink. -/
@[simp] theorem ink_padRight (width : Nat) (text : String) : ink (padRight width text) = ink text := by
  rw [padRight, ink_append, ink_blanks, List.append_nil]

/-- Dropping what a filter drops anyway makes no difference to it. -/
theorem filter_dropWhile {α : Type} {p q : α → Bool} (h : ∀ a, p a = true → q a = false)
    (as : List α) : (as.dropWhile p).filter q = as.filter q := by
  induction as with
  | nil => rfl
  | cons a as ih =>
    rw [List.dropWhile_cons]
    split
    · rename_i ha
      rw [ih, List.filter_cons, h a ha]
      rfl
    · rfl

/-- Newlines at the ends of a text have no ink. -/
@[simp] theorem ink_trimNewlines (text : String) : ink (trimNewlines text) = ink text := by
  have h (c : Char) (hc : (c == '\n') = true) : (!isLoose c) = false := by
    rw [eq_of_beq hc]
    decide
  simp only [ink, trimNewlines, Text.trimBoth, String.toList_ofList, List.filter_reverse,
    filter_dropWhile h, List.reverse_reverse]

/-- Tidying a comment changes white space only. -/
theorem ink_tidyComment {text : String} {body : List Char} (h : text.toList = '#' :: body) :
    ink (tidyComment text) = ink text := by
  have hblank (c : Char) (hc : Text.isBlank c = true) : (!isLoose c) = false := by simp [isLoose, hc]
  have htrim : (Text.trimEnd body).filter (fun c => !isLoose c) = body.filter fun c => !isLoose c := by
    simp [Text.trimEnd, List.filter_reverse, filter_dropWhile hblank]
  have htext : ink text = ink "#" ++ (Text.trimEnd body).filter fun c => !isLoose c := by
    rw [htrim, ink, h]
    rfl
  rw [htext]
  simp only [tidyComment, h]
  cases Text.trimEnd body with
  | nil => rfl
  | cons c rest =>
    dsimp only
    split
    · rw [ink_append]
      simp [ink]
    · have hlead : ink "# " = ink "#" := by decide
      rw [ink_append, hlead]
      simp [ink]

/-- Braces around a text are ink around its ink. -/
theorem ink_braced (inner : String) : ink (braced inner) = ink "\x7b" ++ ink inner ++ ink "\x7d" := by
  simp [braced]

end

/-- Ink in braces. -/
def inBraces (inner : List Char) : List Char :=
  ink "\x7b" ++ inner ++ ink "\x7d"

/-- The ink of parameters: nothing, or parentheses with the parameters in them. -/
def parametersInk (params : List (List Char)) : List Char :=
  if params.isEmpty then [] else ink "(" ++ params.flatten ++ ink ")"

/-- The ink of a chain; an edge that is missing is `->`. -/
def chainInk : List (List Char) → List Token → List Char
  | [], _ => []
  | [member], _ => member
  | member :: rest, [] => member ++ ink "->" ++ chainInk rest []
  | member :: rest, edge :: edges => member ++ ink edge.text ++ chainInk rest edges

/-- The ink of a part of an expression. -/
def partInk : Part (List Char) → List Char
  | .term term => term
  | .operator token => ink token.text

/-- The ink of what a resource declares. -/
def headInk : Head (List Char) → List Char
  | .type token => ink token.text
  | .reference reference => reference

/-- The ink of contents, where the ink of the children is given. -/
def formInk : Form (List Char) → List Char
  | .pending _ => []
  | .manifest _ => []
  | .comment text => ink (tidyComment text)
  | .blockComment text => ink text
  | .classBlock name params inherits body =>
    ink "class" ++ ink name.text ++ parametersInk params ++
      ink (inheritance inherits) ++ inBraces body.flatten
  | .defineBlock name params body =>
    ink "define" ++ ink name.text ++ parametersInk params ++
      inBraces body.flatten
  | .nodeBlock names inherits body =>
    ink "node" ++ names.flatMap (fun t => ink t.text) ++
      ink (inheritance inherits) ++ inBraces body.flatten
  | .parameter type name value =>
    type.getD [] ++ ink name.text ++
      (match value with
        | some value => ink "=" ++ value
        | none => [])
  | .resource sigil head collector hasBlock items =>
    ink sigil ++ headInk head ++ collector.getD [] ++
      if hasBlock then inBraces items.flatten else []
  | .title titles => titles.flatten ++ ink ":"
  | .collector opening query closing =>
    ink opening.text ++ query.getD [] ++ ink closing.text
  | .branch keyword condition body =>
    ink keyword.text ++ condition.getD [] ++ inBraces body.flatten
  | .caseBlock subject body => ink "case" ++ subject ++ inBraces body.flatten
  | .caseOption values body => values.flatten ++ ink ":" ++ inBraces body.flatten
  | .selector subject items => subject ++ ink "?" ++ inBraces items.flatten
  | .inclusion keyword args => ink keyword.text ++ args.flatten
  | .assignment name operator value =>
    ink name.text ++ ink operator.text ++ value
  | .call name args parenthesized =>
    ink name.text ++
      if parenthesized then ink "(" ++ args.flatten ++ ink ")"
      else args.flatten
  | .chain members edges => chainInk members edges
  | .reference head indexes => ink head.text ++ indexes.flatten
  | .hash items => inBraces items.flatten
  | .list items => ink "[" ++ items.flatten ++ ink "]"
  | .pair key arrow value _ => ink key.text ++ ink arrow.text ++ value
  | .expression parts => parts.flatMap partInk
  | .parens inner => ink "(" ++ inner ++ ink ")"
  | .unary operator operand => ink operator.text ++ operand
  | .simple token => ink token.text

/-- The ink of a phrase. -/
def Phrase.ink (p : Phrase) : List Char :=
  p.fold fun _ form => formInk form

/-- The ink of a phrase is made from the ink of its parts. -/
theorem Phrase.ink_eq (p : Phrase) : p.ink = formInk (p.form.map Phrase.ink) :=
  fold_eq _ p

/-- Columns have no ink, so alignment does not change the ink of a phrase. -/
@[simp] theorem Phrase.ink_aligned (p : Phrase) : p.aligned.ink = p.ink :=
  fold_aligned (by intros; rfl) p

namespace Layout

variable {ι : Type} {v : View ι} {o : Options} {write : ι → Nat → String} {f : ι → List Char}

/-- The texts of nodes have a given ink. -/
def Inks (write : ι → Nat → String) (f : ι → List Char) (ids : List ι) : Prop :=
  ∀ id ∈ ids, ∀ depth, ink (write id depth) = f id

theorem Inks.cons {id : ι} {ids : List ι} (h : Inks write f (id :: ids)) :
    (∀ depth, ink (write id depth) = f id) ∧ Inks write f ids :=
  ⟨h id (by simp), fun y hy => h y (by simp [hy])⟩

theorem Inks.mono {ids ids' : List ι} (h : Inks write f ids) (hsub : ∀ id ∈ ids', id ∈ ids) :
    Inks write f ids' :=
  fun id hid => h id (hsub id hid)

/-- The ink of all children is their ink in order. -/
theorem Inks.flatMap {ids : List ι} (h : Inks write f ids) (depth : Nat) :
    (ids.flatMap fun id => ink (write id depth)) = (ids.map f).flatten := by
  induction ids with
  | nil => rfl
  | cons id ids ih =>
    rw [List.flatMap_cons, h.cons.1, ih h.cons.2]
    rfl

/-- Children on one line with commas have their own ink. -/
theorem ink_withCommas {ids : List ι} (h : Inks write f ids) (depth : Nat) :
    ink (withCommas write ids depth) = (ids.map f).flatten := by
  rw [withCommas, ink_intercalate (by decide), ← h.flatMap depth]
  simp [List.flatMap_map]

/-- Children on lines of their own have their own ink, between that of the delimiters. -/
theorem ink_onePerLine {items : List ι} (h : Inks write f items) (depth : Nat)
    (opening closing : String) :
    ink (onePerLine v o write items depth opening closing) =
      ink opening ++ (items.map f).flatten ++ ink closing := by
  have hline (id : ι) : ink (margin o (depth + 1) ++ write id (depth + 1) ++
      (if v.isComment id then "\n" else ",\n")) = ink (write id (depth + 1)) := by
    have hends : ink (if v.isComment id then "\n" else ",\n") = [] := by split <;> decide
    simp [hends]
  simp only [onePerLine, ink_append, ink_join, List.flatMap_map, hline, h.flatMap, ink_margin,
    ink_newline, List.append_nil]

/-- A hash has the ink of its pairs in braces, whether it is on one line or not. -/
theorem ink_hashText {items : List ι} (h : Inks write f items) (depth : Nat) :
    ink (hashText v o write items depth) = inBraces (items.map f).flatten := by
  unfold hashText
  split
  · rename_i hempty
    simp [List.isEmpty_iff.mp hempty, ink_braced, inBraces]
  · split
    · rename_i text hshort
      obtain ⟨item, rfl, -, rfl⟩ := shortHash?_eq_some hshort
      simp [ink_braced, inBraces, h.cons.1]
    · rw [ink_onePerLine h, inBraces]

/-- A list has the ink of its items in brackets, whether it is on one line or not. -/
theorem ink_listText {items : List ι} (h : Inks write f items) (depth : Nat) :
    ink (listText v o write items depth) = ink "[" ++ (items.map f).flatten ++ ink "]" := by
  unfold listText
  split
  · rename_i hempty
    rw [List.isEmpty_iff.mp hempty]
    rfl
  · dsimp only
    split
    · exact ink_onePerLine h _ _ _
    · have := ink_withCommas h depth
      simp only [withCommas] at this
      simp [this]

/-- Parameters have the same ink on one line and on several. -/
theorem ink_parameters {params : List ι} (h : Inks write f params) (depth : Nat)
    (before after : String) {separator : String} (hseparator : ink separator = []) :
    ink (parameters v o write params depth before separator after) =
      parametersInk (params.map f) := by
  unfold parameters parametersInk
  rw [List.isEmpty_map]
  split
  · rfl
  · dsimp only
    rw [ink_append, hseparator]
    split
    · simp [ink_withCommas h]
    · simp [ink_onePerLine h]

/-- What stands between two statements has no ink. -/
theorem ink_gap (previous next : ι) : ink (gap v o previous next) = [] := by
  unfold gap
  split
  · exact ink_blank
  · dsimp only
    rw [ink_append, ink_margin, List.append_nil]
    split <;> decide

/-- Statements that follow each other have their own ink. -/
theorem ink_following {previous : ι} {rest : List ι} (h : Inks write f rest) :
    ink (following v o write previous rest) = (rest.map f).flatten := by
  induction rest generalizing previous with
  | nil => exact ink_newline
  | cons next rest ih =>
    simp only [following, ink_append, ink_gap, h.cons.1, ih h.cons.2, List.nil_append, List.map_cons,
      List.flatten_cons]

/-- The statements of a body have their own ink. -/
theorem ink_statementLines {parent : ι} {children : List ι} (h : Inks write f children) :
    ink (statementLines v o write parent children) = (children.map f).flatten := by
  have hedge : ink (if v.innerSpacing parent then "\n" else "") = [] := by split <;> decide
  unfold statementLines
  cases children with
  | nil => simp [hedge]
  | cons first rest => simp [hedge, h.cons.1, ink_following h.cons.2]

/-- A block has the ink of its statements in braces. -/
theorem ink_block {owner : ι} {body : List ι} (h : Inks write f body) (depth : Nat) :
    ink (block v o write owner body depth) = inBraces (body.map f).flatten := by
  unfold block
  split
  · rename_i hempty
    simp [List.isEmpty_iff.mp hempty, ink_braced, inBraces]
  · simp [ink_braced, inBraces, ink_statementLines h]

/-- A chain has the ink of its members and edges in turn. -/
theorem ink_chainText {members : List ι} (h : Inks write f members) (edges : List Token)
    (depth : Nat) : ink (chainText write depth members edges) = chainInk (members.map f) edges := by
  have harrow : ink " -> " = ink "->" := by decide
  induction members generalizing edges with
  | nil => rfl
  | cons member rest ih =>
    cases rest with
    | nil => exact h.cons.1 depth
    | cons next rest =>
      have hrest := ih h.cons.2
      cases edges with
      | nil => simp only [chainText, ink_append, h.cons.1, hrest, harrow, List.map_cons, chainInk]
      | cons edge edges =>
        simp only [chainText, ink_append, h.cons.1, hrest, ink_blank, List.append_nil, List.map_cons,
          chainInk]

/-- If there are titles among the items of a resource, the first item is one, and it is the only
one unless the resource is a member of a chain. -/
def InOrder (inChain : Bool) (items : List Category) : Prop :=
  .title ∈ items → items.head? = some .title ∧ (items.count .title = 1 ∨ inChain = true)

/-- There are as many sections as items that start one. -/
theorem length_sections (starts : ι → Bool) (items : List ι) :
    (sectionsBy starts items).2.length = items.countP starts := by
  induction items with
  | nil => rfl
  | cons item rest ih =>
    simp only [sectionsBy, List.countP_cons]
    split <;> simp_all

/-- Nothing stands in front of the sections if the first item starts one. -/
theorem lead_eq_nil {starts : ι → Bool} {items : List ι} (h : items.head?.any starts = true) :
    (sectionsBy starts items).1 = [] := by
  cases items with
  | nil => rfl
  | cons item rest =>
    have : starts item = true := by simpa using h
    simp [sectionsBy, this]

/-- The items below a title in a chain have their own ink. -/
theorem ink_compactMembers {members : List ι} (h : Inks write f members) (depth : Nat) :
    ink (compactMembers v o write depth members) = (members.map f).flatten := by
  induction members with
  | nil => rfl
  | cons member rest ih =>
    have hmark : ink (if v.isComment member then "" else if rest.all v.isComment then ";" else ",") =
        [] := by
      split
      · rfl
      · split <;> decide
    simp only [compactMembers, ink_append, ink_margin, h.cons.1, hmark, ink_newline, ih h.cons.2,
      List.append_nil, List.nil_append, List.map_cons, List.flatten_cons]

/-- A title in a chain has its own ink and that of the items below it. -/
theorem ink_compactSection {s : ι × List ι} (h : Inks write f (s.1 :: s.2)) (depth : Nat) :
    ink (compactSection v o write depth s) = f s.1 ++ (s.2.map f).flatten := by
  obtain ⟨title, members⟩ := s
  have hmark : ink (if members.all v.isComment then ";" else "") = [] := by split <;> decide
  simp only [compactSection, ink_append, ink_margin, h.cons.1, hmark, ink_newline,
    ink_compactMembers h.cons.2, List.append_nil, List.nil_append]

/-- A block for one title has the ink of the head, and that of the title and its items in braces. -/
theorem ink_titleBlock {s : ι × List ι} (h : Inks write f (s.1 :: s.2)) (depth : Nat)
    (head : String) :
    ink (titleBlock v o write depth head s) = ink head ++ inBraces (f s.1 ++ (s.2.map f).flatten) := by
  obtain ⟨title, members⟩ := s
  have hopen : ink " \x7b " = ink "\x7b" := by decide
  have hclose : ink " \x7d" = ink "\x7d" := by decide
  simp only [titleBlock]
  split
  · rename_i hempty
    simp [List.isEmpty_iff.mp hempty, hopen, hclose, h.cons.1, inBraces]
  · simp [hopen, h.cons.1, ink_onePerLine h.cons.2, inBraces]

/-- The titles of a resource in a chain have the ink of their sections in order. -/
theorem ink_compactSections {titles : List (ι × List ι)}
    (h : Inks write f (titles.flatMap fun s => s.1 :: s.2)) (depth : Nat) :
    ink (String.join (titles.map (compactSection v o write depth))) =
      ((titles.flatMap fun s => s.1 :: s.2).map f).flatten := by
  induction titles with
  | nil => rfl
  | cons s rest ih =>
    have hfirst : Inks write f (s.1 :: s.2) := h.mono fun id hid => by
      rw [List.flatMap_cons]
      exact List.mem_append_left _ hid
    have hrest := ih (h.mono fun id hid => by
      rw [List.flatMap_cons]
      exact List.mem_append_right _ hid)
    rw [ink_join] at hrest ⊢
    simp [hrest, ink_compactSection hfirst]

/-- The titles of a resource with what belongs to them, as far as they are not written apart. -/
theorem ink_titledBody {whole : List (ι × List ι)} {inChain : Bool} (depth : Nat) (head : String)
    (h : Inks write f (whole.flatMap fun s => s.1 :: s.2)) (hpos : 0 < whole.length)
    (hone : whole.length = 1 ∨ inChain = true) :
    ink (titledBody v o write depth inChain head whole) =
      ink head ++ inBraces ((whole.flatMap fun s => s.1 :: s.2).map f).flatten := by
  unfold titledBody
  split
  · simp only [ink_append, ink_braced, ink_compactSections h, ink_margin, ink_blank, ink_newline,
      List.append_nil, List.nil_append, inBraces]
  · rename_i hcompact
    have hlength : whole.length = 1 := by
      rcases hone with hone | hchain
      · exact hone
      · simp only [hchain, Bool.true_and, decide_eq_true_eq] at hcompact
        omega
    obtain ⟨s, rfl⟩ := List.length_eq_one_iff.mp hlength
    have hs : Inks write f (s.1 :: s.2) := by simpa using h
    rw [List.map_singleton, String.intercalate_singleton, ink_titleBlock hs]
    simp

/-- The body of a resource has the ink of its items, in their order. -/
theorem ink_resourceBody {items : List ι} {inChain : Bool} (h : Inks write f items)
    (horder : InOrder inChain (items.map v.category)) (depth : Nat) (head : String) :
    ink (resourceBody v o write depth inChain head items) =
      ink head ++ inBraces (items.map f).flatten := by
  have hitems := flatten_sectionsBy (fun id => v.category id == .title) items
  have hlength : (sections v items).2.length = (items.map v.category).count .title := by
    rw [sections, length_sections, List.count, List.countP_map]
    rfl
  rcases hsections : sections v items with ⟨lead, _ | ⟨first, rest⟩⟩
  · rw [← sections, hsections] at hitems
    obtain rfl : lead = items := by simpa using hitems
    rw [resourceBody_untitled v o write depth inChain head hsections]
    cases lead with
    | nil => simp [ink_braced, inBraces]
    | cons item lead => simp [ink_onePerLine h, inBraces]
  · rw [← sections, hsections] at hitems
    rw [hsections] at hlength
    have hmem : .title ∈ items.map v.category :=
      List.count_pos_iff.mp (by rw [← hlength]; simp)
    obtain ⟨hhead, hcount⟩ := horder hmem
    obtain rfl : lead = [] := by
      have : items.head?.any (fun id => v.category id == .title) = true := by
        cases items <;> simp_all
      have hlead := lead_eq_nil this
      rw [← sections, hsections] at hlead
      exact hlead
    rw [← hlength] at hcount
    have hbody := ink_titledBody (v := v) (o := o) depth head (hitems ▸ h) (by simp) hcount
    rw [resourceBody_titled v o write depth inChain head hsections]
    simp only [List.filter_nil, List.map_nil, ink_append, ink_join, List.flatMap_nil,
      List.nil_append] at hitems ⊢
    rw [← hitems, ← hbody]
    rfl

/-- The ink of a node's text is that of its contents. -/
theorem ink_formText {id : ι} (h : Inks write f (v.form id).children)
    (horder : ∀ sigil head collector hasBlock items,
      v.form id = .resource sigil head collector hasBlock items →
        InOrder (v.inChain id) (items.map v.category))
    (depth : Nat) : ink (formText v o write id depth) = formInk ((v.form id).map f) := by
  unfold formText
  generalize v.form id = form at h horder
  have hcolon : ink ": " = ink ":" := by decide
  cases form with
  | pending => rfl
  | manifest => rfl
  | comment => rfl
  | blockComment => rfl
  | classBlock name params inherits body =>
    have hparams : Inks write f params := h.mono fun id hid => List.mem_append_left _ hid
    have hbody : Inks write f body := h.mono fun id hid => List.mem_append_right _ hid
    have hclass : ink "class " = ink "class" := by decide
    simp [Form.map, formInk, hclass, ink_parameters hparams, ink_block hbody]
  | defineBlock name params body =>
    have hparams : Inks write f params := h.mono fun id hid => List.mem_append_left _ hid
    have hbody : Inks write f body := h.mono fun id hid => List.mem_append_right _ hid
    have hdefine : ink "define " = ink "define" := by decide
    simp [Form.map, formInk, hdefine, ink_parameters hparams, ink_block hbody]
  | nodeBlock names inherits body =>
    have hnode : ink "node " = ink "node" := by decide
    have hnames : ink (", ".intercalate (names.map (·.text))) = names.flatMap fun t => ink t.text := by
      rw [ink_intercalate (by decide), List.flatMap_map]
    simp [Form.map, formInk, hnode, hnames, ink_block (show Inks write f body from h)]
  | parameter type name value =>
    have hequals : ink " = " = ink "=" := by decide
    have htype (x : ι) (hx : type = some x) : ink (write x depth) = f x :=
      h x (by simp [Form.children, hx]) depth
    have hvalue (x : ι) (hx : value = some x) : ink (write x depth) = f x :=
      h x (by simp [Form.children, hx]) depth
    cases type <;> cases value <;> simp [Form.map, formInk, hequals, htype, hvalue]
  | resource sigil head collector hasBlock items =>
    have hitems : Inks write f items := h.mono fun id hid => by
      cases head <;> simp [Form.children, hid]
    have hcollector (x : ι) (hx : collector = some x) : ink (write x depth) = f x :=
      h x (by cases head <;> simp [Form.children, hx]) depth
    have hhead (x : ι) (hx : head = .reference x) : ink (write x depth) = f x :=
      h x (by simp [Form.children, hx]) depth
    have hbody (text : String) := ink_resourceBody (o := o) hitems (horder _ _ _ _ _ rfl) depth text
    cases head <;> cases collector <;> cases hasBlock <;>
      simp [Form.map, Head.map, formInk, headInk, hbody, hhead, hcollector]
  | title titles => simp [Form.map, formInk, ink_withCommas (show Inks write f titles from h)]
  | collector opening query closing =>
    cases query with
    | none => simp [Form.map, formInk]
    | some query => simp [Form.map, formInk, h query (by simp [Form.children])]
  | branch keyword condition body =>
    have hbody : Inks write f body := h.mono fun id hid => List.mem_append_right _ hid
    cases condition with
    | none => simp [Form.map, formInk, ink_block hbody]
    | some condition =>
      simp [Form.map, formInk, ink_block hbody, h condition (by simp [Form.children])]
  | caseBlock subject body =>
    have hcase : ink "case " = ink "case" := by decide
    simp [Form.map, formInk, hcase, h.cons.1, ink_block h.cons.2]
  | caseOption values body =>
    have hvalues : Inks write f values := h.mono fun id hid => List.mem_append_left _ hid
    have hbody : Inks write f body := h.mono fun id hid => List.mem_append_right _ hid
    simp [Form.map, formInk, hcolon, ink_withCommas hvalues, ink_block hbody]
  | selector subject items =>
    have hquestion : ink " ? " = ink "?" := by decide
    have hbody : ink (if items.isEmpty then braced ""
        else onePerLine v o write items depth "\x7b" "\x7d") = inBraces (items.map f).flatten := by
      split
      · rename_i hempty
        simp [List.isEmpty_iff.mp hempty, ink_braced, inBraces]
      · rw [ink_onePerLine h.cons.2, inBraces]
    simp only [Form.map, formInk, ink_append, hquestion, h.cons.1, hbody]
  | inclusion keyword args =>
    simp [Form.map, formInk, ink_withCommas (show Inks write f args from h)]
  | assignment name operator value => simp [Form.map, formInk, h.cons.1]
  | call name args parenthesized =>
    cases parenthesized <;>
      simp [Form.map, formInk, ink_withCommas (show Inks write f args from h)]
  | chain members edges =>
    exact ink_chainText (show Inks write f members from h) edges depth
  | reference head indexes =>
    have := Inks.flatMap (show Inks write f indexes from h) depth
    simp [Form.map, formInk, List.flatMap_map, this]
  | hash items => exact ink_hashText (show Inks write f items from h) depth
  | list items => exact ink_listText (show Inks write f items from h) depth
  | pair key arrow value keyWidth => simp [Form.map, formInk, h.cons.1]
  | expression parts =>
    have hparts (part : Part ι) (hpart : part ∈ parts) :
        ink (partText write depth part) = partInk (part.map f) := by
      cases part with
      | term id => exact h id (List.mem_filterMap.mpr ⟨_, hpart, rfl⟩) depth
      | operator token => rfl
    simp only [Form.map, formInk, ink_intercalate ink_blank, List.flatMap_def,
      List.map_map]
    exact congrArg List.flatten (List.map_congr_left hparts)
  | parens inner => simp [Form.map, formInk, h.cons.1]
  | unary operator operand => simp [Form.map, formInk, h.cons.1]
  | simple token => rfl

end Layout

/-- Whether the items of a resource are in order, for the categories of a node's children. -/
def formInOrder (inChain : Bool) : Form Category → Prop
  | .resource _ _ _ _ items => InOrder inChain items
  | _ => True

/-- The category of a phrase, and whether every resource in it has its titles in order. -/
def Phrase.order (p : Phrase) : Category × (Bool → Prop) :=
  p.fold fun _ form =>
    (form.category, fun inChain => formInOrder inChain (form.map (·.1)) ∧
      ∀ child ∈ form.children, child.2 (form.category == .chain))

/-- A phrase in which every resource with titles has them in order. -/
def Placed.Ordered (x : Placed) : Prop :=
  x.phrase.order.2 x.inChain

/-- The fold that says whether titles are in order keeps the category of a phrase. -/
theorem Phrase.order_fst (p : Phrase) : p.order.1 = p.category := by
  rw [order, fold_eq, Form.category_map]
  rfl

/-- The titles of a placed phrase are in order if they are so in its own contents and below it. -/
theorem Placed.ordered_iff (x : Placed) :
    x.Ordered ↔ formInOrder x.inChain (x.phrase.form.map Phrase.category) ∧
      ∀ q ∈ x.phrase.children, (x.below q).Ordered := by
  have hcategory : (fun y : Category × (Bool → Prop) => y.1) ∘ Phrase.order = Phrase.category :=
    funext Phrase.order_fst
  unfold Ordered
  rw [Phrase.order, Phrase.fold_eq]
  simp only [Form.map_map, Form.category_map, Form.children_map, List.forall_mem_map]
  rw [← hcategory]
  rfl

/-- Alignment does not move titles. -/
theorem Placed.ordered_aligned {inChain : Bool} {level : Int} {p : Phrase} :
    Placed.Ordered ⟨inChain, level, p.aligned⟩ ↔ Placed.Ordered ⟨inChain, level, p⟩ := by
  unfold Ordered Phrase.order
  rw [Phrase.fold_aligned]
  intros
  rfl

/-- The layout of a phrase has the phrase's ink. -/
theorem Placed.ink_text {x : Placed} (h : x.Ordered) (o : Options) (depth : Nat) :
    ink (x.text o depth) = x.phrase.ink := by
  obtain ⟨inChain, level, p⟩ := x
  induction p using Phrase.induct generalizing inChain level depth with
  | step p ih =>
    obtain ⟨hown, hbelow⟩ := (ordered_iff _).mp h
    have hform : (view.form ⟨inChain, level, p⟩).map (fun y => y.phrase.ink) =
        p.form.map Phrase.ink :=
      Form.map_map _ _ _
    have hcategory : (view.form ⟨inChain, level, p⟩).map view.category =
        p.form.map Phrase.category := by
      refine (Form.map_map _ _ _).trans (Form.map_congr default fun q _ => ?_)
      exact Form.category_map _ _
    rw [text_eq, ink_formText (f := fun y => y.phrase.ink), hform, Phrase.ink_eq]
    · intro y hy depth
      simp only [view, Form.children_map, List.mem_map] at hy
      obtain ⟨q, hq, rfl⟩ := hy
      exact ih q hq depth _ _ (hbelow q hq)
    · intro sigil head collector hasBlock items hitems
      rw [← hcategory, hitems] at hown
      exact hown

/-- The text of a manifest has the ink of its statements. -/
theorem Layout.ink_manifestText {ps : List Phrase}
    (h : ∀ p ∈ ps, Placed.Ordered ⟨false, 0, p⟩) (o : Options) :
    ink (manifestText o ps) = (ps.map Phrase.ink).flatten := by
  have hlines : ink (phraseLines o (ps.map (⟨false, 0, ·⟩))) = (ps.map Phrase.ink).flatten := by
    have hinks : Inks (fun y depth => Placed.text o y depth) (fun y => y.phrase.ink)
        (ps.map (⟨false, 0, ·⟩)) := by
      intro y hy depth
      obtain ⟨p, hp, rfl⟩ := List.mem_map.mp hy
      exact Placed.ink_text (h p hp) o depth
    rw [← statementLines_placed o ⟨false, 0, default⟩, ink_statementLines hinks, List.map_map]
    rfl
  have hbody := ink_trimNewlines (phraseLines o (ps.map (⟨false, 0, ·⟩)))
  rw [hlines] at hbody
  unfold manifestText
  dsimp only
  split
  · rename_i hempty
    rw [← hbody, String.isEmpty_iff.mp hempty]
  · rw [ink_append, hbody, ink_newline, List.append_nil]

/-- The canonical text of phrases has their ink. -/
theorem Layout.ink_render {ps : List Phrase} (h : ∀ p ∈ ps, Placed.Ordered ⟨false, 0, p⟩)
    (o : Options) : ink (render (Tree.ofPhrases ps) o) = (ps.map Phrase.ink).flatten := by
  rw [render_ofPhrases]
  split
  · rw [ink_manifestText, List.map_map]
    · congr 2
      funext p
      exact p.ink_aligned
    · intro p hp
      obtain ⟨q, hq, rfl⟩ := List.mem_map.mp hp
      exact Placed.ordered_aligned.mpr (h q hq)
  · exact ink_manifestText h o

end TidyManifest
