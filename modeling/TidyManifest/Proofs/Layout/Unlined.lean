import TidyManifest.Layout.Render
import TidyManifest.Proofs.Phrase.Lines

/-!
# The layout does not depend on lines

The layout of a node is made from the texts of tokens, never from the lines on which they stood in a
source.  So a tree has the same canonical text as the tree without lines (`render_unlined`), and two
trees that differ in lines only have one canonical text.
-/

namespace TidyManifest

section

variable {ι : Type}

/-- The same nodes, with contents without lines. -/
def View.unlined (v : View ι) : View ι :=
  { v with form := fun id => (v.form id).unlined }

namespace View

variable (v : View ι)

@[simp] theorem innerSpacing_unlined : v.unlined.innerSpacing = v.innerSpacing := rfl

@[simp] theorem outerSpacing_unlined : v.unlined.outerSpacing = v.outerSpacing := rfl

@[simp] theorem inChain_unlined : v.unlined.inChain = v.inChain := rfl

@[simp] theorem depth_unlined : v.unlined.depth = v.depth := rfl

/-- Lines do not change categories. -/
@[simp] theorem category_unlined : v.unlined.category = v.category := by
  funext id
  exact Form.category_mapTokens _ _

/-- Lines do not turn anything into a comment. -/
@[simp] theorem isComment_unlined : v.unlined.isComment = v.isComment := by
  funext id
  rw [isComment, isComment, category_unlined]

/-- Lines do not change the keyword of a branch. -/
@[simp] theorem isElse_unlined : v.unlined.isElse = v.isElse := by
  funext id
  simp only [isElse, unlined]
  cases v.form id <;> rfl

end View

namespace Layout

variable (v : View ι) (o : Options) (write : ι → Nat → String)

/-- The gap between two statements does not depend on lines. -/
@[simp] theorem gap_unlined : gap v.unlined o = gap v o := by
  funext previous next
  simp [gap]

/-- The text of further statements does not depend on lines. -/
@[simp] theorem following_unlined (previous : ι) (rest : List ι) :
    following v.unlined o write previous rest = following v o write previous rest := by
  induction rest generalizing previous with
  | nil => rfl
  | cons next rest ih => simp [following, ih]

/-- The text of statements does not depend on lines. -/
@[simp] theorem statementLines_unlined :
    statementLines v.unlined o write = statementLines v o write := by
  funext parent children
  cases children with
  | nil => rfl
  | cons first rest =>
    simp only [statementLines, View.depth_unlined, following_unlined]
    rfl

/-- The text of a block does not depend on lines. -/
@[simp] theorem block_unlined : block v.unlined o write = block v o write := by
  funext owner body depth
  simp [block]

/-- Items on lines of their own are written without regard to the lines of tokens. -/
@[simp] theorem onePerLine_unlined : onePerLine v.unlined o write = onePerLine v o write := by
  funext items depth opening closing
  simp [onePerLine]

/-- The text of a hash does not depend on lines. -/
@[simp] theorem hashText_unlined : hashText v.unlined o write = hashText v o write := by
  have hshort : shortHash? v.unlined write = shortHash? v write := by
    funext items depth
    simp [shortHash?]
  funext items depth
  simp [hashText, hshort]

/-- The text of a list does not depend on lines. -/
@[simp] theorem listText_unlined : listText v.unlined o write = listText v o write := by
  funext items depth
  simp [listText]

/-- The text of parameters does not depend on lines. -/
@[simp] theorem parameters_unlined : parameters v.unlined o write = parameters v o write := by
  funext params depth before separator after
  simp [parameters]

/-- The sections of a resource do not depend on lines. -/
@[simp] theorem sections_unlined : sections v.unlined = sections v := by
  funext items
  simp [sections]

/-- The text of the items below a title does not depend on lines. -/
@[simp] theorem compactMembers_unlined (depth : Nat) (members : List ι) :
    compactMembers v.unlined o write depth members = compactMembers v o write depth members := by
  induction members with
  | nil => rfl
  | cons member members ih => simp [compactMembers, ih]

/-- The text of a resource body does not depend on lines. -/
@[simp] theorem resourceBody_unlined : resourceBody v.unlined o write = resourceBody v o write := by
  have hcompact : compactSection v.unlined o write = compactSection v o write := by
    funext depth members
    simp [compactSection]
  have hblock : titleBlock v.unlined o write = titleBlock v o write := by
    funext depth head members
    simp [titleBlock]
  funext depth inChain head items
  simp [resourceBody, hcompact, hblock]

/-- The text of a chain does not depend on the lines of its edges. -/
theorem chainText_unlined (depth : Nat) (members : List ι) (edges : List Token) :
    chainText write depth members (edges.map Token.unlined) = chainText write depth members edges := by
  induction members generalizing edges with
  | nil => rfl
  | cons member members ih =>
    cases members with
    | nil => rfl
    | cons next members =>
      cases edges with
      | nil => rfl
      | cons edge edges =>
        simp only [List.map_cons, chainText, ih]
        rfl

/-- The text of a node does not depend on the lines of its tokens. -/
@[simp] theorem formText_unlined : formText v.unlined o write = formText v o write := by
  funext id depth
  have hform : v.unlined.form id = (v.form id).unlined := rfl
  unfold formText
  rw [hform]
  cases v.form id with
  | classBlock name params inherits body =>
    cases inherits <;> simp [Form.unlined, Form.mapTokens, Token.unlined, inheritance]
  | nodeBlock names inherits body =>
    cases inherits <;>
      simp [Form.unlined, Form.mapTokens, Token.unlined, inheritance, Function.comp_def]
  | resource sigil head collector hasBlock items =>
    cases head <;> simp [Form.unlined, Form.mapTokens, Head.mapToken, Token.unlined]
  | collector opening query closing =>
    cases query <;> simp [Form.unlined, Form.mapTokens, Token.unlined]
  | chain members edges => exact chainText_unlined write depth members edges
  | expression parts =>
    have htexts : (parts.map (Part.mapToken Token.unlined)).map (partText write depth) =
        parts.map (partText write depth) := by
      rw [List.map_map]
      refine List.map_congr_left fun part _ => ?_
      cases part <;> rfl
    exact congrArg " ".intercalate htexts
  | _ => simp [Form.unlined, Form.mapTokens, Token.unlined]

/-- The text of a node does not depend on lines, at whatever depth it is cut off. -/
theorem textWithin_unlined (n : Nat) : textWithin v.unlined o n = textWithin v o n := by
  induction n with
  | zero => rfl
  | succ n ih =>
    funext id depth
    simp [textWithin, ih]

end Layout

end

namespace Tree

variable (t : Tree)

@[simp] theorem size_unlined : t.unlined.size = t.size := by
  simp [unlined, size]

/-- The contents of a node of the tree without lines have no lines. -/
@[simp] theorem form_unlined (id : NodeId) : t.unlined.form id = (t.form id).unlined := by
  simp only [form, node, unlined, Array.getElem?_map]
  cases t.nodes[id]? <;> rfl

/-- What does not depend on the line of a node. -/
theorem node_unlined {α : Type} {f : Node → α} (hf : ∀ n : Node, f n.unlined = f n) (id : NodeId) :
    f (t.unlined.node id) = f (t.node id) := by
  simp only [node, unlined, Array.getElem?_map]
  cases t.nodes[id]? with
  | none => rfl
  | some n => exact hf n

/-- The view of the tree without lines is the view without lines. -/
@[simp] theorem view_unlined : t.unlined.view = t.view.unlined := by
  have hcategory : t.unlined.category = t.category := by
    funext id
    exact t.node_unlined (f := Node.category) (fun n => Form.category_mapTokens _ n.form) id
  have hlevel := t.node_unlined (f := Node.level) fun _ => rfl
  have hinner := t.node_unlined (f := Node.innerSpacing) fun _ => rfl
  have houter := t.node_unlined (f := Node.outerSpacing) fun _ => rfl
  have hparent := t.node_unlined (f := Node.parent) fun _ => rfl
  have hform : t.unlined.form = fun id => (t.form id).unlined := funext t.form_unlined
  simp only [view, View.unlined, hform, hlevel, hinner, houter, hparent, hcategory]

/-- A change of a node that has nothing to do with lines can be made before or after they are
forgotten. -/
theorem unlined_update {f : Node → Node} (hf : ∀ n, f n.unlined = (f n).unlined) (id : NodeId) :
    (t.update id f).unlined = t.unlined.update id f := by
  simp only [update, unlined, mk.injEq]
  apply Array.ext
  · simp
  · intro i hi hi'
    simp only [Array.getElem_map, Array.getElem_modify]
    split
    · exact (hf _).symm
    · rfl

end Tree

namespace Layout

/-- The groups of a resource body do not depend on lines. -/
theorem titleGroups_unlined (group : List ι) (seen : Bool) (items : List ι) :
    titleGroups v.unlined group seen items = titleGroups v group seen items := by
  induction items generalizing group seen with
  | nil => rfl
  | cons item rest ih => simp only [titleGroups, View.category_unlined, ih]

/-- The columns of arrows do not depend on lines. -/
theorem widths_unlined (t : Tree) : widths t.unlined = widths t := by
  have hkey : keyLength? t.view.unlined = keyLength? t.view := by
    funext id
    simp only [keyLength?, View.unlined]
    cases t.view.form id <;> rfl
  have hgroups : groups t.view.unlined = groups t.view := by
    funext id
    have hform : t.view.unlined.form id = (t.view.form id).unlined := rfl
    simp only [groups, hform]
    cases t.view.form id <;> simp [Form.unlined, Form.mapTokens, titleGroups_unlined]
  have hwidths : groupWidths t.view.unlined = groupWidths t.view := by
    funext items
    simp only [groupWidths, hkey]
  simp only [widths, Tree.size_unlined, Tree.view_unlined, hgroups, hwidths]

/-- Setting a column has nothing to do with lines. -/
theorem unlined_widened (width : Nat) (n : Node) : widened width n.unlined = (widened width n).unlined := by
  obtain ⟨form, parent, level, line, inner, outer⟩ := n
  cases form <;> rfl

/-- Alignment has nothing to do with lines. -/
theorem align_unlined (t : Tree) : align t.unlined = (align t).unlined := by
  rw [align, align, widths_unlined]
  generalize widths t = columns
  induction columns generalizing t with
  | nil => rfl
  | cons column columns ih =>
    rw [List.foldl_cons, List.foldl_cons, ← ih]
    exact congrArg (columns.foldl _) (t.unlined_update (unlined_widened column.2) column.1).symm

/-- The text of all statements does not depend on lines. -/
theorem manifest_unlined (t : Tree) (o : Options) : manifest t.unlined o = manifest t o := by
  have htext : text t.unlined o = text t o := by
    funext id depth
    simp only [text, Tree.view_unlined, Tree.size_unlined, textWithin_unlined]
  simp only [manifest, statements, htext, Tree.view_unlined, statementLines_unlined, Tree.form_unlined]
  cases t.form Tree.root <;> rfl

/-- The canonical text of a tree does not depend on lines. -/
theorem render_unlined (t : Tree) (o : Options) : render t.unlined o = render t o := by
  simp only [render]
  split
  · rw [align_unlined, manifest_unlined]
  · exact manifest_unlined t o

end Layout

end TidyManifest
