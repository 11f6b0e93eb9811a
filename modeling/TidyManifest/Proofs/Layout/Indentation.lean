import TidyManifest.Proofs.Layout.Headers
import TidyManifest.Proofs.Layout.Shift

/-!
# Layout at other depths

A node without a body is laid out at every depth in the same way: written for more levels, its text
has that many more blanks at the start of each line after the first (`text_indented`).  In
particular a hash or a list that stays on its line at one depth does so at all of them.

Every function of the layout is followed with the pieces it writes.  Two margins need care, because
a line that has nothing but a margin is empty at depth zero and not empty at others: the one behind
a comment that is moved above a resource, and the one in front of each block of a resource with
several titles.  So no comment may be empty, and no head may start with a newline.
-/

namespace TidyManifest

/-- The text of the token, if there is one. -/
def Head.texts {ι : Type} : Head ι → List String
  | .type t => [t.text]
  | .reference _ => []

/-- The texts of the tokens and of the comment that a form holds. -/
def Form.texts {ι : Type} : Form ι → List String
  | .classBlock name _ inherits _ => name.text :: inherits.toList.map (·.text)
  | .defineBlock name _ _ => [name.text]
  | .nodeBlock names inherits _ => (names ++ inherits.toList).map (·.text)
  | .parameter _ name _ => [name.text]
  | .resource sigil head _ _ _ => sigil :: head.texts
  | .collector opening _ closing => [opening.text, closing.text]
  | .branch keyword _ _ => [keyword.text]
  | .inclusion keyword _ => [keyword.text]
  | .assignment name operator _ => [name.text, operator.text]
  | .call name _ _ => [name.text]
  | .chain _ edges => edges.map (·.text)
  | .reference head _ => [head.text]
  | .pair key arrow _ _ => [key.text, arrow.text]
  | .expression parts => (parts.filterMap Part.operator?).map (·.text)
  | .unary operator _ => [operator.text]
  | .comment text => [text]
  | .blockComment text => [text]
  | .simple token => [token.text]
  | _ => []

namespace Layout

section

variable {ι : Type} {v : View ι} {o : Options} {write : ι → Nat → String}

theorem moves_space : Moves o false false fun _ => " " :=
  moves_line (by decide)

/-- Braces around a text move with it. -/
theorem Moves.braced {f : Nat → String} (h : Moves o false false f) :
    Moves o false false fun d => braced (f d) := by
  have hopening : Moves o false false fun _ => "\x7b" := moves_line (by decide)
  have hclosing : Moves o false false fun _ => "\x7d" := moves_line (by decide)
  exact (hopening.append h).append hclosing

/-- Children on one line with commas move together. -/
theorem moves_withCommas {ids : List ι} (h : ∀ id ∈ ids, Moves o false false (write id)) :
    Moves o false false fun d => withCommas write ids d :=
  moves_intercalate h (moves_line (by decide))

/-- Items on lines of their own move together with their margins. -/
theorem moves_onePerLine {items : List ι} (h : ∀ id ∈ items, Moves o false false (write id))
    {opening closing : String} (hopening : '\n' ∉ opening.toList) (hclosing : '\n' ∉ closing.toList)
    (hinked : Inked closing) :
    Moves o false false fun d => onePerLine v o write items d opening closing := by
  have hmark (id : ι) : Moves o false true fun _ => if v.isComment id then "\n" else ",\n" := by
    split
    · exact moves_newline o false
    · have hcomma : Moves o false false fun _ => "," := moves_line (by decide)
      exact hcomma.append (moves_newline o false)
  have hlines : Moves o true true fun d => String.join (items.map fun id =>
      margin o (d + 1) ++ write id (d + 1) ++ (if v.isComment id then "\n" else ",\n")) :=
    moves_join fun id hid =>
      ((moves_margin o 0).append ((h id hid).deeper 1)).append (hmark id)
  have hpieces : (fun d => onePerLine v o write items d opening closing) = fun d =>
      opening ++ "\n" ++ String.join (items.map fun id =>
        margin o (d + 1) ++ write id (d + 1) ++ (if v.isComment id then "\n" else ",\n")) ++
          (margin o d ++ closing) := by
    funext d
    simp only [onePerLine, String.append_assoc]
  rw [hpieces]
  exact (((moves_line hopening).append (moves_newline o false)).append hlines).append
    ((moves_line hclosing).margin fun _ => hinked)

theorem inked_brace : Inked "\x7d" := ⟨'\x7d', [], rfl, by decide⟩

/-- Items in braces move together. -/
theorem moves_itemBraces {items : List ι} (h : ∀ id ∈ items, Moves o false false (write id)) :
    Moves o false false fun d => onePerLine v o write items d "\x7b" "\x7d" :=
  moves_onePerLine h (by decide) (by decide) inked_brace

/-- Whether a hash stays on its line is the same at every depth. -/
theorem moves_hashText {items : List ι} (h : ∀ id ∈ items, Moves o false false (write id)) :
    Moves o false false fun d => hashText v o write items d := by
  have hexpanded : Moves o false false fun d => onePerLine v o write items d "\x7b" "\x7d" :=
    moves_itemBraces h
  rcases items with _ | ⟨item, _ | ⟨item', rest⟩⟩
  · exact moves_line (by decide)
  · have hitem := h item List.mem_cons_self
    -- the choice depends on the text of the item, which has a line break at all depths or at none
    simp only [hashText, List.isEmpty_cons, Bool.false_eq_true, if_false, shortHash?,
      hitem.hasLineBreak_eq]
    by_cases hpair : (v.category item == .pair) = true
    · by_cases hbreak : hasLineBreak (write item 0) = true
      · simp only [hpair, hbreak, if_true]
        exact hexpanded
      · simp only [hpair, hbreak, if_true]
        exact ((moves_space.append hitem).append moves_space).braced
    · simp only [hpair]
      exact hexpanded
  · exact hexpanded

/-- Whether a list stays on its line is the same at every depth. -/
theorem moves_listText {items : List ι} (h : ∀ id ∈ items, Moves o false false (write id)) :
    Moves o false false fun d => listText v o write items d := by
  have hopening : Moves o false false fun _ => "[" := moves_line (by decide)
  have hclosing : Moves o false false fun _ => "]" := moves_line (by decide)
  cases items with
  | nil => exact moves_line (by decide)
  | cons item rest =>
    have hbreaks (d : Nat) : ((item :: rest).map fun id => write id d).any hasLineBreak =
        ((item :: rest).map fun id => hasLineBreak (write id 0)).any id := by
      have hsame : ((item :: rest).map fun id => hasLineBreak (write id d)) =
          (item :: rest).map fun id => hasLineBreak (write id 0) :=
        List.map_congr_left fun id hid => (h id hid).hasLineBreak_eq d
      rw [← hsame, List.any_map, List.any_map]
      rfl
    simp only [listText, List.isEmpty_cons, Bool.false_eq_true, if_false, hbreaks]
    by_cases hlong : ((item :: rest).any v.isComment ||
        ((item :: rest).map fun id => hasLineBreak (write id 0)).any id) = true
    · simp only [hlong, if_true]
      exact moves_onePerLine h (by decide) (by decide) ⟨']', [], rfl, by decide⟩
    · simp only [hlong]
      exact (hopening.append (moves_withCommas h)).append hclosing

/-- A list starts with its bracket. -/
theorem opens_listText (items : List ι) (d : Nat) : Opens (listText v o write items d) := by
  have hopening : Inked "[" := ⟨'[', [], rfl, by decide⟩
  unfold listText
  split
  · exact .inr ⟨'[', [']'], rfl, by decide⟩
  · dsimp only
    split
    · simp only [onePerLine, String.append_assoc]
      exact .inr (hopening.append _)
    · simp only [String.append_assoc]
      exact .inr (hopening.append _)

/-- The items below a title in a chain move, line by line. -/
theorem moves_compactMembers {members : List ι} (h : ∀ id ∈ members, Moves o false false (write id))
    (n : Nat) : Moves o true true fun d => compactMembers v o write (d + (n + 1)) members := by
  induction members with
  | nil => exact moves_empty o true
  | cons member rest ih =>
    obtain ⟨hmember, hrest⟩ := List.forall_mem_cons.mp h
    have hmark : Moves o false false fun _ => if v.isComment member then ""
        else if rest.all v.isComment then ";" else "," := by
      refine moves_line ?_
      split
      · decide
      · split <;> decide
    exact ((((moves_margin o n).append (hmember.deeper (n + 1))).append hmark).append
      (moves_newline o false)).append (ih hrest)

/-- A section of a body: a title and its members. -/
def MovesBelow (o : Options) (write : ι → Nat → String) (s : ι × List ι) : Prop :=
  Moves o false false (write s.1) ∧ ∀ id ∈ s.2, Moves o false false (write id)

/-- A title in a chain moves together with the items below it. -/
theorem moves_compactSection {s : ι × List ι} (h : MovesBelow o write s) :
    Moves o true true fun d => compactSection v o write d s := by
  have hmark : Moves o false false fun _ => if s.2.all v.isComment then ";" else "" := by
    refine moves_line ?_
    split <;> decide
  exact ((((moves_margin o 0).append (h.1.deeper 1)).append hmark).append
    (moves_newline o false)).append (moves_compactMembers h.2 1)

section

variable {head : Nat → String} (hhead : Moves o false false head) (hopens : ∀ d, Opens (head d))

include hhead in
/-- A block for one title moves. -/
theorem moves_titleBlock {s : ι × List ι} (h : MovesBelow o write s) :
    Moves o false false fun d => titleBlock v o write d (head d) s := by
  have hbrace : Moves o false false fun _ => " \x7b " := moves_line (by decide)
  have hopening := (hhead.append hbrace).append h.1
  simp only [titleBlock]
  by_cases hempty : s.2.isEmpty = true
  · simp only [hempty, if_true]
    exact hopening.append (moves_line (by decide))
  · simp only [hempty]
    exact hopening.append (moves_onePerLine h.2 (by decide) (by decide) inked_brace)

include hopens in
/-- A block for one title starts with the head of the resource. -/
theorem inked_titleBlock (s : ι × List ι) (d : Nat) :
    Inked (titleBlock v o write d (head d) s) := by
  have hbrace : Inked " \x7b " := ⟨' ', ['\x7b', ' '], rfl, by decide⟩
  have hopening := ((hopens d).inked hbrace).append (write s.1 d)
  simp only [titleBlock]
  split
  · exact hopening.append _
  · exact hopening.append _

include hhead hopens in
/-- Blocks with blank lines between them. -/
theorem moves_blocks {whole : List (ι × List ι)} (hne : whole ≠ [])
    (h : ∀ s ∈ whole, MovesBelow o write s) :
    (Moves o false false fun d => ("\n\n" ++ margin o d).intercalate
      (whole.map (titleBlock v o write d (head d)))) ∧
    ∀ d, Inked (("\n\n" ++ margin o d).intercalate
      (whole.map (titleBlock v o write d (head d)))) := by
  induction whole with
  | nil => exact absurd rfl hne
  | cons s whole ih =>
    obtain ⟨hs, hwhole⟩ := List.forall_mem_cons.mp h
    have hfirst : Moves o false false fun d => titleBlock v o write d (head d) s :=
      moves_titleBlock hhead hs
    have hinked : ∀ d, Inked (titleBlock v o write d (head d) s) := inked_titleBlock hopens s
    cases whole with
    | nil =>
      simp only [List.map_cons, List.map_nil, String.intercalate_singleton]
      exact ⟨hfirst, hinked⟩
    | cons s' whole =>
      obtain ⟨hmoves, hrest⟩ := ih (List.cons_ne_nil _ _) hwhole
      -- the margin at the end of the separator is followed together with the block behind it
      have hblank : Moves o false true fun _ => "\n\n" :=
        (moves_newline o false).append (moves_newline o true)
      simp only [List.map_cons, String.intercalate_cons_cons, String.append_assoc] at hmoves hrest ⊢
      exact ⟨hfirst.append (hblank.append (hmoves.margin hrest)), fun d => (hinked d).append _⟩

include hhead hopens in
/-- A resource with titles moves, whichever way it is written. -/
theorem moves_titledBody {whole : List (ι × List ι)} (hne : whole ≠ [])
    (h : ∀ s ∈ whole, MovesBelow o write s) (inChain : Bool) :
    (Moves o false false fun d => titledBody v o write d inChain (head d) whole) ∧
      ∀ d, Inked (titledBody v o write d inChain (head d) whole) := by
  by_cases hcompact : (inChain && decide (whole.length > 1)) = true
  · have hopening : Moves o false false fun _ => "\x7b" := moves_line (by decide)
    have hclosing : Moves o false false fun _ => "\x7d" := moves_line (by decide)
    have hsections : Moves o true true fun d =>
        String.join (whole.map fun s => compactSection v o write d s) :=
      moves_join fun s hs => moves_compactSection (h s hs)
    simp only [titledBody, hcompact, if_true, braced, String.append_assoc]
    refine ⟨hhead.append (moves_space.append (hopening.append ((moves_newline o false).append
      (hsections.append (hclosing.margin fun _ => inked_brace))))), fun d => ?_⟩
    exact (hopens d).inked (Inked.append ⟨' ', [], rfl, by decide⟩ _)
  · simp only [titledBody, hcompact]
    exact moves_blocks hhead hopens hne h

/-- Comments above a text that starts with a character other than a newline. -/
theorem moves_above {comments : List ι} (h : ∀ id ∈ comments, Moves o false false (write id))
    (hinked : ∀ id ∈ comments, ∀ d, Inked (write id d)) {body : Nat → String}
    (hbody : Moves o false false body) (hstart : ∀ d, Inked (body d)) :
    (Moves o false false fun d =>
      String.join (comments.map fun id => write id d ++ "\n" ++ margin o d) ++ body d) ∧
    ∀ d, Inked
      (String.join (comments.map fun id => write id d ++ "\n" ++ margin o d) ++ body d) := by
  induction comments with
  | nil => exact ⟨(moves_empty o false).append hbody, fun d => by simpa using hstart d⟩
  | cons comment comments ih =>
    obtain ⟨hcomment, hcomments⟩ := List.forall_mem_cons.mp h
    obtain ⟨hfirst, hothers⟩ := List.forall_mem_cons.mp hinked
    obtain ⟨hmoves, hrest⟩ := ih hcomments hothers
    simp only [List.map_cons, String.join_cons, String.append_assoc] at hmoves hrest ⊢
    exact ⟨hcomment.append ((moves_newline o false).append (hmoves.margin hrest)),
      fun d => (hfirst d).append _⟩

include hhead hopens in
/-- The body of a resource moves, together with comments in front of it. -/
theorem moves_resourceBody {items : List ι} (h : ∀ id ∈ items, Moves o false false (write id))
    (hcomments : ∀ id ∈ items, v.isComment id = true → ∀ d, Inked (write id d)) (inChain : Bool) :
    Moves o false false fun d => resourceBody v o write d inChain (head d) items := by
  have hsub := sectionsBy_subset (fun id => v.category id == .title) items
  rcases hsections : sections v items with ⟨lead, titles⟩
  rw [← sections, hsections] at hsub
  have hlead : ∀ id ∈ lead, Moves o false false (write id) := fun id hid => h id (hsub.1 hid)
  cases titles with
  | nil =>
    simp only [resourceBody_untitled v o write _ inChain _ hsections]
    refine (hhead.append moves_space).append ?_
    by_cases hempty : lead.isEmpty = true
    · simp only [hempty, if_true]
      exact moves_line (by decide)
    · simp only [hempty]
      exact moves_itemBraces hlead
  | cons first rest =>
    have hbelow : ∀ s ∈ prepend (lead.filter fun id => !v.isComment id) (first :: rest),
        MovesBelow o write s := by
      have hall : ∀ s ∈ first :: rest, MovesBelow o write s := fun s hs =>
        ⟨h s.1 (hsub.2 s hs).1, fun id hid => h id ((hsub.2 s hs).2 hid)⟩
      obtain ⟨hfirst, hrest⟩ := List.forall_mem_cons.mp hall
      refine List.forall_mem_cons.mpr ⟨⟨hfirst.1, fun id hid => ?_⟩, hrest⟩
      rcases List.mem_append.mp hid with hid | hid
      · exact hlead id (List.mem_filter.mp hid).1
      · exact hfirst.2 id hid
    obtain ⟨hbody, hstart⟩ := moves_titledBody (v := v) hhead hopens
      (List.cons_ne_nil _ _) hbelow inChain
    simp only [resourceBody_titled v o write _ inChain _ hsections]
    refine (moves_above (fun id hid => ?_) (fun id hid => ?_) hbody hstart).1
    · exact hlead id (List.mem_filter.mp hid).1
    · obtain ⟨hmem, hcomment⟩ := List.mem_filter.mp hid
      exact hcomments id (hsub.1 hmem) hcomment

end

/-- A chain moves if its members do, since its edges are on one line. -/
theorem moves_chainText {members : List ι} (h : ∀ id ∈ members, Moves o false false (write id))
    {edges : List Token} (hedges : ∀ t ∈ edges, '\n' ∉ t.text.toList) :
    Moves o false false fun d => chainText write d members edges := by
  induction members generalizing edges with
  | nil => exact moves_empty o false
  | cons member rest ih =>
    obtain ⟨hmember, hrest⟩ := List.forall_mem_cons.mp h
    cases rest with
    | nil => exact hmember
    | cons next rest =>
      cases edges with
      | nil => exact (hmember.append (moves_line (by decide))).append (ih hrest hedges)
      | cons edge edges =>
        obtain ⟨hedge, hedges⟩ := List.forall_mem_cons.mp hedges
        exact (((hmember.append moves_space).append (moves_line hedge)).append moves_space).append
          (ih hrest hedges)

/-- A tidy comment is on one line. -/
theorem line_tidyComment {text : String} (h : '\n' ∉ text.toList) :
    '\n' ∉ (tidyComment text).toList := by
  unfold tidyComment
  extract_lets body
  have hbody : '\n' ∉ Text.trimEnd body := by
    intro hmem
    have hmem := Hygiene.mem_of_mem_trimEnd hmem
    unfold body at hmem
    split at hmem
    · rename_i heq
      exact h (heq ▸ List.mem_cons_of_mem '#' hmem)
    · exact h hmem
  split
  · decide
  · rename_i htrim
    rw [htrim] at hbody
    split
    · simpa using hbody
    · simpa using hbody

/-- A tidy comment starts with its sign. -/
theorem inked_tidyComment (text : String) : Inked (tidyComment text) := by
  have hsign : Inked "#" := ⟨'#', [], rfl, by decide⟩
  have hblank : Inked "# " := ⟨'#', [' '], rfl, by decide⟩
  unfold tidyComment
  dsimp only
  split
  · exact hsign
  · split
    · exact hsign.append _
    · exact hblank.append _

/-- A padded text stays on one line. -/
theorem line_padRight {text : String} (h : '\n' ∉ text.toList) (width : Nat) :
    '\n' ∉ (padRight width text).toList := by
  rw [padRight, String.toList_append, String.toList_ofList, List.mem_append, not_or]
  exact ⟨h, fun hmem => by cases List.eq_of_mem_replicate hmem⟩

/-- Texts that start a line or are empty still do so when they are joined. -/
theorem opens_join {ids : List ι} {d : Nat} (h : ∀ id ∈ ids, Opens (write id d)) :
    Opens (String.join (ids.map fun id => write id d)) := by
  induction ids with
  | nil => exact .inl rfl
  | cons id ids ih =>
    obtain ⟨hid, hids⟩ := List.forall_mem_cons.mp h
    rw [List.map_cons, String.join_cons]
    exact hid.append (ih hids)

/-- The text of a node moves with its depth, and starts as the layout of a resource needs it to. -/
structure Settled (v : View ι) (o : Options) (write : ι → Nat → String) (id : ι) : Prop where
  moves : Moves o false false (write id)
  comment : v.isComment id = true → ∀ d, Inked (write id d)
  opens : v.category id ∈ [.reference, .list] → ∀ d, Opens (write id d)

/-- Categories with statements or options in braces. -/
def bodied : List Category :=
  [.manifest, .classBlock, .defineBlock, .nodeBlock, .branch, .caseBlock, .caseOption]

section

variable {id : ι} (hfilled : ((v.form id).map v.category).Filled fun _ => True)
  (htexts : ∀ w ∈ (v.form id).texts, '\n' ∉ w.toList) (hid : v.category id ∉ bodied)
  (hchildren : ∀ child ∈ (v.form id).children, Settled v o write child)

include hfilled htexts hid hchildren in
/-- The text of a node moves with its depth if the texts of its children do. -/
theorem moves_formText : Moves o false false fun d => formText v o write id d := by
  have hspace : Moves o false false fun _ => " " := moves_space
  have hline {w : String} (hw : w ∈ (v.form id).texts) : Moves o false false fun _ => w :=
    moves_line (htexts w hw)
  have hall {ids : List ι} (hids : ids ⊆ (v.form id).children) :
      ∀ x ∈ ids, Moves o false false (write x) := fun x hx => (hchildren x (hids hx)).moves
  have hchild {x : ι} (hx : x ∈ (v.form id).children) : Moves o false false (write x) :=
    (hchildren x hx).moves
  change (v.form id).category ∉ bodied at hid
  unfold formText
  generalize v.form id = form at *
  cases form with
  | pending | manifest => exact hfilled.elim
  | classBlock | defineBlock | nodeBlock | branch | caseBlock | caseOption =>
    simp [bodied, Form.category] at hid
  | comment text => exact moves_line (line_tidyComment (htexts text (by simp [Form.texts])))
  | blockComment text => exact hline (by simp [Form.texts])
  | parameter type name value =>
    refine ((?_ : Moves o false false _).append (hline (by simp [Form.texts]))).append ?_
    · cases type with
      | none => exact moves_empty o false
      | some x => exact (hchild (by simp [Form.children])).append hspace
    · cases value with
      | none => exact moves_empty o false
      | some x =>
        have hsign : Moves o false false fun _ => " = " := moves_line (by decide)
        exact hsign.append (hchild (by simp [Form.children]))
  | resource sigil head collector hasBlock items =>
    obtain ⟨-, hhead, -, -⟩ := hfilled
    have hsigil : '\n' ∉ sigil.toList := htexts sigil (by simp [Form.texts])
    have hitems : items ⊆ (Form.resource sigil head collector hasBlock items).children :=
      fun x hx => by cases head <;> simp [Form.children, hx]
    have hbody {headText : Nat → String} (hmoves : Moves o false false headText)
        (hopens : ∀ d, Opens (headText d)) : Moves o false false fun d =>
          if hasBlock then resourceBody v o write d (v.inChain id) (headText d) items
          else headText d := by
      cases hasBlock with
      | true =>
        exact moves_resourceBody hmoves hopens (hall hitems)
          (fun x hx => (hchildren x (hitems hx)).comment) (v.inChain id)
      | false => exact hmoves
    refine hbody (((moves_line hsigil).append (c := false) ?_).append ?_)
      fun d => ((opens_of_line hsigil).append ?_).append ?_
    · cases head with
      | type t => exact hline (by simp [Form.texts, Head.texts])
      | reference x => exact hchild (by simp [Form.children])
    · cases collector with
      | none => exact moves_empty o false
      | some x => exact hspace.append (hchild (by cases head <;> simp [Form.children]))
    · cases head with
      | type t => exact opens_of_line (htexts t.text (by simp [Form.texts, Head.texts]))
      | reference x =>
        have hx : v.category x = .reference := hhead
        exact (hchildren x (by simp [Form.children])).opens (by simp [hx]) d
    · cases collector with
      | none => exact .inl rfl
      | some x => exact .inr (Inked.append ⟨' ', [], rfl, by decide⟩ _)
  | title titles => exact (moves_withCommas (hall fun x hx => hx)).append (moves_line (by decide))
  | collector opening query closing =>
    have hopening : Moves o false false fun _ => opening.text := hline (by simp [Form.texts])
    have hclosing : Moves o false false fun _ => closing.text := hline (by simp [Form.texts])
    cases query with
    | none => exact (hopening.append hspace).append hclosing
    | some x =>
      exact (((hopening.append hspace).append (hchild (by simp [Form.children]))).append
        hspace).append hclosing
  | selector subject items =>
    have hsign : Moves o false false fun _ => " ? " := moves_line (by decide)
    refine ((hchild (by simp [Form.children])).append hsign).append ?_
    by_cases hempty : items.isEmpty = true
    · simp only [hempty, if_true]
      exact moves_line (by decide)
    · simp only [hempty]
      exact moves_itemBraces (hall (List.subset_cons_self subject items))
  | inclusion keyword args =>
    exact ((hline (by simp [Form.texts])).append hspace).append
      (moves_withCommas (hall fun x hx => hx))
  | assignment name operator value =>
    have hname : Moves o false false fun _ => name.text := hline (by simp [Form.texts])
    have hoperator : Moves o false false fun _ => operator.text := hline (by simp [Form.texts])
    exact (((hname.append hspace).append hoperator).append hspace).append
      (hchild (by simp [Form.children]))
  | call name args parenthesized =>
    have hname : Moves o false false fun _ => name.text := hline (by simp [Form.texts])
    have hargs : Moves o false false fun d => withCommas write args d :=
      moves_withCommas (hall fun x hx => hx)
    cases parenthesized with
    | true =>
      have hopening : Moves o false false fun _ => "(" := moves_line (by decide)
      have hclosing : Moves o false false fun _ => ")" := moves_line (by decide)
      exact ((hname.append hopening).append hargs).append hclosing
    | false => exact (hname.append hspace).append hargs
  | chain members edges =>
    refine moves_chainText (hall fun x hx => hx) fun t ht => htexts t.text ?_
    exact List.mem_map_of_mem ht
  | reference head indexes =>
    exact (hline (by simp [Form.texts])).append (moves_join (hall fun x hx => hx))
  | hash items => exact moves_hashText (hall fun x hx => hx)
  | list items => exact moves_listText (hall fun x hx => hx)
  | pair key arrow value width =>
    have hkey : Moves o false false fun _ => padRight width key.text :=
      moves_line (line_padRight (htexts key.text (by simp [Form.texts])) width)
    have harrow : Moves o false false fun _ => arrow.text := hline (by simp [Form.texts])
    exact (((hkey.append hspace).append harrow).append hspace).append
      (hchild (by simp [Form.children]))
  | expression parts =>
    have hparts : ∀ part ∈ parts, Moves o false false fun d => partText write d part := by
      intro part hpart
      cases part with
      | term x => exact hchild (List.mem_filterMap.mpr ⟨_, hpart, rfl⟩)
      | operator t =>
        exact hline (List.mem_map_of_mem (List.mem_filterMap.mpr ⟨_, hpart, rfl⟩))
    exact moves_intercalate hparts hspace
  | parens inner =>
    have hopening : Moves o false false fun _ => "(" := moves_line (by decide)
    have hclosing : Moves o false false fun _ => ")" := moves_line (by decide)
    exact (hopening.append (hchild (by simp [Form.children]))).append hclosing
  | unary operator operand =>
    exact (hline (by simp [Form.texts])).append (hchild (by simp [Form.children]))
  | simple token => exact hline (by simp [Form.texts])

include hfilled htexts in
/-- A comment starts with ink, unless it is an empty block comment. -/
theorem inked_comment (hvisible : v.form id ≠ .blockComment "") (hcomment : v.isComment id = true)
    (d : Nat) : Inked (formText v o write id d) := by
  change (v.form id).category.isComment = true at hcomment
  unfold formText
  generalize v.form id = form at *
  cases form with
  | pending | manifest => exact hfilled.elim
  | comment text => exact inked_tidyComment text
  | blockComment text =>
    rcases opens_of_line (htexts text (by simp [Form.texts])) with rfl | hinked
    · exact absurd rfl hvisible
    · exact hinked
  | _ => cases hcomment

include hfilled htexts hchildren in
/-- A reference and a list start on the line where they are put. -/
theorem opens_formText (hcategory : v.category id ∈ [.reference, .list]) (d : Nat) :
    Opens (formText v o write id d) := by
  change (v.form id).category ∈ _ at hcategory
  unfold formText
  generalize v.form id = form at *
  cases form with
  | pending | manifest => exact hfilled.elim
  | reference head indexes =>
    refine (opens_of_line (htexts head.text (by simp [Form.texts]))).append (opens_join ?_)
    intro x hx
    have hlist : v.category x = .list := hfilled.2 _ (List.mem_map_of_mem hx)
    exact (hchildren x hx).opens (by simp [hlist]) d
  | list items => exact opens_listText items d
  | _ => simp [Form.category] at hcategory

include hfilled htexts hid hchildren in
/-- The text of a node moves with its depth if the texts of its children do. -/
theorem settled_of_formText (hvisible : v.form id ≠ .blockComment "")
    (hwrite : ∀ d, write id d = formText v o write id d) : Settled v o write id where
  moves := by
    rw [show write id = _ from funext hwrite]
    exact moves_formText hfilled htexts hid hchildren
  comment hcomment d := by
    rw [hwrite]
    exact inked_comment hfilled htexts hvisible hcomment d
  opens hcategory d := by
    rw [hwrite]
    exact opens_formText hfilled htexts hchildren hcategory d

end

/-- A hash or a list is written with each item on a line of its own. -/
def Expanded (v : View ι) (o : Options) (write : ι → Nat → String) (id : ι) (d : Nat) : Prop :=
  (∃ items, v.form id = .hash items ∧ write id d = onePerLine v o write items d "\x7b" "\x7d") ∨
    ∃ items, v.form id = .list items ∧ write id d = onePerLine v o write items d "[" "]"

/-- Items on lines of their own take more than one line. -/
theorem hasLineBreak_onePerLine (items : List ι) (d : Nat) (opening closing : String) :
    hasLineBreak (onePerLine v o write items d opening closing) = true := by
  rw [← Bool.not_eq_false, hasLineBreak_eq_false, breaks_onePerLine]
  omega

/-- A short hash is on one line. -/
theorem hasLineBreak_shortHash? {items : List ι} {d : Nat} {text : String}
    (h : shortHash? v write items d = some text) : hasLineBreak text = false := by
  unfold shortHash? at h
  split at h
  · split at h
    · dsimp only at h
      split at h
      · cases h
      · rename_i item _ hbreak
        cases h
        have hspace : breaks " " = 0 := rfl
        have hopening : breaks "\x7b" = 0 := rfl
        have hclosing : breaks "\x7d" = 0 := rfl
        have hitem := hasLineBreak_eq_false.mp (Bool.not_eq_true _ ▸ hbreak)
        rw [hasLineBreak_eq_false]
        simp only [braced, breaks_append, hspace, hopening, hclosing, hitem]
    · cases h
  · cases h

/-- A hash that takes more than one line has its pairs on lines of their own. -/
theorem hashText_of_hasLineBreak {items : List ι} {d : Nat}
    (h : hasLineBreak (hashText v o write items d) = true) :
    hashText v o write items d = onePerLine v o write items d "\x7b" "\x7d" := by
  unfold hashText at h ⊢
  split at h
  · exact absurd h (by decide)
  · rename_i hne
    rw [if_neg hne]
    cases hshort : shortHash? v write items d with
    | none => rfl
    | some text =>
      rw [hshort] at h
      exact absurd h (Bool.not_eq_true _ ▸ hasLineBreak_shortHash? hshort)

/-- A list that takes more than one line has its items on lines of their own. -/
theorem listText_of_hasLineBreak {items : List ι} {d : Nat}
    (h : hasLineBreak (listText v o write items d) = true) :
    listText v o write items d = onePerLine v o write items d "[" "]" := by
  unfold listText at h ⊢
  split at h
  · exact absurd h (by decide)
  · rename_i hne
    rw [if_neg hne]
    dsimp only at h ⊢
    split at h
    · rename_i hlong
      rw [if_pos hlong]
    · rename_i hshort
      rw [Bool.not_eq_true, Bool.or_eq_false_iff] at hshort
      have htexts : breaksIn (items.map fun id => write id d) = 0 := by
        refine breaksIn_eq_zero.mpr fun text htext => hasLineBreak_eq_false.mp ?_
        exact Bool.not_eq_true _ ▸ List.any_eq_false.mp hshort.2 text htext
      have hseparator : breaks ", " = 0 := rfl
      have hopening : breaks "[" = 0 := rfl
      have hclosing : breaks "]" = 0 := rfl
      rw [← Bool.not_eq_false, hasLineBreak_eq_false] at h
      refine absurd ?_ h
      rw [breaks_append, breaks_append, breaks_intercalate hseparator, htexts, hopening, hclosing]

/-- The choice can be read off the text. -/
theorem expanded_iff {id : ι} (hwrite : ∀ d, write id d = formText v o write id d) (d : Nat) :
    Expanded v o write id d ↔
      ((∃ items, v.form id = .hash items) ∨ ∃ items, v.form id = .list items) ∧
        hasLineBreak (write id d) = true := by
  constructor
  · rintro (⟨items, hform, htext⟩ | ⟨items, hform, htext⟩)
    · exact ⟨.inl ⟨items, hform⟩, by rw [htext, hasLineBreak_onePerLine]⟩
    · exact ⟨.inr ⟨items, hform⟩, by rw [htext, hasLineBreak_onePerLine]⟩
  · rintro ⟨⟨items, hform⟩ | ⟨items, hform⟩, hbreak⟩
    · have htext : write id d = hashText v o write items d := by rw [hwrite, formText, hform]
      rw [htext] at hbreak
      exact .inl ⟨items, hform, htext.trans (hashText_of_hasLineBreak hbreak)⟩
    · have htext : write id d = listText v o write items d := by rw [hwrite, formText, hform]
      rw [htext] at hbreak
      exact .inr ⟨items, hform, htext.trans (listText_of_hasLineBreak hbreak)⟩

end

end Layout

namespace Form

variable {ι : Type} {categoryOf : ι → Category} {ok : Token → Prop}

/-- Bodies are found in bodies only. -/
theorem Filled.not_bodied {form : Form ι} (h : (form.map categoryOf).Filled ok)
    (hform : form.category ∉ Layout.bodied) {x : ι} (hx : x ∈ form.children) :
    categoryOf x ∉ Layout.bodied := by
  have hterms : ∀ c ∈ Grammar.terms, c ∉ Layout.bodied := by decide
  have hmembers : ∀ c ∈ Grammar.chainMembers, c ∉ Layout.bodied := by decide
  have hitems : ∀ c ∈ [Category.comment, .blockComment, .pair, .title], c ∉ Layout.bodied := by
    decide
  have hpairs : ∀ c ∈ [Category.comment, .blockComment, .pair], c ∉ Layout.bodied := by decide
  have hvalues : ∀ c ∈ [Category.comment, .blockComment, .expression], c ∉ Layout.bodied := by
    decide
  have hsubjects : ∀ c ∈ [Category.reference, .simple], c ∉ Layout.bodied := by decide
  have hexpression : Category.expression ∉ Layout.bodied := by decide
  have hlist : Category.list ∉ Layout.bodied := by decide
  cases form with
  | pending => exact False.elim h
  | manifest => exact False.elim h
  | classBlock | defineBlock | nodeBlock | branch | caseBlock | caseOption =>
    simp [Layout.bodied, Form.category] at hform
  | expression parts =>
    obtain ⟨part, hpart, hterm⟩ := List.mem_filterMap.mp hx
    have hfilled := h.2 _ (List.mem_map_of_mem hpart)
    cases part <;> grind [Part.term?, Part.map, Part.Filled]
  | resource sigil head collector hasBlock items =>
    obtain ⟨-, hhead, hcollector, hall⟩ := h
    rw [forall_mem_option_map] at hcollector
    have hrest (hx : x ∈ collector.toList ++ items) : categoryOf x ∉ Layout.bodied := by
      rcases List.mem_append.mp hx with hx | hx
      · rw [hcollector x (Option.mem_toList.mp hx)]
        decide
      · exact hitems _ (hall (List.mem_map_of_mem hx))
    cases head with
    | type => exact hrest hx
    | reference y =>
      rcases List.mem_cons.mp hx with rfl | hx
      · exact hsubjects _ (List.mem_cons.mpr (.inl hhead))
      · exact hrest hx
  | _ =>
    simp only [Form.map, Form.Filled, Form.children, Expressions, List.subset_def,
      List.forall_mem_map, forall_mem_option_map] at h hx
    clear hform
    grind

end Form

namespace Tree

/-- No token and no comment of a tree takes more than one line. -/
def Unbroken (t : Tree) : Prop :=
  ∀ id < t.size, ∀ w ∈ (t.form id).texts, '\n' ∉ w.toList

instance (t : Tree) : Decidable t.Unbroken :=
  inferInstanceAs (Decidable (∀ id < t.size, ∀ w ∈ (t.form id).texts, '\n' ∉ w.toList))

end Tree

namespace Layout

/-- Every node without a body is settled. -/
theorem settled_ofPhrases {ps : List Phrase} (hps : ∀ p ∈ ps, p.Filled fun _ => True)
    (hunbroken : (Tree.ofPhrases ps).Unbroken)
    (hcomments : ∀ id < (Tree.ofPhrases ps).size, (Tree.ofPhrases ps).form id ≠ .blockComment "")
    (o : Options) {id : NodeId} (hid : (Tree.ofPhrases ps).category id ∉ bodied) :
    Settled (Tree.ofPhrases ps).view o (text (Tree.ofPhrases ps) o) id := by
  induction hn : (Tree.ofPhrases ps).size - id using Nat.strongRecOn generalizing id with
  | _ n ih =>
    have hcategory : (Tree.ofPhrases ps).category id ≠ .manifest := fun hmanifest =>
      hid (by simp [hmanifest, bodied])
    have hlt := Tree.lt_size_of_category hcategory
    have hfilled := Tree.filled_ofPhrases hps hcategory
    -- a child has a greater number than its parent, and no body either
    refine settled_of_formText hfilled (hunbroken id hlt) hid (fun child hchild => ?_)
      (hcomments id hlt) fun d => Tree.text_ofPhrases hcategory o d
    have hdeeper := Tree.lt_of_mem_children hlt hchild
    exact ih _ (by omega) (hfilled.not_bodied hid hchild) rfl

/-- In a tree of spelled tokens no comment is empty. -/
theorem form_ne_of_spelled {ps : List Phrase} (hps : ∀ p ∈ ps, p.Filled Token.Spelled)
    (id : NodeId) : (Tree.ofPhrases ps).form id ≠ .blockComment "" := by
  intro hform
  have hcategory : (Tree.ofPhrases ps).category id = .blockComment := congrArg Form.category hform
  have hne : (Tree.ofPhrases ps).category id ≠ .manifest := by simp [hcategory]
  have hfilled := Tree.filled_ofPhrases hps hne
  rw [hform] at hfilled
  obtain ⟨t, ⟨hspelled, -⟩, htext⟩ := hfilled
  exact hspelled.text_ne_nil (by rw [← htext]; rfl)

/-- A parsed tree, with its arrows aligned or not, is a tree of phrases that its tokens fill. -/
theorem exists_filled {mode : SplitMode} {tokens : List Token} {t shown : Tree}
    (hparse : parse mode tokens = .ok t) (hshown : shown = t ∨ shown = align t) :
    ∃ ps, shown = Tree.ofPhrases ps ∧
      ∀ ok : Token → Prop, (∀ t ∈ tokens, ok t) → ∀ p ∈ ps, p.Filled ok := by
  obtain ⟨ps, hps, rfl⟩ := parse_eq_ok hparse
  rcases hshown with rfl | rfl
  · exact ⟨_, rfl, fun ok hok p hp => (filled_statements hps hok p hp).2⟩
  · refine ⟨_, align_ofPhrases _, fun ok hok => List.forall_mem_map.mpr fun p hp => ?_⟩
    exact Phrase.filled_aligned.mpr (filled_statements hps hok p hp).2

/-- Let no token or comment of a parsed tree take more than one line, and let the tokens be those of
a source, or else no block comment be empty.  Then the text of a node without a body, for `k` levels
more, is the same text with the blanks of `k` levels at the start of every line after the first that
is not empty.  A hash or a list is expanded at all depths or at none. -/
theorem text_indented {mode : SplitMode} {tokens : List Token} {t shown : Tree}
    (hparse : parse mode tokens = .ok t) (hshown : shown = t ∨ shown = align t)
    (hunbroken : shown.Unbroken)
    (hcomments : (∃ source, Token.lex source = .ok tokens) ∨
      ∀ id < shown.size, shown.form id ≠ .blockComment "")
    {id : NodeId} (hid : shown.category id ∉ bodied) (o : Options) (d k : Nat) :
    text shown o id (d + k) = indented (k * o.indentWidth) (text shown o id d) ∧
      (Expanded shown.view o (text shown o) id (d + k) ↔
        Expanded shown.view o (text shown o) id d) := by
  obtain ⟨ps, rfl, hfilled⟩ := exists_filled hparse hshown
  have hvisible : ∀ id < (Tree.ofPhrases ps).size,
      (Tree.ofPhrases ps).form id ≠ .blockComment "" := by
    rcases hcomments with ⟨source, hlex⟩ | hvisible
    · have hspelled := hfilled Token.Spelled fun t ht => (Token.lex_spelled hlex t ht).1
      exact fun id _ => form_ne_of_spelled hspelled id
    · exact hvisible
  have hsettled := settled_ofPhrases (hfilled (fun _ => True) fun _ _ => trivial) hunbroken hvisible
    o hid
  have hcategory : (Tree.ofPhrases ps).category id ≠ .manifest := fun hmanifest =>
    hid (by simp [hmanifest, bodied])
  have hmoves := hsettled.moves
  have hwrite := Tree.text_ofPhrases hcategory o
  constructor
  · rw [← String.toList_inj, toList_indented, hmoves.shifts]
  · rw [expanded_iff hwrite, expanded_iff hwrite, hmoves.hasLineBreak_eq, hmoves.hasLineBreak_eq d]

/-- A resource with a comment above it and two titles, and an expanded hash inside it. -/
theorem text_indented_of_titles :
    let source := "f \x7b #c\n a: m => \x7b x => 1, y => [2, #d\n 3] \x7d; b: \x7d"
    let o : Options := {}
    ∃ tokens t, Token.lex source = .ok tokens ∧ parse .render tokens = .ok t ∧
      (align t).Unbroken ∧ ∀ id ∈ ([1, 8] : List Nat), (align t).category id ∉ bodied ∧
        text (align t) o id (1 + 2) = indented (2 * o.indentWidth) (text (align t) o id 1) ∧
        (Expanded (align t).view o (text (align t) o) id (1 + 2) ↔
          Expanded (align t).view o (text (align t) o) id 1) := by
  intro source o
  have hok : ((Token.lex source).toOption.any fun tokens =>
      (parse .render tokens).toOption.any fun t => decide ((align t).Unbroken ∧
        ∀ id ∈ ([1, 8] : List Nat), (align t).category id ∉ bodied)) = true := by decide +kernel
  obtain ⟨tokens, hlex, hok⟩ := ok_of_any hok
  obtain ⟨t, hparse, hok⟩ := ok_of_any hok
  obtain ⟨hunbroken, hid⟩ := of_decide_eq_true hok
  exact ⟨tokens, t, hlex, hparse, hunbroken, fun id hmem => ⟨hid id hmem,
    text_indented hparse (.inr rfl) hunbroken (.inl ⟨source, hlex⟩) (hid id hmem) o 1 2⟩⟩

/-- An empty block comment, which no source has, is written above its resource as a line with only a
margin.  At depth zero that line is empty. -/
theorem text_not_indented :
    let tokens : List Token :=
      [⟨.name, "f", 1⟩, ⟨.leftBrace, "\x7b", 1⟩, ⟨.comment, "#", 1⟩, ⟨.blockComment, "", 1⟩,
       ⟨.name, "a", 1⟩, ⟨.colon, ":", 1⟩, ⟨.rightBrace, "\x7d", 1⟩]
    let o : Options := {}
    ∃ t, parse .render tokens = .ok t ∧ t.Unbroken ∧ t.category 1 ∉ bodied ∧
      text t o 1 0 = "#\n\nf \x7b a: \x7d" ∧ text t o 1 (0 + 1) = "#\n  \n  f \x7b a: \x7d" ∧
      indented (1 * o.indentWidth) (text t o 1 0) = "#\n\n  f \x7b a: \x7d" := by
  intro tokens o
  have hok : ((parse .render tokens).toOption.any fun t => decide (t.Unbroken ∧
      t.category 1 ∉ bodied ∧ text t o 1 0 = "#\n\nf \x7b a: \x7d" ∧
      text t o 1 (0 + 1) = "#\n  \n  f \x7b a: \x7d" ∧
      indented (1 * o.indentWidth) (text t o 1 0) = "#\n\n  f \x7b a: \x7d")) = true := by
    decide +kernel
  obtain ⟨t, hparse, hok⟩ := ok_of_any hok
  exact ⟨t, hparse, of_decide_eq_true hok⟩

end Layout

end TidyManifest
