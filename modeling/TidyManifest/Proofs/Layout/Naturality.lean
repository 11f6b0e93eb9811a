import TidyManifest.Layout.Render
import TidyManifest.Proofs.Phrase.Basic

/-!
# The layout does not depend on references

Two views of the same nodes have the same layout, whatever the references are: the text of a node
is known from what a view says of the node and of its children, and from the texts of the children
(`formText_map`).
-/

namespace TidyManifest

/-- A reference of one view stands for a reference of another one. -/
structure View.Maps {α β : Type} (v : View α) (v' : View β) (f : α → β) (x : α) : Prop where
  form : v'.form (f x) = (v.form x).map f
  level : v'.level (f x) = v.level x
  innerSpacing : v'.innerSpacing (f x) = v.innerSpacing x
  outerSpacing : v'.outerSpacing (f x) = v.outerSpacing x
  inChain : v'.inChain (f x) = v.inChain x

namespace View.Maps

variable {α β : Type} {v : View α} {v' : View β} {f : α → β} {x : α} (h : v.Maps v' f x)

include h

theorem category : v'.category (f x) = v.category x := by
  simp [View.category, h.form]

/-- Nodes that resemble each other are comments together. -/
theorem isComment : v'.isComment (f x) = v.isComment x := by
  simp [View.isComment, h.category]

/-- Nodes that resemble each other stand at one depth. -/
theorem depth : v'.depth (f x) = v.depth x := by
  simp [View.depth, h.level]

theorem isElse : v'.isElse (f x) = v.isElse x := by
  simp only [View.isElse, h.form]
  cases v.form x <;> rfl

end View.Maps

namespace Layout

section

variable {α β : Type} {v : View α} {v' : View β} {f : α → β} {o : Options}
  {write : α → Nat → String} {write' : β → Nat → String}

/-- References that stand for others, with the same texts. -/
def Alike (v : View α) (v' : View β) (f : α → β) (write : α → Nat → String)
    (write' : β → Nat → String) (xs : List α) : Prop :=
  ∀ x ∈ xs, v.Maps v' f x ∧ ∀ depth, write' (f x) depth = write x depth

theorem Alike.mono {xs ys : List α} (h : Alike v v' f write write' ys) (hsub : xs ⊆ ys) :
    Alike v v' f write write' xs :=
  fun x hx => h x (hsub hx)

/-- What is alike for nodes is so for the first one and for the rest. -/
theorem Alike.cons {x : α} {xs : List α} (h : Alike v v' f write write' (x :: xs)) :
    v.Maps v' f x ∧ (∀ depth, write' (f x) depth = write x depth) ∧
      Alike v v' f write write' xs :=
  ⟨(h x (by simp)).1, (h x (by simp)).2, h.mono (by simp)⟩

/-- What is made of each node is the same on both sides. -/
theorem Alike.map {γ : Type} {xs : List α} (h : Alike v v' f write write' xs) {g : α → γ}
    {g' : β → γ}
    (hg : ∀ x, v.Maps v' f x → (∀ depth, write' (f x) depth = write x depth) → g' (f x) = g x) :
    (xs.map f).map g' = xs.map g := by
  rw [List.map_map]
  exact List.map_congr_left fun x hx => hg x (h x hx).1 (h x hx).2

/-- The same nodes pass a test on both sides. -/
theorem Alike.filter {xs : List α} (h : Alike v v' f write write' xs) {g : α → Bool}
    {g' : β → Bool} (hg : ∀ x, v.Maps v' f x → g' (f x) = g x) :
    (xs.map f).filter g' = (xs.filter g).map f := by
  rw [List.filter_map]
  exact congrArg _ (List.filter_congr fun x hx => hg x (h x hx).1)

/-- Some node passes a test on the one side if one does on the other. -/
theorem Alike.any {xs : List α} (h : Alike v v' f write write' xs) {g : α → Bool}
    {g' : β → Bool} (hg : ∀ x, v.Maps v' f x → g' (f x) = g x) :
    (xs.map f).any g' = xs.any g := by
  have this : (xs.map f).map g' = xs.map g := h.map fun x hx _ => hg x hx
  simpa [List.any_map, Function.comp_def] using congrArg (List.any · id) this

/-- All nodes pass a test on the one side if they do on the other. -/
theorem Alike.all {xs : List α} (h : Alike v v' f write write' xs) {g : α → Bool}
    {g' : β → Bool} (hg : ∀ x, v.Maps v' f x → g' (f x) = g x) :
    (xs.map f).all g' = xs.all g := by
  have this : (xs.map f).map g' = xs.map g := h.map fun x hx _ => hg x hx
  simpa [List.all_map, Function.comp_def] using congrArg (List.all · id) this

/-- The gap between statements is the same on both sides. -/
theorem gap_map {x y : α} (hx : v.Maps v' f x) (hy : v.Maps v' f y) :
    gap v' o (f x) (f y) = gap v o x y := by
  simp [gap, hx.category, hx.outerSpacing, hx.isComment, hy.isElse, hy.outerSpacing, hy.depth]

/-- The text of further statements is the same on both sides. -/
theorem following_map {x : α} {xs : List α} (hx : v.Maps v' f x)
    (h : Alike v v' f write write' xs) :
    following v' o write' (f x) (xs.map f) = following v o write x xs := by
  induction xs generalizing x with
  | nil => rfl
  | cons y ys ih =>
    obtain ⟨hy, hwrite, hys⟩ := h.cons
    simp [following, gap_map hx hy, hwrite, hy.depth, ih hy hys]

/-- The text of statements is the same on both sides. -/
theorem statementLines_map {parent : α} {xs : List α} (hp : v.Maps v' f parent)
    (h : Alike v v' f write write' xs) :
    statementLines v' o write' (f parent) (xs.map f) = statementLines v o write parent xs := by
  cases xs with
  | nil => simp [statementLines, hp.innerSpacing]
  | cons x xs =>
    obtain ⟨hx, hwrite, hxs⟩ := h.cons
    simp [statementLines, hp.innerSpacing, hx.depth, hwrite, following_map hx hxs]

/-- The text of a block is the same on both sides. -/
theorem block_map {owner : α} {xs : List α} {depth : Nat} (ho : v.Maps v' f owner)
    (h : Alike v v' f write write' xs) :
    block v' o write' (f owner) (xs.map f) depth = block v o write owner xs depth := by
  simp [block, statementLines_map ho h]

theorem texts_map {xs : List α} (h : Alike v v' f write write' xs) (depth : Nat) :
    (xs.map f).map (fun id => write' id depth) = xs.map fun id => write id depth :=
  h.map fun _ _ hwrite => hwrite depth

/-- The text of nodes with commas is the same on both sides. -/
theorem withCommas_map {xs : List α} (h : Alike v v' f write write' xs) (depth : Nat) :
    withCommas write' (xs.map f) depth = withCommas write xs depth := by
  rw [withCommas, texts_map h, withCommas]

/-- The text of items on lines of their own is the same on both sides. -/
theorem onePerLine_map {xs : List α} (h : Alike v v' f write write' xs) (depth : Nat)
    (opening closing : String) :
    onePerLine v' o write' (xs.map f) depth opening closing =
      onePerLine v o write xs depth opening closing := by
  unfold onePerLine
  dsimp only
  rw [h.map fun x hx hwrite => by rw [hwrite, hx.isComment]]

/-- A hash that stays on its line has one item, a pair. -/
theorem shortHash?_eq_some {xs : List α} {depth : Nat} {text : String}
    (h : shortHash? v write xs depth = some text) :
    ∃ x, xs = [x] ∧ v.category x = .pair ∧ text = braced (" " ++ write x depth ++ " ") := by
  match xs, h with
  | [x], h =>
    simp only [shortHash?] at h
    split at h
    · rename_i hpair
      split at h
      · cases h
      · exact ⟨x, rfl, eq_of_beq hpair, (Option.some.inj h).symm⟩
    · cases h

/-- The same hashes are short on both sides. -/
theorem shortHash?_map {xs : List α} (h : Alike v v' f write write' xs) (depth : Nat) :
    shortHash? v' write' (xs.map f) depth = shortHash? v write xs depth := by
  match xs, h with
  | [], _ => rfl
  | [x], h =>
    obtain ⟨hx, hwrite, -⟩ := h.cons
    simp [shortHash?, hx.category, hwrite]
  | _ :: _ :: _, _ => rfl

/-- The text of a hash is the same on both sides. -/
theorem hashText_map {xs : List α} (h : Alike v v' f write write' xs) (depth : Nat) :
    hashText v' o write' (xs.map f) depth = hashText v o write xs depth := by
  simp [hashText, shortHash?_map h, onePerLine_map h]

/-- The text of a list is the same on both sides. -/
theorem listText_map {xs : List α} (h : Alike v v' f write write' xs) (depth : Nat) :
    listText v' o write' (xs.map f) depth = listText v o write xs depth := by
  unfold listText
  rw [texts_map h, h.any fun x hx => hx.isComment, onePerLine_map h]
  simp

/-- The text of parameters is the same on both sides. -/
theorem parameters_map {xs : List α} (h : Alike v v' f write write' xs) (depth : Nat)
    (before separator after : String) :
    parameters v' o write' (xs.map f) depth before separator after =
      parameters v o write xs depth before separator after := by
  unfold parameters
  rw [withCommas_map h, h.any fun x hx => hx.isComment, onePerLine_map h]
  simp

/-- Sections with other references. -/
def mapSections (f : α → β) (s : List α × List (α × List α)) : List β × List (β × List β) :=
  (s.1.map f, s.2.map fun section_ => (f section_.1, section_.2.map f))

/-- A resource body is cut at the same titles on both sides. -/
theorem sections_map {xs : List α} (h : Alike v v' f write write' xs) :
    sections v' (xs.map f) = mapSections f (sections v xs) := by
  unfold sections
  induction xs with
  | nil => rfl
  | cons x xs ih =>
    obtain ⟨hx, -, hxs⟩ := h.cons
    simp only [List.map_cons, sectionsBy, ih hxs, hx.category]
    split <;> simp [mapSections]

/-- The items in the sections of a body are items of the body. -/
theorem sectionsBy_subset (starts : α → Bool) (xs : List α) :
    (sectionsBy starts xs).1 ⊆ xs ∧
      ∀ s ∈ (sectionsBy starts xs).2, s.1 ∈ xs ∧ s.2 ⊆ xs := by
  induction xs with
  | nil => simp [sectionsBy]
  | cons x xs ih =>
    obtain ⟨hlead, hsections⟩ := ih
    simp only [sectionsBy]
    split
    · refine ⟨by simp, fun s hs => ?_⟩
      rcases List.mem_cons.mp hs with rfl | hs
      · exact ⟨by simp, fun y hy => List.mem_cons_of_mem _ (hlead hy)⟩
      · exact ⟨List.mem_cons_of_mem _ (hsections s hs).1,
          fun y hy => List.mem_cons_of_mem _ ((hsections s hs).2 hy)⟩
    · refine ⟨List.cons_subset_cons _ hlead, fun s hs => ?_⟩
      exact ⟨List.mem_cons_of_mem _ (hsections s hs).1,
        fun y hy => List.mem_cons_of_mem _ ((hsections s hs).2 hy)⟩

/-- The text of the items below a title is the same on both sides. -/
theorem compactMembers_map {xs : List α} (h : Alike v v' f write write' xs) (depth : Nat) :
    compactMembers v' o write' depth (xs.map f) = compactMembers v o write depth xs := by
  induction xs with
  | nil => rfl
  | cons x xs ih =>
    obtain ⟨hx, hwrite, hxs⟩ := h.cons
    simp only [List.map_cons, compactMembers, hx.isComment, hwrite, ih hxs]
    rw [hxs.all fun x hx => hx.isComment]

/-- The text of a title in a chain is the same on both sides. -/
theorem compactSection_map {title : α} {members : List α}
    (h : Alike v v' f write write' (title :: members)) (depth : Nat) :
    compactSection v' o write' depth (f title, members.map f) =
      compactSection v o write depth (title, members) := by
  obtain ⟨-, hwrite, hmembers⟩ := h.cons
  simp only [compactSection, hwrite, compactMembers_map hmembers]
  rw [hmembers.all fun x hx => hx.isComment]

/-- The text of a block for one title is the same on both sides. -/
theorem titleBlock_map {title : α} {members : List α}
    (h : Alike v v' f write write' (title :: members)) (depth : Nat) (head : String) :
    titleBlock v' o write' depth head (f title, members.map f) =
      titleBlock v o write depth head (title, members) := by
  obtain ⟨-, hwrite, hmembers⟩ := h.cons
  simp [titleBlock, hwrite, onePerLine_map hmembers]

/-- Items are put into the first section on both sides alike. -/
theorem prepend_map (f : α → β) (items : List α) (titles : List (α × List α)) :
    prepend (items.map f) (titles.map fun s => (f s.1, s.2.map f)) =
      (prepend items titles).map fun s => (f s.1, s.2.map f) := by
  cases titles <;> simp [prepend]

/-- Sections stay alike when items are put into the first one. -/
theorem alike_prepend {items : List α} {titles : List (α × List α)}
    (hitems : Alike v v' f write write' items)
    (htitles : ∀ s ∈ titles, Alike v v' f write write' (s.1 :: s.2)) :
    ∀ s ∈ prepend items titles, Alike v v' f write write' (s.1 :: s.2) := by
  cases titles with
  | nil => simp [prepend]
  | cons first rest =>
    obtain ⟨hfirst, hwrite, hmembers⟩ := (htitles first (by simp)).cons
    intro s hs
    rcases List.mem_cons.mp hs with rfl | hs
    · intro x hx
      rcases List.mem_cons.mp hx with rfl | hx
      · exact ⟨hfirst, hwrite⟩
      · exact (List.mem_append.mp hx).elim (hitems x) (hmembers x)
    · exact htitles s (by simp [hs])

/-- The blocks of a resource with titles. -/
def titledBody (v : View α) (o : Options) (write : α → Nat → String) (depth : Nat) (inChain : Bool)
    (head : String) (whole : List (α × List α)) : String :=
  if inChain && whole.length > 1 then
    head ++ " " ++
      braced ("\n" ++ String.join (whole.map (compactSection v o write depth)) ++ margin o depth)
  else ("\n\n" ++ margin o depth).intercalate (whole.map (titleBlock v o write depth head))

/-- The body of a resource with titles: comments in front, then its sections. -/
theorem resourceBody_titled (v : View α) (o : Options) (write : α → Nat → String) (depth : Nat)
    (inChain : Bool) (head : String) {xs lead : List α} {first : α × List α}
    {rest : List (α × List α)} (h : sections v xs = (lead, first :: rest)) :
    resourceBody v o write depth inChain head xs =
      String.join ((lead.filter v.isComment).map fun id => write id depth ++ "\n" ++ margin o depth) ++
        titledBody v o write depth inChain head
          (prepend (lead.filter fun id => !v.isComment id) (first :: rest)) := by
  unfold resourceBody
  rw [h]
  cases lead <;> rfl

/-- The body of a resource without titles has its items in braces. -/
theorem resourceBody_untitled (v : View α) (o : Options) (write : α → Nat → String) (depth : Nat)
    (inChain : Bool) (head : String) {xs lead : List α} (h : sections v xs = (lead, [])) :
    resourceBody v o write depth inChain head xs =
      head ++ " " ++
        if lead.isEmpty then braced "" else onePerLine v o write lead depth "\x7b" "\x7d" := by
  unfold resourceBody
  rw [h]
  cases lead <;> rfl

/-- The text of a resource with titles is the same on both sides. -/
theorem titledBody_map {whole : List (α × List α)}
    (h : ∀ s ∈ whole, Alike v v' f write write' (s.1 :: s.2)) (depth : Nat) (inChain : Bool)
    (head : String) :
    titledBody v' o write' depth inChain head (whole.map fun s => (f s.1, s.2.map f)) =
      titledBody v o write depth inChain head whole := by
  have hcompact : (whole.map fun s => (f s.1, s.2.map f)).map (compactSection v' o write' depth) =
      whole.map (compactSection v o write depth) := by
    rw [List.map_map]
    exact List.map_congr_left fun s hs => compactSection_map (h s hs) depth
  have hblocks : (whole.map fun s => (f s.1, s.2.map f)).map (titleBlock v' o write' depth head) =
      whole.map (titleBlock v o write depth head) := by
    rw [List.map_map]
    exact List.map_congr_left fun s hs => titleBlock_map (h s hs) depth head
  simp only [titledBody, List.length_map, hcompact, hblocks]

/-- The text of a resource body is the same on both sides. -/
theorem resourceBody_map {xs : List α} (h : Alike v v' f write write' xs) (depth : Nat)
    (inChain : Bool) (head : String) :
    resourceBody v' o write' depth inChain head (xs.map f) =
      resourceBody v o write depth inChain head xs := by
  obtain ⟨hlead, htitles⟩ : Alike v v' f write write' (sections v xs).1 ∧
      ∀ s ∈ (sections v xs).2, Alike v v' f write write' (s.1 :: s.2) := by
    obtain ⟨hlead, hsections⟩ := sectionsBy_subset (fun id => v.category id == .title) xs
    exact ⟨h.mono hlead, fun s hs => h.mono (List.cons_subset.mpr (hsections s hs))⟩
  have hmap := sections_map h
  rcases hsections : sections v xs with ⟨lead, _ | ⟨first, rest⟩⟩
  · rw [hsections] at hmap hlead
    rw [resourceBody_untitled v o write depth inChain head hsections,
      resourceBody_untitled v' o write' depth inChain head hmap, onePerLine_map hlead]
    simp
  · rw [hsections] at hmap hlead htitles
    have hkept (g : α → Bool) : Alike v v' f write write' (lead.filter g) :=
      fun x hx => hlead x (List.mem_filter.mp hx).1
    have hcomments : (lead.map f).filter v'.isComment = (lead.filter v.isComment).map f :=
      hlead.filter fun x hx => hx.isComment
    have hothers : (lead.map f).filter (fun id => !v'.isComment id) =
        (lead.filter fun id => !v.isComment id).map f :=
      hlead.filter fun x hx => by rw [hx.isComment]
    rw [resourceBody_titled v o write depth inChain head hsections,
      resourceBody_titled v' o write' depth inChain head hmap, hcomments, hothers,
      (hkept v.isComment).map fun x _ hwrite => by rw [hwrite]]
    rw [← titledBody_map (alike_prepend (hkept _) htitles), ← prepend_map]
    rfl

/-- The text of a chain is the same on both sides. -/
theorem chainText_map {xs : List α} (h : Alike v v' f write write' xs) (depth : Nat)
    (edges : List Token) :
    chainText write' depth (xs.map f) edges = chainText write depth xs edges := by
  induction xs generalizing edges with
  | nil => rfl
  | cons x xs ih =>
    obtain ⟨-, hwrite, hxs⟩ := h.cons
    cases xs with
    | nil => simp [chainText, hwrite]
    | cons y ys =>
      rw [List.map_cons] at ih ⊢
      cases edges <;> simp [chainText, hwrite, ← ih hxs]

/-- The texts of the parts of an expression are the same on both sides. -/
theorem parts_map {parts : List (Part α)}
    (h : Alike v v' f write write' (parts.filterMap Part.term?)) (depth : Nat) :
    (parts.map (Part.map f)).map (partText write' depth) = parts.map (partText write depth) := by
  induction parts with
  | nil => rfl
  | cons part parts ih =>
    cases part with
    | operator t => simp_all [Part.map, partText, List.filterMap_cons, Part.term?]
    | term x =>
      simp only [List.filterMap_cons, Part.term?] at h
      obtain ⟨-, hwrite, hparts⟩ := h.cons
      simp_all [Part.map, partText]

/-- The text of a node does not depend on what the references are. -/
theorem formText_map {x : α} (hx : v.Maps v' f x)
    (h : Alike v v' f write write' (v.form x).children) (depth : Nat) :
    formText v' o write' (f x) depth = formText v o write x depth := by
  unfold formText
  rw [hx.form]
  cases hform : v.form x with
  | classBlock name params inherits body =>
    simp only [hform, Form.children] at h
    have hparams := h.mono (List.subset_append_left params body)
    have hbody := h.mono (List.subset_append_right params body)
    simp only [Form.map, parameters_map hparams, block_map hx hbody]
  | defineBlock name params body =>
    simp only [hform, Form.children] at h
    have hparams := h.mono (List.subset_append_left params body)
    have hbody := h.mono (List.subset_append_right params body)
    simp only [Form.map, parameters_map hparams, block_map hx hbody]
  | nodeBlock names inherits body =>
    simp only [hform, Form.children] at h
    simp only [Form.map, block_map hx h]
  | parameter type name value =>
    simp only [hform, Form.children] at h
    have htext : ∀ y ∈ type.toList ++ value.toList, write' (f y) depth = write y depth :=
      fun y hy => (h y hy).2 depth
    cases type <;> cases value <;> simp_all [Form.map]
  | resource sigil head collector hasBlock items =>
    have hitems : Alike v v' f write write' items :=
      h.mono fun y hy => by cases head <;> simp [hform, Form.children, hy]
    have hcollector : ∀ y ∈ collector, write' (f y) depth = write y depth := fun y hy =>
      (h y (by cases head <;> simp [hform, Form.children, Option.mem_def.mp hy])).2 depth
    have hhead : ∀ y, head = .reference y → write' (f y) depth = write y depth := fun y hy =>
      (h y (by simp [hform, hy, Form.children])).2 depth
    simp only [Form.map, hx.inChain, resourceBody_map hitems]
    cases head <;> cases collector <;> simp_all [Head.map]
  | title titles =>
    simp only [hform, Form.children] at h
    simp only [Form.map, withCommas_map h]
  | collector opening query closing =>
    simp only [hform, Form.children] at h
    cases query with
    | none => rfl
    | some query => simp only [Form.map, Option.map_some, (h query (by simp)).2]
  | branch keyword condition body =>
    simp only [hform, Form.children] at h
    have hbody := h.mono (List.subset_append_right condition.toList body)
    cases condition with
    | none => simp only [Form.map, Option.map_none, block_map hx hbody]
    | some condition =>
      have hcondition := (h condition (by simp)).2
      simp only [Form.map, Option.map_some, block_map hx hbody, hcondition]
  | caseBlock subject body =>
    simp only [hform, Form.children] at h
    obtain ⟨-, hsubject, hbody⟩ := h.cons
    simp only [Form.map, block_map hx hbody, hsubject]
  | caseOption values body =>
    simp only [hform, Form.children] at h
    have hvalues := h.mono (List.subset_append_left values body)
    have hbody := h.mono (List.subset_append_right values body)
    simp only [Form.map, block_map hx hbody, withCommas_map hvalues]
  | selector subject items =>
    simp only [hform, Form.children] at h
    obtain ⟨-, hsubject, hitems⟩ := h.cons
    simp [Form.map, onePerLine_map hitems, hsubject]
  | inclusion keyword args =>
    simp only [hform, Form.children] at h
    simp only [Form.map, withCommas_map h]
  | assignment name operator value =>
    simp only [hform, Form.children] at h
    simp only [Form.map, h.cons.2.1]
  | call name args parenthesized =>
    simp only [hform, Form.children] at h
    simp only [Form.map, withCommas_map h]
  | chain members edges =>
    simp only [hform, Form.children] at h
    simp only [Form.map, chainText_map h]
  | reference head indexes =>
    simp only [hform, Form.children] at h
    simp only [Form.map, texts_map h]
  | hash items =>
    simp only [hform, Form.children] at h
    simp only [Form.map, hashText_map h]
  | list items =>
    simp only [hform, Form.children] at h
    simp only [Form.map, listText_map h]
  | pair key arrow value keyWidth =>
    simp only [hform, Form.children] at h
    simp only [Form.map, h.cons.2.1]
  | expression parts =>
    simp only [hform, Form.children] at h
    simp only [Form.map]
    rw [parts_map h]
  | parens inner =>
    simp only [hform, Form.children] at h
    simp only [Form.map, h.cons.2.1]
  | unary operator operand =>
    simp only [hform, Form.children] at h
    simp only [Form.map, h.cons.2.1]
  | _ => rfl

end

end Layout

end TidyManifest
