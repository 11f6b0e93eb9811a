import TidyManifest.Proofs.Conservation.Ink
import TidyManifest.Proofs.Tree.Parsed

/-!
# No item of a resource is lost

The layout of a resource moves its items: comments in front of the first title go above the head,
what else stands there goes below the first title, and the head is written once for each title
unless the resource is a member of a chain.  `plainBody` says which items stand where, in one pass
over them and without any layout.  Every resource of a parsed manifest has the ink of that
(`ink_text_resource`), so none of its items is lost and none is written twice.

A resource may be anywhere and may hold other resources, so the ink of a node first has to be shown
to be independent of the depth at which it is laid out (`ink_textWithin_depth`).
-/

namespace TidyManifest

namespace Layout

section

variable {ι : Type}

/-- What a resource declares, in front of its brace, from the texts of the nodes in it. -/
def plainHead (item : ι → String) (sigil : String) (head : Head ι) (collector : Option ι) : String :=
  sigil ++
    (match head with
      | .type token => token.text
      | .reference reference => item reference) ++
    (match collector with
      | some collector => item collector
      | none => "")

/-- An item behind the first title of a resource: something stands in front of each further title. -/
def plainMember (v : View ι) (again : String) (item : ι → String) (id : ι) : String :=
  if v.category id == .title then again ++ item id else item id

/-- A resource with its items written out one after the other.  Comments in front of the first title
stand above the head and other items there stand below that title.  A further title closes the block
and opens a new one, unless this is a member of a chain. -/
def plainBody (v : View ι) (inChain : Bool) (head : String) (item : ι → String) (items : List ι) :
    String :=
  let isTitle (id : ι) : Bool := v.category id == .title
  let lead := items.takeWhile fun id => !isTitle id
  match items.dropWhile fun id => !isTitle id with
  | [] => head ++ "\x7b" ++ String.join (items.map item) ++ "\x7d"
  | title :: rest =>
    let again := if inChain && items.countP isTitle > 1 then "" else "\x7d" ++ head ++ "\x7b"
    String.join ((lead.filter v.isComment).map item) ++
      head ++ "\x7b" ++ item title ++
      String.join ((lead.filter fun id => !v.isComment id).map item) ++
      String.join (rest.map (plainMember v again item)) ++ "\x7d"

/-- Lists that start with items of which none starts a section. -/
theorem takeWhile_lead {starts : ι → Bool} {lead : List ι} {rest : List (ι × List ι)}
    (h : Sectioned starts lead rest) :
    (lead ++ rest.flatMap fun s => s.1 :: s.2).takeWhile (fun id => !starts id) = lead ∧
      (lead ++ rest.flatMap fun s => s.1 :: s.2).dropWhile (fun id => !starts id) =
        rest.flatMap fun s => s.1 :: s.2 := by
  have hlead : ∀ x ∈ lead, (!starts x) = true := fun x hx => by rw [h.lead x hx]; rfl
  rw [List.takeWhile_append_of_pos hlead, List.dropWhile_append_of_pos hlead]
  cases rest with
  | nil => simp
  | cons s rest =>
    have hs : starts s.1 = true := h.titles s (by simp)
    simp [hs]

/-- The plain form of a body without titles. -/
theorem plainBody_untitled {v : View ι} {items lead : List ι} (h : sections v items = (lead, []))
    (inChain : Bool) (head : String) (item : ι → String) :
    plainBody v inChain head item items =
      head ++ "\x7b" ++ String.join (lead.map item) ++ "\x7d" := by
  have hitems := flatten_sectionsBy (fun id => v.category id == .title) items
  have hsectioned := sectioned_sectionsBy (fun id => v.category id == .title) items
  rw [← sections, h] at hitems hsectioned
  have hdrop := (takeWhile_lead hsectioned).2
  rw [hitems] at hdrop
  obtain rfl : lead = items := by simpa using hitems
  simp only [plainBody, hdrop, List.flatMap_nil]

/-- The plain form of a body with titles, from its sections. -/
theorem plainBody_titled {v : View ι} {items lead : List ι} {first : ι × List ι}
    {rest : List (ι × List ι)} (h : sections v items = (lead, first :: rest))
    (inChain : Bool) (head : String) (item : ι → String) :
    plainBody v inChain head item items =
      String.join ((lead.filter v.isComment).map item) ++
        head ++ "\x7b" ++ item first.1 ++
        String.join ((lead.filter fun id => !v.isComment id).map item) ++
        String.join ((first.2 ++ rest.flatMap fun s => s.1 :: s.2).map (plainMember v
          (if inChain && (first :: rest).length > 1 then "" else "\x7d" ++ head ++ "\x7b") item)) ++
        "\x7d" := by
  have hitems := flatten_sectionsBy (fun id => v.category id == .title) items
  have hsectioned := sectioned_sectionsBy (fun id => v.category id == .title) items
  have hlength := length_sections (fun id => v.category id == .title) items
  rw [← sections, h] at hitems hsectioned hlength
  obtain ⟨htake, hdrop⟩ := takeWhile_lead hsectioned
  rw [hitems] at htake hdrop
  simp only [plainBody, htake, hdrop, ← hlength]
  rfl

end

section

variable {ι : Type} {v : View ι} {o : Options} {write : ι → Nat → String} {item : ι → String}
  {again : String}

/-- Items that are no titles, or that are titles with nothing in front, have their own ink. -/
theorem ink_members {ids : List ι} (h : ∀ id ∈ ids, v.category id = .title → ink again = []) :
    ids.flatMap (fun id => ink (plainMember v again item id)) =
      (ids.map fun id => ink (item id)).flatten := by
  refine congrArg List.flatten (List.map_congr_left fun id hid => ?_)
  unfold plainMember
  split
  · rename_i htitle
    rw [ink_append, h id hid (eq_of_beq htitle), List.nil_append]
  · rfl

/-- Blocks one after the other, each with its title: where one ends the next one starts. -/
theorem ink_laterBlocks {head : String} {rest : List (ι × List ι)}
    (htitles : ∀ s ∈ rest, v.category s.1 = .title)
    (hmembers : ∀ s ∈ rest, ∀ x ∈ s.2, v.category x ≠ .title)
    (h : ink again = ink "\x7d" ++ ink head ++ ink "\x7b") :
    ink "\x7d" ++ rest.flatMap (fun s => ink head ++
        inBraces (ink (item s.1) ++ (s.2.map fun id => ink (item id)).flatten)) =
      (rest.flatMap fun s => s.1 :: s.2).flatMap (fun id => ink (plainMember v again item id)) ++
        ink "\x7d" := by
  induction rest with
  | nil => simp
  | cons s rest ih =>
    have htitle : ink (plainMember v again item s.1) =
        ink "\x7d" ++ ink head ++ ink "\x7b" ++ ink (item s.1) := by
      rw [plainMember, if_pos (by simp [htitles s]), ink_append, h]
    have hown : s.2.flatMap (fun id => ink (plainMember v again item id)) =
        (s.2.map fun id => ink (item id)).flatten :=
      ink_members fun x hx heq => absurd heq (hmembers s (by simp) x hx)
    have hrest := ih (fun s hs => htitles s (by simp [hs])) fun s hs => hmembers s (by simp [hs])
    rw [List.flatMap_cons, List.flatMap_cons, List.flatMap_append, List.flatMap_cons, htitle, hown,
      List.append_assoc _ _ (ink "\x7d"), ← hrest, inBraces]
    simp only [List.append_assoc]

/-- The blocks of a resource with titles have the ink of its titles and members in order, with a
brace closed and one opened in front of each further title. -/
theorem ink_titledBody_plain {inChain : Bool} {head : String} {first : ι × List ι}
    {rest : List (ι × List ι)}
    (htitles : ∀ s ∈ rest, v.category s.1 = .title)
    (hmembers : ∀ s ∈ rest, ∀ x ∈ s.2, v.category x ≠ .title)
    (h : Inks write (fun id => ink (item id)) ((first :: rest).flatMap fun s => s.1 :: s.2))
    (hagain : ink again = if inChain && (first :: rest).length > 1 then []
      else ink "\x7d" ++ ink head ++ ink "\x7b") (depth : Nat) :
    ink (titledBody v o write depth inChain head (first :: rest)) =
      ink head ++ ink "\x7b" ++ ink (item first.1) ++
        (first.2.map fun id => ink (item id)).flatten ++
        (rest.flatMap fun s => s.1 :: s.2).flatMap (fun id => ink (plainMember v again item id)) ++
        ink "\x7d" := by
  unfold titledBody
  split
  · rename_i hcompact
    rw [if_pos hcompact] at hagain
    rw [ink_members fun _ _ _ => hagain, ink_append, ink_append, ink_braced, ink_append, ink_append,
      ink_compactSections h]
    simp
  · rename_i hapart
    rw [if_neg hapart] at hagain
    have hblocks : ((first :: rest).map (titleBlock v o write depth head)).flatMap ink =
        (first :: rest).flatMap fun s => ink head ++
          inBraces (ink (item s.1) ++ (s.2.map fun id => ink (item id)).flatten) := by
      rw [List.flatMap_map]
      refine congrArg List.flatten (List.map_congr_left fun s hs => ?_)
      exact ink_titleBlock (h.mono fun x hx => List.mem_flatMap.mpr ⟨s, hs, hx⟩) depth head
    have hseparator : ink ("\n\n" ++ margin o depth) = [] := by
      rw [ink_append, ink_margin]
      decide
    rw [ink_intercalate hseparator, hblocks, List.flatMap_cons, List.append_assoc _ _ (ink "\x7d"),
      ← ink_laterBlocks htitles hmembers hagain, inBraces]
    simp only [List.append_assoc]

/-- The body of a resource has the ink of its plain form. -/
theorem ink_resourceBody_plain {items : List ι}
    (h : Inks write (fun id => ink (item id)) items) (depth : Nat) (inChain : Bool)
    {head head' : String} (hhead : ink head = ink head') :
    ink (resourceBody v o write depth inChain head items) =
      ink (plainBody v inChain head' item items) := by
  have hitems := flatten_sectionsBy (fun id => v.category id == .title) items
  have hsectioned := sectioned_sectionsBy (fun id => v.category id == .title) items
  rw [← sections] at hitems hsectioned
  rcases hsections : sections v items with ⟨lead, _ | ⟨first, rest⟩⟩
  · rw [hsections] at hitems
    obtain rfl : lead = items := by simpa using hitems
    rw [resourceBody_untitled v o write depth inChain head hsections,
      plainBody_untitled hsections]
    cases lead with
    | nil => simp [ink_braced, hhead]
    | cons x lead => simp [ink_onePerLine h, hhead, List.flatMap_def, Function.comp_def]
  · rw [hsections] at hitems hsectioned
    let others := lead.filter fun id => !v.isComment id
    obtain ⟨again, heq⟩ : ∃ again, again =
        if inChain && (first :: rest).length > 1 then "" else "\x7d" ++ head' ++ "\x7b" := ⟨_, rfl⟩
    have hagain : ink again = if inChain && (first :: rest).length > 1 then []
        else ink "\x7d" ++ ink head ++ ink "\x7b" := by
      rw [heq, hhead]
      split <;> simp
    have hlead (keep : ι → Bool) : Inks write (fun id => ink (item id)) (lead.filter keep) :=
      h.mono fun x hx => hitems ▸ List.mem_append_left _ (List.mem_filter.mp hx).1
    have hwhole : Inks write (fun id => ink (item id))
        (((first.1, others ++ first.2) :: rest).flatMap fun s => s.1 :: s.2) := by
      intro x hx
      by_cases hothers : x ∈ others
      · exact hlead _ x hothers
      · refine h x (hitems ▸ List.mem_append_right _ ?_)
        simpa [hothers] using hx
    have hbody := ink_titledBody_plain (v := v) (o := o)
      (fun s hs => by simpa using hsectioned.titles s (by simp [hs]))
      (fun s hs x hx => by simpa using hsectioned.members s (by simp [hs]) x hx) hwhole hagain depth
    have hfirst : first.2.flatMap (fun id => ink (plainMember v again item id)) =
        (first.2.map fun id => ink (item id)).flatten :=
      ink_members fun x hx heq => absurd heq (by simpa using hsectioned.members first (by simp) x hx)
    have habove := (hlead v.isComment).flatMap depth
    rw [resourceBody_titled v o write depth inChain head hsections, plainBody_titled hsections, ← heq,
      ink_append]
    simp only [prepend]
    rw [hbody, hhead]
    simp only [ink_append, ink_join, ink_margin, ink_newline, List.flatMap_map, List.flatMap_append,
      List.map_append, List.flatten_append, List.append_nil, List.append_assoc, habove, hfirst, others]
    rfl

/-- The text of a resource has the ink of its plain form. -/
theorem ink_formText_resource {id : ι} {sigil : String} {head : Head ι} {collector : Option ι}
    {hasBlock : Bool} {items : List ι}
    (hform : v.form id = .resource sigil head collector hasBlock items)
    (h : Inks write (fun id => ink (item id)) (v.form id).children) (depth : Nat) :
    ink (formText v o write id depth) =
      ink (if hasBlock then
          plainBody v (v.inChain id) (plainHead item sigil head collector) item items
        else plainHead item sigil head collector) := by
  rw [hform] at h
  have hitems : Inks write (fun id => ink (item id)) items := h.mono fun id hid => by
    cases head <;> simp [Form.children, hid]
  have hcollector (x : ι) (hx : collector = some x) : ink (write x depth) = ink (item x) :=
    h x (by cases head <;> simp [Form.children, hx]) depth
  have hreference (x : ι) (hx : head = .reference x) : ink (write x depth) = ink (item x) :=
    h x (by simp [Form.children, hx]) depth
  simp only [formText, hform]
  split
  · refine ink_resourceBody_plain hitems depth _ ?_
    cases head <;> cases collector <;> simp [plainHead, hreference, hcollector]
  · cases head <;> cases collector <;> simp [plainHead, hreference, hcollector]

/-- The ink of a node's text does not depend on the depth. -/
theorem ink_textWithin_depth (n : Nat) (id : ι) (depth depth' : Nat) :
    ink (textWithin v o n id depth) = ink (textWithin v o n id depth') := by
  induction n generalizing id depth depth' with
  | zero => rfl
  | succ n ih =>
    have h : Inks (textWithin v o n) (fun id => ink (textWithin v o n id 0)) (v.form id).children :=
      fun x _ depth => ih x depth 0
    rw [textWithin, textWithin]
    cases hform : v.form id with
    | resource sigil head collector hasBlock items =>
      rw [ink_formText_resource hform h, ink_formText_resource hform h]
    | _ =>
      have hplain : ∀ sigil head collector hasBlock items,
          v.form id = .resource sigil head collector hasBlock items →
            InOrder (v.inChain id) (items.map v.category) := by simp [hform]
      rw [ink_formText h hplain, ink_formText h hplain]

end

end Layout

/-- In a parsed manifest, with its arrows aligned or not, every resource with a block is laid out with
the ink of its plain form, whatever the options and the depths of the resource and of its items. -/
theorem ink_text_resource {mode : SplitMode} {tokens : List Token} {t shown : Tree}
    (h : parse mode tokens = .ok t) (hshown : shown = t ∨ shown = Layout.align t) {id : NodeId}
    {sigil : String} {head : Head NodeId} {collector : Option NodeId} {items : List NodeId}
    (hform : shown.form id = .resource sigil head collector true items) (o : Layout.Options)
    (depth : Nat) (depths : NodeId → Nat) :
    let item (x : NodeId) : String := Layout.text shown o x (depths x)
    ink (Layout.text shown o id depth) =
      ink (Layout.plainBody shown.view (shown.view.inChain id)
        (Layout.plainHead item sigil head collector) item items) := by
  intro item
  obtain ⟨ps, rfl⟩ : ∃ ps, shown = Tree.ofPhrases ps := by
    obtain ⟨ps, -, rfl⟩ := parse_eq_ok h
    rcases hshown with rfl | rfl
    · exact ⟨_, rfl⟩
    · exact ⟨_, Layout.align_ofPhrases _⟩
  have hcategory : (Tree.ofPhrases ps).category id ≠ .manifest := by
    rw [Tree.category, Node.category, ← Tree.form, hform]
    simp [Form.category]
  rw [Tree.text_ofPhrases hcategory]
  exact Layout.ink_formText_resource (v := (Tree.ofPhrases ps).view) hform
    (fun x _ depth => Layout.ink_textWithin_depth _ x depth (depths x)) depth

/-- A comment and an attribute in front of the first of two titles. -/
theorem ink_text_resource_of_titles :
    let tokens : List Token :=
      [⟨.name, "f", 1⟩, ⟨.leftBrace, "\x7b", 1⟩, ⟨.comment, "#c", 1⟩, ⟨.newline, "\n", 1⟩,
       ⟨.name, "x", 2⟩, ⟨.fatArrow, "=>", 2⟩, ⟨.number, "1", 2⟩, ⟨.comma, ",", 2⟩, ⟨.name, "a", 2⟩,
       ⟨.colon, ":", 2⟩, ⟨.name, "yy", 2⟩, ⟨.fatArrow, "=>", 2⟩, ⟨.number, "2", 2⟩,
       ⟨.semicolon, ";", 2⟩, ⟨.name, "b", 2⟩, ⟨.colon, ":", 2⟩, ⟨.comment, "#d", 2⟩,
       ⟨.newline, "\n", 2⟩, ⟨.rightBrace, "\x7d", 3⟩]
    ∃ t, parse .render tokens = .ok t ∧
      (Layout.align t).form 1 =
        .resource "" (.type ⟨.name, "f", 1⟩) none true [2, 3, 6, 9, 12, 15] ∧
      ∀ depth, ink (Layout.text (Layout.align t) {} 1 depth) =
        ink "#c f\x7ba: x=>1 yy=>2\x7d f\x7bb: #d\x7d" := by
  intro tokens
  have hok : (parse .render tokens).toOption.map (fun t => ((Layout.align t).form 1,
      Layout.plainBody (Layout.align t).view ((Layout.align t).view.inChain 1) "f"
        (fun x => Layout.text (Layout.align t) {} x 0) [2, 3, 6, 9, 12, 15])) =
      some (.resource "" (.type ⟨.name, "f", 1⟩) none true [2, 3, 6, 9, 12, 15],
        "# cf\x7ba:x  => 1yy => 2\x7df\x7bb:# d\x7d") := by decide +kernel
  rcases hparse : parse .render tokens with e | t
  · rw [hparse] at hok
    cases hok
  · rw [hparse] at hok
    obtain ⟨hform, hplain⟩ := Prod.mk.inj (Option.some.inj hok)
    refine ⟨t, rfl, hform, fun depth => ?_⟩
    rw [ink_text_resource hparse (.inr rfl) hform {} depth fun _ => 0]
    exact (congrArg ink hplain).trans (by decide)

end TidyManifest
