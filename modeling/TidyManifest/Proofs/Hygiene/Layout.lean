import TidyManifest.Proofs.Hygiene.Leads
import TidyManifest.Proofs.Tree.Filled

/-!
# The layout of clean lines

Wherever the text of a node is written, it starts with something that can stand there, and it ends
with a character that a newline may follow.  A blank line may follow it too, unless it is a comment,
which can end with an opening brace; but the layout puts no blank line after a comment.  That is
shown for one node from what is known of its children (`leads_formText`), and so for all of them.
-/

namespace TidyManifest

namespace Hygiene

open Layout
open Standing
open Token (Among)

/-- A token without a newline in it, unless it is one. -/
def OneLine (t : Token) : Prop :=
  t.Spelled ∧ (t.kind ≠ .newline → '\n' ∉ t.text.toList)

/-- A token on one line, of a kind that has no blanks in it, leaves the line shut. -/
theorem leads_among {t : Token} {kinds : List Kind} (h : Among OneLine kinds t)
    (hkinds : kinds.all (fun k => !Token.loose.contains k) = true) : Leads .any t.text .shut := by
  obtain ⟨⟨hspelled, hline⟩, hkind⟩ := h
  have hloose : t.kind ∉ Token.loose := by simpa using List.all_eq_true.mp hkinds _ hkind
  refine leads_token hspelled (hline fun hnewline => hloose ?_) hloose
  rw [hnewline]
  decide

section

variable {ι : Type} {v : View ι} {o : Options} {write : ι → Nat → String}

/-- What is known after the text of a node. -/
def after (v : View ι) (id : ι) : Standing :=
  if v.isComment id then .solid else .shut

/-- What is no comment leaves the line shut. -/
theorem after_eq {id : ι} (h : v.isComment id = false) : after v id = .shut := by
  simp [after, h]

instance (id : ι) : Under .solid (after v id) := by
  unfold after
  split <;> infer_instance

/-- The texts of nodes can be written anywhere. -/
def Flows (v : View ι) (write : ι → Nat → String) (ids : List ι) : Prop :=
  ∀ id ∈ ids, ∀ depth, Leads .any (write id depth) (after v id)

/-- The texts of nodes can be written anywhere, and a blank line may follow them. -/
def FlowsOn (write : ι → Nat → String) (ids : List ι) : Prop :=
  ∀ id ∈ ids, ∀ depth, Leads .any (write id depth) .shut

theorem Flows.mono {ids ids' : List ι} (h : Flows v write ids) (hsub : ids' ⊆ ids) :
    Flows v write ids' :=
  fun id hid => h id (hsub hid)

theorem Flows.solid {ids : List ι} {id : ι} (h : Flows v write ids) (hid : id ∈ ids) (depth : Nat) :
    Leads .any (write id depth) .solid :=
  (h id hid depth).weaken

/-- Children that are no comments leave the line shut. -/
theorem Flows.on {ids : List ι} (h : Flows v write ids)
    (hids : ∀ id ∈ ids, v.isComment id = false) : FlowsOn write ids := by
  intro id hid depth
  rw [← after_eq (hids id hid)]
  exact h id hid depth

/-- A child of a category that is no comment leaves the line shut. -/
theorem Flows.shut {ids : List ι} {id : ι} {categories : List Category} (h : Flows v write ids)
    (hid : id ∈ ids) (hcategory : v.category id ∈ categories) (depth : Nat)
    (hnone : categories.all (fun c => !c.isComment) = true) :
    Leads .any (write id depth) .shut := by
  have hcomment : v.isComment id = false := by
    simpa [View.isComment] using List.all_eq_true.mp hnone _ hcategory
  rw [← after_eq hcomment]
  exact h id hid depth

/-- Expressions leave the line shut. -/
theorem Flows.of_expressions {ids : List ι} (h : Flows v write ids)
    (hids : ∀ x ∈ ids.map v.category, x = .expression) : FlowsOn write ids :=
  h.on fun id hid => by
    rw [View.isComment, hids _ (List.mem_map_of_mem hid)]
    rfl

/-- Children on one line with commas leave the line shut. -/
theorem leads_commas {ids : List ι} (h : FlowsOn write ids) (hne : ids ≠ []) (depth : Nat) :
    Leads .any (withCommas write ids depth) .shut := by
  refine leads_intercalate (by simpa using hne) ?_ (leads .shut ", " .any rfl)
  exact List.forall_mem_map.mpr fun id hid => h id hid depth

/-- A list of expressions leaves the line shut. -/
theorem leads_expressions {ids : List ι} (h : Flows v write ids)
    (hids : Expressions (ids.map v.category)) (depth : Nat) :
    Leads .any (withCommas write ids depth) .shut :=
  leads_commas (h.of_expressions hids.2) (by simpa using hids.1) depth

/-- In front of a closing bracket there may be nothing. -/
theorem leads_withCommas {ids : List ι} (h : FlowsOn write ids) (depth : Nat) :
    Leads .shut (withCommas write ids depth) .shut := by
  by_cases hne : ids = []
  · subst hne
    exact leads_empty .shut
  · exact (leads_commas h hne depth).weaken

/-- Items on lines of their own leave the line shut, whatever they are: the closing text stands
alone. -/
theorem leads_onePerLine {items : List ι} (h : Flows v write items) (depth : Nat)
    {a : Standing} {opening closing : String} (hopening : Leads a opening .solid)
    (hclosing : Leads .clear closing .shut) :
    Leads a (onePerLine v o write items depth opening closing) .shut := by
  have hlines : Leads .clear (String.join (items.map fun id =>
      margin o (depth + 1) ++ write id (depth + 1) ++ (if v.isComment id then "\n" else ",\n")))
      .clear := by
    refine leads_join (List.forall_mem_map.mpr fun id hid => ?_)
    have hmargin := leads_margin o (depth + 1)
    split
    · exact (hmargin.append (h.solid hid _)).append leads_newline
    · rename_i hcomment
      have hitem := h id hid (depth + 1)
      rw [after_eq (by simpa using hcomment)] at hitem
      exact (hmargin.append hitem).append (leads .shut ",\n" .clear rfl)
  exact (((hopening.append leads_newline).append hlines).append
    (leads_margin o depth)).append hclosing

/-- Braces around lines leave the line shut. -/
theorem leads_braced {inner : String} (h : Leads .solid inner .clear) :
    Leads .any (braced inner) .shut :=
  ((leads .any "\x7b" .solid rfl).append h).append (leads .clear "\x7d" .shut rfl)

theorem leads_noBraces : Leads .any (braced "") .shut :=
  leads_braced (leads_empty .solid).weaken

/-- Items in braces leave the line shut. -/
theorem leads_itemBraces {items : List ι} (h : Flows v write items) (depth : Nat) :
    Leads .any (onePerLine v o write items depth "\x7b" "\x7d") .shut :=
  leads_onePerLine h depth (leads .any "\x7b" .solid rfl) (leads .clear "\x7d" .shut rfl)

/-- A hash leaves the line shut. -/
theorem leads_hashText {items : List ι} (h : Flows v write items) (depth : Nat) :
    Leads .any (hashText v o write items depth) .shut := by
  unfold hashText
  split
  · exact leads_noBraces
  · split
    · rename_i text hshort
      obtain ⟨item, rfl, hpair, rfl⟩ := shortHash?_eq_some hshort
      have hitem : Leads .any (write item depth) .shut :=
        h.shut List.mem_cons_self (List.mem_singleton.mpr hpair) depth rfl
      have hspace := leads .solid " " .clear rfl
      exact leads_braced ((hspace.append hitem).append hspace)
    · exact leads_itemBraces h depth

/-- A list leaves the line shut. -/
theorem leads_listText {items : List ι} (h : Flows v write items) (depth : Nat) :
    Leads .any (listText v o write items depth) .shut := by
  unfold listText
  split
  · exact leads .any "[]" .shut rfl
  · dsimp only
    split
    · exact leads_onePerLine h depth (leads .any "[" .solid rfl) (leads .clear "]" .shut rfl)
    · rename_i hinline
      have hitems : FlowsOn write items := h.on fun id hid => by simp_all
      exact ((leads .any "[" .shut rfl).append (leads_withCommas hitems depth)).append
        (leads .any "]" .shut rfl)

/-- Parameters leave the line shut, on one line or on several. -/
theorem leads_parameters {params : List ι} (h : Flows v write params) (depth : Nat)
    (before inner : String) {separator : String} (hseparator : Leads .shut separator .any) :
    Leads .shut (parameters v o write params depth before separator inner) .shut := by
  unfold parameters
  split
  · exact leads_empty .shut
  · dsimp only
    refine hseparator.append (c := .any) ?_
    split
    · rename_i hfits
      have hparams : FlowsOn write params := h.on fun id hid => by simp_all
      exact ((leads .any "(" .shut rfl).append (leads_withCommas hparams _)).append
        (leads .any ")" .shut rfl)
    · exact leads_onePerLine h depth (leads .any "(" .solid rfl) (leads .clear ")" .shut rfl)

/-- What a head inherits from leaves the line shut. -/
theorem leads_inheritance {inherits : Option Token}
    (h : ∀ t ∈ inherits, Leads .any t.text .shut) : Leads .shut (inheritance inherits) .shut := by
  cases inherits with
  | none => exact leads_empty .shut
  | some t => exact (leads .shut " inherits " .any rfl).append (h t rfl)

/-- A statement that is set off is no comment. -/
def SetOff (v : View ι) (ids : List ι) : Prop :=
  ∀ id ∈ ids, v.outerSpacing id = true → v.isComment id = false

theorem SetOff.mono {ids ids' : List ι} (h : SetOff v ids) (hsub : ids' ⊆ ids) : SetOff v ids' :=
  fun id hid => h id (hsub hid)

/-- A gap between statements leaves no blank at the end of a line. -/
theorem leads_gap {previous : ι} (h : SetOff v [previous]) (next : ι) :
    Leads (after v previous) (gap v o previous next) .any := by
  unfold gap
  split
  · exact (leads .solid " " .any rfl).weaken
  · dsimp only
    split
    · rename_i hblank
      have hcomment : v.isComment previous = false := by
        simp only [Bool.and_eq_true, Bool.or_eq_true, Bool.not_eq_true'] at hblank
        exact hblank.2.elim (h previous (by simp)) And.right
      rw [after_eq hcomment]
      exact leads_blankLine.append (leads_margin_any o _)
    · exact (leads_newline.append (leads_margin_any o _)).weaken

/-- The statements after a given one, without the newline at their end. -/
theorem leads_following {previous : ι} {rest : List ι} (h : Flows v write rest)
    (hspaced : SetOff v (previous :: rest)) :
    ∃ w, following v o write previous rest = w ++ "\n" ∧ Leads (after v previous) w .solid := by
  induction rest generalizing previous with
  | nil => exact ⟨"", rfl, (leads_empty (after v previous)).weaken⟩
  | cons next rest ih =>
    obtain ⟨w, hw, hleads⟩ := ih (h.mono (List.subset_cons_self _ _))
      fun id hid => hspaced id (List.mem_cons_of_mem _ hid)
    refine ⟨gap v o previous next ++ write next (v.depth next) ++ w, ?_, ?_⟩
    · simp only [following, hw, String.append_assoc]
    · have hgap : Leads (after v previous) (gap v o previous next) .any :=
        leads_gap (fun id hid => hspaced id (by simp_all)) next
      exact (hgap.append (h next List.mem_cons_self _)).append hleads

/-- The statements of a body end with ink and one newline. -/
theorem leads_statementLines {parent first : ι} {rest : List ι} (h : Flows v write (first :: rest))
    (hspaced : SetOff v (first :: rest)) (hinner : v.innerSpacing parent = false) :
    ∃ w, statementLines v o write parent (first :: rest) = w ++ "\n" ∧ Leads .any w .solid := by
  obtain ⟨w, hw, hleads⟩ := leads_following (o := o) (h.mono (List.subset_cons_self _ _)) hspaced
  refine ⟨margin o (v.depth first) ++ write first (v.depth first) ++ w, ?_, ?_⟩
  · simp [statementLines, hinner, hw, String.append_assoc]
  · exact ((leads_margin_any o _).append (h first List.mem_cons_self _)).append hleads

/-- A block leaves the line shut. -/
theorem leads_block {owner : ι} {body : List ι} (h : Flows v write body) (hspaced : SetOff v body)
    (hinner : v.innerSpacing owner = false) (depth : Nat) :
    Leads .any (block v o write owner body depth) .shut := by
  unfold block
  cases body with
  | nil => exact leads_noBraces
  | cons first rest =>
    obtain ⟨w, hw, hleads⟩ := leads_statementLines (o := o) h hspaced hinner
    rw [hw, hleads.trimNewlines_eq]
    exact leads_braced (((leads_newline.append hleads).append leads_newline).append
      (leads_margin o depth))

/-- The items below a title in a chain end their last line. -/
theorem leads_compactMembers {members : List ι} (h : Flows v write members) (depth : Nat) :
    Leads .clear (compactMembers v o write depth members) .clear := by
  induction members with
  | nil => exact leads_empty .clear
  | cons member rest ih =>
    have hmark : Leads .solid (if v.isComment member then ""
        else if rest.all v.isComment then ";" else ",") .solid := by
      split
      · exact leads_empty .solid
      · split
        · exact leads .solid ";" .solid rfl
        · exact leads .solid "," .solid rfl
    exact ((((leads_margin o depth).append (h.solid List.mem_cons_self depth)).append
      hmark).append leads_newline).append (ih (h.mono (List.subset_cons_self _ _)))

/-- A section of a body: a title, which is no comment, and its members. -/
def FlowsBelow (v : View ι) (write : ι → Nat → String) (s : ι × List ι) : Prop :=
  (∀ depth, Leads .any (write s.1 depth) .shut) ∧ Flows v write s.2

/-- A title in a chain ends its last line. -/
theorem leads_compactSection {s : ι × List ι} (h : FlowsBelow v write s) (depth : Nat) :
    Leads .clear (compactSection v o write depth s) .clear := by
  have hmark : Leads .shut (if s.2.all v.isComment then ";" else "") .shut := by
    split
    · exact leads .shut ";" .shut rfl
    · exact leads_empty .shut
  exact ((((leads_margin o _).append (h.1 _)).append hmark).append
    leads_newline).append (leads_compactMembers h.2 _)

/-- A block for one title leaves the line shut. -/
theorem leads_titleBlock {head : String} (hhead : Leads .any head .shut) {s : ι × List ι}
    (h : FlowsBelow v write s) (depth : Nat) :
    Leads .any (titleBlock v o write depth head s) .shut := by
  have hopening : Leads .any (head ++ " \x7b " ++ write s.1 depth) .shut :=
    (hhead.append (leads .solid " \x7b " .any rfl)).append (h.1 depth)
  simp only [titleBlock]
  split
  · exact hopening.append (leads .solid " \x7d" .shut rfl)
  · exact hopening.append
      (leads_onePerLine h.2 depth (leads_empty .solid) (leads .clear "\x7d" .shut rfl))

/-- A resource with titles leaves the line shut, whichever way it is written. -/
theorem leads_titledBody {head : String} (hhead : Leads .any head .shut)
    {whole : List (ι × List ι)} (hne : whole ≠ []) (h : ∀ s ∈ whole, FlowsBelow v write s)
    (depth : Nat) (inChain : Bool) :
    Leads .any (titledBody v o write depth inChain head whole) .shut := by
  unfold titledBody
  split
  · have hsections :
        Leads .clear (String.join (whole.map (compactSection v o write depth))) .clear :=
      leads_join (List.forall_mem_map.mpr fun s hs => leads_compactSection (h s hs) depth)
    exact (hhead.append (leads .solid " " .any rfl)).append
      (leads_braced ((leads_newline.append hsections).append (leads_margin o depth)))
  · refine leads_intercalate (by simpa using hne) ?_
      (leads_blankLine.append (leads_margin_any o depth))
    exact List.forall_mem_map.mpr fun s hs => leads_titleBlock hhead (h s hs) depth

/-- Sections stay sections when items are put into the first one. -/
theorem flowsBelow_prepend {items : List ι} {titles : List (ι × List ι)}
    (hitems : Flows v write items) (h : ∀ s ∈ titles, FlowsBelow v write s) :
    ∀ s ∈ prepend items titles, FlowsBelow v write s := by
  cases titles with
  | nil => simp [prepend]
  | cons first rest =>
    obtain ⟨hfirst, hrest⟩ := List.forall_mem_cons.mp h
    refine List.forall_mem_cons.mpr ⟨⟨hfirst.1, fun id hid => ?_⟩, hrest⟩
    exact (List.mem_append.mp hid).elim (hitems id) (hfirst.2 id)

/-- The body of a resource leaves the line shut. -/
theorem leads_resourceBody {head : String} (hhead : Leads .any head .shut) {items : List ι}
    (h : Flows v write items) (depth : Nat) (inChain : Bool) :
    Leads .any (resourceBody v o write depth inChain head items) .shut := by
  have hsub := sectionsBy_subset (fun id => v.category id == .title) items
  have htitles := (sectioned_sectionsBy (fun id => v.category id == .title) items).titles
  rcases hsections : sections v items with ⟨lead, titles⟩
  rw [← sections, hsections] at hsub htitles
  have hlead : Flows v write lead := h.mono hsub.1
  cases titles with
  | nil =>
    rw [resourceBody_untitled v o write depth inChain head hsections]
    refine (hhead.append (leads .solid " " .any rfl)).append (c := .any) ?_
    split
    · exact leads_noBraces
    · exact leads_itemBraces hlead depth
  | cons first rest =>
    have hbelow : ∀ s ∈ first :: rest, FlowsBelow v write s := by
      intro s hs
      obtain ⟨htitle, hmembers⟩ := hsub.2 s hs
      have hcategory := List.mem_singleton.mpr (eq_of_beq (htitles s hs))
      exact ⟨fun depth => h.shut htitle hcategory depth rfl, h.mono hmembers⟩
    have habove : Leads .any (String.join ((lead.filter v.isComment).map fun id =>
        write id depth ++ "\n" ++ margin o depth)) .any := by
      refine leads_join (List.forall_mem_map.mpr fun id hid => ?_)
      have hcomment := hlead.solid (List.mem_filter.mp hid).1 depth
      exact ((hcomment.append leads_newline).append (leads_margin o depth)).weaken
    rw [resourceBody_titled v o write depth inChain head hsections]
    exact habove.append (leads_titledBody hhead (by simp [prepend])
      (flowsBelow_prepend (hlead.mono List.filter_sublist.subset) hbelow) depth inChain)

/-- A chain leaves the line shut. -/
theorem leads_chainText {members : List ι} (h : FlowsOn write members) (hne : members ≠ [])
    {edges : List Token} (hedges : ∀ t ∈ edges, Leads .any t.text .shut) (depth : Nat) :
    Leads .any (chainText write depth members edges) .shut := by
  induction members generalizing edges with
  | nil => exact absurd rfl hne
  | cons member rest ih =>
    have hmember := h member List.mem_cons_self depth
    cases rest with
    | nil => exact hmember
    | cons next rest =>
      have hrest {edges : List Token} (hedges : ∀ t ∈ edges, Leads .any t.text .shut) :
          Leads .any (chainText write depth (next :: rest) edges) .shut :=
        ih (fun id hid => h id (List.mem_cons_of_mem _ hid)) (List.cons_ne_nil _ _) hedges
      cases edges with
      | nil => exact (hmember.append (leads .shut " -> " .any rfl)).append (hrest hedges)
      | cons edge edges =>
        obtain ⟨hedge, hedges⟩ := List.forall_mem_cons.mp hedges
        exact (((hmember.append (leads .shut " " .any rfl)).append hedge).append
          (leads .shut " " .any rfl)).append (hrest hedges)

/-- Anything may follow sigils on their line. -/
theorem leads_sigil {sigil : String}
    (h : ∃ sigils, (∀ t ∈ sigils, Among OneLine [.atSign] t) ∧ sigil = Plain.sigilText sigils) :
    Leads .any sigil .any := by
  obtain ⟨sigils, hsigils, rfl⟩ := h
  exact leads_join (List.forall_mem_map.mpr fun t ht => (leads_among (hsigils t ht) rfl).weaken)

/-- A part of an expression leaves the line shut. -/
theorem leads_partText {part : Part ι} {ids : List ι} (h : Flows v write ids)
    (hterm : ∀ x ∈ part.term?, x ∈ ids) (hpart : (part.map v.category).Filled OneLine)
    (depth : Nat) : Leads .any (partText write depth part) .shut := by
  cases part with
  | term x => exact h.shut (hterm x rfl) hpart depth rfl
  | operator t => exact leads_among hpart rfl

/-- The text of a node, where the texts of its children can be written anywhere. -/
theorem leads_formText {id : ι} (hform : ((v.form id).map v.category).Filled OneLine)
    (h : Flows v write (v.form id).children) (hspaced : SetOff v (v.form id).children)
    (hinner : v.innerSpacing id = false) (depth : Nat) :
    Leads .any (formText v o write id depth) (after v id) := by
  have hafter : after v id = if (v.form id).category.isComment then .solid else .shut := rfl
  have hspace := leads .shut " " .any rfl
  have hblock {body : List ι} (hbody : body ⊆ (v.form id).children) :
      Leads .any (block v o write id body depth) .shut :=
    leads_block (h.mono hbody) (hspaced.mono hbody) hinner depth
  rw [hafter]
  unfold formText
  generalize v.form id = form at hform h hblock ⊢
  cases form with
  | pending | manifest => exact hform.elim
  | comment text =>
    obtain ⟨t, ⟨ht, hkind⟩, rfl⟩ := hform
    exact leads_comment ht.1 (List.mem_singleton.mp hkind)
  | blockComment text =>
    obtain ⟨t, ht, rfl⟩ := hform
    have hsolid : Leads .any t.text .solid := (leads_among ht rfl).weaken
    exact hsolid
  | classBlock name params inherits body =>
    obtain ⟨hname, -, hinherits, -⟩ := hform
    have hparams := h.mono (List.subset_append_left params body)
    exact ((((leads .any "class " .any rfl).append (leads_among hname rfl)).append
      (leads_parameters hparams depth _ _ hspace)).append
      (leads_inheritance fun t ht => leads_among (hinherits t ht) rfl)).append hspace |>.append
      (hblock (List.subset_append_right params body))
  | defineBlock name params body =>
    obtain ⟨hname, -, -⟩ := hform
    have hparams := h.mono (List.subset_append_left params body)
    exact ((((leads .any "define " .any rfl).append (leads_among hname rfl)).append
      (leads_parameters hparams depth _ _ (leads_empty .shut).weaken)).append hspace).append
      (hblock (List.subset_append_right params body))
  | nodeBlock names inherits body =>
    obtain ⟨hne, hnames, hinherits, -⟩ := hform
    have hlist : Leads .any (", ".intercalate (names.map (·.text))) .shut :=
      leads_intercalate (by simpa using hne)
        (List.forall_mem_map.mpr fun t ht => leads_among (hnames t ht) rfl)
        (leads .shut ", " .any rfl)
    exact ((((leads .any "node " .any rfl).append hlist).append
      (leads_inheritance fun t ht => leads_among (hinherits t ht) rfl)).append hspace).append
      (hblock (List.Subset.refl _))
  | parameter type name value =>
    obtain ⟨htype, hname, hvalue⟩ := hform
    refine Leads.append (b := .shut) (c := .shut)
      (Leads.append (b := .any) ?_ (leads_among hname rfl)) ?_
    · cases type with
      | none => exact leads_empty .any
      | some x => exact (h.shut (by simp [Form.children]) (htype _ rfl) depth rfl).append hspace
    · cases value with
      | none => exact leads_empty .shut
      | some x =>
        exact (leads .shut " = " .any rfl).append
          (h.shut (by simp [Form.children]) (List.mem_singleton.mpr (hvalue _ rfl)) depth rfl)
  | resource sigil head query hasBlock items =>
    obtain ⟨hsigil, hhead, hquery, -⟩ := hform
    have hitems : Flows v write items :=
      h.mono fun x hx => by cases head <;> simp [Form.children, hx]
    have hwhole {headText : String} (hheadText : Leads .any headText .shut) :
        Leads .any (if hasBlock then resourceBody v o write depth (v.inChain id) headText items
          else headText) .shut := by
      split
      · exact leads_resourceBody hheadText hitems depth _
      · exact hheadText
    refine hwhole (Leads.append (b := .shut) (c := .shut)
      ((leads_sigil hsigil).append (c := .any) ?_) ?_)
    · cases head with
      | type token => exact leads_among hhead rfl
      | reference x => exact h.shut List.mem_cons_self (List.mem_singleton.mpr hhead) depth rfl
    · cases query with
      | none => exact leads_empty .shut
      | some x =>
        have hx : x ∈ (Form.resource sigil head (some x) hasBlock items).children := by
          cases head <;> simp [Form.children]
        exact hspace.append (h.shut hx (List.mem_singleton.mpr (hquery _ rfl)) depth rfl)
  | title titles => exact (leads_expressions h hform depth).append (leads .any ":" .shut rfl)
  | collector opening query closing =>
    obtain ⟨hopening, hquery, hclosing⟩ := hform
    cases query with
    | none => exact ((leads_among hopening rfl).append hspace).append (leads_among hclosing rfl)
    | some x =>
      have hx := h.shut (by simp [Form.children]) (List.mem_singleton.mpr (hquery _ rfl)) depth rfl
      exact ((((leads_among hopening rfl).append hspace).append hx).append hspace).append
        (leads_among hclosing rfl)
  | branch keyword condition body =>
    obtain ⟨hkeyword, hcondition, -⟩ := hform
    refine (((leads_among hkeyword rfl).append hspace).append (c := .any) (d := .any) ?_).append
      (hblock (List.subset_append_right _ body))
    cases condition with
    | none => exact leads_empty .any
    | some x =>
      have hx := List.mem_singleton.mpr (hcondition _ rfl)
      exact (h.shut (by simp [Form.children]) hx depth rfl).append hspace
  | caseBlock subject body =>
    obtain ⟨hsubject, -⟩ := hform
    exact (((leads .any "case " .any rfl).append
      (h.shut List.mem_cons_self (List.mem_singleton.mpr hsubject) depth rfl)).append hspace).append
      (hblock (List.subset_cons_self subject body))
  | caseOption values body =>
    obtain ⟨hvalues, -⟩ := hform
    exact ((leads_expressions (h.mono (List.subset_append_left values body)) hvalues depth).append
      (leads .any ": " .any rfl)).append (hblock (List.subset_append_right values body))
  | selector subject items =>
    obtain ⟨hsubject, -⟩ := hform
    have hhead := h.shut List.mem_cons_self hsubject depth rfl
    refine (hhead.append (leads .shut " ? " .any rfl)).append (c := .any) ?_
    split
    · exact leads_noBraces
    · exact leads_itemBraces (h.mono (List.subset_cons_self subject items)) depth
  | inclusion keyword args =>
    obtain ⟨hkeyword, hargs⟩ := hform
    exact ((leads_among hkeyword rfl).append hspace).append (leads_expressions h hargs depth)
  | assignment name operator value =>
    obtain ⟨hname, hoperator, hvalue⟩ := hform
    exact ((((leads_among hname rfl).append hspace).append (leads_among hoperator rfl)).append
      hspace).append (h.shut List.mem_cons_self (List.mem_singleton.mpr hvalue) depth rfl)
  | call name args parenthesized =>
    obtain ⟨hname, hargs, hne⟩ := hform
    cases parenthesized with
    | true =>
      exact (((leads_among hname rfl).append (leads .any "(" .shut rfl)).append
        (leads_withCommas (h.of_expressions hargs) depth)).append (leads .any ")" .shut rfl)
    | false =>
      exact ((leads_among hname rfl).append hspace).append
        (leads_expressions h ⟨hne rfl, hargs⟩ depth)
  | chain members edges =>
    obtain ⟨hne, hmembers, hedges⟩ := hform
    have hmembers : FlowsOn write members :=
      fun x hx depth => h.shut hx (hmembers (List.mem_map_of_mem hx)) depth rfl
    have hedges : ∀ t ∈ edges, Leads .any t.text .shut := fun t ht => leads_among (hedges t ht) rfl
    exact leads_chainText hmembers (by simpa using hne) hedges depth
  | reference head indexes =>
    obtain ⟨hhead, hindexes⟩ := hform
    have hjoin : Leads .shut (String.join (indexes.map fun x => write x depth)) .shut := by
      refine leads_join (List.forall_mem_map.mpr fun x hx => ?_)
      have hcategory := List.mem_singleton.mpr (hindexes _ (List.mem_map_of_mem hx))
      exact (h.shut hx hcategory depth rfl).weaken
    exact (leads_among hhead rfl).append hjoin
  | hash items => exact leads_hashText h depth
  | list items => exact leads_listText h depth
  | pair key arrow value width =>
    obtain ⟨hkey, harrow, hvalue⟩ := hform
    have hblanks : Leads .clear " " .clear := leads_blanks (.inr rfl) 1
    exact ((((leads_padRight (leads_among hkey rfl) width).append hblanks).append
      (leads_among harrow rfl)).append hspace).append
      (h.shut List.mem_cons_self (List.mem_singleton.mpr hvalue) depth rfl)
  | expression parts =>
    obtain ⟨hne, hparts⟩ := hform
    refine leads_intercalate (by simpa using hne) (List.forall_mem_map.mpr fun part hpart => ?_)
      hspace
    exact leads_partText h (fun x hx => List.mem_filterMap.mpr ⟨part, hpart, hx⟩)
      (hparts _ (List.mem_map_of_mem hpart)) depth
  | parens inner =>
    exact ((leads .any "(" .shut rfl).append
      (h.shut List.mem_cons_self (List.mem_singleton.mpr hform) depth rfl)).append
      (leads .any ")" .shut rfl)
  | unary operator operand =>
    obtain ⟨hoperator, hoperand⟩ := hform
    exact (leads_among hoperator rfl).append (h.shut List.mem_cons_self hoperand depth rfl)
  | simple token => exact leads_among hform rfl

end

end Hygiene

end TidyManifest
