import TidyManifest.Proofs.Plain.Spells

/-!
# The first token of a phrase

The tokens that spell a trace can be taken apart as the trace is (`Spells.token_inv` and its
siblings).  So the first token of a phrase, apart from newlines, is one of a few kinds that its
category allows (`spells_opens`).
-/

namespace TidyManifest.Plain

open Grammar

section

variable {owner : Category} {label : Option String} {trace more : Trace Phrase} {w : List Token}

/-- A trace that starts with a token is spelled by it, after newlines. -/
theorem Spells.token_inv {t : Token} (h : Spells (.trace owner ((label, .token t) :: trace)) w) :
    ∃ ns v, (∀ n ∈ ns, n.kind = .newline) ∧ w = ns ++ t :: v ∧ Spells (.trace owner trace) v := by
  generalize hr : Reading.trace owner ((label, .token t) :: trace) = r at h
  induction h with
  | newline hn _ ih =>
    cases hr
    rename_i n v _
    obtain ⟨ns, v, hns, rfl, hv⟩ := ih rfl
    exact ⟨n :: ns, v, by simpa using ⟨hn, hns⟩, rfl, hv⟩
  | token more => cases hr; exact ⟨[], _, by simp, rfl, more⟩
  | _ => cases hr

/-- A trace that starts with a node is spelled by its phrase, after newlines. -/
theorem Spells.node_inv {p : Phrase} (h : Spells (.trace owner ((label, .node p) :: trace)) w) :
    ∃ ns u v, (∀ n ∈ ns, n.kind = .newline) ∧ w = ns ++ (u ++ v) ∧ Spells (.phrase owner p) u ∧
      Spells (.trace owner trace) v := by
  generalize hr : Reading.trace owner ((label, .node p) :: trace) = r at h
  induction h with
  | newline hn _ ih =>
    cases hr
    rename_i n v _
    obtain ⟨ns, u, v, hns, rfl, hu, hv⟩ := ih rfl
    exact ⟨n :: ns, u, v, by simpa using ⟨hn, hns⟩, rfl, hu, hv⟩
  | node phrase more => cases hr; exact ⟨[], _, _, by simp, rfl, phrase, more⟩
  | _ => cases hr

/-- A trace that starts with a block is spelled by its statements in braces, after newlines. -/
theorem Spells.block_inv {ps : List Phrase}
    (h : Spells (.trace owner ((label, .block ps) :: trace)) w) :
    ∃ ns opening u closing v, (∀ n ∈ ns, n.kind = .newline) ∧
      w = ns ++ opening :: (u ++ closing :: v) ∧ opening.kind = .leftBrace ∧
        Spells (.body owner ps) u ∧ closing.kind = .rightBrace ∧ Spells (.trace owner trace) v := by
  generalize hr : Reading.trace owner ((label, .block ps) :: trace) = r at h
  induction h with
  | newline hn _ ih =>
    cases hr
    rename_i n v _
    obtain ⟨ns, opening, u, closing, v, hns, rfl, hrest⟩ := ih rfl
    exact ⟨n :: ns, opening, u, closing, v, by simpa using ⟨hn, hns⟩, rfl, hrest⟩
  | block hopening body hclosing more =>
    cases hr
    exact ⟨[], _, _, _, _, by simp, rfl, hopening, body, hclosing, more⟩
  | _ => cases hr

/-- An empty trace is spelled by newlines at most. -/
theorem Spells.nil_inv (h : Spells (.trace owner []) w) : ∀ n ∈ w, n.kind = .newline := by
  generalize hr : Reading.trace owner [] = r at h
  induction h with
  | newline hn _ ih => cases hr; simpa using ⟨hn, ih rfl⟩
  | done => simp
  | _ => cases hr

/-- The spelling of two traces falls into spellings of both. -/
theorem Spells.append_inv (h : Spells (.trace owner (trace ++ more)) w) :
    ∃ u v, w = u ++ v ∧ Spells (.trace owner trace) u ∧ Spells (.trace owner more) v := by
  induction trace generalizing w with
  | nil => exact ⟨[], w, rfl, .done, h⟩
  | cons entry trace ih =>
    obtain ⟨label, t | p | ps⟩ := entry
    · obtain ⟨ns, v, hns, rfl, hv⟩ := h.token_inv
      obtain ⟨u, v, rfl, hu, hv⟩ := ih hv
      exact ⟨ns ++ t :: u, v, by simp, .after_newlines hns (.token hu), hv⟩
    · obtain ⟨ns, u', v, hns, rfl, hp, hv⟩ := h.node_inv
      obtain ⟨u, v, rfl, hu, hv⟩ := ih hv
      exact ⟨ns ++ (u' ++ u), v, by simp, .after_newlines hns (.node hp hu), hv⟩
    · obtain ⟨ns, opening, u', closing, v, hns, rfl, hopening, hbody, hclosing, hv⟩ := h.block_inv
      obtain ⟨u, v, rfl, hu, hv⟩ := ih hv
      exact ⟨ns ++ opening :: (u' ++ closing :: u), v, by simp,
        .after_newlines hns (.block hopening hbody hclosing hu), hv⟩

end

/-- Kinds that can start an expression. -/
def expressionOpens : List Kind :=
  simpleKinds ++ [.leftBrace, .leftBracket, .leftParen, .bang, .minus]

/-- Kinds that can start a resource. -/
def resourceOpens : List Kind :=
  .atSign :: (referenceHeads ++ resourceTypes)

/-- Kinds that can start a phrase of a category. -/
def opens : Category → List Kind
  | .manifest => []
  | .comment => [.comment]
  | .blockComment => [.blockComment]
  | .classBlock => [.kwClass]
  | .defineBlock => [.kwDefine]
  | .nodeBlock => [.kwNode]
  | .parameter => simpleKinds
  | .resource => resourceOpens
  | .title => expressionOpens
  | .collector => collectorOpens
  | .branch => [.kwIf, .kwElsif, .kwElse]
  | .caseBlock => [.kwCase]
  | .caseOption => expressionOpens
  | .selector => simpleKinds
  | .inclusion => [.kwInclude, .kwImport]
  | .assignment => [.dollarVar]
  | .call => [.name]
  | .chain => resourceOpens
  | .reference => referenceHeads
  | .hash => [.leftBrace]
  | .list => [.leftBracket]
  | .pair => keyKinds
  | .expression => expressionOpens
  | .parens => [.leftParen]
  | .unary => [.bang, .minus]
  | .simple => simpleKinds

/-- Tokens that start, apart from newlines, with one of some kinds. -/
def StartsIn (kinds : List Kind) (w : List Token) : Prop :=
  ∃ ns t v, (∀ n ∈ ns, n.kind = .newline) ∧ w = ns ++ t :: v ∧ t.kind ∈ kinds

section

variable {kinds : List Kind} {w v : List Token}

/-- How tokens start does not depend on what follows them. -/
theorem StartsIn.append (h : StartsIn kinds w) : StartsIn kinds (w ++ v) := by
  obtain ⟨ns, t, u, hns, rfl, ht⟩ := h
  exact ⟨ns, t, u ++ v, hns, by simp, ht⟩

/-- How tokens start does not depend on newlines in front of them. -/
theorem StartsIn.after {ns : List Token} (hns : ∀ n ∈ ns, n.kind = .newline)
    (h : StartsIn kinds w) : StartsIn kinds (ns ++ w) := by
  obtain ⟨ns', t, u, hns', rfl, ht⟩ := h
  refine ⟨ns ++ ns', t, u, fun n hn => ?_, by simp, ht⟩
  exact (List.mem_append.mp hn).elim (hns n) (hns' n)

/-- Tokens that start with one of some kinds start with one of more. -/
theorem StartsIn.mono {kinds' : List Kind} (h : StartsIn kinds w) (hsub : kinds ⊆ kinds') :
    StartsIn kinds' w := by
  obtain ⟨ns, t, u, hns, hw, ht⟩ := h
  exact ⟨ns, t, u, hns, hw, hsub ht⟩

end

section

variable {owner : Category} {label : Option String} {trace : Trace Phrase} {w : List Token}

/-- A trace that starts with a token is spelled by tokens that start with it. -/
theorem Spells.starts_token {t : Token} {kinds : List Kind}
    (h : Spells (.trace owner ((label, .token t) :: trace)) w) (ht : t.kind ∈ kinds) :
    StartsIn kinds w := by
  obtain ⟨ns, v, hns, rfl, -⟩ := h.token_inv
  exact ⟨ns, t, v, hns, rfl, ht⟩

/-- A trace that starts with a block is spelled by tokens that start with a brace. -/
theorem Spells.starts_block {ps : List Phrase}
    (h : Spells (.trace owner ((label, .block ps) :: trace)) w) : StartsIn [.leftBrace] w := by
  obtain ⟨ns, opening, u, closing, v, hns, rfl, hopening, -⟩ := h.block_inv
  exact ⟨ns, opening, u ++ closing :: v, hns, rfl, by simp [hopening]⟩

/-- A trace that starts with a node is spelled by tokens that start as its phrase does. -/
theorem Spells.starts_node {p : Phrase} {kinds : List Kind}
    (h : Spells (.trace owner ((label, .node p) :: trace)) w)
    (hp : ∀ parent u, Spells (.phrase parent p) u → StartsIn kinds u) : StartsIn kinds w := by
  obtain ⟨ns, u, v, hns, rfl, hu, -⟩ := h.node_inv
  exact .after hns (hp _ _ hu).append

end

/-- A phrase of one of some categories starts as one of them may. -/
theorem starts_of_mem {p : Phrase} {categories : List Category} {kinds : List Kind}
    (ih : ∀ parent w, Spells (.phrase parent p) w → StartsIn (opens p.category) w)
    (hp : p.category ∈ categories) (hsub : ∀ c ∈ categories, opens c ⊆ kinds) (parent : Category)
    (w : List Token) (h : Spells (.phrase parent p) w) : StartsIn kinds w :=
  (ih parent w h).mono (hsub _ hp)

/-- The first token of a phrase is of a kind that its category allows. -/
theorem spells_opens (p : Phrase) :
    ∀ parent w, Spells (.phrase parent p) w → StartsIn (opens p.category) w := by
  induction p using Phrase.induct with
  | step p ih =>
    intro parent w h
    have hresource {sigils : List Token} {head : Head Phrase} {collector : Option Phrase}
        {trace : Trace Phrase} {v : List Token}
        (schema : HeadSchema Phrase.category sigils head collector trace)
        (hchild : ∀ q, head = .reference q → q ∈ p.children)
        (hv : Spells (.trace .resource trace) v) : StartsIn resourceOpens v := by
      cases schema with
      | type hsigils ht =>
        cases sigils with
        | nil => exact hv.starts_token (List.mem_cons_of_mem _ (List.mem_append_right _ ht))
        | cons s sigils => exact hv.starts_token (by simp [hsigils s (by simp), resourceOpens])
      | reference hsigils hx =>
        cases sigils with
        | nil =>
          exact hv.starts_node (starts_of_mem (ih _ (hchild _ rfl)) (List.mem_singleton.mpr hx)
            (by decide))
        | cons s sigils => exact hv.starts_token (by simp [hsigils s (by simp), resourceOpens])
    cases h with
    | collected schema _ spelled =>
      exact hresource schema (fun q hq => by simp [Phrase.children, Form.children, hq]) spelled
    | resource schema _ spelled _ _ _ =>
      exact (hresource schema (fun q hq => by simp [Phrase.children, Form.children, hq]) spelled).append
    | rule schema _ spelled =>
      have hcategory := schema.category_eq
      rw [Phrase.category, Phrase.form_mk, hcategory]
      cases schema with
      | comment ht => exact spelled.starts_token (by simp [ht, opens])
      | blockComment ht => exact spelled.starts_token (by simp [ht, opens])
      | caseOption hvalues =>
        cases hvalues with
        | intro hx =>
          exact spelled.starts_node (starts_of_mem (ih _ (by simp [Phrase.children, Form.children]))
            (List.mem_singleton.mpr hx) (by decide))
      | classBlock hkeyword => exact spelled.starts_token (by simp [hkeyword, opens])
      | defineBlock hkeyword => exact spelled.starts_token (by simp [hkeyword, opens])
      | nodeBlock hkeyword => exact spelled.starts_token (by simp [hkeyword, opens])
      | parameter htype hname =>
        cases htype with
        | none => exact spelled.starts_token (by simp [hname, opens, simpleKinds])
        | some hx =>
          exact spelled.starts_node (starts_of_mem (ih _ (by simp [Phrase.children, Form.children]))
            hx (by decide))
      | title htitles =>
        cases htitles with
        | intro hx =>
          exact spelled.starts_node (starts_of_mem (ih _ (by simp [Phrase.children, Form.children]))
            (List.mem_singleton.mpr hx) (by decide))
      | collector hopening => exact spelled.starts_token hopening
      | branch hkeyword => exact spelled.starts_token (List.mem_append_left [Kind.kwElse] hkeyword)
      | elseBranch hkeyword => exact spelled.starts_token (by simp [hkeyword, opens])
      | caseBlock hkeyword => exact spelled.starts_token (by simp [hkeyword, opens])
      | selector hsubject =>
        exact spelled.starts_node (starts_of_mem (ih _ (by simp [Phrase.children, Form.children]))
          hsubject (by decide))
      | inclusion hkeyword => exact spelled.starts_token hkeyword
      | assignment hname => exact spelled.starts_token (by simp [hname, opens])
      | call hname => exact spelled.starts_token (by simp [hname, opens])
      | bareCall hname => exact spelled.starts_token (by simp [hname, opens])
      | chain hmember =>
        exact spelled.starts_node (starts_of_mem (ih _ (by simp [Phrase.children, Form.children]))
          hmember (by decide))
      | reference ht => exact spelled.starts_token ht
      | hash hopening => exact spelled.starts_token (by simp [hopening, opens])
      | list hopening => exact spelled.starts_token (by simp [hopening, opens])
      | pair hkey => exact spelled.starts_token hkey
      | expression hterm =>
        exact spelled.starts_node (starts_of_mem
          (ih _ (by simp [Phrase.children, Form.children, Part.term?])) hterm (by decide))
      | parens hopening => exact spelled.starts_token (by simp [hopening, opens])
      | unary hoperator => exact spelled.starts_token hoperator
      | simple ht => exact spelled.starts_token ht

end TidyManifest.Plain
