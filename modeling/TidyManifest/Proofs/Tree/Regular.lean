import TidyManifest.Proofs.Plain.Numbering
import TidyManifest.Proofs.Plain.Spells
import TidyManifest.Proofs.Splitting.Split

/-!
# Regular forms

The layout and the outline of a tree rely on more than its types say: that terms and operators of an
expression alternate, that a chain has one edge between two members, that a body holds only what its
rule names, and so on.  `Form.Regular` says this of the contents of one node, where the children are
known by their categories.

Whatever is spelled by tokens is regular at every depth (`Spells.regular`), because the schema of each
category is, and splitting resources keeps it so (`Regular.split`).
-/

namespace TidyManifest

open Grammar

/-- Terms and operators alternate, with a term at either end. -/
def Alternating : List (Part Category) → Prop
  | [.term c] => c ∈ terms
  | .term c :: .operator t :: parts => c ∈ terms ∧ t.kind ∈ binaryOperators ∧ Alternating parts
  | _ => False

/-- At least one expression, and nothing else. -/
def Expressions (xs : List Category) : Prop :=
  xs ≠ [] ∧ ∀ x ∈ xs, x = .expression

namespace Form

/-- The contents of a node, with its children by category, are as the rest of the program expects. -/
def Regular : Form Category → Prop
  | pending _ => False
  | expression parts => Alternating parts
  | chain members edges =>
    2 ≤ members.length ∧ (∀ x ∈ members, x ∈ chainMembers) ∧ edges.length = members.length - 1
  | reference _ indexes => indexes ≠ [] ∧ ∀ x ∈ indexes, x = .list
  | branch keyword condition _ => condition = none ↔ keyword.kind = .kwElse
  | list items => ∀ x ∈ items, x ∈ [Category.comment, .blockComment, .expression]
  | hash items => ∀ x ∈ items, x ∈ [Category.comment, .blockComment, .pair]
  | selector _ items => ∀ x ∈ items, x ∈ [Category.comment, .blockComment, .pair]
  | classBlock _ params _ _ => ∀ x ∈ params, x ∈ [Category.comment, .blockComment, .parameter]
  | defineBlock _ params _ => ∀ x ∈ params, x ∈ [Category.comment, .blockComment, .parameter]
  | resource _ _ query hasBlock items =>
    (∀ x ∈ items, x ∈ [Category.comment, .blockComment, .pair, .title]) ∧
      (hasBlock = false → query ≠ none ∧ items = [])
  | inclusion _ args => Expressions args
  | title titles => Expressions titles
  | caseOption values _ => Expressions values
  | _ => True

end Form

namespace Plain

variable {ι : Type} {categoryOf : ι → Category}

/-- The items of a list have the categories that were asked for. -/
theorem Listed.categories {label : String} {categories : List Category} {xs : List ι}
    {trace : Trace ι} (h : Listed categoryOf label categories xs trace) :
    ∀ c ∈ xs.map categoryOf, c ∈ categories := by
  induction h with
  | nil => simp
  | plain hx _ ih => simpa using ⟨hx, by simpa using ih⟩
  | comma hx _ _ ih => simpa using ⟨hx, by simpa using ih⟩

/-- The further items of a list are expressions. -/
theorem Further.categories {label : String} {xs : List ι} {trace : Trace ι}
    (h : Further categoryOf label xs trace) : ∀ c ∈ xs.map categoryOf, c = .expression := by
  induction h with
  | nil => simp
  | cons _ hx _ ih => simpa using ⟨hx, by simpa using ih⟩

/-- The items of a list without a comma at its end are expressions, at least one. -/
theorem Joined.expressions {label : String} {xs : List ι} {trace : Trace ι}
    (h : Joined categoryOf label xs trace) : Expressions (xs.map categoryOf) := by
  cases h with
  | intro hx more => exact ⟨by simp, by simpa using ⟨hx, by simpa using more.categories⟩⟩

/-- A parameter list holds parameters and comments. -/
theorem Parameters.categories {xs : List ι} {trace : Trace ι} (h : Parameters categoryOf xs trace) :
    ∀ c ∈ xs.map categoryOf, c ∈ [Category.comment, .blockComment, .parameter] := by
  cases h with
  | none => simp
  | list _ items _ => exact items.categories

/-- A chain has as many edges as further members, all of which may stand in a chain. -/
theorem Linked.categories {xs : List ι} {ts : List Token} {trace : Trace ι}
    (h : Linked categoryOf xs ts trace) :
    ts.length = xs.length ∧ ∀ c ∈ xs.map categoryOf, c ∈ chainMembers := by
  induction h with
  | nil => simp
  | cons _ hx _ ih =>
    refine ⟨by simp [ih.1], ?_⟩
    simpa using ⟨hx, by simpa using ih.2⟩

/-- In an expression terms and operators take turns. -/
theorem Operated.alternating {parts : List (Part ι)} {trace : Trace ι}
    (h : Operated categoryOf parts trace) {c : Category} (hc : c ∈ terms) :
    Alternating (.term c :: parts.map (Part.map categoryOf)) := by
  induction h generalizing c with
  | nil => exact hc
  | cons ht hx _ ih => exact ⟨hc, ht, ih hx⟩

/-- The contents that a schema names are regular. -/
theorem Schema.regular {category : Category} {form : Form ι} {trace : Trace ι}
    (h : Schema categoryOf category form trace) : (form.map categoryOf).Regular := by
  cases h with
  | caseOption hvalues _ => exact hvalues.expressions
  | classBlock _ _ hparams _ => exact hparams.categories
  | defineBlock _ _ hparams => exact hparams.categories
  | title htitles _ => exact htitles.expressions
  | branch hkeyword _ =>
    refine ⟨(fun h => by cases h), fun h => ?_⟩
    rw [h] at hkeyword
    exact absurd hkeyword (by decide)
  | elseBranch hkeyword => exact ⟨fun _ => hkeyword, fun _ => rfl⟩
  | selector _ _ _ hitems _ => exact hitems.categories
  | inclusion _ hargs => exact hargs.expressions
  | chain hmember hmembers =>
    obtain ⟨hlength, hcategories⟩ := hmembers.categories
    refine ⟨?_, ?_, ?_⟩
    · simp only [List.length_cons] at hlength
      simp only [List.map_cons, List.length_cons, List.length_map]
      omega
    · simpa using ⟨hmember, by simpa using hcategories⟩
    · simpa using hlength
  | reference _ hindexes => exact ⟨by simp, by simpa using hindexes⟩
  | hash _ hitems _ => exact hitems.categories
  | list _ hitems _ => exact hitems.categories
  | expression hterm hparts => exact hparts.alternating hterm
  | _ => trivial

end Plain

/-- A phrase below a parent of some category is regular, with everything below it.  A case option
belongs in a case. -/
inductive Phrase.Regular : Category → Phrase → Prop
  | intro {parent : Category} {p : Phrase} (form : (p.form.map Phrase.category).Regular)
      (option : p.category = .caseOption → parent = .caseBlock)
      (children : ∀ q ∈ p.children, Phrase.Regular p.category q) : Phrase.Regular parent p

namespace Phrase

variable {parent : Category} {p q : Phrase}

/-- The contents of a regular phrase are regular. -/
theorem Regular.regular_form (h : Regular parent p) : (p.form.map category).Regular := by
  cases h; assumption

/-- A case option stands in a case block. -/
theorem Regular.parent_eq (h : Regular parent p) (hp : p.category = .caseOption) :
    parent = .caseBlock := by
  cases h with
  | intro _ option _ => exact option hp

/-- The children of a regular phrase are regular below it. -/
theorem Regular.child (h : Regular parent p) (hq : q ∈ p.children) : Regular p.category q := by
  cases h with
  | intro _ _ children => exact children q hq

end Phrase

namespace Plain

/-- Everything that was read is regular. -/
def Reading.Regular : Reading → Prop
  | .phrase parent p => Phrase.Regular parent p
  | .trace owner read => ∀ q ∈ treesOf read, Phrase.Regular owner q
  | .items ps => ∀ q ∈ ps, q.category ∈ [Category.comment, .blockComment, .pair, .title] ∧
      Phrase.Regular .resource q
  | .body parent ps => ∀ q ∈ ps, Phrase.Regular parent q

/-- Whatever tokens spell is regular. -/
theorem Spells.regular {r : Reading} {w : List Token} (h : Spells r w) : r.Regular := by
  induction h with
  | rule schema recognised _ ih =>
    refine Phrase.Regular.intro schema.regular (fun hcategory => ?_) fun q hq => ?_
    · have hsame := schema.category_eq.symm.trans hcategory
      subst hsame
      exact recognised
    · rw [Phrase.children, Phrase.form_mk, schema.children_eq] at hq
      rw [Phrase.category, Phrase.form_mk, schema.category_eq]
      exact ih q hq
  | collected schema _ _ ih =>
    refine Phrase.Regular.intro ⟨by simp, fun _ => ⟨by simp, rfl⟩⟩ (fun h => by cases h) fun q hq => ?_
    rw [Phrase.children, Phrase.form_mk, schema.children_eq, List.append_nil] at hq
    exact ih q hq
  | resource schema _ _ _ _ _ ih ihitems =>
    refine Phrase.Regular.intro ⟨?_, fun h => by cases h⟩ (fun h => by cases h) fun q hq => ?_
    · rw [List.forall_mem_map]
      exact fun q hq => (ihitems q hq).1
    · rw [Phrase.children, Phrase.form_mk, schema.children_eq, List.mem_append] at hq
      exact hq.elim (ih q) fun hq => (ihitems q hq).2
  | done => exact fun q hq => absurd hq List.not_mem_nil
  | newline _ _ ih => exact ih
  | token _ ih => exact ih
  | node _ _ ihphrase ihmore => exact List.forall_mem_cons.mpr ⟨ihphrase, ihmore⟩
  | block _ _ _ _ ihbody ihmore => exact List.forall_mem_append.mpr ⟨ihbody, ihmore⟩
  | close => exact fun q hq => absurd hq List.not_mem_nil
  | separator _ _ ih => exact ih
  | item hp _ _ ihphrase ihmore => exact List.forall_mem_cons.mpr ⟨⟨hp, ihphrase⟩, ihmore⟩
  | empty => exact fun q hq => absurd hq List.not_mem_nil
  | pause _ _ ih => exact ih
  | statement _ _ _ ihphrase ihmore => exact List.forall_mem_cons.mpr ⟨ihphrase, ihmore⟩

end Plain

namespace Layout

variable {ι : Type} {starts : ι → Bool}

/-- The parts of a body that is cut hold items of the body. -/
theorem mem_of_mem_cutSections {items part : List ι} {x : ι}
    (hpart : part ∈ cutSections (sectionsBy starts items)) (hx : x ∈ part) : x ∈ items := by
  have hflatten : (cutSections (sectionsBy starts items)).flatten = items := by
    have h := flatten_sectionsBy starts items
    rcases hs : sectionsBy starts items with ⟨lead, _ | ⟨first, rest⟩⟩
    · rw [hs] at h
      simpa [cutSections] using h
    · rw [hs] at h
      simpa [cutSections, List.flatMap] using h
  rw [← hflatten]
  exact List.mem_flatten_of_mem hpart hx

end Layout

namespace Form

/-- Statements of a body have no influence on whether the form is regular. -/
theorem regular_withBodies {form : Form Phrase} (g : Phrase → List Phrase) :
    ((form.withBodies id g).map Phrase.category).Regular ↔ (form.map Phrase.category).Regular := by
  have hid := congrArg (fun form : Form Phrase => (form.map Phrase.category).Regular) (map_id form)
  cases form with
  | branch keyword condition body => cases condition <;> exact Iff.rfl
  | classBlock | defineBlock | nodeBlock | caseBlock | caseOption =>
    simp [withBodies, Form.map, Regular]
  | _ => exact iff_of_eq hid

/-- The children of a form whose statements were replaced. -/
theorem mem_children_withBodies {form : Form Phrase} {g : Phrase → List Phrase} {q : Phrase}
    (h : q ∈ (form.withBodies id g).children) :
    q ∈ form.children ∨ ∃ s ∈ form.children, q ∈ g s := by
  have hid := congrArg (q ∈ Form.children ·) (map_id form)
  cases form with
  | classBlock | defineBlock | nodeBlock | branch | caseBlock | caseOption =>
    simp only [withBodies, children, List.map_id, Option.map_id, id_eq, List.mem_append,
      List.mem_cons, List.mem_flatMap] at h ⊢
    grind
  | _ => exact .inl (hid.mp h)

end Form

namespace Phrase

/-- The phrases that a regular phrase is split into are regular. -/
theorem Regular.split {parent : Category} {p : Phrase} (h : Regular parent p) :
    ∀ q ∈ p.split, Regular parent q := by
  induction p using induct generalizing parent with
  | step p ih =>
    by_cases hresource : ∃ sigil token items, p.form = .resource sigil (.type token) none true items
    · obtain ⟨sigil, token, items, hform⟩ := hresource
      obtain ⟨line, form⟩ := p
      obtain rfl : form = _ := hform
      rw [split_resource, resources, List.forall_mem_map]
      intro part hpart
      have hsub : ∀ x ∈ part, x ∈ items := fun x hx => Layout.mem_of_mem_cutSections hpart hx
      refine .intro ⟨?_, fun h => by cases h⟩ (fun h => by cases h) fun q hq => h.child (hsub q hq)
      have hitems := h.regular_form.1
      rw [List.forall_mem_map] at hitems ⊢
      exact fun x hx => hitems x (hsub x hx)
    · rw [split_other fun sigil token items hform => hresource ⟨sigil, token, items, hform⟩]
      intro q hq
      obtain rfl := List.mem_singleton.mp hq
      have hcategory : category ⟨p.line, p.form.withBodies id Phrase.split⟩ = p.category :=
        Form.category_withBodies ..
      refine .intro ((Form.regular_withBodies _).mpr h.regular_form)
        (fun hoption => h.parent_eq (hcategory.symm.trans hoption)) fun q hq => ?_
      rw [hcategory]
      rcases Form.mem_children_withBodies hq with hq | ⟨s, hs, hq⟩
      · exact h.child hq
      · exact ih s hs (h.child hs) q hq

end Phrase

end TidyManifest
