import TidyManifest.Proofs.Lexing.Apart
import TidyManifest.Proofs.Phrase.Lines
import TidyManifest.Proofs.Tree.Calls
import TidyManifest.Proofs.Tree.Filled

/-!
# Canonical contents

`Form.Canonical` says of the contents of a node that the layout writes them in a way that can only be
read as what they are.  The tokens are such that each of them stays a token by itself, so there are no
comments, division signs and regular expressions.  What else is asked for is decidable
(`Form.isBasic`): there are no chains, collectors and overrides, no parameters and no calls without
parentheses.

Everything in an assignment is of the basic sorts (`BareCalls.basic`).  Columns of arrows make no
difference to this, nor to a phrase without its lines and columns (`Phrase.bare_aligned`).
-/

namespace TidyManifest

open Grammar

/-- Newlines, and tokens that stay what they are. -/
def Token.Kept (t : Token) : Prop :=
  t.kind = .newline ∨ t.Steady

theorem Token.Among.steady {t : Token} {kinds : List Kind} (h : t.Among Kept kinds)
    (hkinds : .newline ∉ kinds) : t.Steady :=
  h.1.resolve_left fun hnewline => hkinds (hnewline ▸ h.2)

/-- Categories of assignments and of what stands in them. -/
def valueCategories : List Category :=
  .assignment :: .pair :: .expression :: terms

namespace Form

variable {α β : Type}

/-- The statements in a block, or in the manifest. -/
def body : Form α → List α
  | manifest statements | classBlock _ _ _ statements | defineBlock _ _ statements | nodeBlock _ _ statements
  | branch _ _ statements | caseBlock _ statements | caseOption _ statements => statements
  | _ => []

@[simp] theorem body_map (f : α → β) (form : Form α) : (form.map f).body = form.body.map f := by
  cases form <;> rfl

theorem mem_children_of_mem_body {form : Form α} {x : α} (h : x ∈ form.body) : x ∈ form.children := by
  cases form <;> simp_all [body, children]

/-- The column of the arrow of a pair. -/
def width : Form α → Nat
  | pair _ _ _ width => width
  | _ => 0

/-- Whether the contents of a node, with its children by category, are of the basic sorts.  A resource
is of a type and has at most one title, in front of its attributes.  Options stand in a case, and
nothing else does. -/
def isBasic (form : Form Category) : Bool :=
  (match form with
    | classBlock _ params inherits _ => params.isEmpty && inherits.isNone
    | defineBlock _ params _ => params.isEmpty
    | nodeBlock names inherits _ => names.length == 1 && inherits.isNone
    | resource _ (.type _) none true items => !items.tail.contains .title
    | resource .. => false
    | call _ _ parenthesized => parenthesized
    | chain .. => false
    | _ => true) &&
  form.body.all fun c => (c == .caseOption) == (form.category == .caseBlock)

/-- The contents of a node, with its children by category, are laid out so that they are read as what
they are. -/
structure Canonical (form : Form Category) : Prop where
  filled : form.Filled Token.Kept
  regular : form.Regular
  basic : form.isBasic = true

/-- In a case there are options, and nowhere else. -/
theorem option_of_isBasic {form : Form Category} (h : form.isBasic = true) :
    ∀ c ∈ form.body, c = .caseOption ↔ form.category = .caseBlock := by
  intro c hc
  have heq := beq_iff_eq.mp (List.all_eq_true.mp (Bool.and_eq_true_iff.mp h).2 c hc)
  rw [← beq_iff_eq, heq, beq_iff_eq]

/-- What stands in an assignment, and in its parts. -/
theorem Filled.children_values {ok : Token → Prop} {form : Form Category} (h : form.Filled ok)
    (hform : form.category ∈ valueCategories) :
    form.children ⊆ .comment :: .blockComment :: valueCategories := by
  cases form with
  | expression parts =>
    intro c hc
    obtain ⟨part, hpart, hc⟩ := List.mem_filterMap.mp hc
    cases part with
    | operator => cases hc
    | term x =>
      cases hc
      exact List.mem_append_right [.comment, .blockComment, .assignment, .pair, .expression]
        (h.2 _ hpart)
  | _ =>
    simp_all [Filled, children, category, valueCategories, terms, List.subset_def] <;> grind

/-- The statements in a block are statements. -/
theorem Filled.body_subset {ok : Token → Prop} {form : Form Category} (h : form.Filled ok) :
    form.body ⊆ Grammar.statements := by
  cases form with
  | manifest => exact h.elim
  | classBlock => exact h.2.2.2
  | defineBlock => exact h.2.2
  | nodeBlock => exact h.2.2.2
  | branch => exact h.2.2
  | caseBlock => exact h.2
  | caseOption => exact h.2
  | _ => exact List.nil_subset _

end Form

namespace Phrase

variable {parent : Category} {p : Phrase}

/-- Where all tokens are kept there are no comments. -/
theorem Filled.not_comment (h : p.Filled Token.Kept) : p.category ∉ [.comment, .blockComment] := by
  have hform := h.filled_form
  have hkinds {t : Token} {kind : Kind} (ht : t.Among Token.Kept [kind]) :
      kind ≠ .comment ∧ kind ≠ .blockComment := by
    have hkind := List.mem_singleton.mp ht.2
    constructor <;> rintro rfl
    · exact (ht.steady (by decide)).visible (by simp [hkind])
    · exact (ht.steady (by decide)).alone.1 (by simp [Token.openEnded, hkind])
  unfold category
  cases hp : p.form with
  | comment =>
    rw [hp] at hform
    obtain ⟨t, ht, -⟩ := hform
    exact absurd rfl (hkinds ht).1
  | blockComment =>
    rw [hp] at hform
    obtain ⟨t, ht, -⟩ := hform
    exact absurd rfl (hkinds ht).2
  | pending =>
    rw [hp] at hform
    exact hform.elim
  | _ => simp [Form.category]

/-- In a value there are only values. -/
theorem Filled.child_values {q : Phrase} (h : p.Filled Token.Kept) (hp : p.category ∈ valueCategories)
    (hq : q ∈ p.children) : q.category ∈ valueCategories := by
  have hmem : q.category ∈ (p.form.map category).children := by
    rw [Form.children_map]
    exact List.mem_map_of_mem hq
  have hcategory := h.filled_form.children_values (by rwa [Form.category_map]) hmem
  have hcomment := (h.child hq).not_comment
  simp_all

/-- Everything in an assignment is of the basic sorts. -/
theorem BareCalls.basic (h : p.BareCalls parent) (hfilled : p.Filled Token.Kept)
    (hp : p.category ∈ valueCategories) (hcall : p.category = .call → parent.takesStatements = false) :
    p.Every fun form => form.isBasic = true := by
  have htakes : ∀ c ∈ valueCategories, c.takesStatements = false := by decide
  induction p using induct generalizing parent with
  | step p ih =>
    refine every_iff.mpr ⟨?_, fun q hq => ih q hq (h.child hq) (hfilled.child hq)
      (hfilled.child_values hp hq) fun _ => htakes _ hp⟩
    cases hform : p.form with
    | call name args parenthesized =>
      cases parenthesized with
      | true => rfl
      | false =>
        -- the parent of such a call holds statements
        have htrue := (h.own hform).1
        rw [hcall (by rw [category, hform]; rfl)] at htrue
        cases htrue
    | _ =>
      rw [category, hform] at hp
      first | rfl | exact absurd hp (by simp [Form.category, valueCategories, terms])

/-- The phrase without lines and columns. -/
def bare (p : Phrase) : Phrase :=
  p.fold fun _ form => withWidth 0 ⟨0, form.unlined⟩

theorem bare_eq (p : Phrase) : p.bare = withWidth 0 ⟨0, (p.form.map bare).unlined⟩ :=
  fold_eq _ p

@[simp] theorem category_bare (p : Phrase) : p.bare.category = p.category := by
  rw [bare_eq, category_withWidth]
  simp [category, Form.unlined]

/-- Columns that are set are taken away again. -/
theorem bare_aligned (p : Phrase) : p.aligned.bare = p.bare :=
  fold_aligned (by intros; rfl) p

/-- Where no column is set there are only lines to leave out. -/
theorem Every.bare_eq (h : p.Every fun form => form.width = 0) : p.bare = p.unlined := by
  induction p using induct with
  | step p ih =>
    have hform : p.form.map bare = p.form.map unlined :=
      Form.map_congr default fun q hq => ih q hq (h.child hq)
    rw [Phrase.bare_eq, Phrase.unlined_eq, hform]
    have hwidth := h.form
    generalize p.form = form at hwidth
    cases form with
    | pair key arrow value width =>
      obtain rfl : width = 0 := hwidth
      rfl
    | _ => rfl

/-- Splitting sets no columns. -/
theorem Every.width_split (h : p.Every fun form => form.width = 0) :
    ∀ q ∈ p.split, q.Every fun form => form.width = 0 :=
  h.split (fun _ _ => rfl) fun {form} hform => by cases form <;> exact hform

end Phrase

/-- What is found has no columns yet. -/
theorem Plain.Found.width_every {parent : Category} {p : Phrase} (h : Found parent p) :
    p.Every fun form => form.width = 0 := by
  induction p using Phrase.induct generalizing parent with
  | step p ih =>
    refine Phrase.every_iff.mpr ⟨?_, fun q hq => ih q hq (h.child hq)⟩
    cases hform : p.form with
    | pair key arrow value width => exact h.width_eq hform
    | _ => rfl

end TidyManifest
