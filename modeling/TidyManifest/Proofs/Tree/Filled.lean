import TidyManifest.Proofs.Tree.Parsed

/-!
# What fills each form

`Form.Filled` says for the contents of one node which kinds of token and which categories of child
stand in each of their places.  It is the grammar without the tokens that nothing keeps, so it can be
asked of a phrase without the text that it was read from.

Whatever is spelled by tokens is filled at every depth (`Spells.filled`), and stays so when resources
are split (`Filled.split`) and when arrows are aligned (`filled_aligned`).
-/

namespace TidyManifest

open Grammar

/-- A token of certain kinds, with a property. -/
def Token.Among (ok : Token → Prop) (kinds : List Kind) (t : Token) : Prop :=
  ok t ∧ t.kind ∈ kinds

open Token (Among)

/-- What holds of a changed value, if there is one, holds of the value before the change. -/
theorem forall_mem_option_map {α β : Type} {f : α → β} {o : Option α} {P : β → Prop} :
    (∀ b ∈ o.map f, P b) ↔ ∀ a ∈ o, P (f a) := by
  cases o <;> simp

/-- What a part of an expression is. -/
def Part.Filled (ok : Token → Prop) : Part Category → Prop
  | .term x => x ∈ terms
  | .operator t => Among ok binaryOperators t

/-- What a resource declares. -/
def Head.Filled (ok : Token → Prop) : Head Category → Prop
  | .type t => Among ok resourceTypes t
  | .reference x => x = .reference

/-- The contents of a node, with its children by category, are what the grammar puts there. -/
def Form.Filled (ok : Token → Prop) : Form Category → Prop
  | pending _ => False
  | manifest _ => False
  | comment text => ∃ t, Among ok [.comment] t ∧ text = t.text
  | blockComment text => ∃ t, Among ok [.blockComment] t ∧ text = t.text
  | classBlock name params inherits body =>
    Among ok [.name] name ∧ params ⊆ [.comment, .blockComment, .parameter] ∧
      (∀ t ∈ inherits, Among ok [.name, .kwDefault] t) ∧ body ⊆ statements
  | defineBlock name params body =>
    Among ok [.name] name ∧ params ⊆ [.comment, .blockComment, .parameter] ∧ body ⊆ statements
  | nodeBlock names inherits body =>
    names ≠ [] ∧ (∀ t ∈ names, Among ok nodeNameKinds t) ∧
      (∀ t ∈ inherits, Among ok nodeNameKinds t) ∧ body ⊆ statements
  | parameter type name value =>
    (∀ x ∈ type, x ∈ [Category.reference, .simple]) ∧ Among ok [.dollarVar] name ∧
      ∀ x ∈ value, x = .expression
  | resource sigil head query _ items =>
    (∃ sigils, (∀ t ∈ sigils, Among ok [.atSign] t) ∧ sigil = Plain.sigilText sigils) ∧
      head.Filled ok ∧ (∀ x ∈ query, x = .collector) ∧
      items ⊆ [.comment, .blockComment, .pair, .title]
  | title titles => Expressions titles
  | collector opening query closing =>
    Among ok collectorOpens opening ∧ (∀ x ∈ query, x = .expression) ∧
      Among ok collectorCloses closing
  | branch keyword condition body =>
    Among ok [.kwIf, .kwElsif, .kwElse] keyword ∧ (∀ x ∈ condition, x = .expression) ∧
      body ⊆ statements
  | caseBlock subject body => subject = .expression ∧ body ⊆ statements
  | caseOption values body => Expressions values ∧ body ⊆ statements
  | selector subject items =>
    subject ∈ [Category.reference, .simple] ∧ items ⊆ [.comment, .blockComment, .pair]
  | inclusion keyword args => Among ok [.kwInclude, .kwImport] keyword ∧ Expressions args
  | assignment name operator value =>
    Among ok [.dollarVar] name ∧ Among ok [.equals, .plusEquals] operator ∧ value = .expression
  | call name args parenthesized =>
    Among ok [.name] name ∧ (∀ x ∈ args, x = .expression) ∧ (parenthesized = false → args ≠ [])
  | chain members edges =>
    members ≠ [] ∧ members ⊆ chainMembers ∧ ∀ t ∈ edges, Among ok Grammar.edges t
  | reference head indexes => Among ok referenceHeads head ∧ ∀ x ∈ indexes, x = .list
  | hash items => items ⊆ [.comment, .blockComment, .pair]
  | list items => items ⊆ [.comment, .blockComment, .expression]
  | pair key arrow value _ =>
    Among ok keyKinds key ∧ Among ok arrows arrow ∧ value = .expression
  | expression parts => parts ≠ [] ∧ ∀ part ∈ parts, part.Filled ok
  | parens inner => inner = .expression
  | unary operator operand => Among ok [.bang, .minus] operator ∧ operand ∈ terms
  | simple token => Among ok simpleKinds token

namespace Plain

variable {ι : Type} {categoryOf : ι → Category} {ok : Token → Prop} {trace : Trace ι}

/-- The tokens of a trace have a property, and what stands in its blocks are statements. -/
structure Taken (categoryOf : ι → Category) (ok : Token → Prop) (trace : Trace ι) : Prop where
  tokens : ∀ t, .token t ∈ trace.map (·.2) → ok t
  blocks : ∀ xs, .block xs ∈ trace.map (·.2) → xs.map categoryOf ⊆ Grammar.statements

/-- The statements of a block have categories of statements. -/
theorem Taken.body (h : Taken categoryOf ok trace) {xs : List ι} (hxs : body xs ∈ trace) :
    xs.map categoryOf ⊆ Grammar.statements :=
  h.blocks xs (List.mem_map_of_mem hxs)

theorem Taken.left {more : Trace ι} (h : Taken categoryOf ok (trace ++ more)) :
    Taken categoryOf ok trace :=
  ⟨fun t ht => h.tokens t (by simp_all), fun xs hxs => h.blocks xs (by simp_all)⟩

theorem Taken.right {more : Trace ι} (h : Taken categoryOf ok (trace ++ more)) :
    Taken categoryOf ok more :=
  ⟨fun t ht => h.tokens t (by simp_all), fun xs hxs => h.blocks xs (by simp_all)⟩

theorem Taken.tail {entry : Option String × Capture ι} (h : Taken categoryOf ok (entry :: trace)) :
    Taken categoryOf ok trace :=
  Taken.right (show Taken categoryOf ok ([entry] ++ trace) from h)

theorem Taken.head {label : Option String} {t : Token}
    (h : Taken categoryOf ok ((label, .token t) :: trace)) : ok t :=
  h.tokens t (by simp)

/-- The further names of a node are tokens that may name one. -/
theorem FurtherNames.among {names : List Token} (hnames : FurtherNames names trace)
    (h : Taken categoryOf ok trace) : ∀ t ∈ names, Among ok nodeNameKinds t := by
  induction hnames with
  | nil => simp
  | cons _ hname _ ih =>
    exact List.forall_mem_cons.mpr ⟨⟨h.tail.head, hname⟩, ih h.tail.tail⟩

/-- The edges of a chain are edges. -/
theorem Linked.among {xs : List ι} {ts : List Token} (hlinked : Linked categoryOf xs ts trace)
    (h : Taken categoryOf ok trace) : ∀ t ∈ ts, Among ok Grammar.edges t := by
  induction hlinked with
  | nil => simp
  | cons ht _ _ ih => exact List.forall_mem_cons.mpr ⟨⟨h.head, ht⟩, ih h.tail.tail⟩

/-- The operators and terms of an expression are such. -/
theorem Operated.filled {parts : List (Part ι)} (hparts : Operated categoryOf parts trace)
    (h : Taken categoryOf ok trace) : ∀ part ∈ parts.map (Part.map categoryOf), part.Filled ok := by
  induction hparts with
  | nil => simp
  | cons ht hx _ ih =>
    exact List.forall_mem_cons.mpr ⟨⟨h.head, ht⟩, List.forall_mem_cons.mpr ⟨hx, ih h.tail.tail⟩⟩

/-- What a head inherits from is a token that may stand there. -/
theorem Inheriting.among {kinds : List Kind} {inherits : Option Token}
    (hinherits : Inheriting kinds inherits trace) (h : Taken categoryOf ok trace) :
    ∀ t ∈ inherits, Among ok kinds t := by
  cases hinherits with
  | none => simp
  | some _ hname => simpa using ⟨h.tail.head, hname⟩

/-- What may be left out has one of the categories that were asked for. -/
theorem Possible.categories {label : String} {categories : List Category} {x : Option ι}
    (h : Possible categoryOf label categories x trace) :
    ∀ c ∈ x.map categoryOf, c ∈ categories := by
  cases h <;> simp_all

/-- The contents that a schema names are filled. -/
theorem Schema.filled {category : Category} {form : Form ι}
    (hschema : Schema categoryOf category form trace) (h : Taken categoryOf ok trace) :
    (form.map categoryOf).Filled ok := by
  cases hschema with
  | comment ht => exact ⟨_, ⟨h.head, by simp [ht]⟩, rfl⟩
  | blockComment ht => exact ⟨_, ⟨h.head, by simp [ht]⟩, rfl⟩
  | caseOption hvalues _ => exact ⟨hvalues.expressions, h.body (by simp)⟩
  | classBlock _ hname hparams hinherits =>
    exact ⟨⟨h.tail.head, by simp [hname]⟩, hparams.categories,
      hinherits.among h.tail.tail.right.left, h.body (by simp)⟩
  | defineBlock _ hname hparams =>
    exact ⟨⟨h.tail.head, by simp [hname]⟩, hparams.categories, h.body (by simp)⟩
  | nodeBlock _ hname hnames hinherits =>
    exact ⟨by simp,
      List.forall_mem_cons.mpr ⟨⟨h.tail.head, hname⟩, hnames.among h.tail.tail.left⟩,
      hinherits.among h.tail.tail.right.left, h.body (by simp)⟩
  | parameter htype hname hvalue =>
    refine ⟨htype.categories, ⟨h.right.head, by simp [hname]⟩, ?_⟩
    cases hvalue with
    | none => simp
    | some _ hx => simpa using hx
  | title htitles _ => exact htitles.expressions
  | collector hopening hquery hclosing =>
    exact ⟨⟨h.head, hopening⟩, fun x hx => by simpa using hquery.categories x hx,
      ⟨h.tail.right.head, hclosing⟩⟩
  | branch hkeyword hcondition =>
    exact ⟨⟨h.head, List.mem_append_left [Kind.kwElse] hkeyword⟩, by simpa using hcondition,
      h.body (by simp)⟩
  | elseBranch hkeyword => exact ⟨⟨h.head, by simp [hkeyword]⟩, by simp, h.body (by simp)⟩
  | caseBlock _ hsubject => exact ⟨hsubject, h.body (by simp)⟩
  | selector hsubject _ _ hitems _ => exact ⟨hsubject, hitems.categories⟩
  | inclusion hkeyword hargs => exact ⟨⟨h.head, hkeyword⟩, hargs.expressions⟩
  | assignment hname hoperator hvalue =>
    exact ⟨⟨h.head, by simp [hname]⟩, ⟨h.tail.head, hoperator⟩, hvalue⟩
  | call hname _ harg hargs _ _ =>
    refine ⟨⟨h.head, by simp [hname]⟩, fun x hx => ?_, by simp⟩
    rw [List.map_append, List.mem_append] at hx
    rcases hx with hx | hx
    · cases harg with
      | none => simp at hx
      | some hc => simp_all
    · exact hargs.categories x hx
  | bareCall hname hargs =>
    obtain ⟨hne, hall⟩ := hargs.expressions
    exact ⟨⟨h.head, by simp [hname]⟩, hall, fun _ => hne⟩
  | chain hmember hmembers =>
    exact ⟨by simp, List.forall_mem_cons.mpr ⟨hmember, hmembers.categories.2⟩,
      hmembers.among h.tail⟩
  | reference hhead hindexes =>
    exact ⟨⟨h.head, hhead⟩, List.forall_mem_map.mpr hindexes⟩
  | hash _ hitems _ => exact hitems.categories
  | list _ hitems _ => exact hitems.categories
  | pair hkey harrow hvalue => exact ⟨⟨h.head, hkey⟩, ⟨h.tail.head, harrow⟩, hvalue⟩
  | expression hterm hparts =>
    exact ⟨by simp, List.forall_mem_cons.mpr ⟨hterm, hparts.filled h.tail⟩⟩
  | parens _ hinner _ => exact hinner
  | unary hoperator hoperand => exact ⟨⟨h.head, hoperator⟩, hoperand⟩
  | simple ht => exact ⟨h.head, ht⟩

/-- The head that a schema names is filled. -/
theorem HeadSchema.filled {sigils : List Token} {head : Head ι} {collector : Option ι}
    (hschema : HeadSchema categoryOf sigils head collector trace) (h : Taken categoryOf ok trace) :
    (∀ t ∈ sigils, Among ok [.atSign] t) ∧ (head.map categoryOf).Filled ok ∧
      ∀ x ∈ collector.map categoryOf, x = .collector := by
  cases hschema with
  | type hsigils ht hcollector =>
    refine ⟨fun t hmem => ⟨h.tokens t ?_, by simp [hsigils t hmem]⟩, ⟨h.right.head, ht⟩,
      fun x hx => by simpa using hcollector.categories x hx⟩
    simp [hmem]
  | reference hsigils hx hcollector =>
    refine ⟨fun t hmem => ⟨h.tokens t ?_, by simp [hsigils t hmem]⟩, hx,
      fun x hx => by simpa using hcollector.categories x hx⟩
    simp [hmem]

end Plain

namespace Phrase

variable {ok : Token → Prop} {P Q : Form Category → Prop} {p q : Phrase}

/-- The category of a phrase, and whether the contents have a property there and everywhere below. -/
def judged (P : Form Category → Prop) (p : Phrase) : Category × Prop :=
  p.fold fun _ form => (form.category, P (form.map (·.1)) ∧ ∀ child ∈ form.children, child.2)

/-- The contents of a phrase, and of everything below it, have a property. -/
def Every (P : Form Category → Prop) (p : Phrase) : Prop :=
  (p.judged P).2

/-- A phrase is filled, with everything below it. -/
def Filled (ok : Token → Prop) (p : Phrase) : Prop :=
  p.Every (Form.Filled ok)

theorem judged_fst (P : Form Category → Prop) (p : Phrase) : (p.judged P).1 = p.category := by
  rw [judged, fold_eq, Form.category_map]
  rfl

/-- A property at every depth is one of the contents and, at every depth, of the children. -/
theorem every_iff : p.Every P ↔ P (p.form.map category) ∧ ∀ q ∈ p.children, q.Every P := by
  have hcategory : (fun x : Category × Prop => x.1) ∘ judged P = category :=
    funext (judged_fst P)
  unfold Every
  rw [judged, fold_eq]
  simp only [Form.map_map, Form.children_map, List.forall_mem_map]
  rw [← hcategory]
  rfl

theorem Every.form (h : p.Every P) : P (p.form.map category) :=
  (every_iff.mp h).1

theorem Every.child (h : p.Every P) (hq : q ∈ p.children) : q.Every P :=
  (every_iff.mp h).2 q hq

theorem Every.and (h : p.Every P) (h' : p.Every Q) : p.Every fun form => P form ∧ Q form := by
  induction p using induct with
  | step p ih => exact every_iff.mpr ⟨⟨h.form, h'.form⟩, fun q hq => ih q hq (h.child hq) (h'.child hq)⟩

theorem Every.imp (h : p.Every P) (hPQ : ∀ form, P form → Q form) : p.Every Q := by
  induction p using induct with
  | step p ih => exact every_iff.mpr ⟨hPQ _ h.form, fun q hq => ih q hq (h.child hq)⟩

/-- Aligning arrows keeps what has nothing to do with columns. -/
theorem every_aligned (hP : ∀ key arrow value w w',
    P (.pair key arrow value w) = P (.pair key arrow value w')) : p.aligned.Every P ↔ p.Every P := by
  unfold Every judged
  rw [fold_aligned]
  intro line key arrow value w w'
  exact Prod.ext rfl (congrArg (· ∧ _) (hP key arrow value.1 w w'))

/-- A phrase is filled if its contents are and its children are. -/
theorem filled_iff :
    p.Filled ok ↔ (p.form.map category).Filled ok ∧ ∀ q ∈ p.children, q.Filled ok :=
  every_iff

theorem Filled.filled_form (h : p.Filled ok) : (p.form.map category).Filled ok :=
  (filled_iff.mp h).1

theorem Filled.child (h : p.Filled ok) (hq : q ∈ p.children) : q.Filled ok :=
  (filled_iff.mp h).2 q hq

/-- No phrase is a manifest. -/
theorem Filled.category_ne (h : p.Filled ok) : p.category ≠ .manifest := by
  have hform := h.filled_form
  unfold category
  cases hp : p.form <;> simp_all [Form.category, Form.map, Form.Filled]

/-- A filled phrase of the category of pairs is a pair. -/
theorem Filled.form_eq_pair (h : p.Filled ok) (hp : p.category = .pair) :
    ∃ key arrow value width, p.form = .pair key arrow value width := by
  have hform := h.filled_form
  unfold category at hp
  cases hp : p.form <;> simp_all [Form.category, Form.map, Form.Filled]

/-- Aligning arrows changes nothing that fills a form. -/
theorem filled_aligned : p.aligned.Filled ok ↔ p.Filled ok :=
  every_aligned (by intros; rfl)

end Phrase

namespace Plain

variable {ok : Token → Prop}

/-- Everything that was read is filled, and statements are statements. -/
def Reading.Filled (ok : Token → Prop) : Reading → Prop
  | .phrase _ p => p.Filled ok
  | .trace _ read => Taken Phrase.category ok read ∧ ∀ q ∈ treesOf read, q.Filled ok
  | .items ps => ∀ q ∈ ps, q.category ∈ [Category.comment, .blockComment, .pair, .title] ∧ q.Filled ok
  | .body _ ps => ∀ q ∈ ps, q.category ∈ Grammar.statements ∧ q.Filled ok

/-- Whatever tokens spell is filled. -/
theorem Spells.filled {r : Reading} {w : List Token} (h : Spells r w) (hw : ∀ t ∈ w, ok t) :
    r.Filled ok := by
  induction h with
  | rule schema _ _ ih =>
    obtain ⟨htaken, htrees⟩ := ih hw
    refine Phrase.filled_iff.mpr ⟨schema.filled htaken, fun q hq => htrees q ?_⟩
    rwa [Phrase.children, Phrase.form_mk, schema.children_eq] at hq
  | collected schema _ _ ih =>
    obtain ⟨htaken, htrees⟩ := ih hw
    obtain ⟨hsigils, hhead, hcollector⟩ := schema.filled htaken
    refine Phrase.filled_iff.mpr
      ⟨⟨⟨_, hsigils, rfl⟩, hhead, hcollector, List.nil_subset _⟩, fun q hq => htrees q ?_⟩
    rwa [Phrase.children, Phrase.form_mk, schema.children_eq, List.append_nil] at hq
  | resource schema _ _ _ _ _ ih ihitems =>
    obtain ⟨htaken, htrees⟩ := ih fun t ht => hw t (by simp [ht])
    have hitems := ihitems fun t ht => hw t (by simp [ht])
    obtain ⟨hsigils, hhead, hcollector⟩ := schema.filled htaken
    refine Phrase.filled_iff.mpr
      ⟨⟨⟨_, hsigils, rfl⟩, hhead, hcollector, ?_⟩, fun q hq => ?_⟩
    · exact List.forall_mem_map.mpr fun q hq => (hitems q hq).1
    · rw [Phrase.children, Phrase.form_mk, schema.children_eq, List.mem_append] at hq
      exact hq.elim (htrees q) fun hq => (hitems q hq).2
  | done => exact ⟨⟨by simp, by simp⟩, fun q hq => absurd hq List.not_mem_nil⟩
  | newline _ _ ih => exact ih fun t ht => hw t (by simp [ht])
  | token _ ih =>
    obtain ⟨⟨htokens, hblocks⟩, htrees⟩ := ih fun t ht => hw t (by simp [ht])
    refine ⟨⟨fun t ht => ?_, fun xs hxs => hblocks xs (by simpa using hxs)⟩, htrees⟩
    rcases List.mem_cons.mp ht with heq | ht
    · cases heq
      exact hw _ (by simp)
    · exact htokens t ht
  | node _ _ ihphrase ihmore =>
    obtain ⟨⟨htokens, hblocks⟩, htrees⟩ := ihmore fun t ht => hw t (by simp [ht])
    exact ⟨⟨fun t ht => htokens t (by simpa using ht), fun xs hxs => hblocks xs (by simpa using hxs)⟩,
      List.forall_mem_cons.mpr ⟨ihphrase fun t ht => hw t (by simp [ht]), htrees⟩⟩
  | block _ _ _ _ ihbody ihmore =>
    obtain ⟨⟨htokens, hblocks⟩, htrees⟩ := ihmore fun t ht => hw t (by simp [ht])
    have hbody := ihbody fun t ht => hw t (by simp [ht])
    refine ⟨⟨fun t ht => htokens t (by simpa using ht), fun xs hxs => ?_⟩,
      List.forall_mem_append.mpr ⟨fun q hq => (hbody q hq).2, htrees⟩⟩
    rcases List.mem_cons.mp hxs with heq | hxs
    · cases heq
      exact List.forall_mem_map.mpr fun q hq => (hbody q hq).1
    · exact hblocks xs hxs
  | close => exact fun q hq => absurd hq List.not_mem_nil
  | separator _ _ ih => exact ih fun t ht => hw t (by simp [ht])
  | item hp _ _ ihphrase ihmore =>
    exact List.forall_mem_cons.mpr ⟨⟨hp, ihphrase fun t ht => hw t (by simp [ht])⟩,
      ihmore fun t ht => hw t (by simp [ht])⟩
  | empty => exact fun q hq => absurd hq List.not_mem_nil
  | pause _ _ ih => exact ih fun t ht => hw t (by simp [ht])
  | statement hp _ _ ihphrase ihmore =>
    exact List.forall_mem_cons.mpr ⟨⟨hp, ihphrase fun t ht => hw t (by simp [ht])⟩,
      ihmore fun t ht => hw t (by simp [ht])⟩

end Plain

namespace Phrase

variable {ok : Token → Prop} {p q : Phrase}

/-- Splitting a phrase keeps its category. -/
theorem category_of_mem_split (h : q ∈ p.split) : q.category = p.category := by
  by_cases hresource : ∃ sigil token items, p.form = .resource sigil (.type token) none true items
  · obtain ⟨sigil, token, items, hform⟩ := hresource
    rw [← mk_line_form p, hform, split_resource, resources] at h
    obtain ⟨part, -, rfl⟩ := List.mem_map.mp h
    rw [category, category, hform]
    rfl
  · rw [split_other fun sigil token items hform => hresource ⟨sigil, token, items, hform⟩] at h
    obtain rfl := List.mem_singleton.mp h
    exact Form.category_withBodies ..

/-- Statements may be replaced by others. -/
theorem filled_withBodies {form : Form Phrase} (h : (form.map category).Filled ok) :
    ((form.withBodies id split).map category).Filled ok := by
  have hbody {body : List Phrase} (hbody : body.map category ⊆ statements) :
      (body.flatMap split).map category ⊆ statements := by
    refine List.forall_mem_map.mpr fun q hq => ?_
    obtain ⟨s, hs, hq⟩ := List.mem_flatMap.mp hq
    rw [category_of_mem_split hq]
    exact hbody (List.mem_map_of_mem hs)
  cases form with
  | classBlock | defineBlock | nodeBlock | branch | caseBlock | caseOption =>
    simp only [Form.withBodies, Form.map, Form.Filled, List.map_id, Option.map_id, id_eq] at h ⊢
    grind
  | pending => exact False.elim h
  | _ => rw [Form.withBodies_id rfl]; exact h

/-- What is true of the contents of a phrase, and of everything below it, is true of the phrases that it
is split into, if it stays true when a resource is left with some of its items and when the statements
of a body are split. -/
theorem Every.split {P : Form Category → Prop} (h : p.Every P)
    (hresource : ∀ {sigil token items part}, part ⊆ items →
      P (.resource sigil (.type token) none true items) → P (.resource sigil (.type token) none true part))
    (hbodies : ∀ {form : Form Phrase}, P (form.map category) →
      P ((form.withBodies id Phrase.split).map category)) :
    ∀ q ∈ p.split, q.Every P := by
  induction p using induct with
  | step p ih =>
    by_cases hform : ∃ sigil token items, p.form = .resource sigil (.type token) none true items
    · obtain ⟨sigil, token, items, hform⟩ := hform
      obtain ⟨line, form⟩ := p
      obtain rfl : form = _ := hform
      rw [split_resource, resources, List.forall_mem_map]
      intro part hpart
      have hsub : part ⊆ items := fun x hx => Layout.mem_of_mem_cutSections hpart hx
      exact every_iff.mpr ⟨hresource (List.map_subset _ hsub) h.form, fun q hq => h.child (hsub hq)⟩
    · rw [split_other fun sigil token items heq => hform ⟨sigil, token, items, heq⟩]
      intro q hq
      obtain rfl := List.mem_singleton.mp hq
      refine every_iff.mpr ⟨hbodies h.form, fun q hq => ?_⟩
      rcases Form.mem_children_withBodies hq with hq | ⟨s, hs, hq⟩
      · exact h.child hq
      · exact ih s hs (h.child hs) q hq

/-- The phrases that a filled phrase is split into are filled. -/
theorem Filled.split (h : p.Filled ok) : ∀ q ∈ p.split, q.Filled ok :=
  Every.split h (fun hsub ⟨hsigils, hhead, hcollector, hitems⟩ =>
    ⟨hsigils, hhead, hcollector, List.Subset.trans hsub hitems⟩) filled_withBodies

/-- A regular phrase is regular at every depth. -/
theorem Regular.every {parent : Category} (h : Regular parent p) : p.Every Form.Regular := by
  induction p using induct generalizing parent with
  | step p ih => exact every_iff.mpr ⟨h.regular_form, fun q hq => ih q hq (h.child hq)⟩

end Phrase

/-- The statements of a manifest are filled, whichever way of splitting. -/
theorem filled_statements {mode : SplitMode} {n : Nat} {tokens : List Token} {ps : List Phrase}
    {ok : Token → Prop} (h : Plain.manifest n tokens = .ok ps) (htokens : ∀ t ∈ tokens, ok t) :
    ∀ p ∈ mode.statements ps, p.category ∈ statements ∧ p.Filled ok := by
  have hps : ∀ p ∈ ps, p.category ∈ statements ∧ p.Filled ok :=
    (Plain.manifest_spells h).filled htokens
  cases mode with
  | render => exact hps
  | splice =>
    intro q hq
    obtain ⟨p, hp, hq⟩ := List.mem_flatMap.mp hq
    rw [Phrase.category_of_mem_split hq]
    exact ⟨(hps p hp).1, (hps p hp).2.split q hq⟩

end TidyManifest
