import TidyManifest.Proofs.Plain.Interpret
import TidyManifest.Proofs.Plain.Mapped

/-!
# Numbers for the nodes of a trace

The parser refers to a node by its number, a plain reading holds it as a phrase.  Both make the
contents of a node from a log, by the same function, and that function is indifferent to what a
reference is (`ofCaptures?_relabel`).  Since the children of a node stand in the order of its
trace (`Schema.children_eq`) and take the numbers after its own, the two contents differ in their
references only, and these are known (`ofCaptures?_numbers`).
-/

namespace TidyManifest

namespace Plain

variable {α β : Type}

/-- The same trace with other references. -/
def relabel (f : α → β) (trace : Trace α) : Trace β :=
  mapTrace id f trace

/-- The nodes of a trace, those of its blocks included. -/
def treesOf : Trace α → List α
  | [] => []
  | (_, .token _) :: trace => treesOf trace
  | (_, .node x) :: trace => x :: treesOf trace
  | (_, .block xs) :: trace => xs ++ treesOf trace

/-- The nodes of a trace stand in the order of its parts. -/
@[simp] theorem treesOf_append (first more : Trace α) :
    treesOf (first ++ more) = treesOf first ++ treesOf more := by
  fun_induction treesOf first <;> simp_all [treesOf]

section

variable (f : α → β)

theorem logOf_relabel (trace : Trace α) :
    (⟨logOf (relabel f trace)⟩ : Captures β) = Captures.map id f ⟨logOf trace⟩ :=
  logOf_mapTrace id f trace

/-- Making the contents of a node does not depend on what the references are. -/
theorem ofCaptures?_relabel (category : Category) (log : Captures α) :
    Form.ofCaptures? category (log.map id f) = (Form.ofCaptures? category log).map (Form.map f) := by
  have htext (t : Token) : (id t).text = t.text := rfl
  rw [Form.ofCaptures?_map f htext]
  simp only [Form.mapTokens_id]

/-- The head of a resource does not depend on what the references are. -/
theorem resourceHead?_relabel (log : Captures α) :
    Parse.resourceHead? (log.map id f) = (Parse.resourceHead? log).map (Head.map f) := by
  rw [Parse.resourceHead?_map]
  simp only [Head.mapToken_id]

/-- A token is no reference, so it was there before. -/
theorem eq_relabel_token {trace : Trace α} {label : Option String} {t : Token}
    (h : relabel f trace = [(label, .token t)]) : trace = [(label, .token t)] := by
  simp only [relabel, mapTrace, List.map_eq_singleton_iff] at h
  obtain ⟨⟨_, value⟩, rfl, heq⟩ := h
  cases value <;> simp_all [Capture.map]

/-- A node of a relabelled trace comes from a node. -/
theorem eq_relabel_node {trace : Trace α} {label : Option String} {y : β}
    (h : relabel f trace = [(label, .node y)]) : ∃ x, y = f x ∧ trace = [(label, .node x)] := by
  simp only [relabel, mapTrace, List.map_eq_singleton_iff] at h
  obtain ⟨⟨_, value⟩, rfl, heq⟩ := h
  cases value <;> simp_all [Capture.map]

/-- A block of a relabelled trace comes from a block. -/
theorem eq_relabel_block {trace : Trace α} {label : Option String} {ys : List β}
    (h : relabel f trace = [(label, .block ys)]) : ∃ xs, trace = [(label, .block xs)] := by
  simp only [relabel, mapTrace, List.map_eq_singleton_iff] at h
  obtain ⟨⟨_, value⟩, rfl, heq⟩ := h
  cases value <;> simp_all [Capture.map]

/-- The parts of a relabelled trace are relabelled parts of the trace. -/
theorem eq_relabel_append {trace : Trace α} {first more : Trace β}
    (h : relabel f trace = first ++ more) :
    ∃ first' more', trace = first' ++ more' ∧ relabel f first' = first ∧ relabel f more' = more :=
  List.map_eq_append_iff.mp h

/-- The pieces of a relabelled trace are relabelled pieces of the trace. -/
theorem eq_relabel_flatten {trace : Trace α} {pieces : List (Trace β)}
    (h : relabel f trace = pieces.flatten) :
    ∃ pieces', trace = List.flatten pieces' ∧ pieces'.map (relabel f) = pieces := by
  induction pieces generalizing trace with
  | nil => exact ⟨[], by simpa [relabel] using h, rfl⟩
  | cons piece pieces ih =>
    obtain ⟨first, more, rfl, rfl, hmore⟩ := eq_relabel_append f h
    obtain ⟨pieces', rfl, rfl⟩ := ih hmore
    exact ⟨first :: pieces', rfl, rfl⟩

variable {f} in
/-- How often a step is used does not depend on what the references are. -/
theorem FitsUsed.of_relabel {usage : Usage} {fits : Trace β → Prop} {fits' : Trace α → Prop}
    (hfits : ∀ trace, fits (relabel f trace) → fits' trace) {trace : Trace α}
    (h : FitsUsed usage fits (relabel f trace)) : FitsUsed usage fits' trace := by
  rcases h with ⟨ho, hnil⟩ | h
  · exact .inl ⟨ho, by simpa [relabel] using hnil⟩
  · right
    by_cases hm : usage.many = true
    · rw [if_pos hm] at h ⊢
      obtain ⟨first, more, heq, hfirst, hmore⟩ := h
      obtain ⟨first', more', rfl, rfl, hflatten⟩ := eq_relabel_append f heq
      obtain ⟨pieces, rfl, rfl⟩ := eq_relabel_flatten f hflatten
      exact ⟨first', pieces, rfl, hfits _ hfirst,
        fun piece hpiece => hfits _ (hmore _ (List.mem_map_of_mem hpiece))⟩
    · rw [if_neg hm] at h ⊢
      exact hfits _ h

mutual

/-- What one step reads does not depend on what the references are. -/
theorem fitsOnce_of_relabel {categoryOf : β → Category} (step : Step) {trace : Trace α}
    (h : FitsOnce categoryOf step (relabel f trace)) : FitsOnce (categoryOf ∘ f) step trace := by
  cases step with
  | token usage kinds =>
    obtain ⟨t, ht, heq⟩ := h
    exact ⟨t, ht, eq_relabel_token f heq⟩
  | node usage categories =>
    obtain ⟨y, hy, heq⟩ := h
    obtain ⟨x, rfl, rfl⟩ := eq_relabel_node f heq
    exact ⟨x, hy, rfl⟩
  | group usage steps => exact fits_of_relabel steps h
  | choice usage branches => exact fitsOne_of_relabel branches h
  | block usage =>
    obtain ⟨ys, heq⟩ := h
    exact eq_relabel_block f heq

/-- What steps read does not depend on what the references are. -/
theorem fits_of_relabel {categoryOf : β → Category} (steps : List Step) {trace : Trace α}
    (h : Fits categoryOf steps (relabel f trace)) : Fits (categoryOf ∘ f) steps trace := by
  cases steps with
  | nil => simpa [Fits, relabel] using h
  | cons step steps =>
    obtain ⟨first, more, heq, hfirst, hmore⟩ := h
    obtain ⟨first', more', rfl, rfl, rfl⟩ := eq_relabel_append f heq
    exact ⟨first', more', rfl, hfirst.of_relabel fun _ h => fitsOnce_of_relabel step h,
      fits_of_relabel steps hmore⟩

/-- Which of several sequences of steps is read does not depend on what the references are. -/
theorem fitsOne_of_relabel {categoryOf : β → Category} (branches : List (List Step))
    {trace : Trace α} (h : FitsOne categoryOf branches (relabel f trace)) :
    FitsOne (categoryOf ∘ f) branches trace := by
  cases branches with
  | nil => exact h
  | cons branch branches =>
    rcases h with h | h
    · exact .inl (fits_of_relabel branch h)
    · exact .inr (fitsOne_of_relabel branches h)

end

end

section

variable {categoryOf : α → Category}

@[simp] theorem treesOf_map_sub (label : String) (xs : List α) :
    treesOf (xs.map (sub label)) = xs := by
  induction xs with
  | nil => rfl
  | cons x xs ih => simp [treesOf, ih]

@[simp] theorem treesOf_map_named (label : String) (ts : List Token) :
    treesOf (ts.map (named label) : Trace α) = [] := by
  induction ts with
  | nil => rfl
  | cons t ts ih => simp [treesOf, ih]

/-- The nodes of a list are its items. -/
theorem Listed.treesOf_eq {label : String} {categories : List Category} {xs : List α}
    {trace : Trace α} (h : Listed categoryOf label categories xs trace) : treesOf trace = xs := by
  induction h <;> simp_all [treesOf]

/-- The nodes of the rest of a list are its items. -/
theorem Further.treesOf_eq {label : String} {xs : List α} {trace : Trace α}
    (h : Further categoryOf label xs trace) : treesOf trace = xs := by
  induction h <;> simp_all [treesOf]

/-- The nodes of a list without a comma at its end are its items. -/
theorem Joined.treesOf_eq {label : String} {xs : List α} {trace : Trace α}
    (h : Joined categoryOf label xs trace) : treesOf trace = xs := by
  cases h with
  | intro _ more => simp [treesOf, more.treesOf_eq]

/-- Names are tokens, so they bring no nodes. -/
theorem FurtherNames.treesOf_eq {names : List Token} {trace : Trace α}
    (h : FurtherNames names trace) : treesOf trace = [] := by
  induction h <;> simp_all [treesOf]

/-- The nodes of a chain are its members; edges are tokens. -/
theorem Linked.treesOf_eq {xs : List α} {ts : List Token} {trace : Trace α}
    (h : Linked categoryOf xs ts trace) : treesOf trace = xs := by
  induction h <;> simp_all [treesOf]

/-- The nodes of an expression are its terms; operators are tokens. -/
theorem Operated.treesOf_eq {parts : List (Part α)} {trace : Trace α}
    (h : Operated categoryOf parts trace) : treesOf trace = parts.filterMap Part.term? := by
  induction h <;> simp_all [treesOf, Part.term?, List.filterMap_cons]

/-- The nodes of a parameter list are its parameters and comments. -/
theorem Parameters.treesOf_eq {xs : List α} {trace : Trace α}
    (h : Parameters categoryOf xs trace) : treesOf trace = xs := by
  cases h with
  | none => rfl
  | list _ items _ => simp [treesOf, items.treesOf_eq]

/-- What a head inherits from is a token, so it brings no nodes. -/
theorem Inheriting.treesOf_eq {kinds : List Kind} {t : Option Token} {trace : Trace α}
    (h : Inheriting kinds t trace) : treesOf trace = [] := by
  cases h <;> rfl

/-- What may be left out brings at most one node. -/
theorem Possible.treesOf_eq {label : String} {categories : List Category} {x : Option α}
    {trace : Trace α} (h : Possible categoryOf label categories x trace) :
    treesOf trace = x.toList := by
  cases h <;> rfl

/-- A default brings at most one node. -/
theorem Defaulted.treesOf_eq {x : Option α} {trace : Trace α} (h : Defaulted categoryOf x trace) :
    treesOf trace = x.toList := by
  cases h <;> rfl

/-- A comma brings no node. -/
theorem PossibleComma.treesOf_eq {trace : Trace α} (h : PossibleComma trace) :
    treesOf trace = [] := by
  cases h <;> rfl

/-- The children of a node are the nodes of its trace. -/
theorem Schema.children_eq {category : Category} {form : Form α} {trace : Trace α}
    (h : Schema categoryOf category form trace) : form.children = treesOf trace := by
  cases h with
  | caseOption hvalues _ => simp [Form.children, treesOf, hvalues.treesOf_eq]
  | classBlock _ _ hparams hinherits =>
    simp [Form.children, treesOf, hparams.treesOf_eq, hinherits.treesOf_eq]
  | defineBlock _ _ hparams => simp [Form.children, treesOf, hparams.treesOf_eq]
  | nodeBlock _ _ hnames hinherits =>
    simp [Form.children, treesOf, hnames.treesOf_eq, hinherits.treesOf_eq]
  | parameter htype _ hvalue =>
    simp [Form.children, treesOf, htype.treesOf_eq, hvalue.treesOf_eq]
  | title htitles _ => simp [Form.children, treesOf, htitles.treesOf_eq]
  | collector _ hquery _ => simp [Form.children, treesOf, hquery.treesOf_eq]
  | selector _ _ _ hitems _ => simp [Form.children, treesOf, hitems.treesOf_eq]
  | inclusion _ hargs => simp [Form.children, treesOf, hargs.treesOf_eq]
  | call _ _ harg hargs hcomma _ =>
    simp [Form.children, treesOf, harg.treesOf_eq, hargs.treesOf_eq, hcomma.treesOf_eq]
  | bareCall _ hargs => simp [Form.children, treesOf, hargs.treesOf_eq]
  | chain _ hmembers => simp [Form.children, treesOf, hmembers.treesOf_eq]
  | reference _ _ => simp [Form.children, treesOf]
  | hash _ hitems _ => simp [Form.children, treesOf, hitems.treesOf_eq]
  | list _ hitems _ => simp [Form.children, treesOf, hitems.treesOf_eq]
  | expression _ hparts => simp [Form.children, treesOf, hparts.treesOf_eq, Part.term?]
  | _ => simp [Form.children, treesOf]

/-- The nodes of a resource's head. -/
theorem HeadSchema.children_eq {sigils : List Token} {head : Head α} {collector : Option α}
    {trace : Trace α} (h : HeadSchema categoryOf sigils head collector trace) (sigil : String)
    (hasBlock : Bool) (items : List α) :
    (Form.resource sigil head collector hasBlock items).children = treesOf trace ++ items := by
  cases h with
  | type _ _ hcollector => simp [Form.children, treesOf, hcollector.treesOf_eq]
  | reference _ _ hcollector => simp [Form.children, treesOf, hcollector.treesOf_eq]

end

/-- The nodes of a trace with the numbers they take from a number on. -/
def numbered (first : NodeId) : Trace Phrase → Trace (NodeId × Phrase)
  | [] => []
  | (label, .token t) :: trace => (label, .token t) :: numbered first trace
  | (label, .node p) :: trace => (label, .node (first, p)) :: numbered (first + p.size) trace
  | (label, .block ps) :: trace =>
    (label, .block ((Phrase.starts first ps).zip ps)) :: numbered (first + Phrase.total ps) trace

/-- The trace with numbers in place of phrases. -/
def numbers (first : NodeId) (trace : Trace Phrase) : Trace NodeId :=
  relabel Prod.fst (numbered first trace)

/-- Numbers go on after the nodes of the first part. -/
theorem numbered_append (first : NodeId) (trace more : Trace Phrase) :
    numbered first (trace ++ more) =
      numbered first trace ++ numbered (first + Phrase.total (treesOf trace)) more := by
  fun_induction numbered first trace <;> simp_all [numbered, treesOf, Nat.add_assoc]

/-- The numbers of the nodes of two traces go on from the one to the other. -/
@[simp] theorem numbers_append (first : NodeId) (trace more : Trace Phrase) :
    numbers first (trace ++ more) =
      numbers first trace ++ numbers (first + Phrase.total (treesOf trace)) more := by
  simp [numbers, numbered_append, relabel]

@[simp] theorem numbers_nil (first : NodeId) : numbers first [] = [] := rfl

theorem numbers_block (first : NodeId) (label : Option String) (ps : List Phrase) :
    numbers first [(label, .block ps)] = [(label, .block (Phrase.starts first ps))] := by
  simp [numbers, numbered, relabel, Capture.map, List.map_fst_zip]

/-- Numbers can be forgotten again. -/
@[simp] theorem relabel_snd_numbered (first : NodeId) (trace : Trace Phrase) :
    relabel Prod.snd (numbered first trace) = trace := by
  fun_induction numbered first trace <;>
    simp_all [relabel, Capture.map, List.map_snd_zip]

/-- Each node of a trace has the number at which its phrase starts. -/
theorem treesOf_numbered (first : NodeId) (trace : Trace Phrase) :
    treesOf (numbered first trace) =
      (Phrase.starts first (treesOf trace)).zip (treesOf trace) := by
  fun_induction numbered first trace <;>
    simp_all [treesOf, Phrase.starts, List.zip_append]

/-- The numbers of the nodes of a trace are those at which its phrases start. -/
theorem map_fst_treesOf_numbered (first : NodeId) (trace : Trace Phrase) :
    (treesOf (numbered first trace)).map Prod.fst = Phrase.starts first (treesOf trace) := by
  simp [treesOf_numbered, List.map_fst_zip]

/-- The log of a rule, with numbers, makes the contents that the log with phrases makes, where the
children have the numbers from `first` on. -/
theorem ofCaptures?_numbers {category : Category} {trace : Trace Phrase} {form : Form Phrase}
    (first : NodeId) (hm : category ≠ .manifest) (hr : category ≠ .resource)
    (hfits : Fits Phrase.category category.rule.steps trace)
    (h : Form.ofCaptures? category ⟨logOf trace⟩ = some form) :
    Form.ofCaptures? category ⟨logOf (numbers first trace)⟩ =
      some (form.withChildren 0 (Phrase.starts first form.children)) := by
  have hfits' : Fits (Phrase.category ∘ Prod.snd) category.rule.steps (numbered first trace) :=
    fits_of_relabel Prod.snd _ (by rwa [relabel_snd_numbered])
  obtain ⟨pairs, hpairs⟩ := schema_of_fits hm hr hfits'
  obtain rfl : pairs.map Prod.snd = form := by
    have := ofCaptures?_relabel (Prod.snd : NodeId × Phrase → Phrase) category
      ⟨logOf (numbered first trace)⟩
    rw [← logOf_relabel, relabel_snd_numbered, h, hpairs.ofCaptures?_eq] at this
    simpa using this.symm
  rw [numbers, logOf_relabel, ofCaptures?_relabel, hpairs.ofCaptures?_eq, Option.map_some]
  congr 1
  rw [Form.children_map, hpairs.children_eq, ← Form.withChildren_map 0 Prod.fst Prod.snd,
    hpairs.children_eq, treesOf_numbered, List.map_fst_zip (by simp), List.map_snd_zip (by simp)]

/-- Numbers do not change the tokens of a log. -/
theorem tokens_numbers (first : NodeId) (trace : Trace Phrase) (label : String) :
    (⟨logOf (numbers first trace)⟩ : Captures).tokens label =
      (⟨logOf trace⟩ : Captures Phrase).tokens label := by
  have h := Captures.tokens_map id (Prod.snd : NodeId × Phrase → Phrase)
    ⟨logOf (numbered first trace)⟩ label
  rw [← logOf_relabel, relabel_snd_numbered] at h
  rw [numbers, logOf_relabel, Captures.tokens_map, h]

/-- Tokens are kept whatever numbers the nodes get. -/
theorem token?_numbers (first : NodeId) (trace : Trace Phrase) (label : String) :
    (⟨logOf (numbers first trace)⟩ : Captures).token? label =
      (⟨logOf trace⟩ : Captures Phrase).token? label := by
  have h := Captures.token?_map id (Prod.snd : NodeId × Phrase → Phrase)
    ⟨logOf (numbered first trace)⟩ label
  rw [← logOf_relabel, relabel_snd_numbered] at h
  rw [numbers, logOf_relabel, Captures.token?_map, h]

/-- The same for a resource, whose items are known apart from its head. -/
theorem resource_numbers {trace : Trace Phrase} {sigils : List Token} {head : Head Phrase}
    {collector : Option Phrase} (first : NodeId)
    (hfits : Fits Phrase.category Category.resource.rule.steps trace)
    (h : HeadSchema Phrase.category sigils head collector trace) :
    ∃ head' collector',
      Parse.resourceHead? (⟨logOf (numbers first trace)⟩ : Captures) = some head' ∧
      (⟨logOf (numbers first trace)⟩ : Captures).node? "collector" = collector' ∧
      collector'.isSome = collector.isSome ∧ head'.hasType = head.hasType ∧
      ∀ sigil hasBlock items,
        Form.resource sigil head' collector' hasBlock
            (Phrase.starts (first + Phrase.total (treesOf trace)) items) =
          (Form.resource sigil head collector hasBlock items).withChildren 0
            (Phrase.starts first (treesOf trace ++ items)) := by
  have hfits' : Fits (Phrase.category ∘ Prod.snd) Category.resource.rule.steps
      (numbered first trace) := fits_of_relabel Prod.snd _ (by rwa [relabel_snd_numbered])
  obtain ⟨_, head', collector', h'⟩ := headSchema_of_fits hfits'
  have hhead := resourceHead?_relabel (Prod.snd : NodeId × Phrase → Phrase)
    ⟨logOf (numbered first trace)⟩
  have hcollector := Captures.node?_map id (Prod.snd : NodeId × Phrase → Phrase)
    ⟨logOf (numbered first trace)⟩ "collector"
  rw [← logOf_relabel, relabel_snd_numbered, h.head_eq, h'.head_eq] at hhead
  rw [← logOf_relabel, relabel_snd_numbered, h.collector_eq, h'.collector_eq] at hcollector
  obtain rfl : head = head'.map Prod.snd := by simpa using hhead
  subst hcollector
  refine ⟨head'.map Prod.fst, collector'.map Prod.fst, ?_, ?_, by simp, by cases head' <;> rfl,
    fun sigil hasBlock items => ?_⟩
  · rw [numbers, logOf_relabel, resourceHead?_relabel, h'.head_eq, Option.map_some]
  · rw [numbers, logOf_relabel, Captures.node?_map, h'.collector_eq]
  · have key := Form.withChildren_map 0 (Prod.fst : NodeId × Phrase → NodeId) Prod.snd
      (.resource sigil head' collector' hasBlock
        ((Phrase.starts (first + Phrase.total (treesOf trace)) items).zip items))
    rw [h'.children_eq, List.map_append, map_fst_treesOf_numbered,
      List.map_fst_zip (by simp), ← Phrase.starts_append] at key
    simpa [Form.map, List.map_fst_zip, List.map_snd_zip] using key.symm

end Plain

end TidyManifest
