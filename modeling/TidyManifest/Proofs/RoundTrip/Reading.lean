import TidyManifest.Proofs.Plain.Found
import TidyManifest.Proofs.RoundTrip.Written

/-!
# Reading what is written

The tokens of a canonical text are read as what they stand for, and reading stops where they end
(`Written.rereads`).  For this the tokens that follow must not join what is written: after a term no
bracket may follow directly and no question mark, after an expression no operator either.

The proof goes along the derivation of `Written`.  At each place it shows that the categories before
the right one are not recognised, and then carries the reading over the steps of the rule.
-/

namespace TidyManifest.Plain

open Parse Grammar

/-- Nothing in the tokens after a term joins it.  Index lists are read across newlines. -/
structure Clear (rest : List Token) : Prop extends Detached rest where
  index : Lookahead.startsWith [.leftBracket] newlines rest = false

/-- Nothing in the tokens after an expression continues it. -/
structure Ended (rest : List Token) : Prop extends Clear rest where
  operator : Lookahead.startsWith binaryOperators newlines rest = false

/-- The tokens after a phrase of a category do not join it. -/
def Allows : Category → List Token → Prop
  | .expression, rest => Ended rest
  | .pair, rest => Ended rest
  | .assignment, rest => Ended rest
  | .unary, rest => Clear rest
  | .reference, rest => Lookahead.startsWith [.leftBracket] newlines rest = false
  | _, _ => True

/-- Kinds of token with which an expression ends. -/
def enders : List Kind :=
  [.comma, .colon, .leftBrace, .rightParen, .rightBracket, .rightBrace]

/-- Kinds after which something else begins: separators, closing brackets and operators. -/
def separators : List Kind :=
  .question :: (enders ++ binaryOperators)

section

variable {t : Token} {rest : List Token}

/-- A token that is neither skipped nor asked for. -/
theorem startsWith_of_not_mem {skip kinds : List Kind} (ht : t.kind ∉ skip ++ kinds) :
    Lookahead.startsWith kinds skip (t :: rest) = false := by
  rw [List.mem_append, not_or] at ht
  rw [startsWith_cons ht.1]
  simpa using ht.2

theorem startsWith_separator (ht : t.kind ∈ separators) {skip kinds : List Kind}
    (hskip : skip ⊆ newlines) (hkinds : kinds ⊆ [.leftParen, .leftBracket]) :
    Lookahead.startsWith kinds skip (t :: rest) = false := by
  have hseparators : ∀ kind ∈ separators, kind ∉ newlines ++ [.leftParen, .leftBracket] := by decide
  refine startsWith_of_not_mem fun hmem => hseparators _ ht ?_
  rw [List.mem_append] at hmem ⊢
  exact hmem.imp (@hskip _) (@hkinds _)

/-- A newline in front is skipped. -/
theorem startsWith_newline (ht : t.kind = .newline) (kinds : List Kind) :
    Lookahead.startsWith kinds newlines (t :: rest) = Lookahead.startsWith kinds newlines rest := by
  simp [Lookahead.startsWith, Lookahead.peek, Lookahead.significant, Token.isOneOf, newlines, ht]

/-- A token that joins nothing ends a term. -/
theorem clear_cons (ht : t.kind ∈ separators) (hquestion : t.kind ≠ .question) :
    Clear (t :: rest) := by
  have hnewline : ∀ kind ∈ separators, kind ∉ newlines := by decide
  refine ⟨⟨startsWith_separator ht (by simp) (by simp), ?_⟩,
    startsWith_separator ht (by simp) (by simp)⟩
  rw [startsWith_cons (hnewline _ ht)]
  simpa using hquestion

/-- A token that joins nothing and is no operator ends an expression. -/
theorem ended_cons {kind : Kind} (ht : t.kind = kind) (hkind : kind ∈ enders) : Ended (t :: rest) := by
  have hkinds : ∀ kind ∈ enders, kind ∈ separators ∧ kind ≠ .question ∧ kind ∉ newlines ∧
      binaryOperators.contains kind = false := by decide
  obtain ⟨hseparator, hquestion, hnewline, hoperator⟩ := hkinds _ (ht ▸ hkind)
  refine ⟨clear_cons hseparator hquestion, ?_⟩
  rw [startsWith_cons hnewline, hoperator]

theorem Clear.allows (h : Clear rest) {c : Category} (hc : c ∈ terms) : Allows c rest := by
  revert hc
  cases c <;> first | exact fun _ => trivial | exact fun _ => h.index | exact fun _ => h |
    exact fun hc => absurd hc (by decide)

/-- Operators may follow a term. -/
theorem Written.clear {parts : List (Part Phrase)} {w : List Token} (h : Written (.parts parts) w)
    (hrest : Ended rest) : Clear (w ++ rest) := by
  cases h with
  | noPart => exact hrest.toClear
  | part ht =>
    have hkinds : ∀ kind ∈ binaryOperators, kind ∈ separators ∧ kind ≠ .question := by decide
    exact clear_cons (hkinds _ ht).1 (hkinds _ ht).2

/-- Further expressions may follow an expression. -/
theorem Written.ended {ps : List Phrase} {w : List Token} (h : Written (.further ps) w)
    (hrest : Ended rest) : Ended (w ++ rest) := by
  cases h with
  | noFurther => exact hrest
  | further hcomma => exact ended_cons hcomma (by decide)

end

/-- The step that reads the index lists of a reference. -/
def indexStep : Step :=
  ((Step.oneOf [.list]).named "indexes").many.sameLine

/-- Items of a category may have comments among them. -/
def orComments (category : Category) : List Category :=
  [.comment, .blockComment, category]

/-- Tokens are read as what they stand for. -/
def Rereads : Shape → List Token → Prop
  | .phrase p, w => ∀ rest, Allows p.category rest →
      phrase full p.category (w ++ rest) = .ok (some (p, rest))
  | .items category ps, w => category ∈ [Category.expression, .pair] → ∀ owner closing rest,
      closing.kind ∈ [Kind.rightBrace, .rightBracket] →
        ∃ trace ns, (∀ n ∈ ns, n.kind = .newline) ∧
          Runs (fun tokens => once full owner (Grammar.items (orComments category)) tokens)
            (w ++ closing :: rest) trace (ns ++ closing :: rest) ∧
          Listed Phrase.category "items" (orComments category) ps trace
  | .further ps, w => ∀ label owner rest, Ended rest →
      Lookahead.startsWith [.comma] newlines rest = false →
        ∃ trace, Runs (fun tokens => once full owner (further label) tokens) (w ++ rest) trace rest ∧
          Further Phrase.category label ps trace
  | .indexes ps, w => ∀ rest, Lookahead.startsWith [.leftBracket] newlines rest = false →
      Runs (fun tokens => once full .reference indexStep tokens) (w ++ rest)
        (ps.map (sub "indexes")) rest
  | .parts parts, w => ∀ rest, Ended rest →
      ∃ trace, Runs (fun tokens => once full .expression operation tokens) (w ++ rest) trace rest ∧
        Operated Phrase.category parts trace

/-- No phrase opens with a newline. -/
theorem not_newline_of_opens {t : Token} {c : Category} (ht : t.kind ∈ opens c) :
    t.kind ∉ newlines := by
  have hopens : .newline ∉ opens c := by cases c <;> decide
  intro hmem
  rw [List.mem_singleton.mp hmem] at ht
  exact hopens ht

section

variable {p : Phrase} {w rest : List Token} {parent : Category}

/-- In front of a value there is no newline to skip. -/
theorem Written.lead_eq (h : Written (.phrase p) w) (usage : Usage) :
    lead usage (w ++ rest) = w ++ rest := by
  obtain ⟨t, v, rfl, ht, -⟩ := h.opens
  exact lead_cons (by simpa [newlines] using not_newline_of_opens ht) usage _

/-- A subject that is a reference, with the index lists after it. -/
theorem subjectLength_reference {head : Token} {ps : List Phrase}
    (hhead : head.kind ∈ referenceHeads) (h : Written (.indexes ps) w)
    (hrest : Lookahead.startsWith [.leftBracket] [] rest = false) :
    subjectLength (head :: w ++ rest) = some (w.length + 1) := by
  have hkinds : ∀ kind ∈ referenceHeads, kind ∈ simpleKinds ∧ kind ∉ newlines := by decide
  have hsimple : head.isOneOf simpleKinds = true := by
    simpa [Token.isOneOf] using (hkinds _ hhead).1
  have hnewline : head.isOneOf newlines = false := by
    simpa [Token.isOneOf] using (hkinds _ hhead).2
  have hreference : head.isOneOf referenceHeads = true := by simpa [Token.isOneOf] using hhead
  rw [List.cons_append]
  simp [subjectLength, hnewline, hsimple, hreference, h.groupsLength_eq hrest, Nat.add_comm]

/-- A reference is recognised by the bracket after its head. -/
theorem accepts_reference {head opening : Token} (hhead : head.kind ∈ referenceHeads)
    (hopening : opening.kind = .leftBracket) (tokens : List Token) :
    accepts full .reference parent (head :: opening :: tokens) = true := by
  have hfits : Lookahead.fits [] [referenceHeads, [.leftBracket]] (head :: opening :: tokens) =
      true := by
    rw [fits_cons (by simp), fits_cons (by simp)]
    simp [Lookahead.fits, hopening, hhead]
  simp [accepts, atPattern, Category.rule, hfits]

/-- Indexes open with a bracket. -/
theorem Written.indexes_opens {index : Phrase} {indexes : List Phrase}
    (h : Written (.indexes (index :: indexes)) w) :
    ∃ t v, w = t :: v ∧ t.kind = .leftBracket := by
  cases h with
  | index hp first more =>
    obtain ⟨t, v, rfl, ht, -⟩ := first.opens
    rw [hp] at ht
    exact ⟨t, _, rfl, List.mem_singleton.mp ht⟩

/-- The subject of a selector is read before its question mark. -/
theorem choose_subject (h : Written (.phrase p) w)
    (hp : p.category ∈ [Category.reference, .simple]) (hread : Rereads (.phrase p) w)
    {question : Token} (hquestion : question.kind = .question) :
    full.choose [.reference, .simple] parent (w ++ question :: rest) =
      .ok (some (p, question :: rest)) := by
  have hbracket {skip : List Kind} (hskip : skip ⊆ newlines) :
      Lookahead.startsWith [.leftBracket] skip (question :: rest) = false :=
    startsWith_separator (by simp [hquestion, separators]) hskip (by simp)
  rw [full_choose]
  cases h with
  | @simple t ht =>
    have hnot : accepts full .reference parent (t :: question :: rest) = false := by
      have hfits : Lookahead.fits [] [referenceHeads, [.leftBracket]] (t :: question :: rest) =
          false := by
        rw [fits_cons (by simp), fits_single, hbracket (by simp), Bool.and_false]
      simp [accepts, atPattern, Category.rule, hfits]
    have hhere : accepts full .simple parent (t :: question :: rest) = true := by
      have hnewline : t.kind ∉ newlines := not_newline_of_opens (c := .simple) ht
      rw [accepts_first hnewline rfl rfl]
      simpa using ht
    rw [List.singleton_append, chooseFrom_full_cons, hnot, if_neg (by simp), chooseFrom_here hhere]
    exact hread _ trivial
  | reference hhead lists =>
    obtain ⟨t, v, rfl, ht⟩ := lists.indexes_opens
    exact (chooseFrom_here (accepts_reference hhead ht _)).trans (hread _ (hbracket (by simp)))
  | _ => exact absurd hp (by simp [Phrase.category, Form.category])

/-- A term is read as the term that it is. -/
theorem choose_terms (h : Written (.phrase p) w) (hp : p.category ∈ terms)
    (hread : Rereads (.phrase p) w) (hparent : parent.takesStatements = false)
    (hrest : Clear rest) :
    full.choose terms parent (w ++ rest) = .ok (some (p, rest)) := by
  have hphrase := hread rest (hrest.allows hp)
  have hcall {name opening : Token} (hname : name.kind = .name) (hopening : opening.kind = .leftParen)
      (tokens : List Token) :
      full.choose terms parent (name :: opening :: tokens) =
        phrase full .call (name :: opening :: tokens) := by
    have hselector : accepts full .selector parent (name :: opening :: tokens) = false := by
      have hlength : subjectLength (name :: opening :: tokens) = some 1 := by
        simp [subjectLength, Token.isOneOf, hname, newlines, simpleKinds, referenceHeads]
      have hquestion : Lookahead.startsWith [.question] newlines (opening :: tokens) = false := by
        rw [startsWith_cons (by simp [hopening, newlines])]
        simp [hopening]
      simp only [accepts, atSelector, hlength, List.drop_succ_cons, List.drop_zero, hquestion]
    have hhere : accepts full .call parent (name :: opening :: tokens) = true := by
      have hfits : Lookahead.fits [] [[.name], [.leftParen]] (name :: opening :: tokens) = true := by
        rw [fits_cons (by simp), fits_cons (by simp)]
        simp [Lookahead.fits, hopening, hname]
      simp [accepts, atPattern, Category.rule, hfits]
    rw [full_choose, terms, chooseFrom_full_cons, hselector, if_neg (by simp),
      chooseFrom_here hhere]
  cases h with
  | simple ht => exact choose_simple hparent ht hrest.toDetached
  | parens hopening =>
    exact (choose_terms_opened hparent (show (Category.parens, [Kind.leftParen]) ∈ opened by decide)
      (List.mem_singleton.mpr hopening)).trans hphrase
  | unary hoperator =>
    exact (choose_terms_opened hparent
      (show (Category.unary, [Kind.bang, .minus]) ∈ opened by decide) hoperator).trans hphrase
  | hash hopening =>
    exact (choose_terms_opened hparent (show (Category.hash, [Kind.leftBrace]) ∈ opened by decide)
      (List.mem_singleton.mpr hopening)).trans hphrase
  | list hopening =>
    exact (choose_terms_opened hparent (show (Category.list, [Kind.leftBracket]) ∈ opened by decide)
      (List.mem_singleton.mpr hopening)).trans hphrase
  | emptyCall hname hopening => exact (hcall hname hopening _).trans hphrase
  | call hname hopening => exact (hcall hname hopening _).trans hphrase
  | @reference head index indexes w hhead lists =>
    have hbracket : Lookahead.startsWith [.leftBracket] [] rest = false :=
      startsWith_mono (by simp) hrest.bracket
    have hselector : accepts full .selector parent (head :: w ++ rest) = false := by
      have hdrop : (head :: w ++ rest).drop (w.length + 1) = rest := List.drop_left' rfl
      simp only [accepts, atSelector, subjectLength_reference hhead lists hbracket, hdrop,
        hrest.question]
    have hcall : accepts full .call parent (head :: w ++ rest) = false := by
      have hname : [Kind.name].contains head.kind = false := by
        have hkinds : ∀ kind ∈ referenceHeads, [Kind.name].contains kind = false := by decide
        exact hkinds _ hhead
      have hfits : Lookahead.fits [] [[.name], [.leftParen]] (head :: (w ++ rest)) = false := by
        rw [fits_cons (by simp), hname, Bool.false_and]
      simp [accepts, hparent, atPattern, Category.rule, hfits]
    obtain ⟨t, v, rfl, ht⟩ := lists.indexes_opens
    rw [full_choose, terms, chooseFrom, hselector, if_neg (by simp), chooseFrom, hcall,
      if_neg (by simp)]
    exact (chooseFrom_here (accepts_reference hhead ht _)).trans hphrase
  | @selector subject items question opening closing v u hsubject first hquestion =>
    have hbracket {kinds : List Kind} (hkinds : kinds ⊆ [.leftParen, .leftBracket]) :
        Lookahead.startsWith kinds [] (question :: opening :: (u ++ [closing]) ++ rest) = false :=
      startsWith_separator (by simp [hquestion, separators]) (by simp) hkinds
    have hlength : subjectLength (v ++ (question :: opening :: (u ++ [closing]) ++ rest)) =
        some v.length := by
      cases first with
      | simple ht => exact subjectLength_simple ht (hbracket (by simp))
      | reference hhead lists => exact subjectLength_reference hhead lists (hbracket (by simp))
      | _ => exact absurd hsubject (by simp [Phrase.category, Form.category])
    have hhere : accepts full .selector parent
        (v ++ question :: opening :: (u ++ [closing]) ++ rest) = true := by
      rw [List.append_assoc]
      simp only [accepts, atSelector, hlength, List.drop_left]
      rw [List.cons_append, startsWith_cons (by simp [hquestion, newlines])]
      simp [hquestion]
    rw [full_choose, terms, chooseFrom_here hhere]
    exact hphrase
  | pair => exact absurd hp (by simp [Phrase.category, Form.category, terms])
  | expression => exact absurd hp (by simp [Phrase.category, Form.category, terms])
  | assignment => exact absurd hp (by simp [Phrase.category, Form.category, terms])

/-- An expression is read where one is asked for. -/
theorem Written.reads_expression (h : Written (.phrase p) w) (hp : p.category = .expression)
    (hread : Rereads (.phrase p) w) (hrest : Ended rest) (usage : Usage) :
    full.choose [.expression] parent (lead usage (w ++ rest)) = .ok (some (p, rest)) := by
  have hphrase := hread rest (by rw [hp]; exact hrest)
  rw [hp] at hphrase
  rw [h.lead_eq, choose_eq_phrase_expression, hphrase]

/-- An item is read as what it is. -/
theorem Written.reads_item (h : Written (.phrase p) w) (hp : p.category ∈ [Category.expression, .pair])
    (hread : Rereads (.phrase p) w) (hrest : Ended rest) :
    full.choose (orComments p.category) parent (w ++ rest) = .ok (some (p, rest)) := by
  have hphrase := hread rest (by
    revert hp
    cases p.category <;> first | exact fun _ => hrest | exact fun hp => absurd hp (by decide))
  have hhere : accepts full p.category parent (w ++ rest) = true := by
    cases h with
    | @pair key arrow value w hkey harrow =>
      have hkinds : ∀ kind ∈ keyKinds ++ arrows, kind ∉ newlines := by decide
      have hfits : Lookahead.fits newlines [keyKinds, arrows] (key :: arrow :: (w ++ rest)) = true := by
        rw [fits_cons (hkinds _ (List.mem_append_left _ hkey)),
          fits_cons (hkinds _ (List.mem_append_right _ harrow))]
        simp [Lookahead.fits, hkey, harrow]
      simp [Phrase.category, Form.category, accepts, atPattern, Category.rule, hfits]
    | expression => rfl
    | _ => exact absurd hp (by simp [Phrase.category, Form.category])
  have hcomment : ∀ c ∈ [Category.comment, .blockComment], accepts full c parent (w ++ rest) = false := by
    obtain ⟨t, v, rfl, ht, -⟩ := h.opens
    have hkinds : ∀ c ∈ [Category.expression, .pair],
        Kind.comment ∉ Plain.opens c ∧ Kind.blockComment ∉ Plain.opens c := by decide
    have hkind {kind : Kind} (hnot : kind ∉ Plain.opens p.category) : t.kind ∉ [kind] := by
      rw [List.mem_singleton]
      rintro rfl
      exact hnot ht
    simp only [List.forall_mem_cons, List.not_mem_nil, false_implies, implies_true, and_true]
    exact ⟨accepts_known (not_newline_of_opens ht) rfl rfl (hkind (hkinds _ hp).1),
      accepts_known (not_newline_of_opens ht) rfl rfl (hkind (hkinds _ hp).2)⟩
  calc full.choose (orComments p.category) parent (w ++ rest)
    _ = chooseFrom full [p.category] parent (w ++ rest) := by
      rw [full_choose]
      exact chooseFrom_append hcomment
    _ = _ := (chooseFrom_here hhere).trans hphrase

end

section

variable {owner category : Category} {closing : Token} {rest : List Token}

/-- A closing bracket is no item. -/
theorem once_items_stop (hcategory : category ∈ [Category.expression, .pair])
    (hclosing : closing.kind ∈ [Kind.rightBrace, .rightBracket]) :
    once full owner (Grammar.items (orComments category)) (closing :: rest) = .ok none := by
  have hkinds : ∀ kind ∈ [Kind.rightBrace, .rightBracket],
      kind ∉ newlines ∧ kind ∉ expressionOpens ∧ kind ∉ [Kind.comment] ∧ kind ∉ [Kind.blockComment] ∧
        keyKinds.contains kind = false := by decide
  obtain ⟨hnewline, hopens, hcomment, hblock, hkey⟩ := hkinds _ hclosing
  have hcomments : ∀ c ∈ [Category.comment, .blockComment],
      accepts full c owner (closing :: rest) = false := by
    simp only [List.forall_mem_cons, List.not_mem_nil, false_implies, implies_true, and_true]
    exact ⟨accepts_known hnewline rfl rfl hcomment, accepts_known hnewline rfl rfl hblock⟩
  have hlast : full.choose [category] owner (closing :: rest) = .ok none := by
    simp only [List.mem_cons, List.not_mem_nil, or_false] at hcategory
    rcases hcategory with rfl | rfl
    · exact choose_expression_none hnewline hopens
    · have hnot : accepts full .pair owner (closing :: rest) = false := by
        have hfits : Lookahead.fits newlines [keyKinds, arrows] (closing :: rest) = false := by
          rw [fits_cons hnewline, hkey, Bool.false_and]
        simp [accepts, atPattern, Category.rule, hfits]
      rw [full_choose, chooseFrom, hnot]
      rfl
  have hnone : full.choose (orComments category) owner (closing :: rest) = .ok none := by
    rw [full_choose] at hlast ⊢
    exact (chooseFrom_append hcomments).trans hlast
  have hlead (usage : Usage) : lead usage (closing :: rest) = closing :: rest :=
    lead_cons (by simpa [newlines] using hnewline) usage rest
  have hstop : once full owner ((Step.oneOf (orComments category)).named "items")
      (closing :: rest) = .ok none := by
    refine once_node_stop ?_
    rw [hlead]
    exact hnone
  show once full owner (.group _ [_, _]) _ = _
  rw [once, hlead, inOrder_single rfl rfl, hstop, andThen_none]

/-- Newlines in front of an item are skipped. -/
theorem once_items_newline {t : Token} (ht : t.kind = .newline) (categories : List Category)
    (tokens : List Token) :
    once full owner (Grammar.items categories) (t :: tokens) =
      once full owner (Grammar.items categories) tokens := by
  show once full owner (.group _ _) _ = once full owner (.group _ _) _
  rw [once, once]
  simp [lead, Lookahead.significant, Token.isOneOf, newlines, ht]

/-- An item with its comma. -/
theorem once_items_comma {p : Phrase} {w : List Token} {comma : Token} (h : Written (.phrase p) w)
    (hp : p.category ∈ [Category.expression, .pair]) (hread : Rereads (.phrase p) w)
    (hcomma : comma.kind = .comma) :
    once full owner (Grammar.items (orComments p.category)) (w ++ comma :: rest) =
      .ok (some ([sub "items" p, word comma], rest)) := by
  have hnext : inOrder full owner [(Step.expect [.comma]).maybe] (comma :: rest) =
      .ok (some ([word comma], rest)) :=
    inOrder_token rfl (lead_cons (by simp [hcomma]) _ rest) (List.mem_singleton.mpr hcomma) rfl
  show once full owner (.group _ [_, _]) _ = _
  rw [once, h.lead_eq]
  refine inOrder_node rfl ?_ hnext
  rw [h.lead_eq]
  exact h.reads_item hp hread (ended_cons hcomma (by decide))

/-- The last item has no comma. -/
theorem once_items_last {p : Phrase} {w : List Token} (h : Written (.phrase p) w)
    (hp : p.category ∈ [Category.expression, .pair]) (hread : Rereads (.phrase p) w)
    (hclosing : closing.kind ∈ [Kind.rightBrace, .rightBracket]) :
    once full owner (Grammar.items (orComments p.category)) (w ++ closing :: rest) =
      .ok (some ([sub "items" p], closing :: rest)) := by
  have hkinds : ∀ kind ∈ [Kind.rightBrace, .rightBracket], kind ≠ .newline ∧ kind ∉ [Kind.comma] ∧
      kind ∈ enders := by decide
  obtain ⟨hnewline, hcomma, hended⟩ := hkinds _ hclosing
  have hstop : once full owner (Step.expect [.comma]).maybe (closing :: rest) = .ok none := by
    refine once_token_stop fun t _ hlead => ?_
    rw [lead_cons hnewline] at hlead
    exact (List.cons.inj hlead).1 ▸ hcomma
  have hnext : inOrder full owner [(Step.expect [.comma]).maybe] (closing :: rest) =
      .ok (some ([], closing :: rest)) := by
    rw [inOrder_skip rfl hstop]
    rfl
  show once full owner (.group _ [_, _]) _ = _
  rw [once, h.lead_eq]
  refine inOrder_node rfl ?_ hnext
  rw [h.lead_eq]
  exact h.reads_item hp hread (ended_cons rfl hended)

/-- Items in brackets are read up to the closing one. -/
theorem Rereads.items {ps : List Phrase} {w : List Token} {kind : Kind}
    (h : Rereads (.items category ps) w) (hcategory : category ∈ [Category.expression, .pair])
    (hkind : kind ∈ [Kind.rightBrace, .rightBracket]) (hclosing : closing.kind = kind)
    (owner : Category) (rest : List Token) :
    ∃ trace, inOrder full owner [Grammar.items (orComments category), Step.expect [kind]]
        (w ++ closing :: rest) = .ok (some (trace ++ [word closing], rest)) ∧
      Listed Phrase.category "items" (orComments category) ps trace := by
  obtain ⟨trace, ns, hns, hruns, hlisted⟩ :=
    h hcategory owner closing rest (by rw [hclosing]; exact hkind)
  have hkinds : ∀ kind ∈ [Kind.rightBrace, .rightBracket], kind ≠ .newline := by decide
  have hlead (usage : Usage) (hline : usage.sameLine = false) :
      lead usage (ns ++ closing :: rest) = closing :: rest := by
    have hnot : closing.isOneOf newlines = false := by
      simpa [Token.isOneOf, newlines, hclosing] using hkinds _ hkind
    have hskip : ∀ n ∈ ns, n.isOneOf newlines = true := by
      intro n hn
      simp [Token.isOneOf, newlines, hns n hn]
    simp only [lead, hline, Bool.false_eq_true, if_false, Lookahead.significant]
    rw [List.dropWhile_append_of_pos hskip, List.dropWhile_cons_of_neg (by simp [hnot])]
  have hlast : inOrder full owner [Step.expect [kind]] (ns ++ closing :: rest) =
      .ok (some ([word closing], rest)) :=
    inOrder_token rfl (hlead _ rfl) (List.mem_singleton.mpr hclosing) rfl
  refine ⟨trace, ?_, hlisted⟩
  rw [inOrder_runs rfl rfl hruns, hlast]
  rfl

end

section

variable {t opening closing : Token} {p : Phrase} {v w rest : List Token} {owner : Category}

theorem lead_of_mem {kinds : List Kind} (ht : t.kind ∈ kinds) (hkinds : .newline ∉ kinds)
    (usage : Usage) (rest : List Token) : lead usage (t :: rest) = t :: rest :=
  lead_cons (fun hnewline => hkinds (hnewline ▸ ht)) usage rest

theorem lead_of_eq {kind : Kind} (ht : t.kind = kind) (hkind : kind ≠ .newline) (usage : Usage)
    (rest : List Token) : lead usage (t :: rest) = t :: rest :=
  lead_cons (ht ▸ hkind) usage rest

theorem not_newline_of_mem {kinds : List Kind} (ht : t.kind ∈ kinds) (hkinds : .newline ∉ kinds) :
    t.kind ∉ newlines :=
  fun hnewline => hkinds (List.mem_singleton.mp hnewline ▸ ht)

/-- One token of a certain kind. -/
theorem inOrder_expect {kind : Kind} (ht : t.kind = kind) (hkind : kind ≠ .newline) :
    inOrder full owner [Step.expect [kind]] (t :: rest) = .ok (some ([word t], rest)) :=
  inOrder_token rfl (lead_of_eq ht hkind _ _) (List.mem_singleton.mpr ht) rfl

/-- A value in parentheses is read as it stands. -/
theorem phrase_parens (hopening : opening.kind = .leftParen) (hp : p.category = .expression)
    (value : Written (.phrase p) w) (hread : Rereads (.phrase p) w)
    (hclosing : closing.kind = .rightParen) :
    phrase full .parens (opening :: (w ++ closing :: rest)) =
      .ok (some (⟨opening.line, .parens p⟩, rest)) := by
  refine phrase_of_schema (.parens hopening hp hclosing) (by decide)
    (not_newline_of_mem (List.mem_singleton.mpr hopening) (by decide)) ?_
  refine inOrder_token rfl (lead_of_eq hopening (by decide) _ _) (List.mem_singleton.mpr hopening) ?_
  exact inOrder_node rfl (value.reads_expression hp hread (ended_cons hclosing (by decide)) _)
    (inOrder_expect hclosing (by decide))

/-- A value after an operator is read as it stands. -/
theorem phrase_unary (ht : t.kind ∈ [Kind.bang, .minus]) (hp : p.category ∈ terms)
    (value : Written (.phrase p) w) (hread : Rereads (.phrase p) w) (hrest : Clear rest) :
    phrase full .unary (t :: (w ++ rest)) = .ok (some (⟨t.line, .unary t p⟩, rest)) := by
  refine phrase_of_schema (.unary ht hp) (by decide) (not_newline_of_mem ht (by decide)) ?_
  refine inOrder_token rfl (lead_of_mem ht (by decide) _ _) ht (inOrder_node rfl ?_ rfl)
  rw [value.lead_eq]
  exact choose_terms value hp hread rfl hrest

/-- A key or a variable with its value. -/
theorem inOrder_binding {first second : String} {kinds kinds' : List Kind} {operator : Token}
    (ht : t.kind ∈ kinds) (hkinds : .newline ∉ kinds) (hoperator : operator.kind ∈ kinds')
    (hkinds' : .newline ∉ kinds') (hp : p.category = .expression) (value : Written (.phrase p) w)
    (hread : Rereads (.phrase p) w) (hrest : Ended rest) :
    inOrder full owner [(Step.expect kinds).named first, (Step.expect kinds').named second,
        (Step.oneOf [.expression]).named "value"] (t :: operator :: (w ++ rest)) =
      .ok (some ([Plain.named first t, Plain.named second operator, sub "value" p], rest)) := by
  refine inOrder_token rfl (lead_of_mem ht hkinds _ _) ht ?_
  refine inOrder_token rfl (lead_of_mem hoperator hkinds' _ _) hoperator ?_
  exact inOrder_node rfl (value.reads_expression hp hread hrest _) rfl

/-- An expression is read as it stands, if what follows ends it. -/
theorem phrase_expression {parts : List (Part Phrase)} (hp : p.category ∈ terms)
    (first : Written (.phrase p) v) (hfirst : Rereads (.phrase p) v) (more : Written (.parts parts) w)
    (hmore : Rereads (.parts parts) w) (hrest : Ended rest) :
    phrase full .expression (v ++ (w ++ rest)) =
      .ok (some (⟨firstLine v, .expression (.term p :: parts)⟩, rest)) := by
  obtain ⟨trace, hruns, hoperated⟩ := hmore rest hrest
  have hsteps : inOrder full .expression [(Step.oneOf terms).named "parts", operation]
      (v ++ (w ++ rest)) = .ok (some (sub "parts" p :: trace, rest)) := by
    refine inOrder_node rfl ?_ (by rw [inOrder_runs rfl rfl hruns]; simp [inOrder])
    rw [first.lead_eq]
    exact choose_terms first hp hfirst rfl (more.clear hrest)
  obtain ⟨t, v, rfl, ht, -⟩ := first.opens
  exact phrase_of_schema (.expression hp hoperated) (by decide) (not_newline_of_opens ht) hsteps

/-- A reference is read as it stands, if no further index follows. -/
theorem phrase_reference {index : Phrase} {indexes : List Phrase} (ht : t.kind ∈ referenceHeads)
    (hindexes : ∀ q ∈ index :: indexes, q.category = .list)
    (hread : Rereads (.indexes (index :: indexes)) w)
    (hrest : Lookahead.startsWith [.leftBracket] newlines rest = false) :
    phrase full .reference (t :: (w ++ rest)) =
      .ok (some (⟨t.line, .reference t (index :: indexes)⟩, rest)) := by
  refine phrase_of_schema (.reference ht hindexes) (by decide) (not_newline_of_mem ht (by decide)) ?_
  refine inOrder_token rfl (lead_of_mem ht (by decide) _ _) ht ?_
  show inOrder full .reference [indexStep] _ = _
  rw [inOrder, used_of_runs_ne_nil rfl (hread rest hrest) (by simp)]
  simp [inOrder]

/-- A list of items in brackets. -/
theorem phrase_items {category : Category} {form : Form Phrase} {kind kind' : Kind} {items : List Phrase}
    (hrule : owner.rule.steps =
      [Step.expect [kind], Grammar.items (orComments category), Step.expect [kind']])
    (hresource : owner ≠ .resource) (hkind : kind ≠ .newline)
    (hschema : ∀ trace, Listed Phrase.category "items" (orComments category) items trace →
      Schema Phrase.category owner form (word opening :: (trace ++ [word closing])))
    (hcategory : category ∈ [Category.expression, .pair])
    (hkind' : kind' ∈ [Kind.rightBrace, .rightBracket]) (hopening : opening.kind = kind)
    (hread : Rereads (.items category items) w) (hclosing : closing.kind = kind') :
    phrase full owner (opening :: (w ++ closing :: rest)) =
      .ok (some (⟨opening.line, form⟩, rest)) := by
  obtain ⟨trace, hsteps, hlisted⟩ := hread.items hcategory hkind' hclosing owner rest
  refine phrase_of_schema (hschema trace hlisted) hresource (by simpa [newlines, hopening] using hkind) ?_
  rw [hrule]
  exact inOrder_token rfl (lead_of_eq hopening hkind _ _) (List.mem_singleton.mpr hopening) hsteps

/-- A selector is read as it stands. -/
theorem phrase_selector {question : Token} {items : List Phrase}
    (hp : p.category ∈ [Category.reference, .simple]) (first : Written (.phrase p) v)
    (hfirst : Rereads (.phrase p) v) (hquestion : question.kind = .question)
    (hopening : opening.kind = .leftBrace) (hread : Rereads (.items .pair items) w)
    (hclosing : closing.kind = .rightBrace) :
    phrase full .selector (v ++ question :: opening :: (w ++ closing :: rest)) =
      .ok (some (⟨firstLine v, .selector p items⟩, rest)) := by
  obtain ⟨trace, hitems, hlisted⟩ := hread.items (by decide) (by decide) hclosing .selector rest
  have hsteps : inOrder full .selector Category.selector.rule.steps
      (v ++ question :: opening :: (w ++ closing :: rest)) =
        .ok (some (sub "subject" p :: word question :: word opening :: (trace ++ [word closing]),
          rest)) := by
    refine inOrder_node rfl (by rw [first.lead_eq]; exact choose_subject first hp hfirst hquestion) ?_
    refine inOrder_token rfl (lead_of_eq hquestion (by decide) _ _)
      (List.mem_singleton.mpr hquestion) ?_
    exact inOrder_token rfl (lead_of_eq hopening (by decide) _ _) (List.mem_singleton.mpr hopening)
      hitems
  obtain ⟨t, v, rfl, ht, -⟩ := first.opens
  exact phrase_of_schema (.selector hp hquestion hopening hlisted hclosing) (by decide)
    (not_newline_of_opens ht) hsteps

end

section

variable {name opening closing : Token} {v w rest : List Token} {args : List Phrase}

/-- The end of a call, after its first argument or without one. -/
theorem Rereads.inOrder_further (h : Rereads (.further args) w) (hclosing : closing.kind = .rightParen)
    (rest : List Token) : ∃ trace, inOrder full .call (parenthesizedCall.drop 3) (w ++ closing :: rest) =
        .ok (some (trace ++ [word closing], rest)) ∧
      Further Phrase.category "args" args trace := by
  have hnext : Lookahead.startsWith [.comma] newlines (closing :: rest) = false := by
    rw [startsWith_cons (by simp [hclosing, newlines])]
    simp [hclosing]
  obtain ⟨trace, hruns, hfurther⟩ :=
    h "args" .call (closing :: rest) (ended_cons hclosing (by decide)) hnext
  have hcomma : once full .call (Step.expect [.comma]).maybe (closing :: rest) = .ok none := by
    refine once_token_stop fun t _ ht => ?_
    rw [lead_of_eq hclosing (by decide)] at ht
    rw [← (List.cons.inj ht).1, hclosing]
    decide
  refine ⟨trace, ?_, hfurther⟩
  show inOrder full .call
    [Plain.further "args", (Step.expect [.comma]).maybe, Step.expect [.rightParen]] _ = _
  rw [inOrder_runs rfl rfl hruns, inOrder_skip rfl hcomma, inOrder_expect hclosing (by decide)]
  rfl

/-- A call is read in its parentheses. -/
theorem phrase_call {form : Form Phrase} {trace : Trace Phrase} {tokens : List Token}
    (hname : name.kind = .name) (hopening : opening.kind = .leftParen)
    (schema : Schema Phrase.category .call form
      (Plain.named "name" name :: Plain.named "open" opening :: trace))
    (h : inOrder full .call (parenthesizedCall.drop 2) tokens = .ok (some (trace, rest))) :
    phrase full .call (name :: opening :: tokens) = .ok (some (⟨name.line, form⟩, rest)) := by
  have hlead := lead_of_eq hname (by decide)
  have hbranch : inOrder full .call parenthesizedCall (name :: opening :: tokens) =
      .ok (some (Plain.named "name" name :: Plain.named "open" opening :: trace, rest)) :=
    inOrder_token rfl (hlead _ _) (List.mem_singleton.mpr hname)
      (inOrder_token rfl (lead_of_eq hopening (by decide) _ _) (List.mem_singleton.mpr hopening) h)
  refine phrase_of_schema schema (by decide) (by rw [hname]; decide) ?_
  show inOrder full .call [Step.firstOf [parenthesizedCall, bareCall]] _ = _
  rw [inOrder_single rfl rfl, Step.firstOf, once, hlead, firstOf_here hbranch, andThen_some]
  simp [inOrder]

theorem rereads_noFurther : Rereads (.further []) [] :=
  fun _ _ _ _ hcomma => ⟨[], .stop (once_group_stop rfl rfl hcomma), .nil⟩

/-- A call without arguments is read as it stands. -/
theorem phrase_emptyCall (hname : name.kind = .name) (hopening : opening.kind = .leftParen)
    (hclosing : closing.kind = .rightParen) :
    phrase full .call (name :: opening :: closing :: rest) =
      .ok (some (⟨name.line, .call name [] true⟩, rest)) := by
  obtain ⟨trace, hsteps, hfurther⟩ := rereads_noFurther.inOrder_further hclosing rest
  refine phrase_call hname hopening (.call hname hopening .none hfurther .none hclosing) ?_
  have harg : once full .call ((Step.oneOf [.expression]).named "args").maybe (closing :: rest) =
      .ok none := by
    refine once_node_stop ?_
    rw [lead_of_eq hclosing (by decide)]
    exact choose_expression_none (by rw [hclosing]; decide) (by rw [hclosing]; decide)
  exact (inOrder_skip rfl harg).trans hsteps

/-- A call with arguments in parentheses is read as it stands. -/
theorem phrase_fullCall {arg : Phrase} (hname : name.kind = .name) (hopening : opening.kind = .leftParen)
    (harg : arg.category = .expression) (first : Written (.phrase arg) v)
    (hfirst : Rereads (.phrase arg) v) (more : Written (.further args) w)
    (hmore : Rereads (.further args) w) (hclosing : closing.kind = .rightParen) :
    phrase full .call (name :: opening :: (v ++ (w ++ closing :: rest))) =
      .ok (some (⟨name.line, .call name (arg :: args) true⟩, rest)) := by
  obtain ⟨trace, hsteps, hfurther⟩ := hmore.inOrder_further hclosing rest
  refine phrase_call hname hopening
    (.call hname hopening (.some (List.mem_singleton.mpr harg)) hfurther .none hclosing) ?_
  exact inOrder_node rfl (first.reads_expression harg hfirst
    (more.ended (ended_cons hclosing (by decide))) _) hsteps

/-- A further expression is read after its comma. -/
theorem Rereads.further {p : Phrase} {comma : Token} (hcomma : comma.kind = .comma)
    (hp : p.category = .expression) (first : Written (.phrase p) v) (hfirst : Rereads (.phrase p) v)
    (more : Written (.further args) w) (hmore : Rereads (.further args) w) :
    Rereads (.further (p :: args)) (comma :: (v ++ w)) := by
  intro label owner rest hrest hnext
  obtain ⟨trace, hruns, hfurther⟩ := hmore label owner rest hrest hnext
  have hstep : once full owner (Plain.further label) (comma :: (v ++ (w ++ rest))) =
      .ok (some ([word comma, sub label p], w ++ rest)) := by
    show once full owner (.group _ [_, _]) _ = _
    rw [once, lead_of_eq hcomma (by decide)]
    refine inOrder_token rfl (lead_of_eq hcomma (by decide) _ _) (List.mem_singleton.mpr hcomma) ?_
    exact inOrder_node rfl (first.reads_expression hp hfirst (more.ended hrest) _) rfl
  refine ⟨word comma :: sub label p :: trace, ?_, .cons hcomma hp hfurther⟩
  have htokens : comma :: (v ++ w) ++ rest = comma :: (v ++ (w ++ rest)) := by simp
  rw [htokens]
  exact .step hstep (by simp only [List.length_append, List.length_cons]; omega) hruns

end

section

variable {p : Phrase} {v w : List Token}

/-- Items are read after a newline as they are without it. -/
theorem Rereads.newline {category : Category} {ps : List Phrase} {t : Token} (ht : t.kind = .newline)
    (h : Rereads (.items category ps) w) : Rereads (.items category ps) (t :: w) := by
  intro hcategory owner closing rest hclosing
  obtain ⟨trace, ns, hns, hruns, hlisted⟩ := h hcategory owner closing rest hclosing
  -- the newline is left where it is if no item follows
  generalize htokens : w ++ closing :: rest = tokens at hruns
  generalize hleft : ns ++ closing :: rest = left at hruns
  cases hruns with
  | stop hnone =>
    refine ⟨[], t :: ns, by simpa using ⟨ht, hns⟩, ?_, hlisted⟩
    rw [List.cons_append, List.cons_append, htokens, hleft]
    exact .stop (by rw [once_items_newline ht, hnone])
  | step hstep hlt more =>
    refine ⟨_, ns, hns, ?_, hlisted⟩
    rw [List.cons_append, htokens, hleft]
    exact .step (by rw [once_items_newline ht, hstep]) (by simp only [List.length_cons]; omega) more

/-- The last item is read as it stands. -/
theorem Rereads.lastItem (last : Written (.phrase p) w) (h : Rereads (.phrase p) w) :
    Rereads (.items p.category [p]) w := by
  intro hcategory owner closing rest hclosing
  have hnonempty : 0 < w.length := by
    obtain ⟨t, v, rfl, -⟩ := last.opens
    simp
  have hruns : Runs (fun tokens => once full owner (Grammar.items (orComments p.category)) tokens)
      (w ++ closing :: rest) [sub "items" p] (closing :: rest) :=
    .step (once_items_last last hcategory h hclosing) (by simpa using hnonempty)
      (.stop (once_items_stop hcategory hclosing))
  exact ⟨_, [], by simp, hruns, .plain (by simp [orComments]) .nil⟩

/-- An item with a comma after it is read as it stands. -/
theorem Rereads.item {ps : List Phrase} {comma : Token} (first : Written (.phrase p) v)
    (hfirst : Rereads (.phrase p) v) (hcomma : comma.kind = .comma)
    (hmore : Rereads (.items p.category ps) w) :
    Rereads (.items p.category (p :: ps)) (v ++ comma :: w) := by
  intro hcategory owner closing rest hclosing
  obtain ⟨trace, ns, hns, hruns, hlisted⟩ := hmore hcategory owner closing rest hclosing
  refine ⟨sub "items" p :: word comma :: trace, ns, hns, ?_,
    .comma (by simp [orComments]) hcomma hlisted⟩
  rw [List.append_assoc, List.cons_append]
  exact .step (once_items_comma first hcategory hfirst hcomma)
    (by simp only [List.length_append, List.length_cons]; omega) hruns

/-- No index is read where none stands. -/
theorem rereads_noIndex : Rereads (.indexes []) [] := by
  intro rest hrest
  have hlist : full.choose [.list] .reference rest = .ok none := by
    have hnot : accepts full .list .reference rest = false := by
      simp [accepts, atPattern, Category.rule, fits_single, hrest]
    rw [full_choose, chooseFrom, hnot]
    rfl
  exact .stop (once_node_stop hlist)

/-- An index is read as it stands. -/
theorem Rereads.index {ps : List Phrase} (hp : p.category = .list) (first : Written (.phrase p) v)
    (hfirst : Rereads (.phrase p) v) (hmore : Rereads (.indexes ps) w) :
    Rereads (.indexes (p :: ps)) (v ++ w) := by
  intro rest hrest
  have hphrase := hfirst (w ++ rest) (by rw [hp]; trivial)
  obtain ⟨t, u, rfl, ht, -⟩ := first.opens
  rw [hp] at ht hphrase
  have hlist : full.choose [.list] .reference (t :: u ++ (w ++ rest)) = .ok (some (p, w ++ rest)) := by
    have hhere : accepts full .list .reference (t :: u ++ (w ++ rest)) = true := by
      rw [List.cons_append, accepts_first (not_newline_of_opens (c := .list) ht) rfl rfl]
      simpa [opens] using ht
    rw [full_choose, chooseFrom_here hhere, hphrase]
  rw [List.append_assoc]
  exact .step (once_node hlist) (by simp only [List.length_cons, List.length_append]; omega)
    (hmore rest hrest)

/-- An operator and a term are read as they stand. -/
theorem Rereads.part {t : Token} {parts : List (Part Phrase)} (ht : t.kind ∈ binaryOperators)
    (hp : p.category ∈ terms) (first : Written (.phrase p) v) (hfirst : Rereads (.phrase p) v)
    (more : Written (.parts parts) w) (hmore : Rereads (.parts parts) w) :
    Rereads (.parts (.operator t :: .term p :: parts)) (t :: (v ++ w)) := by
  intro rest hrest
  obtain ⟨trace, hruns, hoperated⟩ := hmore rest hrest
  have hterm (usage : Usage) : full.choose terms .expression (lead usage (v ++ (w ++ rest))) =
      .ok (some (p, w ++ rest)) := by
    rw [first.lead_eq]
    exact choose_terms first hp hfirst rfl (more.clear hrest)
  have hstep : once full .expression operation (t :: (v ++ (w ++ rest))) =
      .ok (some ([Plain.named "parts" t, sub "parts" p], w ++ rest)) := by
    show once full .expression (.group _ [_, _]) _ = _
    rw [once, lead_of_mem ht (by decide)]
    exact inOrder_token rfl (lead_of_mem ht (by decide) _ _) ht (inOrder_node rfl (hterm _) rfl)
  refine ⟨Plain.named "parts" t :: sub "parts" p :: trace, ?_, .cons ht hp hoperated⟩
  have htokens : t :: (v ++ w) ++ rest = t :: (v ++ (w ++ rest)) := by simp
  rw [htokens]
  exact .step hstep (by simp only [List.length_append, List.length_cons]; omega) hruns

end

/-- Indexes are lists. -/
theorem Written.indexes_lists {ps : List Phrase} {w : List Token} (h : Written (.indexes ps) w) :
    ∀ p ∈ ps, p.category = .list := by
  induction ps generalizing w with
  | nil => simp
  | cons p ps ih =>
    cases h with
    | index hp _ more => exact List.forall_mem_cons.mpr ⟨hp, ih more⟩

/-- What is written is read as what it stands for, and reading stops where it ends. -/
theorem Written.rereads {r : Shape} {w : List Token} (h : Written r w) : Rereads r w := by
  have hbracketed {t closing : Token} {w : List Token} (rest : List Token) :
      t :: (w ++ [closing]) ++ rest = t :: (w ++ closing :: rest) := by simp
  induction h with
  | simple ht => exact fun rest _ => phrase_simple ht rest
  | parens hopening hinner value hclosing ih =>
    intro rest _
    rw [hbracketed]
    exact phrase_parens hopening hinner value ih hclosing
  | unary hoperator hoperand value ih =>
    exact fun rest hrest => phrase_unary hoperator hoperand value ih hrest
  | emptyCall hname hopening hclosing => exact fun rest _ => phrase_emptyCall hname hopening hclosing
  | @call name opening closing arg args v w hname hopening harg first more hclosing ihfirst ihmore =>
    intro rest _
    have htokens : name :: opening :: (v ++ (w ++ [closing])) ++ rest =
        name :: opening :: (v ++ (w ++ closing :: rest)) := by simp
    rw [htokens]
    exact phrase_fullCall hname hopening harg first ihfirst more ihmore hclosing
  | reference hhead lists ih =>
    exact fun rest hrest => phrase_reference hhead lists.indexes_lists ih hrest
  | hash hopening _ hclosing ih =>
    intro rest _
    rw [hbracketed]
    show phrase full .hash _ = _
    exact phrase_items rfl (by decide) (by decide) (fun _ hlisted => .hash hopening hlisted hclosing)
      (by decide) (by decide) hopening ih hclosing
  | list hopening _ hclosing ih =>
    intro rest _
    rw [hbracketed]
    show phrase full .list _ = _
    exact phrase_items rfl (by decide) (by decide) (fun _ hlisted => .list hopening hlisted hclosing)
      (by decide) (by decide) hopening ih hclosing
  | @selector subject items question opening closing v w hsubject first hquestion hopening _ hclosing
      ihfirst ihpairs =>
    intro rest _
    rw [List.append_assoc, List.cons_append, hbracketed]
    exact phrase_selector hsubject first ihfirst hquestion hopening ihpairs hclosing
  | pair hkey harrow hvalue right ih =>
    intro rest hrest
    show phrase full .pair _ = _
    exact phrase_of_schema (.pair hkey harrow hvalue) (by decide) (not_newline_of_mem hkey (by decide))
      (inOrder_binding hkey (by decide) harrow (by decide) hvalue right ih hrest)
  | expression hterm first more ihfirst ihmore =>
    intro rest hrest
    rw [List.append_assoc]
    exact phrase_expression hterm first ihfirst more ihmore hrest
  | assignment hname hoperator hvalue right ih =>
    intro rest hrest
    have hname' := List.mem_singleton.mpr hname
    show phrase full .assignment _ = _
    exact phrase_of_schema (.assignment hname hoperator hvalue) (by decide)
      (not_newline_of_mem hname' (by decide))
      (inOrder_binding hname' (by decide) hoperator (by decide) hvalue right ih hrest)
  | noItem =>
    intro hcategory owner closing rest hclosing
    exact ⟨[], [], by simp, .stop (once_items_stop hcategory hclosing), .nil⟩
  | newline ht _ ih => exact ih.newline ht
  | lastItem last ih => exact .lastItem last ih
  | item first hcomma _ ihfirst ihmore => exact .item first ihfirst hcomma ihmore
  | noFurther => exact rereads_noFurther
  | further hcomma hp first more ihfirst ihmore => exact .further hcomma hp first ihfirst more ihmore
  | noIndex => exact rereads_noIndex
  | index hp first _ ihfirst ihmore => exact .index hp first ihfirst ihmore
  | noPart =>
    intro rest hrest
    exact ⟨[], .stop (once_group_stop rfl rfl hrest.operator), .nil⟩
  | part ht hp first more ihfirst ihmore => exact .part ht hp first ihfirst more ihmore

end TidyManifest.Plain
