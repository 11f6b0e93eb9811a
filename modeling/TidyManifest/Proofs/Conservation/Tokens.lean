import TidyManifest.Proofs.Agree.Parse
import TidyManifest.Proofs.Conservation.Ink
import TidyManifest.Proofs.Lexing.Spelling
import TidyManifest.Proofs.Plain.First
import TidyManifest.Proofs.Plain.Numbering

/-!
# The ink of tokens

Tokens that spell a phrase have the ink of the phrase (`spells_ink`).  One thing has to be left out
of them: the parentheses of a parameter list that holds nothing, which the contents of a class or
define do not show.
-/

namespace TidyManifest

open Plain Grammar

/-- Tokens, without newlines, after the parentheses of empty parameter lists have been left out:
those that follow the name of a class or define directly. -/
def withoutEmptyParameters : List Token → List Token
  | keyword :: name :: opening :: closing :: rest =>
    if (keyword.kind == .kwClass || keyword.kind == .kwDefine) && name.kind == .name &&
        opening.kind == .leftParen && closing.kind == .rightParen then
      keyword :: name :: withoutEmptyParameters rest
    else keyword :: withoutEmptyParameters (name :: opening :: closing :: rest)
  | tokens => tokens

/-- The tokens that the canonical text of a manifest has to show. -/
def shownTokens (tokens : List Token) : List Token :=
  withoutEmptyParameters (tokens.filter fun t => t.kind != .newline)

/-- The ink of tokens. -/
def tokensInk (tokens : List Token) : List Char :=
  (shownTokens tokens).flatMap fun t => ink t.text

section

variable {t : Token} {tokens rest ns : List Token}

/-- Only the keywords of a class or define can have empty parameters after them. -/
theorem withoutEmptyParameters_cons (h : t.kind ≠ .kwClass ∧ t.kind ≠ .kwDefine)
    (rest : List Token) :
    withoutEmptyParameters (t :: rest) = t :: withoutEmptyParameters rest := by
  match rest with
  | [] => rfl
  | [_] => rfl
  | [_, _] => rfl
  | a :: b :: c :: rest => simp [withoutEmptyParameters, h.1, h.2]

/-- What makes the parentheses after a keyword and a name be left out. -/
def EmptyNext (tokens : List Token) : Prop :=
  ∃ name opening closing rest, tokens = name :: opening :: closing :: rest ∧ name.kind = .name ∧
    opening.kind = .leftParen ∧ closing.kind = .rightParen

/-- A keyword without empty parameters after its name is kept like any other token. -/
theorem withoutEmptyParameters_keyword (h : ¬ EmptyNext rest) :
    withoutEmptyParameters (t :: rest) = t :: withoutEmptyParameters rest := by
  match rest, h with
  | [], _ => rfl
  | [_], _ => rfl
  | [_, _], _ => rfl
  | name :: opening :: closing :: rest, h =>
    rw [withoutEmptyParameters, if_neg]
    intro hcond
    simp only [Bool.and_eq_true, beq_iff_eq] at hcond
    exact h ⟨name, opening, closing, rest, rfl, hcond.1.1.2, hcond.1.2, hcond.2⟩

@[simp] theorem tokensInk_nil : tokensInk [] = [] := rfl

/-- Newlines have no ink, however many there are. -/
theorem tokensInk_newlines (hns : ∀ n ∈ ns, n.kind = .newline) :
    tokensInk (ns ++ tokens) = tokensInk tokens := by
  have : ns.filter (fun t => t.kind != .newline) = [] := by
    simpa [List.filter_eq_nil_iff] using hns
  simp [tokensInk, shownTokens, this]

theorem tokensInk_newline (ht : t.kind = .newline) : tokensInk (t :: tokens) = tokensInk tokens :=
  tokensInk_newlines (show ∀ n ∈ [t], n.kind = .newline by simpa using ht)

/-- A token with a text of its own starts the ink with that text. -/
theorem tokensInk_cons (ht : t.kind ≠ .newline) (h : t.kind ≠ .kwClass ∧ t.kind ≠ .kwDefine) :
    tokensInk (t :: tokens) = ink t.text ++ tokensInk tokens := by
  simp [tokensInk, shownTokens, ht, withoutEmptyParameters_cons h]

/-- A keyword after which nothing is left out. -/
theorem tokensInk_keyword (ht : t.kind ≠ .newline)
    (h : ¬ EmptyNext (tokens.filter fun t => t.kind != .newline)) :
    tokensInk (t :: tokens) = ink t.text ++ tokensInk tokens := by
  simp [tokensInk, shownTokens, ht, withoutEmptyParameters_keyword h]

end

/-- The ink of what a step read. -/
def captureInk : Capture Phrase → List Char
  | .token t => ink t.text
  | .node p => p.ink
  | .block ps => inBraces (ps.map Phrase.ink).flatten

/-- The ink of a trace. -/
def traceInk (trace : Trace Phrase) : List Char :=
  trace.flatMap fun entry => captureInk entry.2

@[simp] theorem traceInk_nil : traceInk [] = [] := rfl

/-- The ink of a trace starts with the ink of its first entry. -/
@[simp] theorem traceInk_cons (entry : Option String × Capture Phrase) (trace : Trace Phrase) :
    traceInk (entry :: trace) = captureInk entry.2 ++ traceInk trace := by
  simp [traceInk]

/-- The ink of a trace is made up entry by entry. -/
@[simp] theorem traceInk_append (first more : Trace Phrase) :
    traceInk (first ++ more) = traceInk first ++ traceInk more := by
  simp [traceInk]

/-- The tokens of every reading of a phrase have its ink, whatever follows. -/
def ShowsInk (p : Phrase) : Prop :=
  ∀ parent w, Spells (.phrase parent p) w → (∀ t ∈ w, t.Spelled) →
    ∀ rest, tokensInk (w ++ rest) = p.ink ++ tokensInk rest

/-- A kind after which nothing is left out, and that is no newline. -/
def Ordinary (k : Kind) : Prop :=
  k ≠ .newline ∧ k ≠ .kwClass ∧ k ≠ .kwDefine

instance (k : Kind) : Decidable (Ordinary k) :=
  inferInstanceAs (Decidable (k ≠ .newline ∧ k ≠ .kwClass ∧ k ≠ .kwDefine))

/-- The tokens of a trace are ordinary. -/
def AllOrdinary (trace : Trace Phrase) : Prop :=
  ∀ entry ∈ trace, ∀ t, entry.2 = .token t → Ordinary t.kind

/-- A kind with one spelling has the ink of that spelling. -/
theorem spelled_ink {t : Token} (text : String) (h : t.Spelled)
    (hk : t.kind.spelling? = some text) :
    ink t.text = ink text := by
  rw [h.text_eq hk]

/-- The tokens of a body have the ink of its statements: what stands between them has none. -/
theorem body_ink {parent : Category} {ps : List Phrase} {w : List Token}
    (h : Spells (.body parent ps) w) (hps : ∀ p ∈ ps, ShowsInk p) (hw : ∀ t ∈ w, t.Spelled)
    (rest : List Token) :
    tokensInk (w ++ rest) = (ps.map Phrase.ink).flatten ++ tokensInk rest := by
  generalize hr : Reading.body parent ps = r at h
  induction h generalizing ps with
  | empty => cases hr; rfl
  | pause ht _ ih =>
    cases hr
    rw [List.forall_mem_cons] at hw
    rw [List.cons_append]
    simp only [List.mem_cons, List.not_mem_nil, or_false] at ht
    rcases ht with ht | ht
    · rw [tokensInk_newline ht, ih hps hw.2 rfl]
    · rw [tokensInk_cons (by simp [ht]) (by simp [ht]), ih hps hw.2 rfl,
        spelled_ink ";" hw.1 (by rw [ht]; rfl)]
      rfl
  | statement hp phrase _ _ ih =>
    cases hr
    rw [List.forall_mem_append] at hw
    rw [List.forall_mem_cons] at hps
    rw [List.append_assoc, hps.1 _ _ phrase hw.1, ih hps.2 hw.2 rfl]
    simp
  | _ => cases hr

/-- The tokens of a resource body have the ink of its items and of the closing brace. -/
theorem items_ink {ps : List Phrase} {w : List Token} (h : Spells (.items ps) w)
    (hps : ∀ p ∈ ps, ShowsInk p) (hw : ∀ t ∈ w, t.Spelled) (rest : List Token) :
    tokensInk (w ++ rest) = (ps.map Phrase.ink).flatten ++ ink "\x7d" ++ tokensInk rest := by
  generalize hr : Reading.items ps = r at h
  induction h generalizing ps with
  | close ht =>
    cases hr
    rw [List.forall_mem_cons] at hw
    rw [List.cons_append, tokensInk_cons (by simp [ht]) (by simp [ht]),
      spelled_ink "\x7d" hw.1 (by rw [ht]; rfl)]
    rfl
  | separator ht _ ih =>
    cases hr
    rw [List.forall_mem_cons] at hw
    rw [List.cons_append]
    simp only [List.mem_cons, List.not_mem_nil, or_false] at ht
    rcases ht with ht | ht | ht
    · rw [tokensInk_newline ht, ih hps hw.2 rfl]
    · rw [tokensInk_cons (by simp [ht]) (by simp [ht]), ih hps hw.2 rfl,
        spelled_ink ";" hw.1 (by rw [ht]; rfl)]
      rfl
    · rw [tokensInk_cons (by simp [ht]) (by simp [ht]), ih hps hw.2 rfl,
        spelled_ink "," hw.1 (by rw [ht]; rfl)]
      rfl
  | item hp phrase _ _ ih =>
    cases hr
    rw [List.forall_mem_append] at hw
    rw [List.forall_mem_cons] at hps
    rw [List.append_assoc, hps.1 _ _ phrase hw.1, ih hps.2 hw.2 rfl]
    simp
  | _ => cases hr

/-- The tokens that spell a trace have the ink of the trace, if no head is among them. -/
theorem trace_ink {owner : Category} {trace : Trace Phrase} {w : List Token}
    (h : Spells (.trace owner trace) w) (htrees : ∀ p ∈ treesOf trace, ShowsInk p)
    (hkinds : AllOrdinary trace) (hw : ∀ t ∈ w, t.Spelled) (rest : List Token) :
    tokensInk (w ++ rest) = traceInk trace ++ tokensInk rest := by
  generalize hr : Reading.trace owner trace = r at h
  induction h generalizing trace with
  | done => cases hr; rfl
  | newline ht _ ih =>
    cases hr
    rw [List.forall_mem_cons] at hw
    rw [List.cons_append, tokensInk_newline ht, ih htrees hkinds hw.2 rfl]
  | token _ ih =>
    cases hr
    rw [List.forall_mem_cons] at hw
    rw [AllOrdinary, List.forall_mem_cons] at hkinds
    rw [treesOf] at htrees
    obtain ⟨hnewline, hkeyword⟩ := hkinds.1 _ rfl
    rw [List.cons_append, tokensInk_cons hnewline hkeyword, ih htrees hkinds.2 hw.2 rfl,
      traceInk_cons, List.append_assoc]
    rfl
  | node phrase _ _ ih =>
    cases hr
    rw [List.forall_mem_append] at hw
    rw [AllOrdinary, List.forall_mem_cons] at hkinds
    rw [treesOf, List.forall_mem_cons] at htrees
    rw [List.append_assoc, htrees.1 _ _ phrase hw.1, ih htrees.2 hkinds.2 hw.2 rfl,
      traceInk_cons, List.append_assoc]
    rfl
  | block hopening body hclosing _ _ ih =>
    cases hr
    simp only [List.forall_mem_cons, List.forall_mem_append] at hw
    rw [AllOrdinary, List.forall_mem_cons] at hkinds
    rw [treesOf, List.forall_mem_append] at htrees
    obtain ⟨hopen, hv, hclose, hw⟩ := hw
    simp only [List.cons_append, List.append_assoc]
    rw [tokensInk_cons (by simp [hopening]) (by simp [hopening]), body_ink body htrees.1 hv,
      tokensInk_cons (by simp [hclosing]) (by simp [hclosing]), ih htrees.2 hkinds.2 hw rfl,
      spelled_ink "\x7b" hopen (by rw [hopening]; rfl),
      spelled_ink "\x7d" hclose (by rw [hclosing]; rfl), traceInk_cons]
    simp [captureInk, inBraces]
  | _ => cases hr

section

variable {label : String} {trace : Trace Phrase}

/-- The tokens of a trace have texts of their kinds. -/
def TraceSpelled (trace : Trace Phrase) : Prop :=
  ∀ label t, (label, Capture.token t) ∈ trace → t.Spelled

/-- The first entry of a spelled trace is spelled, and so is the rest. -/
theorem TraceSpelled.cons {entry : Option String × Capture Phrase}
    (h : TraceSpelled (entry :: trace)) :
    (∀ t, entry.2 = .token t → t.Spelled) ∧ TraceSpelled trace :=
  ⟨fun t ht => h entry.1 t (by rw [← ht]; simp), fun label t ht => h label t (by simp [ht])⟩

theorem TraceSpelled.token {label : Option String} {t : Token}
    (h : TraceSpelled ((label, .token t) :: trace)) : t.Spelled :=
  h.cons.1 t rfl

theorem TraceSpelled.append {more : Trace Phrase} (h : TraceSpelled (trace ++ more)) :
    TraceSpelled trace ∧ TraceSpelled more :=
  ⟨fun label t ht => h label t (by simp [ht]), fun label t ht => h label t (by simp [ht])⟩

/-- Commas have no ink. -/
theorem comma_ink {t : Token} (h : t.Spelled) (ht : t.kind = .comma) : ink t.text = [] := by
  rw [spelled_ink "," h (by rw [ht]; rfl)]
  rfl

/-- A list with commas has the ink of its items. -/
theorem listed_ink {categories : List Category} {xs : List Phrase}
    (h : Listed Phrase.category label categories xs trace) (hs : TraceSpelled trace) :
    traceInk trace = (xs.map Phrase.ink).flatten := by
  induction h with
  | nil => rfl
  | plain _ _ ih => simp [captureInk, ih hs.cons.2]
  | comma _ ht _ ih => simp [captureInk, ih hs.cons.2.cons.2, comma_ink hs.cons.2.token ht]

/-- The items after the first one of a list have their ink and no more. -/
theorem further_ink {xs : List Phrase} (h : Further Phrase.category label xs trace)
    (hs : TraceSpelled trace) : traceInk trace = (xs.map Phrase.ink).flatten := by
  induction h with
  | nil => rfl
  | cons ht _ _ ih => simp [captureInk, ih hs.cons.2.cons.2, comma_ink hs.token ht]

/-- A list without a comma at its end has the ink of its items. -/
theorem joined_ink {xs : List Phrase} (h : Joined Phrase.category label xs trace)
    (hs : TraceSpelled trace) : traceInk trace = (xs.map Phrase.ink).flatten := by
  cases h with
  | intro _ more => simp [captureInk, further_ink more hs.cons.2]

/-- The names of a node after the first one have their ink and no more. -/
theorem furtherNames_ink {names : List Token} (h : FurtherNames names trace)
    (hs : TraceSpelled trace) : traceInk trace = names.flatMap fun t => ink t.text := by
  induction h with
  | nil => rfl
  | cons ht _ _ ih => simp [captureInk, ih hs.cons.2.cons.2, comma_ink hs.token ht]

/-- A chain has the ink of its members and edges in turn. -/
theorem linked_ink {member : Phrase} {members : List Phrase} {edges : List Token}
    (h : Linked Phrase.category members edges trace) :
    chainInk ((member :: members).map Phrase.ink) edges = member.ink ++ traceInk trace := by
  induction h generalizing member with
  | nil => simp [chainInk]
  | cons _ _ _ ih =>
    simp only [List.map_cons] at ih ⊢
    rw [chainInk, ih]
    · simp [captureInk]
    · simp

/-- Operators and operands have the ink of the parts of an expression. -/
theorem operated_ink {parts : List (Part Phrase)} (h : Operated Phrase.category parts trace) :
    traceInk trace = parts.flatMap fun part => partInk (part.map Phrase.ink) := by
  induction h with
  | nil => rfl
  | cons _ _ _ ih => simp [captureInk, ih, partInk, Part.map]

/-- What a head inherits from has the ink of the text that the layout gives it. -/
theorem inheriting_ink {kinds : List Kind} {inherits : Option Token}
    (h : Inheriting kinds inherits trace) (hs : TraceSpelled trace) :
    traceInk trace = ink (Layout.inheritance inherits) := by
  have hword : ink " inherits " = ink "inherits" := by decide
  cases h with
  | none => rfl
  | some ht _ =>
    simp [captureInk, Layout.inheritance, hword, spelled_ink "inherits" hs.token (by rw [ht]; rfl)]

/-- What may be left out has the ink of what is there. -/
theorem possible_ink {categories : List Category} {x : Option Phrase}
    (h : Possible Phrase.category label categories x trace) :
    traceInk trace = (x.map Phrase.ink).getD [] := by
  cases h <;> simp [captureInk]

/-- A default has the ink of its sign and its value. -/
theorem defaulted_ink {x : Option Phrase} (h : Defaulted Phrase.category x trace)
    (hs : TraceSpelled trace) :
    traceInk trace = match x with
      | some x => ink "=" ++ x.ink
      | none => [] := by
  cases h with
  | none => rfl
  | some ht _ => simp [captureInk, spelled_ink "=" hs.token (by rw [ht]; rfl)]

/-- A comma that may be left out has no ink if it is there. -/
theorem possibleComma_ink (h : PossibleComma trace) (hs : TraceSpelled trace) :
    traceInk trace = [] := by
  cases h with
  | none => rfl
  | some ht => simp [captureInk, comma_ink hs.token ht]

end

/-- The trace of a phrase has the ink of its contents, apart from parameter lists. -/
theorem schema_ink {category : Category} {form : Form Phrase} {trace : Trace Phrase}
    (h : Schema Phrase.category category form trace)
    (hcategory : category ≠ .classBlock ∧ category ≠ .defineBlock) (hs : TraceSpelled trace) :
    traceInk trace = formInk (form.map Phrase.ink) := by
  cases h with
  | comment ht =>
    obtain ⟨body, hbody, -⟩ := hs.token.comment_text ht
    simp [captureInk, Form.map, formInk, ink_tidyComment hbody]
  | blockComment ht => simp [captureInk, Form.map, formInk]
  | caseOption hvalues hcolon =>
    simp [captureInk, Form.map, formInk, joined_ink hvalues hs.append.1,
      spelled_ink ":" hs.append.2.token (by rw [hcolon]; rfl)]
  | classBlock => exact absurd rfl hcategory.1
  | defineBlock => exact absurd rfl hcategory.2
  | nodeBlock hkeyword hname hnames hinherits =>
    have htail := hs.cons.2.cons.2
    simp [captureInk, Form.map, formInk, furtherNames_ink hnames htail.append.1,
      inheriting_ink hinherits htail.append.2.append.1,
      spelled_ink "node" hs.token (by rw [hkeyword]; rfl)]
  | parameter htype hname hvalue =>
    have hdefault := defaulted_ink hvalue hs.append.2.cons.2
    cases hvalue <;> simp [captureInk, Form.map, formInk, possible_ink htype, hdefault]
  | title htitles hcolon =>
    simp [captureInk, Form.map, formInk, joined_ink htitles hs.append.1,
      spelled_ink ":" hs.append.2.token (by rw [hcolon]; rfl)]
  | collector hopening hquery hclosing =>
    simp [captureInk, Form.map, formInk, possible_ink hquery]
  | branch hkeyword hcondition => simp [captureInk, Form.map, formInk]
  | elseBranch hkeyword => simp [captureInk, Form.map, formInk]
  | caseBlock hkeyword hsubject =>
    simp [captureInk, Form.map, formInk, spelled_ink "case" hs.token (by rw [hkeyword]; rfl)]
  | selector hsubject hquestion hopening hitems hclosing =>
    have htail := hs.cons.2.cons.2.cons.2
    simp [captureInk, Form.map, formInk, inBraces, listed_ink hitems htail.append.1,
      spelled_ink "?" hs.cons.2.token (by rw [hquestion]; rfl),
      spelled_ink "\x7b" hs.cons.2.cons.2.token (by rw [hopening]; rfl),
      spelled_ink "\x7d" htail.append.2.token (by rw [hclosing]; rfl)]
  | inclusion hkeyword hargs => simp [captureInk, Form.map, formInk, joined_ink hargs hs.cons.2]
  | assignment hname hoperator hvalue => simp [captureInk, Form.map, formInk]
  | call hname hopening harg hargs hcomma hclosing =>
    have htail := hs.cons.2.cons.2
    have hcommaInk := possibleComma_ink hcomma htail.append.2.append.2.append.1
    have hclose := spelled_ink ")" htail.append.2.append.2.append.2.token (by rw [hclosing]; rfl)
    have hargsInk := further_ink hargs htail.append.2.append.1
    cases harg <;>
      simp [captureInk, Form.map, formInk, hargsInk, hcommaInk, hclose,
        spelled_ink "(" hs.cons.2.token (by rw [hopening]; rfl)]
  | bareCall hname hargs => simp [captureInk, Form.map, formInk, joined_ink hargs hs.cons.2]
  | chain hmember hmembers =>
    simpa [captureInk, Form.map, formInk] using (linked_ink hmembers).symm
  | reference hhead hindexes =>
    have hsubs (xs : List Phrase) : traceInk (xs.map (sub "indexes")) = (xs.map Phrase.ink).flatten := by
      induction xs with
      | nil => rfl
      | cons x xs ih => simp [captureInk, ih]
    simp [captureInk, Form.map, formInk, hsubs]
  | hash hopening hitems hclosing =>
    simp [captureInk, Form.map, formInk, inBraces, listed_ink hitems hs.cons.2.append.1,
      spelled_ink "\x7b" hs.token (by rw [hopening]; rfl),
      spelled_ink "\x7d" hs.cons.2.append.2.token (by rw [hclosing]; rfl)]
  | list hopening hitems hclosing =>
    simp [captureInk, Form.map, formInk, listed_ink hitems hs.cons.2.append.1,
      spelled_ink "[" hs.token (by rw [hopening]; rfl),
      spelled_ink "]" hs.cons.2.append.2.token (by rw [hclosing]; rfl)]
  | pair hkey harrow hvalue => simp [captureInk, Form.map, formInk]
  | expression hterm hparts =>
    simp [captureInk, Form.map, formInk, operated_ink hparts, partInk, Part.map, List.flatMap_map]
  | parens hopening hinner hclosing =>
    simp [captureInk, Form.map, formInk, spelled_ink "(" hs.token (by rw [hopening]; rfl),
      spelled_ink ")" hs.cons.2.cons.2.token (by rw [hclosing]; rfl)]
  | unary hoperator hoperand => simp [captureInk, Form.map, formInk]
  | simple ht => simp [captureInk, Form.map, formInk]

section

variable {label : String} {trace : Trace Phrase}

theorem ordinary_of_mem {k : Kind} {kinds : List Kind} (h : k ∈ kinds)
    (hkinds : ∀ k ∈ kinds, Ordinary k) : Ordinary k :=
  hkinds k h

@[simp] theorem allOrdinary_nil : AllOrdinary [] := by simp [AllOrdinary]

@[simp] theorem allOrdinary_token {label : Option String} {t : Token} :
    AllOrdinary ((label, .token t) :: trace) ↔ Ordinary t.kind ∧ AllOrdinary trace := by
  simp [AllOrdinary]

@[simp] theorem allOrdinary_node {label : Option String} {p : Phrase} :
    AllOrdinary ((label, .node p) :: trace) ↔ AllOrdinary trace := by
  simp [AllOrdinary]

@[simp] theorem allOrdinary_block {label : Option String} {ps : List Phrase} :
    AllOrdinary ((label, .block ps) :: trace) ↔ AllOrdinary trace := by
  simp [AllOrdinary]

/-- A trace is ordinary if its parts are. -/
@[simp] theorem allOrdinary_append {more : Trace Phrase} :
    AllOrdinary (trace ++ more) ↔ AllOrdinary trace ∧ AllOrdinary more := by
  simp [AllOrdinary, or_imp, forall_and]

theorem ordinary_comma {t : Token} (ht : t.kind = .comma) : Ordinary t.kind := by
  rw [ht]; decide

/-- A list with commas has ordinary tokens only. -/
theorem listed_ordinary {categories : List Category} {xs : List Phrase}
    (h : Listed Phrase.category label categories xs trace) : AllOrdinary trace := by
  induction h with
  | nil => simp
  | plain _ _ ih => simpa using ih
  | comma _ ht _ ih => simpa using ⟨ordinary_comma ht, ih⟩

/-- The items after the first one bring ordinary tokens only. -/
theorem further_ordinary {xs : List Phrase} (h : Further Phrase.category label xs trace) :
    AllOrdinary trace := by
  induction h with
  | nil => simp
  | cons ht _ _ ih => simpa using ⟨ordinary_comma ht, ih⟩

/-- A list without a comma at its end has ordinary tokens only. -/
theorem joined_ordinary {xs : List Phrase} (h : Joined Phrase.category label xs trace) :
    AllOrdinary trace := by
  cases h with
  | intro _ more => simpa using further_ordinary more

/-- The names of a node after the first one bring ordinary tokens only. -/
theorem furtherNames_ordinary {names : List Token} (h : FurtherNames names trace) :
    AllOrdinary trace := by
  induction h with
  | nil => simp
  | cons ht hname _ ih =>
    simpa using ⟨ordinary_comma ht, ordinary_of_mem hname (by decide), ih⟩

/-- Edges are ordinary tokens. -/
theorem linked_ordinary {members : List Phrase} {edges : List Token}
    (h : Linked Phrase.category members edges trace) : AllOrdinary trace := by
  induction h with
  | nil => simp
  | cons ht _ _ ih => simpa using ⟨ordinary_of_mem ht (by decide), ih⟩

/-- Operators are ordinary tokens. -/
theorem operated_ordinary {parts : List (Part Phrase)}
    (h : Operated Phrase.category parts trace) : AllOrdinary trace := by
  induction h with
  | nil => simp
  | cons ht _ _ ih => simpa using ⟨ordinary_of_mem ht (by decide), ih⟩

/-- What a head inherits from is given by ordinary tokens, if its name is one. -/
theorem inheriting_ordinary {kinds : List Kind} {inherits : Option Token}
    (h : Inheriting kinds inherits trace) (hkinds : ∀ k ∈ kinds, Ordinary k) :
    AllOrdinary trace := by
  cases h with
  | none => simp
  | some ht hname => simpa using ⟨by rw [ht]; decide, hkinds _ hname⟩

/-- What may be left out has no tokens of its own. -/
theorem possible_ordinary {categories : List Category} {x : Option Phrase}
    (h : Possible Phrase.category label categories x trace) : AllOrdinary trace := by
  cases h <;> simp

/-- The sign of a default is an ordinary token. -/
theorem defaulted_ordinary {x : Option Phrase} (h : Defaulted Phrase.category x trace) :
    AllOrdinary trace := by
  cases h with
  | none => simp
  | some ht _ => simpa using by rw [ht]; decide

/-- A comma that may be left out is an ordinary token. -/
theorem possibleComma_ordinary (h : PossibleComma trace) : AllOrdinary trace := by
  cases h with
  | none => simp
  | some ht => simpa using ordinary_comma ht

end

/-- The tokens of a phrase's own are ordinary, apart from the keywords of classes and defines. -/
theorem schema_ordinary {category : Category} {form : Form Phrase} {trace : Trace Phrase}
    (h : Schema Phrase.category category form trace)
    (hcategory : category ≠ .classBlock ∧ category ≠ .defineBlock) : AllOrdinary trace := by
  have hkind {k k' : Kind} (h : k = k') (hk : Ordinary k') : Ordinary k := h ▸ hk
  have hsubs (xs : List Phrase) : AllOrdinary (xs.map (sub "indexes")) := by
    induction xs with
    | nil => simp
    | cons x xs ih => simpa using ih
  cases h with
  | comment ht => simpa using hkind ht (by decide)
  | blockComment ht => simpa using hkind ht (by decide)
  | caseOption hvalues hcolon => simpa using ⟨joined_ordinary hvalues, hkind hcolon (by decide)⟩
  | classBlock => exact absurd rfl hcategory.1
  | defineBlock => exact absurd rfl hcategory.2
  | nodeBlock hkeyword hname hnames hinherits =>
    simpa using ⟨hkind hkeyword (by decide), ordinary_of_mem hname (by decide),
      furtherNames_ordinary hnames, inheriting_ordinary hinherits (by decide)⟩
  | parameter htype hname hvalue =>
    simpa using ⟨possible_ordinary htype, hkind hname (by decide), defaulted_ordinary hvalue⟩
  | title htitles hcolon => simpa using ⟨joined_ordinary htitles, hkind hcolon (by decide)⟩
  | collector hopening hquery hclosing =>
    simpa using ⟨ordinary_of_mem hopening (by decide), possible_ordinary hquery,
      ordinary_of_mem hclosing (by decide)⟩
  | branch hkeyword _ => simpa using ordinary_of_mem hkeyword (by decide)
  | elseBranch hkeyword => simpa using hkind hkeyword (by decide)
  | caseBlock hkeyword _ => simpa using hkind hkeyword (by decide)
  | selector _ hquestion hopening hitems hclosing =>
    simpa using ⟨hkind hquestion (by decide), hkind hopening (by decide), listed_ordinary hitems,
      hkind hclosing (by decide)⟩
  | inclusion hkeyword hargs =>
    simpa using ⟨ordinary_of_mem hkeyword (by decide), joined_ordinary hargs⟩
  | assignment hname hoperator _ =>
    simpa using ⟨hkind hname (by decide), ordinary_of_mem hoperator (by decide)⟩
  | call hname hopening harg hargs hcomma hclosing =>
    simpa using ⟨hkind hname (by decide), hkind hopening (by decide), possible_ordinary harg,
      further_ordinary hargs, possibleComma_ordinary hcomma, hkind hclosing (by decide)⟩
  | bareCall hname hargs => simpa using ⟨hkind hname (by decide), joined_ordinary hargs⟩
  | chain _ hmembers => simpa using linked_ordinary hmembers
  | reference hhead _ =>
    rw [allOrdinary_token]
    exact ⟨ordinary_of_mem hhead (by decide), hsubs _⟩
  | hash hopening hitems hclosing =>
    simpa using ⟨hkind hopening (by decide), listed_ordinary hitems, hkind hclosing (by decide)⟩
  | list hopening hitems hclosing =>
    simpa using ⟨hkind hopening (by decide), listed_ordinary hitems, hkind hclosing (by decide)⟩
  | pair hkey harrow _ =>
    simpa using ⟨ordinary_of_mem hkey (by decide), ordinary_of_mem harrow (by decide)⟩
  | expression _ hparts => simpa using operated_ordinary hparts
  | parens hopening _ hclosing =>
    simpa using ⟨hkind hopening (by decide), hkind hclosing (by decide)⟩
  | unary hoperator _ => simpa using ordinary_of_mem hoperator (by decide)
  | simple ht => simpa using ordinary_of_mem ht (by decide)

/-- The tokens of a trace are among those that spell it. -/
theorem traceSpelled_of_spells {owner : Category} {trace : Trace Phrase} {w : List Token}
    (h : Spells (.trace owner trace) w) (hw : ∀ t ∈ w, t.Spelled) : TraceSpelled trace := by
  generalize hr : Reading.trace owner trace = r at h
  induction h generalizing trace with
  | done => cases hr; nofun
  | newline _ _ ih =>
    cases hr
    rw [List.forall_mem_cons] at hw
    exact ih hw.2 rfl
  | token _ ih =>
    cases hr
    rw [List.forall_mem_cons] at hw
    intro label t ht
    rcases List.mem_cons.mp ht with ht | ht
    · cases ht
      exact hw.1
    · exact ih hw.2 rfl label t ht
  | node _ _ _ ih =>
    cases hr
    rw [List.forall_mem_append] at hw
    intro label t ht
    exact ih hw.2 rfl label t (by simpa using ht)
  | block _ _ _ _ _ ih =>
    cases hr
    simp only [List.forall_mem_cons, List.forall_mem_append] at hw
    intro label t ht
    exact ih hw.2.2.2 rfl label t (by simpa using ht)
  | _ => cases hr

section

variable {owner : Category} {keyword name : Token} {label : Option String}
  {trace after : Trace Phrase} {params : List Phrase} {w rest : List Token}

/-- Tokens that start with one of some kinds still do so without newlines. -/
theorem startsIn_filter {kinds : List Kind} (h : StartsIn kinds w) (hkinds : .newline ∉ kinds) :
    ∃ t v, w.filter (fun t => t.kind != .newline) = t :: v ∧ t.kind ∈ kinds := by
  obtain ⟨ns, t, v, hns, rfl, ht⟩ := h
  have hnewlines : ns.filter (fun t => t.kind != .newline) = [] := by
    simpa [List.filter_eq_nil_iff] using hns
  have hkind : t.kind ≠ .newline := fun hk => hkinds (hk ▸ ht)
  exact ⟨t, v.filter fun t => t.kind != .newline,
    by simp [List.filter_append, hnewlines, hkind], ht⟩

/-- A list of items that is not empty starts with its first item. -/
theorem Plain.Listed.cons_inv {label : String} {categories : List Category} {x : Phrase}
    {xs : List Phrase} (h : Listed Phrase.category label categories (x :: xs) trace) :
    ∃ more, trace = sub label x :: more ∧ x.category ∈ categories := by
  cases h with
  | plain hx => exact ⟨_, rfl, hx⟩
  | comma hx => exact ⟨_, rfl, hx⟩

/-- A parameter, or a comment in its place, starts with a comment or with a token that can be a
value. -/
theorem firstOfParameter : ∀ c ∈ [Category.comment, .blockComment, .parameter],
    opens c ⊆ .comment :: .blockComment :: simpleKinds := by
  decide

/-- The tokens of a parameter list are ordinary. -/
theorem parameters_ordinary (h : Parameters Phrase.category params trace) : AllOrdinary trace := by
  cases h with
  | none => simp
  | list hopening items hclosing =>
    simpa using ⟨by rw [hopening]; decide, listed_ordinary items, by rw [hclosing]; decide⟩

/-- The keyword and the name of a declaration that does not go on with `()`. -/
theorem tokensInk_declared (hkeyword : keyword.kind ≠ .newline) (hname : name.kind = .name)
    {ns : List Token} (hns : ∀ n ∈ ns, n.kind = .newline)
    (h : ¬ EmptyNext (name :: w.filter fun t => t.kind != .newline)) :
    tokensInk (keyword :: (ns ++ name :: w)) =
      ink keyword.text ++ (ink name.text ++ tokensInk w) := by
  have hnewlines : ns.filter (fun t => t.kind != .newline) = [] := by
    simpa [List.filter_eq_nil_iff] using hns
  rw [tokensInk_keyword hkeyword, tokensInk_newlines hns,
    tokensInk_cons (by simp [hname]) (by simp [hname])]
  simpa [List.filter_append, hnewlines, List.filter_cons, hname] using h

/-- The keyword, the name and the empty parameter list of a declaration. -/
theorem tokensInk_declared_empty (hkeyword : keyword.kind = .kwClass ∨ keyword.kind = .kwDefine)
    (hname : name.kind = .name) {opening closing : Token} (hopening : opening.kind = .leftParen)
    (hclosing : closing.kind = .rightParen) {ns ns' ns'' : List Token}
    (hns : ∀ n ∈ ns, n.kind = .newline) (hns' : ∀ n ∈ ns', n.kind = .newline)
    (hns'' : ∀ n ∈ ns'', n.kind = .newline) :
    tokensInk (keyword :: (ns ++ name :: (ns' ++ opening :: (ns'' ++ closing :: w)))) =
      ink keyword.text ++ (ink name.text ++ tokensInk w) := by
  have hnone {ns : List Token} (h : ∀ n ∈ ns, n.kind = .newline) :
      ns.filter (fun t => t.kind != .newline) = [] := by
    simpa [List.filter_eq_nil_iff] using h
  have hkind : keyword.kind ≠ .newline := by rcases hkeyword with h | h <;> simp [h]
  have hshown : shownTokens (keyword :: (ns ++ name :: (ns' ++ opening :: (ns'' ++ closing :: w)))) =
      keyword :: name :: shownTokens w := by
    simp [shownTokens, List.filter_append, hnone hns, hnone hns', hnone hns'', hkind, hname,
      hopening, hclosing, withoutEmptyParameters, hkeyword]
  simp [tokensInk, hshown]

/-- A class or define up to what follows its parameters. -/
theorem declaration_ink
    (h : Spells (.trace owner ((none, .token keyword) :: (label, .token name) :: (trace ++ after))) w)
    (hkeyword : keyword.kind = .kwClass ∨ keyword.kind = .kwDefine) (hname : name.kind = .name)
    (hparams : Parameters Phrase.category params trace)
    (hafter : ∀ v, Spells (.trace owner after) v → StartsIn [.kwInherits, .leftBrace] v)
    (hordinary : AllOrdinary after) (htrees : ∀ p ∈ treesOf (trace ++ after), ShowsInk p)
    (hw : ∀ t ∈ w, t.Spelled) (rest : List Token) :
    tokensInk (w ++ rest) = ink keyword.text ++ (ink name.text ++
      (parametersInk (params.map Phrase.ink) ++ (traceInk after ++ tokensInk rest))) := by
  obtain ⟨ns, v, hns, rfl, hv⟩ := h.token_inv
  obtain ⟨ns', u, hns', rfl, hu⟩ := hv.token_inv
  have hwords : ∀ t ∈ u, t.Spelled := fun t ht => hw t (by simp [ht])
  have hkind : keyword.kind ≠ .newline := by rcases hkeyword with h | h <;> simp [h]
  have hall : AllOrdinary (trace ++ after) := by simp [parameters_ordinary hparams, hordinary]
  have htail := trace_ink hu htrees hall hwords rest
  have hspelled := traceSpelled_of_spells hu hwords
  simp only [List.append_assoc, List.cons_append]
  rw [tokensInk_newlines hns]
  cases hparams with
  | none =>
    rw [tokensInk_declared hkind hname hns', htail]
    · simp [parametersInk]
    · obtain ⟨t, v, heq, ht⟩ := startsIn_filter (hafter u hu).append (by decide)
      rw [heq]
      rintro ⟨_, opening, _, _, heq, -, hopening, -⟩
      cases heq
      simp [hopening] at ht
  | list hopening items hclosing =>
    cases params with
    | nil =>
      cases items
      obtain ⟨ns₃, v₃, hns₃, rfl, hv₃⟩ := hu.token_inv
      obtain ⟨ns₄, v₄, hns₄, rfl, hv₄⟩ := Spells.token_inv hv₃
      simp only [List.append_assoc, List.cons_append]
      rw [tokensInk_declared_empty hkeyword hname hopening hclosing hns' hns₃ hns₄,
        trace_ink hv₄ (by simpa [treesOf] using htrees) hordinary
          (fun t ht => hwords t (by simp [ht])) rest]
      simp [parametersInk]
    | cons x xs =>
      have hlist := listed_ink items hspelled.append.1.cons.2.append.1
      have hopen := spelled_ink "(" hspelled.append.1.token (by rw [hopening]; rfl)
      have hclose := spelled_ink ")" hspelled.append.1.cons.2.append.2.token (by rw [hclosing]; rfl)
      rw [tokensInk_declared hkind hname hns', htail]
      · simp [captureInk, parametersInk, hopen, hlist, hclose]
      · -- after `(` comes the first token of the first parameter
        obtain ⟨more, rfl, hx⟩ := items.cons_inv
        obtain ⟨ns₃, v₃, hns₃, rfl, hv₃⟩ := hu.token_inv
        have hstart := hv₃.starts_node fun parent w hw =>
          (spells_opens x parent w hw).mono (firstOfParameter _ hx)
        obtain ⟨t, v, heq, ht⟩ := startsIn_filter (hstart.append (v := rest)) (by decide)
        have hnewlines : ns₃.filter (fun t => t.kind != .newline) = [] := by
          simpa [List.filter_eq_nil_iff] using hns₃
        rintro ⟨_, _, closing, _, hnext, -, -, hright⟩
        rw [List.append_assoc, List.cons_append, List.filter_append, hnewlines, List.nil_append,
          List.filter_cons_of_pos (by simp [hopening]), heq] at hnext
        cases hnext
        simp [hright, simpleKinds] at ht

end

/-- After the parameters comes `inherits` or the brace of the body. -/
theorem afterParameters_starts {owner : Category} {kinds : List Kind} {inherits : Option Token}
    {trace : Trace Phrase} {statements : List Phrase} (h : Inheriting kinds inherits trace)
    (v : List Token) (hv : Spells (.trace owner (trace ++ [body statements])) v) :
    StartsIn [.kwInherits, .leftBrace] v := by
  cases h with
  | none => exact (Spells.starts_block hv).mono (by decide)
  | some ht _ => exact Spells.starts_token hv (by simp [ht])

/-- The head of a resource has the ink of its sigils, of what it declares and of its collector. -/
theorem head_ink {sigils : List Token} {head : Head Phrase} {collector : Option Phrase}
    {trace : Trace Phrase} (h : HeadSchema Phrase.category sigils head collector trace) :
    traceInk trace = ink (sigilText sigils) ++ headInk (head.map Phrase.ink) ++
      (collector.map Phrase.ink).getD [] := by
  have hsigils : traceInk (sigils.map (named "sigil")) = ink (sigilText sigils) := by
    rw [sigilText, ink_join, List.flatMap_map, traceInk, List.flatMap_map]
    rfl
  cases h with
  | type _ _ hcollector => simp [hsigils, captureInk, headInk, Head.map, possible_ink hcollector]
  | reference _ _ hcollector =>
    simp [hsigils, captureInk, headInk, Head.map, possible_ink hcollector]

/-- The sigils of a resource are ordinary tokens. -/
theorem sigils_ordinary {sigils : List Token} (h : ∀ s ∈ sigils, s.kind = .atSign) :
    AllOrdinary (sigils.map (named "sigil")) := by
  induction sigils with
  | nil => simp
  | cons s sigils ih =>
    rw [List.forall_mem_cons] at h
    simpa using ⟨by rw [h.1]; decide, ih h.2⟩

/-- The tokens of the head of a resource, which a brace follows if there is no collector.  The type
may be the keyword `class`, but then no name follows it. -/
theorem headTokens_ink {sigils : List Token} {head : Head Phrase} {collector : Option Phrase}
    {trace : Trace Phrase} {w rest : List Token}
    (schema : HeadSchema Phrase.category sigils head collector trace)
    (h : Spells (.trace .resource trace) w) (htrees : ∀ p ∈ treesOf trace, ShowsInk p)
    (hw : ∀ t ∈ w, t.Spelled) (hrest : collector = none → StartsIn [.leftBrace] rest) :
    tokensInk (w ++ rest) = traceInk trace ++ tokensInk rest := by
  cases schema with
  | reference hsigils hx hcollector =>
    exact trace_ink h htrees (by simp [sigils_ordinary hsigils, possible_ordinary hcollector]) hw rest
  | type hsigils ht hcollector =>
    rename_i t more
    obtain ⟨u, v₀, rfl, hu, hv₀⟩ := h.append_inv
    obtain ⟨ns, v, hns, rfl, hv⟩ := hv₀.token_inv
    rw [treesOf_append, List.forall_mem_append] at htrees
    rw [List.forall_mem_append] at hw
    have hwords : ∀ t ∈ v, t.Spelled := fun t ht => hw.2 t (by simp [ht])
    have hnext : StartsIn (.leftBrace :: collectorOpens) (v ++ rest) := by
      cases hcollector with
      | none => exact .after hv.nil_inv ((hrest rfl).mono (by decide))
      | some hx =>
        exact (hv.starts_node (starts_of_mem (spells_opens _) hx (by decide))).append
    have hkeyword : ¬ EmptyNext ((v ++ rest).filter fun t => t.kind != .newline) := by
      obtain ⟨t, v, heq, ht⟩ := startsIn_filter hnext (by decide)
      rw [heq]
      rintro ⟨name, _, _, _, hnext, hname, -⟩
      cases hnext
      simp [hname, collectorOpens] at ht
    have hkind : t.kind ≠ .newline := by
      intro hkind
      simp [hkind, resourceTypes] at ht
    simp only [List.append_assoc, List.cons_append]
    rw [trace_ink hu htrees.1 (sigils_ordinary hsigils) hw.1, tokensInk_newlines hns,
      tokensInk_keyword hkind hkeyword,
      trace_ink hv (by simpa [treesOf] using htrees.2) (possible_ordinary hcollector) hwords]
    simp [captureInk]

/-- Tokens that spell a phrase have its ink. -/
theorem spells_ink (p : Phrase) : ShowsInk p := by
  induction p using Phrase.induct with
  | step p ih =>
    intro parent w h hw rest
    rw [Phrase.ink_eq]
    cases h with
    | @collected _ _ _ _ _ trace _ _ schema _ spelled =>
      have htrees : ∀ q ∈ treesOf trace, ShowsInk q := fun q hq => ih q (by
        rw [Phrase.children, Phrase.form_mk, schema.children_eq]
        simpa using hq)
      rw [headTokens_ink schema spelled htrees hw (by simp), head_ink schema]
      simp [Form.map, formInk]
    | @resource _ _ _ _ _ _ _ trace items _ _ _ schema _ spelled hnewlines hopening body =>
      have htrees : ∀ q ∈ treesOf trace, ShowsInk q := fun q hq => ih q (by
        rw [Phrase.children, Phrase.form_mk, schema.children_eq]
        exact List.mem_append_left _ hq)
      have hitems : ∀ q ∈ items, ShowsInk q := fun q hq => ih q (by
        rw [Phrase.children, Phrase.form_mk, schema.children_eq]
        exact List.mem_append_right _ hq)
      simp only [List.forall_mem_append, List.forall_mem_cons] at hw
      obtain ⟨hhead, -, hopen, hbody⟩ := hw
      have hblock := items_ink body hitems hbody rest
      rw [List.append_assoc, headTokens_ink schema spelled htrees hhead]
      · simp only [List.append_assoc, List.cons_append]
        rw [tokensInk_newlines hnewlines, tokensInk_cons (by simp [hopening]) (by simp [hopening]),
          hblock, head_ink schema, spelled_ink "\x7b" hopen (by rw [hopening]; rfl)]
        simp [Form.map, formInk, inBraces]
      · intro _
        exact StartsIn.append ⟨_, _, _, hnewlines, rfl, by simp [hopening]⟩
    | @rule _ category _ form trace _ _ schema _ spelled =>
      have htrees : ∀ q ∈ treesOf trace, ShowsInk q := fun q hq => ih q (by
        rw [Phrase.children, Phrase.form_mk, schema.children_eq]
        exact hq)
      have hspelled := traceSpelled_of_spells spelled hw
      by_cases hcategory : category ≠ .classBlock ∧ category ≠ .defineBlock
      · rw [trace_ink spelled htrees (schema_ordinary schema hcategory) hw,
          schema_ink schema hcategory hspelled]
        rfl
      · cases schema with
        | classBlock hkeyword hname hparams hinherits =>
          have hafter := hspelled.cons.2.cons.2.append.2
          rw [declaration_ink spelled (.inl hkeyword) hname hparams
            (afterParameters_starts hinherits)
            (by simp [inheriting_ordinary hinherits (by decide)])
            (by simpa [treesOf] using htrees) hw]
          simp [Form.map, formInk, captureInk, inheriting_ink hinherits hafter.append.1,
            spelled_ink "class" hspelled.token (by rw [hkeyword]; rfl)]
        | defineBlock hkeyword hname hparams =>
          rw [declaration_ink spelled (.inr hkeyword) hname hparams
            (fun v hv => (Spells.starts_block hv).mono (by decide)) (by simp)
            (by simpa [treesOf] using htrees) hw]
          simp [Form.map, formInk, captureInk,
            spelled_ink "define" hspelled.token (by rw [hkeyword]; rfl)]
        | _ => exact absurd ⟨by decide, by decide⟩ hcategory

end TidyManifest
