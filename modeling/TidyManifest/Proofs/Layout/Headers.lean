import TidyManifest.Proofs.Conservation.Manifest
import TidyManifest.Proofs.Hygiene.Leads
import TidyManifest.Proofs.Layout.Columns

/-!
# Heads that fit their line

The parameters of a class or define stay on the line of its head if the line is short enough.  The
layout decides that before the line is written, from the lengths of its pieces.  Here the decision is
compared with the line that results: it is exact if the body has statements, and allows one byte more
for an empty body, of which it counts the opening brace only.

Two facts carry the comparison.  The line ends in the block, after the brace or after both braces
(`firstLine_block`), as nothing before it has a line break.  And the two layouts are different texts,
since one has more line breaks than the other (`inline_ne_expanded`).
-/

namespace TidyManifest

namespace Layout

/-- A class or define that has parameters: what is written around them, and the body. -/
structure Header (ι : Type) where
  before : String
  params : List ι
  after : String
  body : List ι
deriving DecidableEq

/-- The header of a class or define. -/
def header? {ι : Type} : Form ι → Option (Header ι)
  | .classBlock name params inherits body =>
    some ⟨"class " ++ name.text ++ " ", params, inheritance inherits ++ " ", body⟩
  | .defineBlock name params body => some ⟨"define " ++ name.text, params, " ", body⟩
  | _ => none

/-- The first line of a text. -/
def firstLine (text : String) : String :=
  String.ofList (text.toList.takeWhile (· != '\n'))

section

variable {ι : Type} (v : View ι) (o : Options) (write : ι → Nat → String) (id : ι) (depth : Nat)

/-- The text of a class or define with its parameters on one line. -/
def Header.inline (header : Header ι) : String :=
  header.before ++ ("(" ++ withCommas write header.params (depth + 1) ++ ")") ++ header.after ++
    block v o write id header.body depth

/-- The text of a class or define with each parameter on a line of its own. -/
def Header.expanded (header : Header ι) : String :=
  header.before ++ onePerLine v o write header.params depth "(" ")" ++ header.after ++
    block v o write id header.body depth

/-- No parameter is a comment or takes more than one line, and with all of them on it the first line,
from the margin to its end, has at most `width` bytes. -/
structure Header.Fits (width : Nat) (header : Header ι) : Prop where
  noComment : ∀ x ∈ header.params, v.isComment x = false
  oneLine : ∀ x ∈ header.params, hasLineBreak (write x (depth + 1)) = false
  short : (firstLine (margin o depth ++ header.inline v o write id depth)).utf8ByteSize ≤ width

end

/-- The number of line breaks in a text. -/
def breaks (text : String) : Nat :=
  text.toList.count '\n'

/-- Line breaks are counted part by part. -/
@[simp] theorem breaks_append (a b : String) : breaks (a ++ b) = breaks a + breaks b := by
  simp [breaks]

/-- A margin has no line break. -/
@[simp] theorem breaks_margin (o : Options) (depth : Nat) : breaks (margin o depth) = 0 := by
  simp [breaks, margin, List.count_replicate]

/-- A text is on one line if it has no line break. -/
theorem hasLineBreak_eq_false {text : String} : hasLineBreak text = false ↔ breaks text = 0 := by
  simp [hasLineBreak, breaks, List.count_eq_zero]

/-- The number of line breaks in texts together. -/
def breaksIn (texts : List String) : Nat :=
  (texts.map breaks).foldr (· + ·) 0

@[simp] theorem breaksIn_nil : breaksIn [] = 0 := rfl

@[simp] theorem breaksIn_cons (text : String) (texts : List String) :
    breaksIn (text :: texts) = breaks text + breaksIn texts := rfl

/-- Texts have no line break together if none of them has one. -/
theorem breaksIn_eq_zero {texts : List String} :
    breaksIn texts = 0 ↔ ∀ text ∈ texts, breaks text = 0 := by
  induction texts with
  | nil => simp
  | cons text texts ih => simp [ih]

/-- Joining texts adds no line break. -/
theorem breaks_join (texts : List String) : breaks (String.join texts) = breaksIn texts := by
  induction texts with
  | nil => rfl
  | cons text texts ih => simp [String.join_cons, ih]

/-- A separator on one line adds no line break. -/
theorem breaks_intercalate {separator : String} (h : breaks separator = 0) (texts : List String) :
    breaks (separator.intercalate texts) = breaksIn texts := by
  match texts with
  | [] => rfl
  | [text] => simp [String.intercalate_singleton]
  | text :: text' :: texts =>
    rw [String.intercalate_cons_cons, breaks_append, breaks_append, h,
      breaks_intercalate h (text' :: texts)]
    simp

/-- A text on one line leaves the first line open for what follows. -/
theorem firstLine_append {a : String} (h : breaks a = 0) (b : String) :
    firstLine (a ++ b) = a ++ firstLine b := by
  have ha : ∀ c ∈ a.toList, (c != '\n') = true := by
    intro c hc
    rw [bne_iff_ne]
    rintro rfl
    exact List.count_eq_zero.mp h hc
  rw [firstLine, String.toList_append, List.takeWhile_append_of_pos ha, String.ofList_append,
    String.ofList_toList, firstLine]

section

variable {ι : Type} {v : View ι} {o : Options} {write : ι → Nat → String} {id : ι}
  {header : Header ι}

theorem breaks_withCommas (ids : List ι) (depth : Nat) :
    breaks (withCommas write ids depth) = breaksIn (ids.map fun x => write x depth) :=
  breaks_intercalate rfl _

/-- Items on lines of their own have a line break each, and one before them. -/
theorem breaks_onePerLine (items : List ι) (depth : Nat) (opening closing : String) :
    breaks (onePerLine v o write items depth opening closing) =
      breaks opening + 1 + (breaksIn (items.map fun x => write x (depth + 1)) + items.length) +
        breaks closing := by
  have hnewline : breaks "\n" = 1 := rfl
  have hcomma : breaks ",\n" = 1 := rfl
  have hlines : breaksIn (items.map fun x => margin o (depth + 1) ++ write x (depth + 1) ++
      (if v.isComment x then "\n" else ",\n")) =
      breaksIn (items.map fun x => write x (depth + 1)) + items.length := by
    induction items with
    | nil => rfl
    | cons x items ih =>
      rw [List.map_cons, List.map_cons, breaksIn_cons, breaksIn_cons, ih, List.length_cons,
        breaks_append, breaks_append, breaks_margin]
      split <;> omega
  simp only [onePerLine, breaks_append, breaks_join, hlines, breaks_margin, hnewline]
  omega

/-- The first line of a block has its opening brace, and the closing one if nothing is between. -/
theorem firstLine_block (body : List ι) (depth : Nat) :
    (firstLine (block v o write id body depth)).utf8ByteSize = if body = [] then 2 else 1 := by
  cases body with
  | nil =>
    change (firstLine (braced "")).utf8ByteSize = 2
    decide
  | cons x body =>
    have hopening : breaks "\x7b" = 0 := rfl
    rw [if_neg (List.cons_ne_nil x body), block, if_neg (by simp), braced, String.append_assoc,
      String.append_assoc, String.append_assoc, String.append_assoc, firstLine_append hopening]
    simp only [firstLine, String.toList_append]
    rfl

/-- A head on one line is never the same text as a head on several lines. -/
theorem inline_ne_expanded (depth : Nat) :
    header.inline v o write id depth ≠ header.expanded v o write id depth := by
  intro h
  have hbreaks := congrArg breaks h
  simp only [Header.inline, Header.expanded, breaks_append, breaks_withCommas,
    breaks_onePerLine] at hbreaks
  omega

/-- Parameters in parentheses are on one line if each of them is. -/
theorem hasLineBreak_withCommas (ids : List ι) (depth : Nat) :
    hasLineBreak ("(" ++ withCommas write ids depth ++ ")") = false ↔
      ∀ x ∈ ids, hasLineBreak (write x depth) = false := by
  have hopening : breaks "(" = 0 := rfl
  have hclosing : breaks ")" = 0 := rfl
  simp only [hasLineBreak_eq_false, breaks_append, breaks_withCommas, hopening, hclosing,
    Nat.zero_add, Nat.add_zero, breaksIn_eq_zero, List.forall_mem_map]

/-- The list of parameters.  The width is that of what stands around the list, as it is given. -/
theorem parameters_eq {params : List ι} (hne : params ≠ []) (depth : Nat)
    (before separator after : String) :
    parameters v o write params depth before separator after = separator ++
      if (∀ x ∈ params, v.isComment x = false) ∧
          (∀ x ∈ params, hasLineBreak (write x (depth + 1)) = false) ∧
          (margin o depth ++ before ++ separator ++
            ("(" ++ withCommas write params (depth + 1) ++ ")") ++ after).utf8ByteSize ≤
            o.maxLineWidth
      then "(" ++ withCommas write params (depth + 1) ++ ")"
      else onePerLine v o write params depth "(" ")" := by
  rw [parameters, if_neg (by simpa using hne)]
  simp only [Bool.and_eq_true, Bool.not_eq_true', decide_eq_true_eq, hasLineBreak_withCommas,
    List.any_eq_false, Bool.not_eq_true, and_assoc, String.utf8ByteSize_append]

/-- The text of a class or define with parameters.  What is counted ends with the opening brace. -/
theorem formText_header (hheader : header? (v.form id) = some header) (hparams : header.params ≠ [])
    (depth : Nat) :
    formText v o write id depth =
      if (∀ x ∈ header.params, v.isComment x = false) ∧
          (∀ x ∈ header.params, hasLineBreak (write x (depth + 1)) = false) ∧
          (margin o depth ++ header.before ++
            ("(" ++ withCommas write header.params (depth + 1) ++ ")") ++ header.after ++
            "\x7b").utf8ByteSize ≤ o.maxLineWidth
      then header.inline v o write id depth
      else header.expanded v o write id depth := by
  have hopening : " \x7b" = " " ++ "\x7b" := rfl
  cases hform : v.form id with
  | classBlock name params inherits body =>
    rw [hform] at hheader
    cases hheader
    rw [formText, hform]
    dsimp only at hparams ⊢
    simp only [parameters_eq hparams, hopening, String.append_assoc]
    split <;> simp only [Header.inline, Header.expanded, String.append_assoc]
  | defineBlock name params body =>
    rw [hform] at hheader
    cases hheader
    rw [formText, hform]
    dsimp only at hparams ⊢
    simp only [parameters_eq hparams, hopening, String.append_assoc, String.empty_append]
    split <;> simp only [Header.inline, Header.expanded, String.append_assoc]
  | _ =>
    rw [hform] at hheader
    cases hheader

/-- The first line of a class or define with its parameters on one line. -/
theorem firstLine_inline (hbefore : breaks header.before = 0) (hafter : breaks header.after = 0)
    {depth : Nat} (hparams : ∀ x ∈ header.params, hasLineBreak (write x (depth + 1)) = false) :
    (firstLine (margin o depth ++ header.inline v o write id depth)).utf8ByteSize =
      (margin o depth ++ header.before ++
        ("(" ++ withCommas write header.params (depth + 1) ++ ")") ++ header.after).utf8ByteSize +
        if header.body = [] then 2 else 1 := by
  have hlist := hasLineBreak_eq_false.mp ((hasLineBreak_withCommas _ _).mpr hparams)
  rw [Header.inline, ← String.append_assoc, ← String.append_assoc, ← String.append_assoc,
    firstLine_append (by simp only [breaks_append _ header.after, breaks_append _ header.before,
      breaks_append _ ("(" ++ _ ++ ")"), hlist, hbefore, hafter, breaks_margin]),
    String.utf8ByteSize_append, firstLine_block]

/-- The parameters stay on the line if the head fits it; an empty body may end one byte behind. -/
theorem formText_eq_inline_iff (hheader : header? (v.form id) = some header)
    (hparams : header.params ≠ []) (hbefore : breaks header.before = 0)
    (hafter : breaks header.after = 0) (depth : Nat) :
    formText v o write id depth = header.inline v o write id depth ↔
      header.Fits v o write id depth (o.maxLineWidth + if header.body = [] then 1 else 0) := by
  rw [formText_header hheader hparams depth]
  split
  · rename_i h
    obtain ⟨hcomment, hline, hwidth⟩ := h
    refine ⟨fun _ => ⟨hcomment, hline, ?_⟩, fun _ => rfl⟩
    rw [firstLine_inline hbefore hafter hline]
    rw [String.utf8ByteSize_append] at hwidth
    change _ + 1 ≤ _ at hwidth
    split <;> omega
  · rename_i h
    refine ⟨fun heq => absurd heq.symm (inline_ne_expanded depth), fun hfits => absurd ?_ h⟩
    refine ⟨hfits.noComment, hfits.oneLine, ?_⟩
    have hshort := hfits.short
    rw [firstLine_inline hbefore hafter hfits.oneLine] at hshort
    rw [String.utf8ByteSize_append]
    change _ + 1 ≤ _
    split at hshort <;> omega

end

/-- A name is on one line. -/
theorem breaks_name {t : Token} (h : Token.Among Token.Spelled [.name, .kwDefault] t) :
    breaks t.text = 0 := by
  obtain ⟨hspelled, hkind⟩ := h
  have hkinds : ∀ k ∈ [Kind.name, .kwDefault], k ∉ Token.enclosed ∧ k ∉ Token.loose := by decide
  obtain ⟨henclosed, hloose⟩ := hkinds _ hkind
  refine List.count_eq_zero.mpr fun hmem => ?_
  cases (hspelled.visible henclosed hloose _ hmem).1

/-- What has a head is neither a manifest nor a pair. -/
theorem category_ne_of_header? {ι : Type} {form : Form ι} {header : Header ι}
    (h : header? form = some header) : form.category ≠ .manifest ∧ form.category ≠ .pair := by
  cases form with
  | classBlock | defineBlock => simp [Form.category]
  | _ => cases h

/-- No name in a header takes more than one line. -/
theorem breaks_header {ι : Type} {categoryOf : ι → Category} {form : Form ι} {header : Header ι}
    (h : (form.map categoryOf).Filled Token.Spelled) (hheader : header? form = some header) :
    breaks header.before = 0 ∧ breaks header.after = 0 := by
  have hname {t : Token} (h : Token.Among Token.Spelled [.name] t) : breaks t.text = 0 :=
    breaks_name ⟨h.1, List.mem_cons.mpr (.inl (List.mem_singleton.mp h.2))⟩
  cases form with
  | classBlock name params inherits body =>
    cases hheader
    obtain ⟨hclass, -, hinherits, -⟩ := h
    have hinheritance : breaks (inheritance inherits) = 0 := by
      cases inherits with
      | none => rfl
      | some t =>
        rw [inheritance, breaks_append, breaks_name (hinherits t rfl)]
        rfl
    constructor
    · rw [breaks_append, breaks_append, hname hclass]
      rfl
    · rw [breaks_append, hinheritance]
      rfl
  | defineBlock name params body =>
    cases hheader
    constructor
    · rw [breaks_append, hname h.1]
      rfl
    · change breaks " " = 0
      rfl
  | _ => cases hheader

/-- The decision in a tree of phrases, where the texts of the parameters are those of the tree. -/
theorem text_header {ps : List Phrase} (hps : ∀ p ∈ ps, p.Filled Token.Spelled) {id : NodeId}
    {header : Header NodeId} (hheader : header? ((Tree.ofPhrases ps).form id) = some header)
    (hparams : header.params ≠ []) (o : Options) (depth : Nat) :
    let t := Tree.ofPhrases ps
    (text t o id depth = header.inline t.view o (text t o) id depth ↔
      header.Fits t.view o (text t o) id depth
        (o.maxLineWidth + if header.body = [] then 1 else 0)) ∧
    (text t o id depth ≠ header.inline t.view o (text t o) id depth →
      text t o id depth = header.expanded t.view o (text t o) id depth) := by
  intro t
  have hcategory : t.category id ≠ .manifest := (category_ne_of_header? hheader).1
  obtain ⟨hbefore, hafter⟩ := breaks_header (Tree.filled_ofPhrases hps hcategory) hheader
  rw [Tree.text_ofPhrases hcategory]
  refine ⟨formText_eq_inline_iff (v := t.view) hheader hparams hbefore hafter depth, fun hne => ?_⟩
  rw [formText_header (v := t.view) hheader hparams] at hne ⊢
  split
  · rename_i h
    exact absurd (if_pos h) hne
  · rfl

/-- The parameters of a class or define in a source, written at any depth, stay on one line if and
only if no parameter is a comment, none takes more than one line, and the first line of the text that
results, from its margin to its end, is not longer than it may be, or one byte longer if the body is
empty.  Otherwise each of them has a line of its own. -/
theorem parse_header_fits {source : String} {tokens : List Token} {mode : SplitMode} {t : Tree}
    (hlex : Token.lex source = .ok tokens) (hparse : parse mode tokens = .ok t) {id : NodeId}
    {header : Header NodeId} (hheader : header? (t.form id) = some header)
    (hparams : header.params ≠ []) (o : Options) (depth : Nat) :
    let laid := if o.alignArrows then align t else t
    (text laid o id depth = header.inline laid.view o (text laid o) id depth ↔
      header.Fits laid.view o (text laid o) id depth
        (o.maxLineWidth + if header.body = [] then 1 else 0)) ∧
    (text laid o id depth ≠ header.inline laid.view o (text laid o) id depth →
      text laid o id depth = header.expanded laid.view o (text laid o) id depth) := by
  obtain ⟨ps, hps, rfl⟩ := parse_eq_ok hparse
  have hfilled : ∀ p ∈ mode.statements ps, p.Filled Token.Spelled := fun p hp =>
    (filled_statements hps (fun t ht => (Token.lex_spelled hlex t ht).1) p hp).2
  split
  · have hsame := node_align_of_not_pair (category_ne_of_header? hheader).2
    rw [align_ofPhrases] at hsame ⊢
    refine text_header ?_ (by rw [Tree.form, hsame]; exact hheader) hparams o depth
    exact List.forall_mem_map.mpr fun p hp => Phrase.filled_aligned.mpr (hfilled p hp)
  · exact text_header hfilled hheader hparams o depth

/-- A class in a class, whose head has a character of two bytes and just fits its line. -/
theorem parse_header_fits_of_class :
    let source := "class a \x7b\n  class b ($x = 'é') inherits c \x7b\n    fail(1)\n  \x7d\n\x7d"
    let header : Header NodeId := ⟨"class b ", [3], " inherits c ", [6]⟩
    let o : Options := { maxLineWidth := 34 }
    ∃ tokens t, Token.lex source = .ok tokens ∧ parse .render tokens = .ok t ∧
      header? (t.form 2) = some header ∧ header.params ≠ [] ∧
      let laid := if o.alignArrows then align t else t
      (text laid o 2 1 = header.inline laid.view o (text laid o) 2 1 ↔
        header.Fits laid.view o (text laid o) 2 1
          (o.maxLineWidth + if header.body = [] then 1 else 0)) ∧
      (text laid o 2 1 ≠ header.inline laid.view o (text laid o) 2 1 →
        text laid o 2 1 = header.expanded laid.view o (text laid o) 2 1) := by
  intro source header o
  have hok : ((Token.lex source).toOption.any fun tokens =>
      (parse .render tokens).toOption.any fun t => header? (t.form 2) == some header) = true := by
    decide +kernel
  obtain ⟨tokens, hlex, hok⟩ := ok_of_any hok
  obtain ⟨t, hparse, hheader⟩ := ok_of_any hok
  have hheader := eq_of_beq hheader
  exact ⟨tokens, t, hlex, hparse, hheader, List.cons_ne_nil 3 [],
    parse_header_fits hlex hparse hheader (List.cons_ne_nil 3 []) o 1⟩

/-- A class without statements stays on a line that is one byte too long. -/
theorem format_header_too_long :
    let source := "class foo ($a) \x7b\x7d"
    source.utf8ByteSize = 17 ∧
      Source.format source { layout := { maxLineWidth := 16 } } = .ok (source ++ "\n") :=
  ⟨by decide, ok_of_toOption (by decide +kernel)⟩

end Layout

end TidyManifest
