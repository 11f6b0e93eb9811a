import TidyManifest.Proofs.Conservation.Manifest
import TidyManifest.Proofs.Layout.Unlined
import TidyManifest.Proofs.RoundTrip.Blocks
import TidyManifest.Proofs.RoundTrip.Statements
import TidyManifest.Proofs.Tree.Parsed

/-!
# Reading the canonical text

The canonical text of a manifest of the basic sorts, without comments, division signs and regular
expressions, is read as the statements that it stands for (`reread_render`).  Only the lines of nodes
and tokens differ, and the layout does not look at them, so formatting once more changes nothing
(`format_settles`).

What the basic sorts are is said of the tree (`Tree.Basic`), after resources with several titles are
split.  Assignments are always of these sorts (`basic_of_assignments`); they are not split, so they are
read as the same tree (`format_rereads`).
-/

namespace TidyManifest

open Grammar

/-- All nodes of a tree are of the basic sorts. -/
def Tree.Basic (t : Tree) : Prop :=
  ∀ id < t.size, ((t.form id).map t.category).isBasic = true

instance (t : Tree) : Decidable t.Basic :=
  inferInstanceAs (Decidable (∀ id < t.size, ((t.form id).map t.category).isBasic = true))

/-- What is true of the contents of all nodes is true of a phrase in the tree, at every depth. -/
theorem Located.HeldBy.every {P : Form Category → Prop} {t : Tree} {x : Located} (h : x.HeldBy t)
    (ht : ∀ id < t.size, P ((t.form id).map t.category)) : x.place.phrase.Every P := by
  obtain ⟨id, inChain, level, p⟩ := x
  induction p using Phrase.induct generalizing id inChain level with
  | step p ih =>
    have hchildren := h.children
    have hlist : (view.form ⟨id, inChain, level, p⟩).children =
        list (id + 1) (Placed.below ⟨inChain, level, p⟩) p.children :=
      Form.children_withChildren _ _ (by simp [list, Phrase.children])
    rw [hlist] at hchildren
    refine Phrase.every_iff.mpr ⟨?_, fun q hq => ?_⟩
    · have hform := h.map_category
      rw [← hform]
      exact ht id h.lt_size
    · obtain ⟨id', hy⟩ := mem_place_list hq
      exact ih q hq _ _ _ (hchildren _ hy)

/-- A tree of phrases is of the basic sorts if everything in the phrases is, and none of them is an
option of a case. -/
theorem Tree.basic_ofPhrases {qs : List Phrase} : (ofPhrases qs).Basic ↔
    ∀ q ∈ qs, q.category ≠ .caseOption ∧ q.Every fun form => form.isBasic = true := by
  constructor
  · intro h q hq
    obtain ⟨id, hx⟩ := Located.mem_place_list hq
    refine ⟨?_, (Located.heldBy_ofPhrases _ _ hx).every h⟩
    refine forall_statements (P := (· ≠ .caseOption)) (fun id hid hoption => ?_) q hq
    have hroot := h root (by rw [size_ofPhrases]; exact Nat.lt_add_right _ Nat.one_pos)
    cases (Form.option_of_isBasic hroot _ (List.mem_map_of_mem hid)).mp hoption
  · intro h id hlt
    rcases Nat.eq_zero_or_pos id with rfl | hpos
    · refine List.all_eq_true.mpr (List.forall_mem_map.mpr fun child hchild => ?_)
      obtain ⟨before, q, after, rfl, rfl⟩ := Phrase.mem_starts.mp hchild
      have hq : (ofPhrases (before ++ q :: after)).Stands root (1 + Phrase.total before) [q] :=
        Stands.left (by simpa using (stands_ofPhrases (before ++ q :: after)).right)
      have hoption := (h q (by simp)).1
      rw [hq.heldBy.category_eq, beq_false_of_ne hoption]
      rfl
    · rw [size_ofPhrases] at hlt
      obtain ⟨parent, p, hstands, hp⟩ := (stands_ofPhrases qs).find
        (P := fun _ p => p.Every fun form => form.isBasic = true) (fun h q hq => h.child hq)
        (fun q hq => (h q hq).2) hpos hlt
      rw [hstands.heldBy.map_category]
      exact hp.form

/-- A statement of the basic sorts, with everything in it, before columns are set. -/
structure Phrase.Basic (p : Phrase) : Prop where
  statement : p.category ∈ Grammar.statements
  option : p.category ≠ .caseOption
  canonical : p.Every Form.Canonical
  width : p.Every fun form => form.width = 0

namespace Plain

open Parse Token

variable {o : Layout.Options} {q : Phrase} {qs : List Phrase}

/-- The text of a manifest is its lines. -/
theorem toList_manifestText (h : ∀ p ∈ q :: qs, LaidStatement p (lineText o 0 p)) :
    (Layout.manifestText o (q :: qs)).toList = linesText o 0 q qs := by
  have htrim := trimNewlines_phraseLines h
  rw [show (0 : Int).toNat * o.indentWidth = 0 from Nat.zero_mul _, List.replicate_zero,
    List.nil_append] at htrim
  obtain ⟨c, cs, hlines, hc⟩ := (h q (by simp)).starts.append
    (Layout.placedAfter o (Layout.statementAt 0 q) (qs.map (Layout.statementAt 0))).toList
  rw [Layout.manifestText]
  generalize Layout.trimNewlines (Layout.phraseLines o ((q :: qs).map (Layout.statementAt 0))) =
    body at htrim
  have hne : body ≠ "" := by
    rintro rfl
    have hnewline : ['\n'] = c :: cs := htrim.trans hlines
    cases hnewline
    exact hc (by simp)
  simp [hne, ← htrim]

/-- The canonical text of statements is read as statements that differ in lines and columns only. -/
theorem reread_manifestText (o : Layout.Options) (hqs : ∀ q ∈ qs, q.category ∈ Grammar.statements)
    (hoption : ∀ q ∈ qs, q.category ≠ .caseOption) (h : ∀ q ∈ qs, q.Every Form.Canonical) :
    ∃ tokens ps, Token.lex (Layout.manifestText o qs) = .ok tokens ∧
      manifest (levels tokens) tokens = .ok ps ∧ ps.map Phrase.unlined = qs.map Phrase.bare := by
  have hlaid : ∀ q ∈ qs, LaidStatement q (lineText o 0 q) :=
    fun q hq => laid_statement (h q hq) (hqs q hq) o 0
  have hlays : Lays Bounded (Layout.manifestText o qs).toList (StandAsBody .manifest qs) := by
    cases qs with
    | nil =>
      have htext : (Layout.manifestText o []).toList = [] := by
        simp [Layout.manifestText, Layout.phraseLines, Layout.trimNewlines, Text.trimBoth]
      rw [htext]
      exact lays_nil ⟨[], rfl, .done⟩
    | cons q qs =>
      rw [toList_manifestText hlaid]
      exact lays_linesText hlaid fun p hp => by simp [hoption p hp]
  have hlexes := hlays [] (· = []) (.inl fun c hc => by cases hc) (lexes_nil rfl)
  rw [List.append_nil] at hlexes
  obtain ⟨_, hlex, w, _, rfl, ⟨ps, hps, hstated⟩, rfl⟩ := hlexes.lex
  rw [List.append_nil] at hlex
  obtain ⟨hread, -⟩ := hstated.rereads none [] rfl
  rw [List.append_nil] at hread
  exact ⟨w, ps, hlex, by rw [manifest_eq, hread]; rfl, hps⟩

end Plain

/-- The canonical text of statements of the basic sorts is read as these statements, apart from
lines. -/
theorem reread_render (o : Layout.Options) {qs : List Phrase} (h : ∀ q ∈ qs, q.Basic) :
    ∃ tokens ps, Token.lex (Layout.render (Tree.ofPhrases qs) o) = .ok tokens ∧
      Plain.manifest (Parse.levels tokens) tokens = .ok ps ∧
      ps.map Phrase.unlined = qs.map Phrase.unlined := by
  have hbare : qs.map Phrase.bare = qs.map Phrase.unlined :=
    List.map_congr_left fun q hq => (h q hq).width.bare_eq
  rw [Layout.render_ofPhrases, ← hbare]
  split
  · have haligned : (qs.map Phrase.aligned).map Phrase.bare = qs.map Phrase.bare := by
      rw [List.map_map]
      exact List.map_congr_left fun q _ => Phrase.bare_aligned q
    have hcanonical (q : Phrase) (hq : q ∈ qs) : q.aligned.Every Form.Canonical := by
      refine (Phrase.every_aligned fun key arrow value w w' => ?_).mpr (h q hq).canonical
      exact propext ⟨fun h => ⟨h.filled, h.regular, h.basic⟩, fun h => ⟨h.filled, h.regular, h.basic⟩⟩
    rw [← haligned]
    refine Plain.reread_manifestText o ?_ ?_ (List.forall_mem_map.mpr hcanonical) <;>
      refine List.forall_mem_map.mpr fun q hq => ?_ <;> rw [Phrase.category_aligned]
    · exact (h q hq).statement
    · exact (h q hq).option
  · exact Plain.reread_manifestText o (fun q hq => (h q hq).statement) (fun q hq => (h q hq).option)
      fun q hq => (h q hq).canonical

/-- In a source without comments, division signs and regular expressions, every token stays what it
is. -/
theorem Token.kept_of_lex {source : String} {tokens : List Token} (h : lex source = .ok tokens)
    (hkinds : ∀ x ∈ tokens, x.kind ∉ [Kind.comment, .blockComment, .slash, .regex]) :
    ∀ t ∈ tokens, t.Kept := by
  intro t ht
  have hkind := hkinds t ht
  simp only [List.mem_cons, List.not_mem_nil, or_false, not_or] at hkind
  obtain ⟨hcomment, hblock, hslash, hregex⟩ := hkind
  by_cases hnewline : t.kind = .newline
  · exact .inl hnewline
  · exact .inr (lex_steady h ht (by simp [openEnded, hblock, hslash, hregex])
      (by simp [hnewline, hcomment]))

section

variable {source : String} {tokens : List Token} {t : Tree} {ps : List Phrase}

/-- The statements of a manifest, whichever way of splitting, are basic if its tree is. -/
theorem basic_statements {mode : SplitMode} (hkept : ∀ t ∈ tokens, t.Kept)
    (hps : Plain.manifest (Parse.levels tokens) tokens = .ok ps)
    (hbasic : (Tree.ofPhrases (mode.statements ps)).Basic) : ∀ q ∈ mode.statements ps, q.Basic := by
  intro q hq
  obtain ⟨hoption, hbasic⟩ := Tree.basic_ofPhrases.mp hbasic q hq
  obtain ⟨hstatement, hfilled⟩ := filled_statements hps hkept q hq
  have hregular := (regular_statements hps q hq).every
  refine ⟨hstatement, hoption, ((hfilled.and hregular).and hbasic).imp ?_, ?_⟩
  · rintro form ⟨⟨hfilled, hregular⟩, hbasic⟩
    exact ⟨hfilled, hregular, hbasic⟩
  · have hwidth (p : Phrase) (hp : p ∈ ps) := (Plain.manifest_finds hps p hp).width_every
    cases mode with
    | render => exact hwidth q hq
    | splice =>
      obtain ⟨p, hp, hq⟩ := List.mem_flatMap.mp hq
      exact (hwidth p hp).width_split q hq

/-- Formatting a manifest of the basic sorts once more changes nothing. -/
theorem format_settles (s : Settings) (hlex : Token.lex source = .ok tokens)
    (hkinds : ∀ x ∈ tokens, x.kind ∉ [Kind.comment, .blockComment, .slash, .regex])
    (hparse : parse .splice tokens = .ok t) (hbasic : t.Basic) :
    ∃ out, Source.format source s = .ok out ∧ Source.format out s = .ok out := by
  obtain ⟨ps, hps, rfl⟩ := parse_eq_ok hparse
  have hqs := basic_statements (Token.kept_of_lex hlex hkinds) hps hbasic
  obtain ⟨tokens', ps', hlex', hps', hunlined⟩ := reread_render s.layout hqs
  -- the layout looks at no lines, and it splits resources whether or not the tree has them split
  have htext : Layout.render (Tree.ofPhrases ps') s.layout =
      Layout.render (Tree.ofPhrases (SplitMode.splice.statements ps)) s.layout := by
    rw [← Layout.render_unlined, Tree.unlined_ofPhrases hunlined, Layout.render_unlined]
  have hout : Source.format source s =
      .ok (Layout.render (Tree.ofPhrases (SplitMode.splice.statements ps)) s.layout) := by
    rw [format_eq_render hlex (parse_of_manifest hps) s]
    exact congrArg Except.ok (Layout.render_split s.layout ps).symm
  refine ⟨_, hout, ?_⟩
  rw [format_eq_render hlex' (parse_of_manifest hps') s]
  exact congrArg Except.ok htext

end

/-- A class with a resource that has two titles, an `else` and a case, all on one line. -/
theorem format_settles_of_class :
    let source := "class a\x7b@f\x7b'b':mm=>1,c=>g(2);h:\x7d " ++
      "if $i\x7b\x7delse\x7bcase 3\x7b-4,j:\x7b\x7d\x7d\x7d\x7d"
    ∃ tokens t out, Token.lex source = .ok tokens ∧ parse .splice tokens = .ok t ∧ t.Basic ∧
      Source.format source {} = .ok out ∧ Source.format out {} = .ok out := by
  intro source
  have hok : ((Token.lex source).toOption.any fun tokens =>
      decide (∀ x ∈ tokens, x.kind ∉ [Kind.comment, .blockComment, .slash, .regex]) &&
        (parse .splice tokens).toOption.any fun t => decide t.Basic) = true := by decide +kernel
  obtain ⟨tokens, hlex, hok⟩ := ok_of_any hok
  obtain ⟨hkinds, hok⟩ := Bool.and_eq_true_iff.mp hok
  obtain ⟨t, hparse, hbasic⟩ := ok_of_any hok
  have hbasic : t.Basic := of_decide_eq_true hbasic
  obtain ⟨out, hout⟩ := format_settles {} hlex (of_decide_eq_true hkinds) hparse hbasic
  exact ⟨tokens, t, out, hlex, hparse, hbasic, hout⟩

/-- Elsewhere it may change something: a value in parentheses on the next line is not the argument
list of the name before it, but on the same line it is. -/
theorem format_unsettled_call :
    Source.format "notice\n(a)" {} = .ok "notice (a)\n" ∧
      Source.format "notice (a)\n" {} = .ok "notice(a)\n" :=
  ⟨ok_of_toOption (by decide +kernel), ok_of_toOption (by decide +kernel)⟩

/-- An assignment is not split. -/
theorem Phrase.split_assignment {p : Phrase} (h : p.category = .assignment) : p.split = [p] := by
  obtain ⟨line, form⟩ := p
  have hsplit : (Phrase.mk line form).split = [⟨line, form.withBodies id split⟩] := by
    refine split_other fun sigil token items hform => ?_
    rw [category, hform] at h
    cases h
  rw [hsplit, Form.withBodies_id]
  show (Phrase.mk line form).category.hasBody = false
  rw [h]
  rfl

/-- Assignments are the statements of a manifest, whichever way of splitting. -/
theorem SplitMode.statements_assignments {mode : SplitMode} {ps : List Phrase}
    (h : ∀ p ∈ ps, p.category = .assignment) : mode.statements ps = ps := by
  cases mode with
  | render => rfl
  | splice =>
    calc ps.flatMap Phrase.split
      _ = (ps.map fun p => [p]).flatten := by
        rw [List.flatMap_def, List.map_congr_left fun p hp => Phrase.split_assignment (h p hp)]
      _ = ps := by rw [← List.flatMap_def, List.flatMap_singleton']

/-- Only assignments are split into assignments. -/
theorem SplitMode.assignments_of_statements {mode : SplitMode} {ps : List Phrase}
    (h : ∀ p ∈ mode.statements ps, p.category = .assignment) : ∀ p ∈ ps, p.category = .assignment := by
  cases mode with
  | render => exact h
  | splice =>
    intro p hp
    obtain ⟨q, qs, hsplit, hspacing, -⟩ := Layout.splitsText {} p 0 []
    rw [← hspacing.category]
    exact h q (List.mem_flatMap.mpr ⟨p, hp, by simp [hsplit]⟩)

/-- A source is parsed by way of its tokens. -/
theorem Source.parse_of_lex {source : String} {tokens : List Token} {t : Tree} {s : Settings}
    (hlex : Token.lex source = .ok tokens) (hparse : TidyManifest.parse s.splitMode tokens = .ok t) :
    Source.parse source s = .ok t := by
  simp only [Source.parse, hlex, hparse]

/-- A source is formatted by way of its tree. -/
theorem Source.format_of_parse {source : String} {t : Tree} {s : Settings}
    (h : Source.parse source s = .ok t) : Source.format source s = .ok (Layout.render t s.layout) := by
  rw [Source.format, h]
  rfl

section

variable {source : String} {tokens : List Token} {t : Tree}

/-- Assignments are of the basic sorts, with everything in them. -/
theorem basic_of_assignments {mode : SplitMode} (hlex : Token.lex source = .ok tokens)
    (hkinds : ∀ x ∈ tokens, x.kind ∉ [Kind.comment, .blockComment, .slash, .regex])
    (hparse : parse mode tokens = .ok t)
    (hassign : ∀ id ∈ t.children Tree.root, t.category id = .assignment) : t.Basic := by
  obtain ⟨ps, hps, rfl⟩ := parse_eq_ok hparse
  have hcategories : ∀ p ∈ ps, p.category = .assignment := SplitMode.assignments_of_statements
    (Tree.forall_statements (P := (· = .assignment)) hassign)
  rw [SplitMode.statements_assignments hcategories, Tree.basic_ofPhrases]
  intro p hp
  have hp' : p.category = .assignment := hcategories p hp
  have hmem : p ∈ SplitMode.render.statements ps := hp
  have hfilled := (filled_statements hps (Token.kept_of_lex hlex hkinds) p hmem).2
  refine ⟨by rw [hp']; decide, (Plain.manifest_finds hps p hp).bareCalls.basic hfilled ?_ ?_⟩
  · rw [hp']
    decide
  · intro hcall
    cases hp'.symm.trans hcall

/-- The canonical text of a tree of assignments is read as the same tree, apart from lines. -/
theorem parse_render_assignments (s : Settings) (hlex : Token.lex source = .ok tokens)
    (hkinds : ∀ x ∈ tokens, x.kind ∉ [Kind.comment, .blockComment, .slash, .regex])
    (hparse : parse s.splitMode tokens = .ok t)
    (hassign : ∀ id ∈ t.children Tree.root, t.category id = .assignment) :
    ∃ t', Source.parse (Layout.render t s.layout) s = .ok t' ∧ t'.unlined = t.unlined := by
  have hbasic := basic_of_assignments hlex hkinds hparse hassign
  obtain ⟨ps, hps, rfl⟩ := parse_eq_ok hparse
  have hcategories : ∀ p ∈ ps, p.category = .assignment := SplitMode.assignments_of_statements
    (Tree.forall_statements (P := (· = .assignment)) hassign)
  have hqs := basic_statements (Token.kept_of_lex hlex hkinds) hps hbasic
  rw [SplitMode.statements_assignments hcategories] at hqs ⊢
  obtain ⟨tokens', ps', hlex', hps', hunlined⟩ := reread_render s.layout hqs
  have hcategories' : ∀ p ∈ ps', p.category = .assignment := by
    have heq := congrArg (List.map Phrase.category) hunlined
    simp only [List.map_map, Function.comp_def, Phrase.category_unlined] at heq
    intro p hp
    obtain ⟨q, hq, heq⟩ := List.mem_map.mp (heq ▸ List.mem_map_of_mem (f := Phrase.category) hp)
    exact heq.symm.trans (hcategories q hq)
  have hparse' : parse s.splitMode tokens' = .ok (Tree.ofPhrases ps') := by
    rw [parse_of_manifest hps', SplitMode.statements_assignments hcategories']
  exact ⟨_, Source.parse_of_lex hlex' hparse', Tree.unlined_ofPhrases hunlined⟩

/-- Assignments, without comments, division signs and regular expressions, are formatted to a text
that is read as the same tree.  Only lines differ. -/
theorem format_rereads (s : Settings) (hlex : Token.lex source = .ok tokens)
    (hkinds : ∀ x ∈ tokens, x.kind ∉ [Kind.comment, .blockComment, .slash, .regex])
    (hparse : parse s.splitMode tokens = .ok t)
    (hassign : ∀ id ∈ t.children Tree.root, t.category id = .assignment) :
    ∃ out t', Source.format source s = .ok out ∧ Source.parse out s = .ok t' ∧
      t'.unlined = t.unlined := by
  obtain ⟨t', ht', hunlined⟩ := parse_render_assignments s hlex hkinds hparse hassign
  exact ⟨_, t', Source.format_of_parse (Source.parse_of_lex hlex hparse), ht', hunlined⟩

/-- Two assignments on one line.  The hash gets lines of its own, and the call goes on one line. -/
theorem format_rereads_of_hash :
    let source := "$a = \x7bb=>-1,cc => $x ? \x7b default=>2 \x7d\x7d ; $d += f(C['e'],\n!g)"
    let s : Settings := { splitMode := .splice }
    ∃ t out t', Source.parse source s = .ok t ∧ t.children Tree.root = [1, 15] ∧ t.size = 26 ∧
      Source.format source s = .ok out ∧ Source.parse out s = .ok t' ∧ t'.unlined = t.unlined := by
  intro source s
  obtain ⟨tokens, htokens⟩ : ∃ tokens : List Token, tokens =
      [⟨.dollarVar, "$a", 1⟩, ⟨.equals, "=", 1⟩, ⟨.leftBrace, "\x7b", 1⟩, ⟨.name, "b", 1⟩,
       ⟨.fatArrow, "=>", 1⟩, ⟨.minus, "-", 1⟩, ⟨.number, "1", 1⟩, ⟨.comma, ",", 1⟩, ⟨.name, "cc", 1⟩,
       ⟨.fatArrow, "=>", 1⟩, ⟨.dollarVar, "$x", 1⟩, ⟨.question, "?", 1⟩, ⟨.leftBrace, "\x7b", 1⟩,
       ⟨.kwDefault, "default", 1⟩, ⟨.fatArrow, "=>", 1⟩, ⟨.number, "2", 1⟩, ⟨.rightBrace, "\x7d", 1⟩,
       ⟨.rightBrace, "\x7d", 1⟩, ⟨.semicolon, ";", 1⟩, ⟨.dollarVar, "$d", 1⟩, ⟨.plusEquals, "+=", 1⟩,
       ⟨.name, "f", 1⟩, ⟨.leftParen, "(", 1⟩, ⟨.classRef, "C", 1⟩, ⟨.leftBracket, "[", 1⟩,
       ⟨.singleQuoted, "'e'", 1⟩, ⟨.rightBracket, "]", 1⟩, ⟨.comma, ",", 1⟩, ⟨.newline, "\n", 1⟩,
       ⟨.bang, "!", 2⟩, ⟨.name, "g", 2⟩, ⟨.rightParen, ")", 2⟩] := ⟨_, rfl⟩
  have hlex : Token.lex source = .ok tokens := by
    apply ok_of_toOption
    rw [htokens]
    decide +kernel
  have hkinds : ∀ x ∈ tokens, x.kind ∉ [Kind.comment, .blockComment, .slash, .regex] := by
    rw [htokens]
    decide
  have hok : ((parse .splice tokens).toOption.any fun t => decide
      (t.children Tree.root = [1, 15] ∧ t.size = 26 ∧
        ∀ id ∈ t.children Tree.root, t.category id = .assignment)) = true := by
    rw [htokens]
    decide +kernel
  obtain ⟨t, hparse, hok⟩ := ok_of_any hok
  obtain ⟨hchildren, hsize, hassign⟩ := of_decide_eq_true hok
  obtain ⟨out, t', hout, ht', hunlined⟩ := format_rereads s hlex hkinds hparse hassign
  exact ⟨t, out, t', Source.parse_of_lex hlex hparse, hchildren, hsize, hout, ht', hunlined⟩

end

end TidyManifest
