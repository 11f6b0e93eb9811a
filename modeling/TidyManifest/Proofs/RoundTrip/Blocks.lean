import TidyManifest.Proofs.RoundTrip.Layout

/-!
# The tokens of the layout of statements

The text of a statement is cut into tokens that stand for it (`laid_statement`), and so are the lines
of a body (`lays_linesText`).  A statement with a body is a head and a block, and the text of the block
is put together from the texts of its statements: a newline or two stand between them, or a blank where
an `else` joins the brace before it.  A resource is its type and a block of items, with a title in
front of them or none.
-/

namespace TidyManifest

open Grammar

namespace Plain

open Token

/-- A text that stands for a statement. -/
structure LaidStatement (q : Phrase) (cs : List Char) : Prop where
  starts : StartsOutside ('\n' :: blanks) cs
  ends : Closed cs
  lays : Lays Bounded cs (StandFor (fun p => Stated (.statement p)) q)

theorem LaidStatement.visible {q : Phrase} {cs : List Char} (h : LaidStatement q cs) :
    StartsOutside blanks cs :=
  h.starts.mono (List.subset_cons_self _ _)

section

variable {line : Nat} {q : Phrase} {qs : List Phrase} {f : Phrase → List Char}

/-- A value is a statement by itself. -/
theorem Laid.statement {cs : List Char} (h : Laid q cs) (hq : q.category ∈ [Category.assignment, .call]) :
    LaidStatement q cs := by
  refine ⟨h.starts.mono (by decide), h.ends, h.lays.mono ?_⟩
  rintro w ⟨p, hp, hw⟩
  exact ⟨p, hp, .value ((category_of_unlined hp).symm ▸ hq) hw⟩

/-- Expressions with commas between them. -/
theorem lays_row (h : ∀ p ∈ q :: qs, Laid p (f p)) (hqs : ∀ p ∈ q :: qs, p.category = .expression) :
    Lays Bounded (commaSeparated f (q :: qs)) (StandAs Row (q :: qs)) := by
  obtain ⟨hq, hmore⟩ := List.forall_mem_cons.mp h
  obtain ⟨hcategory, hcategories⟩ := List.forall_mem_cons.mp hqs
  refine (hq.lays.append (lays_further hmore hcategories) (delimited_afterCommas f qs)).mono ?_
  rintro _ ⟨v, w, rfl, ⟨p, hp, hv⟩, ps, hps, hw⟩
  exact ⟨p :: ps, by simp [hp, hps], .intro ((category_of_unlined hp).trans hcategory) hv hw⟩

/-- An inclusion is laid out as a keyword and a row of values. -/
theorem laid_inclusion {keyword : Token} {args : List Phrase}
    (hfilled : ((Form.inclusion keyword args).map Phrase.category).Filled Kept)
    (h : ∀ p ∈ args, Laid p (f p)) :
    LaidStatement ⟨line, .inclusion keyword args⟩
      (keyword.text.toList ++ ' ' :: commaSeparated f args) := by
  obtain ⟨hkeyword, hne, hargs⟩ := hfilled
  have hsteady : keyword.Steady := hkeyword.steady (by decide)
  cases args with
  | nil => exact absurd rfl hne
  | cons q qs =>
    obtain ⟨hq, hmore⟩ := List.forall_mem_cons.mp h
    have hrow := hsteady.lays.spaced (lays_row h (List.forall_mem_map.mp hargs)) (hq.visible.append _) 0
    have hends : Closed (f q ++ afterCommas f qs) := by
      cases qs with
      | nil => simpa [afterCommas] using hq.ends
      | cons q' qs => exact (closed_flatMap fun p hp => (hmore p hp).ends.append [',', ' ']).append _
    refine ⟨hsteady.starts.append _, (hends.append [' ']).append _, hrow.mono ?_⟩
    rintro _ ⟨_, w, rfl, ⟨t, rfl, ht⟩, ps, hps, hw⟩
    refine ⟨⟨t.line, .inclusion t ps⟩, unlined_eq_bare ?_ rfl,
      .inclusion (kind_of_unlined ht ▸ hkeyword.2) hw⟩
    simp only [Form.map, Form.unlined, Form.mapTokens, ht, hps]

/-- Tokens that stand for a title and the colon after it. -/
def StandAsTitle (q : Phrase) (w : List Token) : Prop :=
  ∃ titles v colon, w = v ++ [colon] ∧ (Phrase.mk (firstLine v) (.title titles)).unlined = q.bare ∧
    Row titles v ∧ colon.kind = .colon

/-- A text that stands for a title. -/
structure LaidTitle (q : Phrase) (cs : List Char) : Prop where
  visible : StartsOutside blanks cs
  lays : Lays Delimited cs (StandAsTitle q)

/-- A title is laid out as a row of values and a colon. -/
theorem laid_title {titles : List Phrase} (h : ∀ p ∈ titles, Laid p (f p))
    (htitles : Expressions (titles.map Phrase.category)) :
    LaidTitle ⟨line, .title titles⟩ (commaSeparated f titles ++ [':']) := by
  obtain ⟨hne, hcategories⟩ := htitles
  cases titles with
  | nil => exact absurd rfl hne
  | cons q qs =>
    refine ⟨((h q (by simp)).visible.append _).append _,
      (lays_row h (List.forall_mem_map.mp hcategories)).colon.mono ?_⟩
    rintro _ ⟨v, _, rfl, ⟨ps, hps, hv⟩, colon, rfl, hcolon⟩
    refine ⟨ps, v, colon, rfl, unlined_eq_bare ?_ rfl, hv, hcolon⟩
    simp only [Form.map, Form.unlined, Form.mapTokens, hps]

/-- A title in front of more items. -/
theorem LaidTitle.items {cs u : List Char} {follow : List Char → Prop} (h : LaidTitle q u)
    (hmore : Lays follow cs (StandAs Members qs)) (hcs : ∀ rest, follow rest → Delimited (cs ++ rest)) :
    Lays follow (u ++ cs) (StandAs Members (q :: qs)) := by
  refine (h.lays.then hmore hcs).mono ?_
  rintro _ ⟨_, w, rfl, ⟨titles, v, colon, rfl, htitle, hrow, hcolon⟩, ps, hps, hw⟩
  refine ⟨⟨firstLine v, .title titles⟩ :: ps, by simp [htitle, hps], ?_⟩
  rw [List.append_assoc]
  exact .title hrow hcolon hw

/-- Tokens that stand for the sigils and the type of a resource. -/
def StandTyped (sigil : String) (t : Token) (w : List Token) : Prop :=
  ∃ sigils t', w = sigils ++ [t'] ∧ (∀ s ∈ sigils, s.kind = .atSign) ∧ sigilText sigils = sigil ∧
    t'.unlined = t.unlined

/-- Sigils and the name of a type are read as such. -/
theorem lays_typed {t : Token} {sigils : List Token} (ht : t.Steady)
    (hsigils : ∀ s ∈ sigils, s.Among Kept [.atSign]) :
    StartsOutside ('\n' :: blanks) ((sigilText sigils).toList ++ t.text.toList) ∧
      Lays Bounded ((sigilText sigils).toList ++ t.text.toList) (StandTyped (sigilText sigils) t) := by
  induction sigils with
  | nil =>
    refine ⟨ht.starts, ht.lays.mono ?_⟩
    rintro _ ⟨t', rfl, ht'⟩
    exact ⟨[], t', rfl, by simp, rfl, ht'⟩
  | cons s sigils ih =>
    obtain ⟨hs, hmore⟩ := List.forall_mem_cons.mp hsigils
    have htext : s.text = "@" :=
      (hs.steady (by decide)).spelled.text_eq (by rw [List.mem_singleton.mp hs.2]; rfl)
    have hcons : sigilText (s :: sigils) = "@" ++ sigilText sigils := by simp [sigilText, htext]
    have hsigil : (Kind.atSign, '@') ∈ openings := by decide
    rw [hcons, String.toList_append, List.append_assoc]
    refine ⟨⟨'@', _, rfl, by decide⟩, ((ih hmore).2.openingLike hsigil).mono ?_⟩
    rintro _ ⟨_, _, rfl, ⟨s', rfl, hs'⟩, sigils', t', rfl, hkinds, hsigils', ht'⟩
    refine ⟨s' :: sigils', t', rfl, List.forall_mem_cons.mpr ⟨kind_of_unlined hs', hkinds⟩, ?_, ht'⟩
    simp only [sigilText, List.map_cons, String.join_cons, text_of_unlined hs'] at hsigils' ⊢
    rw [hsigils']
    rfl

/-- A resource with a block. -/
theorem laid_typed {sigil : String} {t : Token} {items : List Phrase} {cs : List Char}
    (hfilled : ((Form.resource sigil (.type t) none true items).map Phrase.category).Filled Kept)
    (hitems : Enclosed braces (StandAs Members items) cs) :
    LaidStatement ⟨line, .resource sigil (.type t) none true items⟩
      (sigil.toList ++ t.text.toList ++ ' ' :: cs) := by
  obtain ⟨⟨sigils, hsigils, rfl⟩, htype, -⟩ := hfilled
  have htype : t.Among Kept resourceTypes := htype
  obtain ⟨hstarts, hlays⟩ := lays_typed (htype.steady (by decide)) hsigils
  refine ⟨hstarts.append _, (hitems.ends.append [' ']).append _,
    (hlays.spaced hitems.lays hitems.visible 0).mono ?_⟩
  rintro _ ⟨_, _, rfl, ⟨sigils', t', rfl, hkinds, hsigils', ht'⟩, _, _, rfl, ⟨opening, rfl, hopening⟩, w,
    _, rfl, ⟨ps, hps, hw⟩, closing, rfl, hclosing⟩
  let r : Reopening := ⟨sigils', t', opening, hkinds, kind_of_unlined ht' ▸ htype.2, hopening⟩
  have htokens : sigils' ++ [t'] ++ ([opening] ++ (w ++ [closing])) = r.tokens (w ++ [closing]) := by
    simp [r, Reopening.tokens]
  refine ⟨⟨r.first.line, .resource (sigilText sigils') (.type t') none true ps⟩, unlined_eq_bare ?_ rfl, ?_⟩
  · simp only [Form.map, Form.unlined, Form.mapTokens, Head.map, Head.mapToken, Option.map_none, ht', hps,
      hsigils']
  · rw [htokens]
    exact .resource hw hclosing

/-- Tokens that stand for what is in front of the block of a statement. -/
def StandHeaded (q : Phrase) (w : List Token) : Prop :=
  ∃ form, Headed q.category form w ∧ ∀ line ps, ps.map Phrase.unlined = q.form.body.map Phrase.bare →
    (Phrase.mk line (form ps)).unlined = q.bare

/-- A text that stands for what is in front of the block of a statement. -/
structure LaidHead (q : Phrase) (cs : List Char) : Prop where
  starts : StartsOutside ('\n' :: blanks) cs
  lays : Lays Delimited cs (StandHeaded q)

/-- A keyword and a name. -/
theorem laidHead_named {kind : Kind} {word : String} {name : Token} (hword : (kind, word) ∈ words)
    (hname : name.Steady) (hform : ∀ keyword t : Token, keyword.kind = kind → t.unlined = name.unlined →
      StandHeaded q [keyword, t]) : LaidHead q (word.toList ++ ' ' :: name.text.toList) := by
  refine ⟨(steady_word hword).starts.append _,
    ((lays_word hword).spaced hname.lays hname.startsVisible 0).before.mono ?_⟩
  rintro _ ⟨_, _, rfl, ⟨keyword, rfl, hkeyword⟩, t, rfl, ht⟩
  exact hform keyword t hkeyword ht

/-- The head of a case. -/
theorem laidHead_case {subject : Phrase} {body : List Phrase} {cs : List Char} (h : Laid subject cs)
    (hsubject : subject.category = .expression) :
    LaidHead ⟨line, .caseBlock subject body⟩ ("case".toList ++ ' ' :: cs) := by
  have hword : Lays Bounded "case".toList (OfKind .kwCase) := lays_word (by decide)
  refine ⟨⟨'c', _, rfl, by decide⟩, (hword.spaced h.lays h.visible 0).before.mono ?_⟩
  rintro _ ⟨_, w, rfl, ⟨keyword, rfl, hkeyword⟩, p, hp, hw⟩
  refine ⟨.caseBlock p, .caseBlock hkeyword ((category_of_unlined hp).trans hsubject) hw,
    fun line ps hps => unlined_eq_bare ?_ rfl⟩
  simp only [Form.map, Form.unlined, Form.mapTokens, hp, hps]
  rfl

/-- The head of an option. -/
theorem laidHead_option {values body : List Phrase}
    (hvalues : Expressions (values.map Phrase.category)) (h : ∀ p ∈ values, Laid p (f p)) :
    LaidHead ⟨line, .caseOption values body⟩ (commaSeparated f values ++ [':']) := by
  obtain ⟨hne, hcategories⟩ := hvalues
  cases values with
  | nil => exact absurd rfl hne
  | cons q qs =>
    refine ⟨(((h q (by simp)).starts.mono (by decide)).append _).append _,
      (lays_row h (List.forall_mem_map.mp hcategories)).colon.mono ?_⟩
    rintro _ ⟨w, _, rfl, ⟨ps, hps, hw⟩, colon, rfl, hcolon⟩
    refine ⟨.caseOption ps, .caseOption hw hcolon, fun line ps' hps' => unlined_eq_bare ?_ rfl⟩
    simp only [Form.map, Form.unlined, Form.mapTokens, hps, hps']
    rfl

/-- The condition of a branch, if it has one. -/
def conditionText (f : Phrase → List Char) : Option Phrase → List Char
  | none => []
  | some q => ' ' :: f q

/-- The head of a branch. -/
theorem laidHead_branch {keyword : Token} {condition : Option Phrase} {body : List Phrase}
    (hform : ((Form.branch keyword condition body).map Phrase.category).Canonical)
    (h : ∀ q ∈ condition, Laid q (f q)) :
    LaidHead ⟨line, .branch keyword condition body⟩
      (keyword.text.toList ++ conditionText f condition) := by
  obtain ⟨⟨hkeyword, hcondition, -⟩, hregular, -⟩ := hform
  have hsteady : keyword.Steady := hkeyword.steady (by decide)
  refine ⟨hsteady.starts.append _, ?_⟩
  cases condition with
  | none =>
    refine Lays.mono (by simpa [conditionText] using hsteady.lays.before) ?_
    rintro _ ⟨t, rfl, ht⟩
    refine ⟨.branch t none, .elseBranch ((kind_of_unlined ht).trans (hregular.mp rfl)),
      fun line ps hps => unlined_eq_bare ?_ rfl⟩
    simp only [Form.map, Form.unlined, Form.mapTokens, ht, hps, Option.map_none]
    rfl
  | some q =>
    have hq : q.category = .expression := hcondition _ rfl
    have hlaid := h q rfl
    have helse : keyword.kind ≠ .kwElse := fun helse => by cases hregular.mpr helse
    refine (hsteady.lays.spaced hlaid.lays hlaid.visible 0).before.mono ?_
    rintro _ ⟨_, w, rfl, ⟨t, rfl, ht⟩, p, hp, hw⟩
    have hkind : t.kind ∈ [Kind.kwIf, .kwElsif] := by
      have hkeyword := hkeyword.2
      rw [kind_of_unlined ht]
      simpa [helse] using hkeyword
    refine ⟨.branch t (some p), .branch hkind ((category_of_unlined hp).trans hq) hw,
      fun line ps hps => unlined_eq_bare ?_ rfl⟩
    simp only [Form.map, Form.unlined, Form.mapTokens, ht, hp, hps, Option.map_some]
    rfl

/-- A head and a block. -/
theorem laid_block {cs v : List Char} (hhead : LaidHead q cs)
    (hbody : Enclosed braces (StandAs (fun ps => Stated (.body q.category ps)) q.form.body) v) :
    LaidStatement q (cs ++ ' ' :: v) := by
  have hwhole := hhead.lays.then (hbody.lays.blanks hbody.visible 1)
    fun _ _ => delimited_cons (by decide) _
  refine ⟨hhead.starts.append _, (hbody.ends.append [' ']).append _, hwhole.mono ?_⟩
  rintro _ ⟨v, _, rfl, ⟨form, head, hform⟩, _, _, rfl, ⟨opening, rfl, hopening⟩, w, _, rfl, ⟨ps, hps, hw⟩,
    closing, rfl, hclosing⟩
  exact ⟨⟨firstLine v, form ps⟩, hform _ ps hps, .block head hopening hw hclosing⟩

end

section

variable {o : Layout.Options} {level : Int} {parent : Category} {q : Phrase} {qs : List Phrase}

/-- Between two statements there is a blank, where an `else` joins the brace before it, or a newline,
perhaps with a blank line after it. -/
theorem gap_cases (o : Layout.Options) (x y : Placed) :
    (Layout.gap Placed.view o x y = " " ∧ x.phrase.category = .branch) ∨
      ∃ pause, pause ∈ [[], ['\n']] ∧ (Layout.gap Placed.view o x y).toList =
        '\n' :: (pause ++ List.replicate (Placed.view.depth y * o.indentWidth) ' ') := by
  unfold Layout.gap
  split
  · rename_i hcuddle
    simp only [Bool.and_eq_true, Layout.view_category, beq_iff_eq] at hcuddle
    exact .inl ⟨rfl, hcuddle.2⟩
  · right
    extract_lets blank
    cases blank with
    | true => exact ⟨['\n'], by simp, by simp [Layout.margin]⟩
    | false => exact ⟨[], by simp, by simp [Layout.margin]⟩

/-- The text of a statement on its line. -/
def lineText (o : Layout.Options) (level : Int) (q : Phrase) : List Char :=
  ((Layout.statementAt level q).text o level.toNat).toList

/-- The text of statements from the first one on. -/
def linesText (o : Layout.Options) (level : Int) (q : Phrase) (qs : List Phrase) : List Char :=
  lineText o level q ++
    (Layout.placedAfter o (Layout.statementAt level q) (qs.map (Layout.statementAt level))).toList

theorem linesText_nil (o : Layout.Options) (level : Int) (q : Phrase) :
    linesText o level q [] = lineText o level q ++ ['\n'] := by
  simp [linesText, Layout.following]

theorem linesText_cons (o : Layout.Options) (level : Int) (q q' : Phrase) (qs : List Phrase) :
    linesText o level q (q' :: qs) = lineText o level q ++
      ((Layout.gap Placed.view o (Layout.statementAt level q) (Layout.statementAt level q')).toList ++
        linesText o level q' qs) := by
  have hdepth : Placed.view.depth (Layout.statementAt level q') = level.toNat := rfl
  simp [linesText, Layout.following, lineText, hdepth]

/-- Tokens that stand for the statements of a body. -/
abbrev StandAsBody (parent : Category) : List Phrase → List Token → Prop :=
  StandAs fun ps => Stated (.body parent ps)

/-- Blank lines in front of statements. -/
theorem lays_pause {cs : List Char} (h : Lays Bounded cs (StandAsBody parent qs)) :
    Lays Bounded ('\n' :: cs) (StandAsBody parent qs) := by
  refine h.newline.mono ?_
  rintro _ ⟨_, w, rfl, ⟨t, rfl, ht⟩, ps, hps, hw⟩
  exact ⟨ps, hps, .pause ht hw⟩

/-- A statement with a newline after it, in front of others. -/
theorem LaidStatement.line {cs v : List Char} (h : LaidStatement q cs)
    (hq : q.category = .caseOption ↔ parent = .caseBlock) (hmore : Lays Bounded v (StandAsBody parent qs)) :
    Lays Bounded (cs ++ '\n' :: v) (StandAsBody parent (q :: qs)) := by
  refine (h.lays.delimited hmore.newline (by decide)).mono ?_
  rintro _ ⟨v, _, rfl, ⟨p, hp, hv⟩, _, w, rfl, ⟨t, rfl, ht⟩, ps, hps, hw⟩
  exact ⟨p :: ps, by simp [hp, hps], .statement (by rwa [category_of_unlined hp]) hv ht hw⟩

/-- Statements, from the first one on, stand for a body. -/
theorem lays_linesText (h : ∀ p ∈ q :: qs, LaidStatement p (lineText o level p))
    (hqs : ∀ p ∈ q :: qs, p.category = .caseOption ↔ parent = .caseBlock) :
    Lays Bounded (linesText o level q qs) (StandAsBody parent (q :: qs)) := by
  induction qs generalizing q with
  | nil =>
    rw [linesText_nil]
    exact (h q (by simp)).line (hqs q (by simp)) (lays_nil ⟨[], rfl, .done⟩)
  | cons q' qs ih =>
    obtain ⟨hq, hmore⟩ := List.forall_mem_cons.mp h
    obtain ⟨hoption, hoptions⟩ := List.forall_mem_cons.mp hqs
    have hlines := ih hmore hoptions
    have hvisible : StartsOutside blanks (linesText o level q' qs) :=
      (hmore q' (by simp)).visible.append _
    rw [linesText_cons]
    rcases gap_cases o (Layout.statementAt level q) (Layout.statementAt level q') with
      ⟨hgap, hbranch⟩ | ⟨pause, hpause, hgap⟩
    · -- an `else` after a blank; only a branch is not ended by a newline
      have hbranch : q.category = .branch := hbranch
      rw [hgap]
      refine Lays.mono (by simpa using hq.lays.spaced hlines hvisible 0) ?_
      rintro _ ⟨v, w, rfl, ⟨p, hp, hv⟩, ps, hps, hw⟩
      have hcategory := category_of_unlined hp
      exact ⟨p :: ps, by simpa [hp] using hps,
        .joined (by rwa [hcategory]) (hcategory.trans hbranch) hv hw⟩
    · have hnext := hlines.blanks hvisible (level.toNat * o.indentWidth)
      have hpaused : Lays Bounded (pause ++ (List.replicate (level.toNat * o.indentWidth) ' ' ++
          linesText o level q' qs)) (StandAsBody parent (q' :: qs)) := by
        simp only [List.mem_cons, List.not_mem_nil, or_false] at hpause
        rcases hpause with rfl | rfl
        · exact hnext
        · exact lays_pause hnext
      have hdepth : Placed.view.depth (Layout.statementAt level q') = level.toNat := rfl
      rw [hgap, hdepth]
      simpa using hq.line hoption hpaused

/-- The last newline is the only one at either end. -/
theorem linesText_eq_concat (h : ∀ p ∈ q :: qs, LaidStatement p (lineText o level p)) :
    ∃ cs, linesText o level q qs = cs ++ ['\n'] ∧ StartsOutside ('\n' :: blanks) cs ∧ Closed cs := by
  induction qs generalizing q with
  | nil =>
    have hq := h q (by simp)
    exact ⟨_, linesText_nil o level q, hq.starts, hq.ends⟩
  | cons q' qs ih =>
    obtain ⟨hq, hmore⟩ := List.forall_mem_cons.mp h
    obtain ⟨cs, hcs, -, hends⟩ := ih hmore
    rw [linesText_cons, hcs]
    generalize (Layout.gap _ _ _ _).toList = between
    exact ⟨lineText o level q ++ (between ++ cs), by simp, hq.starts.append _, (hends.append _).append _⟩

/-- Only the newline at the end goes when newlines are trimmed. -/
theorem trimNewlines_phraseLines (h : ∀ p ∈ q :: qs, LaidStatement p (lineText o level p)) :
    (Layout.trimNewlines (Layout.phraseLines o ((q :: qs).map (Layout.statementAt level)))).toList ++
      ['\n'] = List.replicate (level.toNat * o.indentWidth) ' ' ++ linesText o level q qs := by
  obtain ⟨cs, hcs, hstarts, hends⟩ := linesText_eq_concat h
  have hlines : (Layout.phraseLines o ((q :: qs).map (Layout.statementAt level))).toList =
      List.replicate (level.toNat * o.indentWidth) ' ' ++ cs ++ ['\n'] := by
    have hdepth : Placed.view.depth (Layout.statementAt level q) = level.toNat := rfl
    rw [List.append_assoc, ← hcs, linesText, lineText]
    simp [Layout.phraseLines, hdepth, Layout.margin]
  have hstarts : StartsOutside ['\n'] (List.replicate (level.toNat * o.indentWidth) ' ' ++ cs) := by
    cases level.toNat * o.indentWidth with
    | zero => exact hstarts.mono (by decide)
    | succ n => exact ⟨' ', _, rfl, by decide⟩
  rw [Layout.trimNewlines, hlines, trimBoth_concat hstarts (hends.append _), String.toList_ofList, hcs,
    List.append_assoc]

/-- Statements in braces. -/
theorem enclosed_block (hq : q.category ≠ .chain)
    (h : ∀ p ∈ qs, LaidStatement p (lineText o (level + 1) p))
    (hqs : ∀ p ∈ qs, p.category = .caseOption ↔ parent = .caseBlock) (depth : Nat) :
    Enclosed braces (StandAsBody parent qs) (Layout.block Placed.view o (fun y depth => y.text o depth)
      (Layout.statementAt level q) (qs.map (Layout.statementAt level q).below) depth).toList := by
  have hbelow : (Layout.statementAt level q).below = Layout.statementAt (level + 1) := by
    funext p
    simp [Placed.below, hq]
  cases qs with
  | nil => simpa [Layout.block, Layout.braced] using enclosed braces (lays_nil ⟨[], rfl, Stated.done⟩) 0
  | cons p qs =>
    have hvisible : StartsOutside blanks (linesText o (level + 1) p qs) := (h p (by simp)).visible.append _
    have hlines := (lays_linesText h hqs).blanks hvisible ((level + 1).toNat * o.indentWidth)
    have hblock := enclosed braces (lays_pause hlines).before (depth * o.indentWidth)
    rw [← trimNewlines_phraseLines h] at hblock
    rw [Layout.block, if_neg (by simp), Layout.statementLines_placed, hbelow]
    simpa [Layout.braced, Layout.margin] using hblock

/-- What stands directly in a statement, apart from titles and other statements, is a value. -/
theorem laid_child {x : Placed} (h : x.phrase.Every Form.Canonical) (hq : q ∈ x.phrase.children)
    (hcategory : q.category ∈ [Category.pair, .expression]) (depth : Nat) :
    Laid q (childText o x depth q) := by
  have hvalues : [Category.pair, .expression] ⊆ valueCategories := by decide
  exact laid_text (h.child hq) (hvalues hcategory) o _ _ depth

/-- The titles of a resource are laid out as titles. -/
theorem laidTitle_child {x : Placed} (h : x.phrase.Every Form.Canonical) (hq : q ∈ x.phrase.children)
    (htitle : q.category = .title) (depth : Nat) : LaidTitle q (childText o x depth q) := by
  have hchild := h.child hq
  have hregular := hchild.form.regular
  obtain ⟨line, form⟩ := q
  cases form with
  | title titles =>
    have hlaid : LaidTitle ⟨line, .title titles⟩ _ := laid_title (fun p hp =>
      laid_child (o := o) (x := x.below ⟨line, .title titles⟩) hchild hp
        (by simp [hregular.2 _ (List.mem_map_of_mem hp)]) depth) hregular
    rw [← toList_withCommas] at hlaid
    rw [childText, Placed.text_eq]
    simpa [Layout.formText, Placed.view, Placed.below, Form.map] using hlaid
  | pending => exact hregular.elim
  | _ => cases htitle

/-- A resource with a title in front of its attributes. -/
theorem laid_titled {line : Nat} {sigil : String} {t : Token} {title : Phrase} {items : List Phrase}
    (h : (Phrase.mk line (.resource sigil (.type t) none true (title :: items))).Every Form.Canonical)
    (htitle : title.category = .title) (hitems : ∀ q ∈ items, q.category = .pair) :
    LaidStatement ⟨line, .resource sigil (.type t) none true (title :: items)⟩
      (lineText o level ⟨line, .resource sigil (.type t) none true (title :: items)⟩) := by
  let x : Placed := Layout.statementAt level ⟨line, .resource sigil (.type t) none true (title :: items)⟩
  have hbelow : x.below = Layout.statementAt (level + 1) := rfl
  have hmem {q : Phrase} (hq : q ∈ title :: items) : q ∈ x.phrase.children := by
    simpa [x, Phrase.children, Form.children] using hq
  have htitled := laidTitle_child (x := x) (o := o) h (hmem List.mem_cons_self) htitle level.toNat
  have hlines := lays_lines onLines_members ((level.toNat + 1) * o.indentWidth) (fun q hq =>
    laid_child (o := o) (x := x) h (hmem (List.mem_cons_of_mem _ hq)) (by simp [hitems q hq])
      (level.toNat + 1)) hitems
  -- the brace stands after a blank if the title is alone, and otherwise below the attributes
  have hbody (cs : List Char) (n : Nat)
      (hcs : Lays Delimited (childText o x level.toNat title ++ cs) (StandAs Members (title :: items))) :
      LaidStatement x.phrase (sigil.toList ++ t.text.toList ++ ' ' :: '\x7b' :: ' ' ::
        (childText o x level.toNat title ++ (cs ++ (List.replicate n ' ' ++ ['\x7d'])))) := by
    have hblock := enclosed braces (hcs.blanks (htitled.visible.append _) 1) n
    exact laid_typed h.form.filled (by simpa using hblock)
  have hsections : Layout.sectionsBy Phrase.isTitle (title :: items) = ([], [(title, items)]) :=
    Layout.sectionsBy_single (s := (title, items)) (by simp [Phrase.isTitle, htitle])
      fun q hq => by simp [Phrase.isTitle, hitems q hq]
  rw [lineText, Layout.text_titled hsections]
  cases items with
  | nil =>
    have hlaid := hbody [] 1 (htitled.items (lays_nil ⟨[], rfl, .done⟩) fun rest => id)
    simpa [Layout.leadText, Layout.titleBlock, childText, hbelow] using hlaid
  | cons q qs =>
    have hlaid := hbody _ (level.toNat * o.indentWidth)
      (htitled.items hlines.before fun rest _ => delimited_cons (by decide) _)
    have hattributes := toList_onePerLine o x hitems rfl level.toNat "" "\x7d"
    rw [hbelow] at hattributes
    simp only [List.map_cons] at hattributes
    simpa [Layout.leadText, Layout.titleBlock, childText, hbelow, hattributes] using hlaid

/-- A resource without a title. -/
theorem laid_untitled {line : Nat} {sigil : String} {t : Token} {items : List Phrase}
    (h : (Phrase.mk line (.resource sigil (.type t) none true items)).Every Form.Canonical)
    (hitems : ∀ q ∈ items, q.category = .pair) :
    LaidStatement ⟨line, .resource sigil (.type t) none true items⟩
      (lineText o level ⟨line, .resource sigil (.type t) none true items⟩) := by
  let x : Placed := Layout.statementAt level ⟨line, .resource sigil (.type t) none true items⟩
  have hnone : Layout.sectionsBy Phrase.isTitle (items ++ []) = (items ++ [], []) :=
    Layout.sectionsBy_append (fun q hq => by simp [Phrase.isTitle, hitems q hq]) []
  rw [List.append_nil] at hnone
  have hsections : Layout.sections Placed.view (items.map x.below) = (items.map x.below, []) :=
    (Layout.sections_statementAt items).trans (by rw [hnone]; rfl)
  have hblock := enclosed_pairsText (x := x) (o := o) onLines_members (fun q hq => laid_child h
    (by simpa [x, Phrase.children, Form.children] using hq) (by simp [hitems q hq])) hitems level.toNat
  have hlaid : LaidStatement x.phrase _ := laid_typed h.form.filled hblock
  have htext : x.text o level.toNat = Layout.resourceBody Placed.view o (fun y depth => y.text o depth)
      level.toNat false (sigil ++ t.text ++ "") (items.map x.below) := by
    rw [Placed.text_eq]
    rfl
  rw [lineText, htext, Layout.resourceBody_untitled _ _ _ _ _ _ hsections]
  simpa using hlaid

/-- The text of a resource stands for it. -/
theorem laid_resource (h : q.Every Form.Canonical) (hq : q.category = .resource) (o : Layout.Options)
    (level : Int) : LaidStatement q (lineText o level q) := by
  obtain ⟨hfilled, -, hbasic⟩ := h.form
  obtain ⟨line, form⟩ := q
  cases form with
  | resource sigil head collector hasBlock items =>
    obtain ⟨t, rfl, rfl, rfl, hsingle⟩ : ∃ t, head = .type t ∧ collector = none ∧ hasBlock = true ∧
        .title ∉ (items.map Phrase.category).tail := by
      cases head <;> cases collector <;> cases hasBlock <;>
        simp_all [Form.isBasic, Form.map, Head.map]
    have hitem (q : Phrase) (hq : q ∈ items) : q.category = .title ∨ q.category = .pair := by
      have hcategory := hfilled.2.2.2 (List.mem_map_of_mem hq)
      have hchild := h.child (q := q) (by simpa [Phrase.children, Form.children] using hq)
      have hcomment := (canonical_filled hchild).not_comment
      simp only [List.mem_cons, List.not_mem_nil, or_false, not_or] at hcategory hcomment
      exact ((hcategory.resolve_left hcomment.1).resolve_left hcomment.2).symm
    cases items with
    | nil => exact laid_untitled h (by simp)
    | cons first rest =>
      have hrest : ∀ q ∈ rest, q.category = .pair := fun q hq =>
        (hitem q (List.mem_cons_of_mem _ hq)).resolve_left fun heq =>
          hsingle (heq ▸ List.mem_map_of_mem hq)
      rcases hitem first List.mem_cons_self with htitle | hpair
      · exact laid_titled h htitle hrest
      · exact laid_untitled h (List.forall_mem_cons.mpr ⟨hpair, hrest⟩)
  | pending => exact hfilled.elim
  | _ => cases hq

/-- The text of a statement with a body is that of its head and that of its block. -/
theorem exists_laidHead (h : q.Every Form.Canonical) (hq : q.category.hasBody = true) (o : Layout.Options)
    (level : Int) :
    ∃ cs, LaidHead q cs ∧ lineText o level q = cs ++ ' ' :: (Layout.block Placed.view o
      (fun y depth => y.text o depth) (Layout.statementAt level q)
        (q.form.body.map (Layout.statementAt level q).below) level.toNat).toList := by
  have hform := h.form
  obtain ⟨hfilled, hregular, hbasic⟩ := h.form
  have hlaid {p : Phrase} (hp : p ∈ q.children) (hcategory : p.category = .expression) :
      Laid p (childText o (Layout.statementAt level q) level.toNat p) :=
    laid_child h hp (by simp [hcategory]) level.toNat
  rw [lineText, Placed.text_eq]
  obtain ⟨line, form⟩ := q
  cases form with
  | manifest => exact hfilled.elim
  | classBlock name params inherits body =>
    obtain ⟨rfl, rfl⟩ : params = [] ∧ inherits = none := by simp_all [Form.isBasic, Form.map]
    have hname : name.Among Kept [.name] := hfilled.1
    refine ⟨_, laidHead_named (show (Kind.kwClass, "class") ∈ words by decide) (hname.steady (by decide))
      fun keyword t hkeyword ht => ⟨.classBlock t [] none, .classBlock hkeyword
        ((kind_of_unlined ht).trans (List.mem_singleton.mp hname.2)), fun line ps hps =>
          unlined_eq_bare ?_ rfl⟩, ?_⟩
    · simp only [Form.map, Form.unlined, Form.mapTokens, ht, hps]
      rfl
    · simp [Layout.formText, Placed.view, Form.map, Form.body, Layout.parameters, Layout.inheritance]
  | defineBlock name params body =>
    obtain rfl : params = [] := by simp_all [Form.isBasic, Form.map]
    have hname : name.Among Kept [.name] := hfilled.1
    refine ⟨_, laidHead_named (show (Kind.kwDefine, "define") ∈ words by decide)
      (hname.steady (by decide)) fun keyword t hkeyword ht => ⟨.defineBlock t [], .defineBlock hkeyword
        ((kind_of_unlined ht).trans (List.mem_singleton.mp hname.2)), fun line ps hps =>
          unlined_eq_bare ?_ rfl⟩, ?_⟩
    · simp only [Form.map, Form.unlined, Form.mapTokens, ht, hps]
      rfl
    · simp [Layout.formText, Placed.view, Form.map, Form.body, Layout.parameters]
  | nodeBlock names inherits body =>
    obtain ⟨⟨name, rfl⟩, rfl⟩ : (∃ name, names = [name]) ∧ inherits = none := by
      simp_all [Form.isBasic, Form.map, List.length_eq_one_iff]
    have hname : name.Among Kept nodeNameKinds := hfilled.2.1 name (by simp)
    refine ⟨_, laidHead_named (show (Kind.kwNode, "node") ∈ words by decide) (hname.steady (by decide))
      fun keyword t hkeyword ht => ⟨.nodeBlock [t] none, .nodeBlock hkeyword
        (kind_of_unlined ht ▸ hname.2), fun line ps hps => unlined_eq_bare ?_ rfl⟩, ?_⟩
    · simp only [Form.map, Form.unlined, Form.mapTokens, List.map_cons, ht, hps]
      rfl
    · simp [Layout.formText, Placed.view, Form.map, Form.body, Layout.inheritance]
  | branch keyword condition body =>
    have hvalue : ∀ p ∈ condition, p.category = .expression := fun p hp =>
      hfilled.2.1 _ (Option.mem_map_of_mem _ hp)
    refine ⟨_, laidHead_branch hform fun p hp => hlaid
      (by simp [Phrase.children, Form.children, Option.mem_def.mp hp]) (hvalue p hp), ?_⟩
    cases condition <;>
      simp [Layout.formText, Placed.view, Form.map, Form.body, conditionText, childText]
  | caseBlock subject body =>
    refine ⟨_, laidHead_case (hlaid List.mem_cons_self hfilled.1) hfilled.1, ?_⟩
    simp [Layout.formText, Placed.view, Form.map, Form.body, childText]
  | caseOption values body =>
    refine ⟨_, laidHead_option hregular fun p hp => hlaid (List.mem_append_left _ hp)
      (hregular.2 _ (List.mem_map_of_mem hp)), ?_⟩
    rw [← toList_withCommas]
    simp [Layout.formText, Placed.view, Form.map, Form.body]
  | pending => exact hfilled.elim
  | _ => cases hq

/-- A statement without a body. -/
theorem laid_simpleStatement (h : q.Every Form.Canonical) (hq : q.category ∈ Grammar.statements)
    (hbody : q.category.hasBody = false) (o : Layout.Options) (level : Int) :
    LaidStatement q (lineText o level q) := by
  have hcomment := (canonical_filled h).not_comment
  have hvalue (hvalue : q.category ∈ [Category.assignment, .call]) :
      LaidStatement q (lineText o level q) := by
    have hvalues : [Category.assignment, .call] ⊆ valueCategories := by decide
    exact (laid_text h (hvalues hvalue) o false level level.toNat).statement hvalue
  have hform := h.form
  have hresource (hq : q.category = .resource) := laid_resource h hq o level
  obtain ⟨line, form⟩ := q
  cases form with
  | assignment | call => exact hvalue (by simp [Phrase.category, Form.category])
  | inclusion keyword args =>
    have hargs : ∀ q ∈ args, q.category = .expression := List.forall_mem_map.mp hform.filled.2.2
    have hinclusion : LaidStatement ⟨line, .inclusion keyword args⟩ _ := laid_inclusion hform.filled
      fun q hq => laid_child (o := o) (x := Layout.statementAt level _) h hq (by simp [hargs q hq])
        level.toNat
    rw [← toList_withCommas] at hinclusion
    rw [lineText, Placed.text_eq]
    simpa [Layout.formText, Placed.view, Form.map] using hinclusion
  | resource => exact hresource rfl
  | chain => cases hform.basic
  | pending | manifest => exact hform.filled.elim
  | classBlock | defineBlock | nodeBlock | branch | caseBlock | caseOption => cases hbody
  | comment | blockComment => exact absurd hcomment (by simp [Phrase.category, Form.category])
  | _ => exact absurd hq (by simp [Phrase.category, Form.category, Grammar.statements])

/-- The text of a statement stands for it, apart from lines and columns. -/
theorem laid_statement (h : q.Every Form.Canonical) (hq : q.category ∈ Grammar.statements)
    (o : Layout.Options) (level : Int) : LaidStatement q (lineText o level q) := by
  induction q using Phrase.induct generalizing level with
  | step q ih =>
    cases hbody : q.category.hasBody with
    | false => exact laid_simpleStatement h hq hbody o level
    | true =>
      have hchain : q.category ≠ .chain := fun heq => by rw [heq] at hbody; cases hbody
      have hmem {p : Phrase} (hp : p ∈ q.form.body) : p.category ∈ (q.form.map Phrase.category).body := by
        rw [Form.body_map]
        exact List.mem_map_of_mem hp
      have hoption (p : Phrase) (hp : p ∈ q.form.body) :
          p.category = .caseOption ↔ q.category = .caseBlock := by
        have hown := Form.option_of_isBasic h.form.basic _ (hmem hp)
        rwa [Form.category_map] at hown
      have hstatements (p : Phrase) (hp : p ∈ q.form.body) :
          LaidStatement p (lineText o (level + 1) p) :=
        ih p (Form.mem_children_of_mem_body hp) (h.child (Form.mem_children_of_mem_body hp))
          (h.form.filled.body_subset (hmem hp)) (level + 1)
      obtain ⟨cs, hhead, htext⟩ := exists_laidHead h hbody o level
      rw [htext]
      exact laid_block hhead (enclosed_block hchain hstatements hoption level.toNat)

end

end Plain

end TidyManifest
