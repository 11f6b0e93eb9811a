import TidyManifest.Proofs.RoundTrip.Canonical
import TidyManifest.Proofs.RoundTrip.Written
import TidyManifest.Proofs.Splitting.Layout

/-!
# The tokens of the layout

The text of a value is cut into tokens that stand for the value, wherever a delimiter follows it or a
colon (`laid_text`).  `Lays` says this of any text and any sort of tokens; it is kept when texts are put
one after the other, as long as the second one may follow the first one, or the first one ends with an
opening bracket or a sign.

The text of each form is put together in this way from the texts of its children, and the tokens are
put together as `Written` allows.
-/

namespace TidyManifest

open Grammar

namespace Token

/-- A text is cut into tokens of some sort in front of anything that may follow it. -/
def Lays (follow : List Char → Prop) (cs : List Char) (sort : List Token → Prop) : Prop :=
  ∀ rest more, follow rest → Lexes rest more → Lexes (cs ++ rest) (Then sort more)

/-- One token of a kind. -/
def OfKind (kind : Kind) (w : List Token) : Prop :=
  ∃ t, w = [t] ∧ t.kind = kind

/-- One token that is a given one, apart from its line. -/
def OneLike (t : Token) (w : List Token) : Prop :=
  ∃ t' : Token, w = [t'] ∧ t'.unlined = t.unlined

/-- Characters that the lexer skips. -/
def blanks : List Char := [' ', '\t', '\r']

/-- Brackets, newlines and sigils, which nothing extends. -/
def openings : List (Kind × Char) :=
  [(.leftParen, '('), (.leftBracket, '['), (.leftBrace, '\x7b'), (.newline, '\n'), (.atSign, '@')]

/-- Words and marks that the layout puts in. -/
def words : List (Kind × String) :=
  [(.kwClass, "class"), (.kwDefine, "define"), (.kwNode, "node"), (.kwCase, "case"), (.comma, ","),
    (.colon, ":"), (.question, "?"), (.rightParen, ")"), (.rightBracket, "]"), (.rightBrace, "\x7d")]

theorem alone_openings : ∀ e ∈ openings, Alone ⟨e.1, String.singleton e.2, 1⟩ := by
  unfold Alone
  decide

section

variable {cs v : List Char} {sort more : List Token → Prop} {follow follow' : List Char → Prop}

/-- What comes after the first character does not matter. -/
theorem StartsOutside.append {chars : List Char} (h : StartsOutside chars cs) (v : List Char) :
    StartsOutside chars (cs ++ v) := by
  obtain ⟨c, u, rfl, hc⟩ := h
  exact ⟨c, u ++ v, rfl, hc⟩

theorem StartsOutside.mono {chars chars' : List Char} (h : StartsOutside chars cs)
    (hsub : chars' ⊆ chars) : StartsOutside chars' cs := by
  obtain ⟨c, u, rfl, hc⟩ := h
  exact ⟨c, u, rfl, fun hmem => hc (hsub hmem)⟩

theorem delimited_cons {c : Char} (hc : c ∈ delimiters) (v : List Char) : Delimited (c :: v) :=
  fun _ hc' => Option.some.inj hc' ▸ hc

theorem Delimited.append (hcs : Delimited cs) (hv : Bounded v) : Bounded (cs ++ v) := by
  cases cs with
  | nil => exact hv
  | cons c cs => exact .inl (delimited_cons (hcs c rfl) _)

theorem Then.assoc {first : List Token → Prop} {w : List Token}
    (h : Then first (Then sort more) w) : Then (Then first sort) more w := by
  obtain ⟨u, _, rfl, hu, v, x, rfl, hv, hx⟩ := h
  exact ⟨u ++ v, x, by simp, ⟨u, v, rfl, hu, hv⟩, hx⟩

theorem lays_nil (h : sort []) : Lays follow [] sort :=
  fun _ _ _ hlex => hlex.mono fun w hw => ⟨[], w, rfl, h, hw⟩

/-- What is read as one sort is read as any wider sort. -/
theorem Lays.mono {sort' : List Token → Prop} (h : Lays follow cs sort)
    (hsort : ∀ w, sort w → sort' w) : Lays follow cs sort' :=
  fun rest more hrest hlex => (h rest more hrest hlex).mono fun _ ⟨v, x, hw, hv, hx⟩ =>
    ⟨v, x, hw, hsort v hv, hx⟩

/-- Fewer things may follow. -/
theorem Lays.before (h : Lays Bounded cs sort) : Lays Delimited cs sort :=
  fun rest more hrest => h rest more (.inl hrest)

/-- One text after the other. -/
theorem Lays.then (h : Lays follow cs sort) (hmore : Lays follow' v more)
    (hfollow : ∀ rest, follow' rest → follow (v ++ rest)) : Lays follow' (cs ++ v) (Then sort more) := by
  intro rest sort' hrest hlex
  rw [List.append_assoc]
  exact (h _ _ (hfollow rest hrest) (hmore rest sort' hrest hlex)).mono fun _ => Then.assoc

/-- One text after the other, where the second one is nothing or starts with a delimiter. -/
theorem Lays.append (h : Lays Bounded cs sort) (hmore : Lays Bounded v more) (hv : Delimited v) :
    Lays Bounded (cs ++ v) (Then sort more) :=
  h.then hmore fun _ => hv.append

/-- A text and another one that starts with a delimiter. -/
theorem Lays.delimited {c : Char} (h : Lays Bounded cs sort) (hmore : Lays follow (c :: v) more)
    (hc : c ∈ delimiters) : Lays follow (cs ++ c :: v) (Then sort more) :=
  h.then hmore fun _ _ => .inl (delimited_cons hc _)

/-- Blanks in front of a text. -/
theorem Lays.blanks (h : Lays follow cs sort) (hcs : StartsOutside blanks cs) (n : Nat) :
    Lays follow (List.replicate n ' ' ++ cs) sort := by
  intro rest more hrest hlex
  rw [List.append_assoc]
  refine Lexes.blanks n (fun c hc => ?_) (h rest more hrest hlex)
  obtain ⟨c', v, rfl, hc'⟩ := hcs
  cases hc
  exact hc'

/-- A text and another one after at least one blank. -/
theorem Lays.spaced (h : Lays Bounded cs sort) (hmore : Lays follow v more)
    (hv : StartsOutside Token.blanks v) (n : Nat) :
    Lays follow (cs ++ (List.replicate (n + 1) ' ' ++ v)) (Then sort more) :=
  h.delimited (hmore.blanks hv (n + 1)) (by decide)

theorem kind_of_unlined {t t' : Token} (h : t'.unlined = t.unlined) : t'.kind = t.kind := by
  show t'.unlined.kind = t.unlined.kind
  rw [h]

theorem text_of_unlined {t t' : Token} (h : t'.unlined = t.unlined) : t'.text = t.text := by
  show t'.unlined.text = t.unlined.text
  rw [h]

/-- A token in front of a text that does not extend it. -/
theorem Lexes.alone {t : Token} (h : Lexes cs sort) (ht : t.Alone) (hblank : t.kind ≠ .blank)
    (hstops : Stops t.text.toList cs) : Lexes (t.text.toList ++ cs) (Then (OneLike t) sort) := by
  refine (h.token ht hblank hstops).mono ?_
  rintro _ ⟨_, w, rfl, ⟨line, rfl⟩, hw⟩
  exact ⟨_, w, rfl, ⟨_, rfl, rfl⟩, hw⟩

theorem Steady.not_blank {t : Token} (h : t.Steady) : t.kind ≠ .blank :=
  fun hk => h.visible (by simp [hk])

/-- A token that stays what it is is read as itself. -/
theorem Steady.lays {t : Token} (h : t.Steady) : Lays Bounded t.text.toList (OneLike t) :=
  fun _ _ hrest hlex => hlex.alone h.alone h.not_blank (h.stops hrest)

/-- A token starts visibly. -/
theorem Steady.starts {t : Token} (h : t.Steady) :
    StartsOutside ('\n' :: Token.blanks) t.text.toList := by
  rcases h.quoted_or with ⟨quote, hquote, hmatch⟩ | hstarts
  · obtain ⟨v, hv, -⟩ := Pattern.matches_quotedText.mp hmatch
    refine ⟨quote, v, hv, ?_⟩
    rcases hquote with rfl | rfl <;> decide
  · exact hstarts.mono (by decide)

theorem Steady.startsVisible {t : Token} (h : t.Steady) : StartsOutside Token.blanks t.text.toList :=
  h.starts.mono (List.subset_cons_self _ _)

/-- What the layout puts in is read as one token. -/
theorem steady_word {e : Kind × String} (he : e ∈ words) : Steady ⟨e.1, e.2, 1⟩ := by
  have hread : ∀ e ∈ words, (lex e.2).toOption = some [⟨e.1, e.2, 1⟩] := by decide +kernel
  have hkinds : ∀ e ∈ words, e.1 ∉ openEnded ∧ e.1 ∉ [Kind.newline, .comment] := by decide
  have hlex : lex e.2 = .ok [⟨e.1, e.2, 1⟩] := by
    have hown := hread e he
    cases h : lex e.2 with
    | error f => rw [h] at hown; cases hown
    | ok tokens => rw [h] at hown; rw [Option.some.inj hown]
  exact lex_steady hlex List.mem_cons_self (hkinds e he).1 (hkinds e he).2

/-- Each word of the layout is read as the token it stands for. -/
theorem lays_word {kind : Kind} {text : String} (h : (kind, text) ∈ words) :
    Lays Bounded text.toList (OfKind kind) := by
  refine (steady_word h).lays.mono ?_
  rintro _ ⟨t, rfl, ht⟩
  exact ⟨t, rfl, kind_of_unlined ht⟩

theorem lays_comma : Lays Bounded [','] (OfKind .comma) :=
  lays_word (show (Kind.comma, ",") ∈ words by decide)

theorem lays_rightParen : Lays Bounded [')'] (OfKind .rightParen) :=
  lays_word (show (Kind.rightParen, ")") ∈ words by decide)

/-- A colon may come right after anything that a delimiter may follow. -/
theorem Lays.colon (h : Lays Bounded cs sort) : Lays Delimited (cs ++ [':']) (Then sort (OfKind .colon)) :=
  h.then (lays_word (show (Kind.colon, ":") ∈ words by decide)).before
    fun rest hrest => .inr ⟨rest, rfl, hrest⟩

/-- An opening bracket, a newline or a sigil in front of any text. -/
theorem Lays.openingLike {kind : Kind} {c : Char} (h : Lays follow cs sort) (hc : (kind, c) ∈ openings) :
    Lays follow (c :: cs) (Then (OneLike ⟨kind, String.singleton c, 1⟩) sort) := by
  have hopenings : ∀ e ∈ openings, e.2 ∈ ['[', '(', '\x7b', '\n', '@'] ∧ e.1 ≠ .blank := by decide
  obtain ⟨hchar, hblank⟩ := hopenings _ hc
  intro rest more hrest hlex
  have hstops : Stops (String.singleton c).toList (cs ++ rest) := by
    rw [String.toList_singleton]
    exact stops_opening hchar
  have hwhole := (h rest more hrest hlex).alone (alone_openings _ hc) hblank hstops
  rw [String.toList_singleton] at hwhole
  exact hwhole.mono fun _ => Then.assoc

/-- A bracket that opens is read before anything. -/
theorem Lays.opening {kind : Kind} {c : Char} (h : Lays follow cs sort) (hc : (kind, c) ∈ openings) :
    Lays follow (c :: cs) (Then (OfKind kind) sort) := by
  refine (h.openingLike hc).mono ?_
  rintro _ ⟨_, w, rfl, ⟨t, rfl, ht⟩, hw⟩
  exact ⟨_, w, rfl, ⟨t, rfl, kind_of_unlined ht⟩, hw⟩

theorem Lays.newline (h : Lays follow cs sort) : Lays follow ('\n' :: cs) (Then (OfKind .newline) sort) :=
  h.opening (by decide)

theorem Lays.leftParen (h : Lays follow cs sort) : Lays follow ('(' :: cs) (Then (OfKind .leftParen) sort) :=
  h.opening (by decide)

/-- A sign directly in front of what it belongs to. -/
theorem Lays.sign {t : Token} (h : Lays follow cs sort) (ht : t.Steady)
    (hkind : t.kind ∈ [Kind.bang, .minus]) (hcs : StartsOutside ['>', '=', '~'] cs) :
    Lays follow (t.text.toList ++ cs) (Then (OneLike t) sort) := by
  obtain ⟨s, hs, hspelling⟩ :
      ∃ c ∈ ['-', '!'], t.kind.spelling? = some (String.singleton c) := by
    simp only [List.mem_cons, List.not_mem_nil, or_false] at hkind
    rcases hkind with hkind | hkind <;> rw [hkind]
    · exact ⟨'!', by decide, rfl⟩
    · exact ⟨'-', by decide, rfl⟩
  obtain ⟨c, v, rfl, hc⟩ := hcs
  intro rest more hrest hlex
  have hstops : Stops t.text.toList (c :: v ++ rest) := by
    rw [ht.spelled.text_eq hspelling, String.toList_singleton]
    exact stops_sign hs hc
  rw [List.append_assoc]
  exact ((h rest more hrest hlex).alone ht.alone ht.not_blank hstops).mono fun _ => Then.assoc

end

end Token

/-- Operators and terms, as parts of an expression. -/
def operationParts {α : Type} : List (Token × α) → List (Part α)
  | [] => []
  | (t, x) :: operations => .operator t :: .term x :: operationParts operations

/-- Terms are mapped one by one. -/
theorem map_operationParts {α β : Type} (f : α → β) (operations : List (Token × α)) :
    (operationParts operations).map (Part.map f) =
      operationParts (operations.map fun x => (x.1, f x.2)) := by
  induction operations with
  | nil => rfl
  | cons x operations ih => simp [operationParts, Part.map, ih]

/-- Operators are mapped one by one. -/
theorem mapToken_operationParts {α : Type} (f : Token → Token) (operations : List (Token × α)) :
    (operationParts operations).map (Part.mapToken f) =
      operationParts (operations.map fun x => (f x.1, x.2)) := by
  induction operations with
  | nil => rfl
  | cons x operations ih => simp [operationParts, Part.mapToken, ih]

/-- The terms of operations are their right sides. -/
theorem terms_operationParts {α : Type} (operations : List (Token × α)) :
    (operationParts operations).filterMap Part.term? = operations.map (·.2) := by
  induction operations with
  | nil => rfl
  | cons x operations ih => simp [operationParts, Part.term?, List.filterMap_cons, ih]

namespace Plain

open Token

/-- Tokens that stand for a phrase, apart from lines and columns. -/
def StandFor (R : Phrase → List Token → Prop) (q : Phrase) (w : List Token) : Prop :=
  ∃ p : Phrase, p.unlined = q.bare ∧ R p w

/-- Tokens that stand for phrases, apart from lines and columns. -/
def StandAs (R : List Phrase → List Token → Prop) (qs : List Phrase) (w : List Token) : Prop :=
  ∃ ps : List Phrase, ps.map Phrase.unlined = qs.map Phrase.bare ∧ R ps w

/-- Tokens that stand for items of a category. -/
abbrev StandAsItems (category : Category) : List Phrase → List Token → Prop :=
  StandAs fun ps => Written (.items category ps)

/-- Tokens that stand for operators and terms, apart from lines and columns. -/
def StandOperated (operations : List (Token × Phrase)) (w : List Token) : Prop :=
  ∃ operations' : List (Token × Phrase),
    operations'.map (fun x => (x.1.unlined, x.2.unlined)) =
      operations.map (fun x => (x.1.unlined, x.2.bare)) ∧
    Written (.parts (operationParts operations')) w

section

variable {p q : Phrase} {ps qs : List Phrase}

/-- A phrase that differs in lines and columns only has the same category. -/
theorem category_of_unlined (h : p.unlined = q.bare) : p.category = q.category := by
  rw [← Phrase.category_unlined, h, Phrase.category_bare]

/-- Contents that differ in lines and columns only make such phrases. -/
theorem unlined_eq_bare {line line' : Nat} {form form' form'' : Form Phrase}
    (h : (form.map Phrase.unlined).unlined = form'')
    (h' : Phrase.withWidth 0 ⟨0, (form'.map Phrase.bare).unlined⟩ = ⟨0, form''⟩) :
    (Phrase.mk line form).unlined = (Phrase.mk line' form').bare := by
  rw [Phrase.unlined_eq, Phrase.bare_eq, Phrase.form_mk, Phrase.form_mk, h, h']

end

/-- Characters that would join a blank, a newline or a sign before them. -/
def joining : List Char :=
  ['>', '=', '~', '\n'] ++ blanks

/-- A text that does not end with a newline. -/
def Closed (cs : List Char) : Prop :=
  cs ≠ [] ∧ cs.getLast? ≠ some '\n'

theorem closed_single {c : Char} (hc : c ≠ '\n') : Closed [c] :=
  ⟨by simp, by simpa using hc⟩

/-- Whatever stands in front, a text ends as its last part does. -/
theorem Closed.append {v : List Char} (h : Closed v) (cs : List Char) : Closed (cs ++ v) := by
  obtain ⟨hne, hlast⟩ := h
  refine ⟨by simp [hne], ?_⟩
  cases hv : v.getLast? with
  | none => exact absurd (List.getLast?_eq_none_iff.mp hv) hne
  | some c =>
    rw [hv] at hlast
    rw [List.getLast?_append, hv]
    exact hlast

/-- Texts one after the other end as the last one does. -/
theorem closed_flatMap {α : Type} {g : α → List Char} {x : α} {xs : List α}
    (h : ∀ y ∈ x :: xs, Closed (g y)) : Closed ((x :: xs).flatMap g) := by
  induction xs generalizing x with
  | nil => simpa using h
  | cons y xs ih => exact (ih (List.forall_mem_cons.mp h).2).append _

/-- Only the newline at the end goes when newlines are trimmed. -/
theorem trimBoth_concat {cs : List Char} (hstarts : StartsOutside ['\n'] cs) (hends : Closed cs) :
    Text.trimBoth '\n' (cs ++ ['\n']) = cs := by
  obtain ⟨c, v, rfl, hc⟩ := hstarts
  have hfirst : (c == '\n') = false := by simpa using hc
  have hlast : ((c :: v).reverse).dropWhile (· == '\n') = (c :: v).reverse := by
    cases hrev : (c :: v).reverse with
    | nil => rfl
    | cons c' v' =>
      have hget := hends.2
      rw [← List.head?_reverse, hrev] at hget
      have hne : (c' == '\n') = false := by simpa using hget
      simp [hne]
  rw [Text.trimBoth, List.cons_append, List.dropWhile_cons, hfirst, if_neg (by simp),
    ← List.cons_append, List.reverse_append, List.reverse_singleton, List.singleton_append,
    List.dropWhile_cons, if_pos (by simp), hlast, List.reverse_reverse]

/-- A text that stands for a phrase wherever a delimiter or a colon follows it, and can be put after
anything. -/
structure Laid (q : Phrase) (cs : List Char) : Prop where
  starts : StartsOutside joining cs
  ends : Closed cs
  bracket : q.category = .list → ∃ v, cs = '[' :: v
  lays : Lays Bounded cs (StandFor (fun p => Written (.phrase p)) q)

/-- The text of a phrase does not start with a blank. -/
theorem Laid.visible {q : Phrase} {cs : List Char} (h : Laid q cs) : StartsOutside blanks cs :=
  h.starts.mono (List.subset_append_right _ _)

section

variable {category : Category} {qs : List Phrase} {f : Phrase → List Char}

/-- Phrases after commas. -/
def afterCommas (f : Phrase → List Char) (qs : List Phrase) : List Char :=
  qs.flatMap fun q => ',' :: ' ' :: f q

/-- Phrases with commas between them. -/
def commaSeparated (f : Phrase → List Char) : List Phrase → List Char
  | [] => []
  | q :: qs => f q ++ afterCommas f qs

/-- A comma and more is delimited. -/
theorem delimited_afterCommas (f : Phrase → List Char) (qs : List Phrase) :
    Delimited (afterCommas f qs) := by
  cases qs with
  | nil => exact fun c hc => by cases hc
  | cons q qs => exact delimited_cons (by decide) _

/-- Expressions after commas are read as further expressions. -/
theorem lays_further (h : ∀ q ∈ qs, Laid q (f q)) (hqs : ∀ q ∈ qs, q.category = .expression) :
    Lays Bounded (afterCommas f qs) (StandAs (fun ps => Written (.further ps)) qs) := by
  induction qs with
  | nil => exact lays_nil ⟨[], rfl, .noFurther⟩
  | cons q qs ih =>
    obtain ⟨hq, hmore⟩ := List.forall_mem_cons.mp h
    obtain ⟨hcategory, hcategories⟩ := List.forall_mem_cons.mp hqs
    have hvalue := hq.lays.append (ih hmore hcategories) (delimited_afterCommas f qs)
    have hcomma := lays_comma.spaced hvalue (hq.visible.append _) 0
    refine Lays.mono (by simpa [afterCommas] using hcomma) ?_
    rintro _ ⟨_, _, rfl, ⟨comma, rfl, hkind⟩, v, w, rfl, ⟨p, hp, hv⟩, ps, hps, hw⟩
    refine ⟨p :: ps, by simp [hp, hps], ?_⟩
    exact .further (v := v) (w := w) hkind ((category_of_unlined hp).trans hcategory) hv hw

/-- Lists one after the other are read as indexes. -/
theorem lays_indexes (h : ∀ q ∈ qs, Laid q (f q)) (hqs : ∀ q ∈ qs, q.category = .list) :
    Delimited (qs.flatMap f) ∧ Lays Bounded (qs.flatMap f) (StandAs (fun ps => Written (.indexes ps)) qs) := by
  induction qs with
  | nil => exact ⟨fun c hc => (by cases hc), lays_nil ⟨[], rfl, .noIndex⟩⟩
  | cons q qs ih =>
    obtain ⟨hq, hmore⟩ := List.forall_mem_cons.mp h
    obtain ⟨hcategory, hcategories⟩ := List.forall_mem_cons.mp hqs
    obtain ⟨hdelimited, hlays⟩ := ih hmore hcategories
    obtain ⟨v, hv⟩ := hq.bracket hcategory
    rw [List.flatMap_cons]
    refine ⟨?_, (hq.lays.append hlays hdelimited).mono ?_⟩
    · rw [hv]
      exact delimited_cons (by decide) _
    · rintro _ ⟨v, w, rfl, ⟨p, hp, hv⟩, ps, hps, hw⟩
      exact ⟨p :: ps, by simp [hp, hps], .index ((category_of_unlined hp).trans hcategory) hv hw⟩

/-- Items on one line. -/
theorem lays_inline {q : Phrase} (h : ∀ p ∈ q :: qs, Laid p (f p))
    (hqs : ∀ p ∈ q :: qs, p.category = category) :
    Lays Bounded (commaSeparated f (q :: qs)) (StandAsItems category (q :: qs)) := by
  induction qs generalizing q with
  | nil =>
    have hq := (h q (by simp)).lays
    refine Lays.mono (by simpa [commaSeparated, afterCommas] using hq) ?_
    rintro w ⟨p, hp, hw⟩
    have hcategory := (category_of_unlined hp).trans (hqs q (by simp))
    exact ⟨[p], by simp [hp], hcategory ▸ .lastItem hw⟩
  | cons q' qs ih =>
    obtain ⟨hq, hmore⟩ := List.forall_mem_cons.mp h
    obtain ⟨hcategory, hcategories⟩ := List.forall_mem_cons.mp hqs
    have hrest := ih hmore hcategories
    have hcomma := lays_comma.spaced hrest ((hmore q' (by simp)).visible.append _) 0
    have hwhole := hq.lays.append hcomma (delimited_cons (by decide) _)
    refine Lays.mono (by simpa [commaSeparated, afterCommas] using hwhole) ?_
    rintro _ ⟨v, _, rfl, ⟨p, hp, hv⟩, _, w, rfl, ⟨comma, rfl, hkind⟩, ps, hps, hw⟩
    have hp' := (category_of_unlined hp).trans hcategory
    exact ⟨p :: ps, by simpa [hp] using hps, hp' ▸ .item hv hkind (hp'.symm ▸ hw)⟩

/-- What tokens stand for if each item has a comma and a newline after it. -/
structure OnLines (category : Category) (R : List Phrase → List Token → Prop) : Prop where
  none : R [] []
  newline : ∀ {ps : List Phrase} {t : Token} {w : List Token}, t.kind = .newline → R ps w → R ps (t :: w)
  item : ∀ {p : Phrase} {ps : List Phrase} {t : Token} {v w : List Token}, p.category = category →
    Written (.phrase p) v → t.kind = .comma → R ps w → R (p :: ps) (v ++ t :: w)

/-- The items of a hash, a selector or a list may be written so. -/
theorem onLines_items (category : Category) : OnLines category fun ps => Written (.items category ps) :=
  ⟨.noItem, .newline, fun hp first hcomma more => by subst hp; exact .item first hcomma more⟩

theorem onLines_members : OnLines .pair Members :=
  ⟨.done, .newline, .pair⟩

/-- Items on lines of their own. -/
theorem lays_lines {R : List Phrase → List Token → Prop} (hR : OnLines category R) (n : Nat)
    (h : ∀ p ∈ qs, Laid p (f p)) (hqs : ∀ p ∈ qs, p.category = category) :
    Lays Bounded ('\n' :: qs.flatMap fun p => List.replicate n ' ' ++ (f p ++ [',', '\n']))
      (StandAs R qs) := by
  have hbreak {cs : List Char} {qs : List Phrase} (h : Lays Bounded cs (StandAs R qs)) :
      Lays Bounded ('\n' :: cs) (StandAs R qs) := by
    refine h.newline.mono ?_
    rintro _ ⟨_, w, rfl, ⟨t, rfl, ht⟩, ps, hps, hw⟩
    exact ⟨ps, hps, hR.newline ht hw⟩
  induction qs with
  | nil => exact hbreak (lays_nil ⟨[], rfl, hR.none⟩)
  | cons q qs ih =>
    obtain ⟨hq, hmore⟩ := List.forall_mem_cons.mp h
    obtain ⟨hcategory, hcategories⟩ := List.forall_mem_cons.mp hqs
    have hcomma := lays_comma.delimited (ih hmore hcategories) (by decide)
    have hline := (hq.lays.delimited hcomma (by decide)).blanks (hq.visible.append _) n
    refine hbreak (Lays.mono (by simpa using hline) ?_)
    rintro _ ⟨v, _, rfl, ⟨p, hp, hv⟩, _, w, rfl, ⟨comma, rfl, hkind⟩, ps, hps, hw⟩
    exact ⟨p :: ps, by simp [hp, hps], hR.item ((category_of_unlined hp).trans hcategory) hv hkind hw⟩

/-- Brackets around items. -/
structure Brackets where
  opening : Kind × Char
  closing : Kind × Char
  opens : opening ∈ openings
  closes : (closing.1, String.singleton closing.2) ∈ words
  delimits : closing.2 ∈ delimiters
  visible : closing.2 ∉ '\n' :: blanks

/-- The braces of a hash or a block. -/
def braces : Brackets :=
  ⟨(.leftBrace, '\x7b'), (.rightBrace, '\x7d'), by decide, by decide, by decide, by decide⟩

/-- The brackets of a list. -/
def brackets : Brackets :=
  ⟨(.leftBracket, '['), (.rightBracket, ']'), by decide, by decide, by decide, by decide⟩

@[simp] theorem opening_braces : braces.opening = (.leftBrace, '\x7b') := rfl

@[simp] theorem closing_braces : braces.closing = (.rightBrace, '\x7d') := rfl

@[simp] theorem opening_brackets : brackets.opening = (.leftBracket, '[') := rfl

@[simp] theorem closing_brackets : brackets.closing = (.rightBracket, ']') := rfl

/-- A text in brackets around tokens of some sort. -/
structure Enclosed (b : Brackets) (sort : List Token → Prop) (cs : List Char) : Prop where
  starts : ∃ v, cs = b.opening.2 :: v
  ends : Closed cs
  lays : Lays Bounded cs (Then (OfKind b.opening.1) (Then sort (OfKind b.closing.1)))

/-- A text in brackets, the closing one perhaps after some blanks. -/
theorem enclosed (b : Brackets) {cs : List Char} {sort : List Token → Prop} (h : Lays Delimited cs sort)
    (n : Nat) : Enclosed b sort (b.opening.2 :: (cs ++ (List.replicate n ' ' ++ [b.closing.2]))) := by
  obtain ⟨hnewline, hblank⟩ : b.closing.2 ≠ '\n' ∧ b.closing.2 ∉ blanks := by
    simpa only [List.mem_cons, not_or] using b.visible
  refine ⟨⟨_, rfl⟩, ?_, ?_⟩
  · exact (((closed_single hnewline).append _).append _).append [b.opening.2]
  · have hclosing := lays_word b.closes
    rw [String.toList_singleton] at hclosing
    refine (h.then (hclosing.blanks ⟨b.closing.2, [], rfl, hblank⟩ n) fun rest _ => ?_).opening b.opens
    cases n with
    | zero => exact delimited_cons b.delimits _
    | succ n => exact delimited_cons (by decide) _

/-- A block starts with its brace. -/
theorem Enclosed.visible {sort : List Token → Prop} {cs : List Char} (h : Enclosed braces sort cs) :
    StartsOutside blanks cs := by
  obtain ⟨v, rfl⟩ := h.starts
  exact ⟨_, v, rfl, by decide⟩

/-- Operators and terms, with blanks between them. -/
theorem lays_operations {operations : List (Token × Phrase)}
    (hoperators : ∀ x ∈ operations, x.1.Steady ∧ x.1.kind ∈ binaryOperators)
    (hterms : ∀ x ∈ operations, x.2.category ∈ terms) (h : ∀ x ∈ operations, Laid x.2 (f x.2)) :
    Delimited (operations.flatMap fun x => ' ' :: (x.1.text.toList ++ ' ' :: f x.2)) ∧
      Lays Bounded (operations.flatMap fun x => ' ' :: (x.1.text.toList ++ ' ' :: f x.2))
        (StandOperated operations) := by
  induction operations with
  | nil => exact ⟨fun c hc => (by cases hc), lays_nil ⟨[], rfl, .noPart⟩⟩
  | cons x operations ih =>
    obtain ⟨t, q⟩ := x
    obtain ⟨⟨hsteady, hkind⟩, hoperators⟩ := List.forall_mem_cons.mp hoperators
    obtain ⟨hterm, hterms⟩ := List.forall_mem_cons.mp hterms
    obtain ⟨hq, hmore⟩ := List.forall_mem_cons.mp h
    obtain ⟨hdelimited, hlays⟩ := ih hoperators hterms hmore
    have hvalue := hq.lays.append hlays hdelimited
    have hoperator := hsteady.lays.spaced hvalue (hq.visible.append _) 0
    refine ⟨delimited_cons (by decide) _, ?_⟩
    refine Lays.mono (by simpa using hoperator.blanks (hsteady.startsVisible.append _) 1) ?_
    rintro _ ⟨_, _, rfl, ⟨t', rfl, ht⟩, v, w, rfl, ⟨p, hp, hv⟩, operations', heq, hw⟩
    refine ⟨(t', p) :: operations', ?_, ?_⟩
    · simp only [List.map_cons, heq, hp, ht]
    · exact .part (v := v) (w := w) (kind_of_unlined ht ▸ hkind) ((category_of_unlined hp).symm ▸ hterm)
        hv hw

end

/-- A value does not start like what could go on with the value before it. -/
theorem Steady.startsValue {t : Token} (h : t.Steady) (ht : t.kind ∈ expressionOpens) :
    StartsOutside joining t.text.toList := by
  have hrules : ∀ e ∈ Kind.rules, e.1 ∈ .name :: expressionOpens →
      e.2.nullable = false ∧ ∀ c ∈ joining, e.2.starts c = false := by decide
  refine h.spelled.startsOutside h.not_openEnded fun e he hkind => hrules e he ?_
  rcases hkind with hkind | hkind <;> simp [hkind, ht]

section

variable {line : Nat} {t : Token} {q : Phrase} {cs : List Char} {category : Category}
  {qs : List Phrase} {f : Phrase → List Char}

/-- A simple value is written as its token. -/
theorem laid_simple (ht : t.Steady) (hkind : t.kind ∈ simpleKinds) :
    Laid ⟨line, .simple t⟩ t.text.toList where
  starts := Steady.startsValue ht (List.mem_append_left _ hkind)
  ends := ⟨ht.alone.text_ne_nil, ht.getLast?_ne⟩
  bracket h := by cases h
  lays := by
    refine ht.lays.mono ?_
    rintro _ ⟨t', rfl, ht'⟩
    exact ⟨⟨t'.line, .simple t'⟩, unlined_eq_bare (congrArg Form.simple ht') rfl,
      .simple (kind_of_unlined ht' ▸ hkind)⟩

/-- A value in parentheses. -/
theorem laid_parens (h : Laid q cs) (hq : q.category = .expression) :
    Laid ⟨line, .parens q⟩ ('(' :: (cs ++ [')'])) where
  starts := ⟨'(', _, rfl, by decide⟩
  ends := (closed_single (by decide)).append ('(' :: cs)
  bracket h := by cases h
  lays := by
    refine (h.lays.append lays_rightParen (delimited_cons (by decide) _)).leftParen.mono ?_
    rintro _ ⟨_, _, rfl, ⟨opening, rfl, hopening⟩, w, _, rfl, ⟨p, hp, hw⟩, closing, rfl, hclosing⟩
    exact ⟨⟨opening.line, .parens p⟩, unlined_eq_bare (congrArg Form.parens hp) rfl,
      .parens hopening ((category_of_unlined hp).trans hq) hw hclosing⟩

/-- A value after an operator. -/
theorem laid_unary (ht : t.Steady) (hkind : t.kind ∈ [Kind.bang, .minus]) (h : Laid q cs)
    (hq : q.category ∈ terms) : Laid ⟨line, .unary t q⟩ (t.text.toList ++ cs) where
  starts := (Steady.startsValue ht (List.mem_append_right _ (by simp_all))).append _
  ends := h.ends.append _
  bracket h := by cases h
  lays := by
    refine (h.lays.sign ht hkind (h.starts.mono (by decide))).mono ?_
    rintro _ ⟨_, w, rfl, ⟨t', rfl, ht'⟩, p, hp, hw⟩
    refine ⟨⟨t'.line, .unary t' p⟩, unlined_eq_bare ?_ rfl, .unary (w := w)
      (kind_of_unlined ht' ▸ hkind) ((category_of_unlined hp).symm ▸ hq) hw⟩
    simp only [Form.map, Form.unlined, Form.mapTokens, ht', hp]

/-- A call with its arguments in parentheses. -/
theorem laid_call (ht : t.Steady) (hkind : t.kind = .name) (h : ∀ q ∈ qs, Laid q (f q))
    (hqs : ∀ q ∈ qs, q.category = .expression) :
    Laid ⟨line, .call t qs true⟩ (t.text.toList ++ '(' :: (commaSeparated f qs ++ [')'])) where
  starts := (Steady.startsValue ht (List.mem_append_left _ (by simp [hkind, simpleKinds]))).append _
  ends := ((closed_single (by decide)).append ('(' :: commaSeparated f qs)).append _
  bracket h := by cases h
  lays := by
    have hform {t' : Token} (ht' : t'.unlined = t.unlined) {ps : List Phrase}
        (hps : ps.map Phrase.unlined = qs.map Phrase.bare) :
        (Phrase.mk t'.line (.call t' ps true)).unlined = (Phrase.mk line (.call t qs true)).bare := by
      refine unlined_eq_bare ?_ rfl
      simp only [Form.map, Form.unlined, Form.mapTokens, ht', hps]
    cases qs with
    | nil =>
      have hcall := ht.lays.append lays_rightParen.leftParen (delimited_cons (by decide) _)
      refine Lays.mono (by simpa [commaSeparated] using hcall) ?_
      rintro _ ⟨_, _, rfl, ⟨t', rfl, ht'⟩, _, _, rfl, ⟨opening, rfl, hopening⟩, closing, rfl, hclosing⟩
      exact ⟨_, hform ht' rfl, .emptyCall ((kind_of_unlined ht').trans hkind) hopening hclosing⟩
    | cons q qs =>
      obtain ⟨hq, hmore⟩ := List.forall_mem_cons.mp h
      obtain ⟨hcategory, hcategories⟩ := List.forall_mem_cons.mp hqs
      have hdelimited : Delimited (afterCommas f qs ++ [')']) := by
        cases qs <;> exact delimited_cons (by decide) _
      have hargs := hq.lays.append ((lays_further hmore hcategories).append lays_rightParen
        (delimited_cons (by decide) _)) hdelimited
      have hcall := ht.lays.append hargs.leftParen (delimited_cons (by decide) _)
      refine Lays.mono (by simpa [commaSeparated] using hcall) ?_
      rintro _ ⟨_, _, rfl, ⟨t', rfl, ht'⟩, _, _, rfl, ⟨opening, rfl, hopening⟩, v, _, rfl, ⟨p, hp, hv⟩, w, _,
        rfl, ⟨ps, hps, hw⟩, closing, rfl, hclosing⟩
      have hargs' : (p :: ps).map Phrase.unlined = (q :: qs).map Phrase.bare := by simp [hp, hps]
      exact ⟨_, hform ht' hargs', .call (v := v) (w := w) ((kind_of_unlined ht').trans hkind) hopening
        ((category_of_unlined hp).trans hcategory) hv hw hclosing⟩

/-- A reference with its indexes. -/
theorem laid_reference (ht : t.Steady) (hkind : t.kind ∈ referenceHeads)
    (h : ∀ p ∈ q :: qs, Laid p (f p)) (hqs : ∀ p ∈ q :: qs, p.category = .list) :
    Laid ⟨line, .reference t (q :: qs)⟩ (t.text.toList ++ (q :: qs).flatMap f) where
  starts := by
    have hsimple : ∀ kind ∈ referenceHeads, kind ∈ expressionOpens := by decide
    exact (Steady.startsValue ht (hsimple _ hkind)).append _
  ends := (closed_flatMap fun p hp => (h p hp).ends).append _
  bracket h := by cases h
  lays := by
    obtain ⟨hdelimited, hlays⟩ := lays_indexes h hqs
    refine (ht.lays.append hlays hdelimited).mono ?_
    rintro _ ⟨_, w, rfl, ⟨t', rfl, ht'⟩, ps, hps, hw⟩
    cases ps with
    | nil => cases hps
    | cons p ps =>
      refine ⟨⟨t'.line, .reference t' (p :: ps)⟩, unlined_eq_bare ?_ rfl, .reference (w := w)
        (kind_of_unlined ht' ▸ hkind) hw⟩
      simp only [Form.map, Form.unlined, Form.mapTokens, ht', hps]

/-- A hash is its items in braces. -/
theorem laid_hash (h : Enclosed braces (StandAsItems .pair qs) cs) :
    Laid ⟨line, .hash qs⟩ cs where
  starts := by
    obtain ⟨v, rfl⟩ := h.starts
    exact ⟨_, v, rfl, by decide⟩
  ends := h.ends
  bracket h := by cases h
  lays := by
    refine h.lays.mono ?_
    rintro _ ⟨_, _, rfl, ⟨opening, rfl, hopening⟩, w, _, rfl, ⟨ps, hps, hw⟩, closing, rfl, hclosing⟩
    exact ⟨⟨opening.line, .hash ps⟩, unlined_eq_bare (congrArg Form.hash hps) rfl,
      .hash hopening hw hclosing⟩

/-- A list is its items in brackets. -/
theorem laid_list (h : Enclosed brackets (StandAsItems .expression qs) cs) :
    Laid ⟨line, .list qs⟩ cs where
  starts := by
    obtain ⟨v, rfl⟩ := h.starts
    exact ⟨_, v, rfl, by decide⟩
  ends := h.ends
  bracket _ := h.starts
  lays := by
    refine h.lays.mono ?_
    rintro _ ⟨_, _, rfl, ⟨opening, rfl, hopening⟩, w, _, rfl, ⟨ps, hps, hw⟩, closing, rfl, hclosing⟩
    exact ⟨⟨opening.line, .list ps⟩, unlined_eq_bare (congrArg Form.list hps) rfl,
      .list hopening hw hclosing⟩

/-- A selector is its subject, a question mark and its items in braces. -/
theorem laid_selector {v : List Char} (hq : Laid q v)
    (hcategory : q.category ∈ [Category.reference, .simple])
    (h : Enclosed braces (StandAsItems .pair qs) cs) :
    Laid ⟨line, .selector q qs⟩ (v ++ ' ' :: '?' :: ' ' :: cs) where
  starts := hq.starts.append _
  ends := (h.ends.append [' ', '?', ' ']).append v
  bracket h := by cases h
  lays := by
    have hmark : Lays Bounded ['?'] (OfKind .question) :=
      lays_word (show (Kind.question, "?") ∈ words by decide)
    have hquestion := hmark.spaced h.lays h.visible 0
    refine (hq.lays.spaced hquestion ⟨'?', _, rfl, by decide⟩ 0).mono ?_
    rintro _ ⟨v, _, rfl, ⟨p, hp, hv⟩, _, _, rfl, ⟨question, rfl, hquestion⟩, _, _, rfl,
      ⟨opening, rfl, hopening⟩, w, _, rfl, ⟨ps, hps, hw⟩, closing, rfl, hclosing⟩
    refine ⟨⟨firstLine v, .selector p ps⟩, unlined_eq_bare ?_ rfl, .selector (v := v) (w := w)
      ((category_of_unlined hp).symm ▸ hcategory) hv hquestion hopening hw hclosing⟩
    simp only [Form.map, Form.unlined, Form.mapTokens, hp, hps]

/-- A key or a variable, an operator and a value, with blanks between them. -/
theorem lays_binding {operator : Token} (ht : t.Steady) (hoperator : operator.Steady) (h : Laid q cs)
    (n : Nat) :
    Lays Bounded (t.text.toList ++ (List.replicate (n + 1) ' ' ++ (operator.text.toList ++ ' ' :: cs)))
      (Then (OneLike t) (Then (OneLike operator)
        (StandFor (fun p => Written (.phrase p)) q))) :=
  ht.lays.spaced (hoperator.lays.spaced h.lays h.visible 0) (hoperator.startsVisible.append _) n

/-- A pair, however many blanks there are in front of the arrow. -/
theorem laid_pair {arrow : Token} {width : Nat} (ht : t.Steady) (hkind : t.kind ∈ keyKinds)
    (harrow : arrow.Steady) (hkind' : arrow.kind ∈ arrows) (h : Laid q cs)
    (hq : q.category = .expression) (n : Nat) :
    Laid ⟨line, .pair t arrow q width⟩
      (t.text.toList ++ (List.replicate (n + 1) ' ' ++ (arrow.text.toList ++ ' ' :: cs))) where
  starts := by
    have hkeys : ∀ kind ∈ keyKinds, kind ∈ expressionOpens := by decide
    exact (Steady.startsValue ht (hkeys _ hkind)).append _
  ends := (((h.ends.append [' ']).append _).append _).append _
  bracket h := by cases h
  lays := by
    refine (lays_binding ht harrow h n).mono ?_
    rintro _ ⟨_, _, rfl, ⟨t', rfl, ht'⟩, _, w, rfl, ⟨arrow', rfl, harrow'⟩, p, hp, hw⟩
    refine ⟨⟨t'.line, .pair t' arrow' p 0⟩, unlined_eq_bare ?_ rfl, .pair (w := w)
      (kind_of_unlined ht' ▸ hkind) (kind_of_unlined harrow' ▸ hkind')
      ((category_of_unlined hp).trans hq) hw⟩
    simp only [Form.map, Form.unlined, Form.mapTokens, ht', harrow', hp]

/-- An assignment with blanks around its operator. -/
theorem laid_assignment {operator : Token} (ht : t.Steady) (hkind : t.kind = .dollarVar)
    (hoperator : operator.Steady) (hkind' : operator.kind ∈ [Kind.equals, .plusEquals]) (h : Laid q cs)
    (hq : q.category = .expression) :
    Laid ⟨line, .assignment t operator q⟩
      (t.text.toList ++ ' ' :: (operator.text.toList ++ ' ' :: cs)) where
  starts := (Steady.startsValue ht (List.mem_append_left _ (by simp [hkind, simpleKinds]))).append _
  ends := (((h.ends.append [' ']).append _).append [' ']).append _
  bracket h := by cases h
  lays := by
    refine (lays_binding ht hoperator h 0).mono ?_
    rintro _ ⟨_, _, rfl, ⟨t', rfl, ht'⟩, _, w, rfl, ⟨operator', rfl, hoperator'⟩, p, hp, hw⟩
    refine ⟨⟨t'.line, .assignment t' operator' p⟩, unlined_eq_bare ?_ rfl, .assignment (w := w)
      ((kind_of_unlined ht').trans hkind) (kind_of_unlined hoperator' ▸ hkind')
      ((category_of_unlined hp).trans hq) hw⟩
    simp only [Form.map, Form.unlined, Form.mapTokens, ht', hoperator', hp]

/-- An expression with blanks around its operators. -/
theorem laid_expression {operations : List (Token × Phrase)} (h : Laid q cs) (hq : q.category ∈ terms)
    (hoperators : ∀ x ∈ operations, x.1.Steady ∧ x.1.kind ∈ binaryOperators)
    (hterms : ∀ x ∈ operations, x.2.category ∈ terms) (hmore : ∀ x ∈ operations, Laid x.2 (f x.2)) :
    Laid ⟨line, .expression (.term q :: operationParts operations)⟩
      (cs ++ operations.flatMap fun x => ' ' :: (x.1.text.toList ++ ' ' :: f x.2)) where
  starts := h.starts.append _
  ends := by
    cases operations with
    | nil => simpa using h.ends
    | cons x operations =>
      refine (closed_flatMap fun y hy => ?_).append cs
      exact (((hmore y hy).ends.append [' ']).append _).append [' ']
  bracket h := by cases h
  lays := by
    obtain ⟨hdelimited, hlays⟩ := lays_operations hoperators hterms hmore
    refine (h.lays.append hlays hdelimited).mono ?_
    rintro _ ⟨v, w, rfl, ⟨p, hp, hv⟩, operations', heq, hw⟩
    refine ⟨⟨firstLine v, .expression (.term p :: operationParts operations')⟩, unlined_eq_bare ?_ rfl,
      .expression ((category_of_unlined hp).symm ▸ hq) hv hw⟩
    simp only [Form.map, Form.unlined, Form.mapTokens, List.map_cons, Part.map, Part.mapToken,
      map_operationParts, mapToken_operationParts, List.map_map, hp]
    exact congrArg (fun operations => Form.expression (.term q.bare :: operationParts operations)) heq

end

section

variable {o : Layout.Options} {x : Placed} {qs : List Phrase} {category : Category} {depth : Nat}

/-- The text of a child at some depth. -/
def childText (o : Layout.Options) (x : Placed) (depth : Nat) (q : Phrase) : List Char :=
  ((x.below q).text o depth).toList

/-- Which children are comments does not depend on the place. -/
theorem isComment_below (x : Placed) {q : Phrase} (hq : q.category = category)
    (hcategory : category.isComment = false) : Placed.view.isComment (x.below q) = false := by
  rw [View.isComment, Layout.view_category]
  exact (congrArg Category.isComment hq).trans hcategory

/-- Children with commas between them, as characters. -/
theorem toList_withCommas (o : Layout.Options) (x : Placed) (qs : List Phrase) (depth : Nat) :
    (Layout.withCommas (fun y depth => y.text o depth) (qs.map x.below) depth).toList =
      commaSeparated (childText o x depth) qs := by
  cases qs with
  | nil => simp [Layout.withCommas, commaSeparated]
  | cons q qs =>
    simp [Layout.withCommas, Layout.intercalate_cons, commaSeparated, afterCommas, List.flatMap_map,
      childText]

/-- Operators and terms with blanks between them, as characters. -/
theorem toList_operations (o : Layout.Options) (x : Placed) (first : Phrase)
    (operations : List (Token × Phrase)) (depth : Nat) :
    (" ".intercalate (((.term first :: operationParts operations).map (Part.map x.below)).map
      (Layout.partText (fun y depth => y.text o depth) depth))).toList = childText o x depth first ++
        operations.flatMap fun y => ' ' :: (y.1.text.toList ++ ' ' :: childText o x depth y.2) := by
  rw [List.map_cons, List.map_cons, Layout.intercalate_cons, String.toList_append]
  congr 1
  induction operations with
  | nil => rfl
  | cons y operations ih => simp_all [operationParts, Layout.partText, Part.map, childText]

/-- Children on lines of their own, as characters. -/
theorem toList_onePerLine (o : Layout.Options) (x : Placed) (hqs : ∀ q ∈ qs, q.category = category)
    (hcategory : category.isComment = false) (depth : Nat) (opening closing : String) :
    (Layout.onePerLine Placed.view o (fun y depth => y.text o depth) (qs.map x.below) depth opening
      closing).toList =
      opening.toList ++ ('\n' :: qs.flatMap fun q => List.replicate ((depth + 1) * o.indentWidth) ' ' ++
        (childText o x (depth + 1) q ++ [',', '\n'])) ++
          (List.replicate (depth * o.indentWidth) ' ' ++ closing.toList) := by
  have hlines : (qs.map x.below).map (fun y => Layout.margin o (depth + 1) ++ y.text o (depth + 1) ++
      (if Placed.view.isComment y then "\n" else ",\n")) =
      qs.map fun q => Layout.margin o (depth + 1) ++ (x.below q).text o (depth + 1) ++ ",\n" := by
    rw [List.map_map]
    exact List.map_congr_left fun q hq => by simp [isComment_below x (hqs q hq) hcategory]
  simp only [Layout.onePerLine, hlines, String.toList_append, String.toList_join, List.flatMap_map]
  simp [Layout.margin, childText]

/-- Items on lines of their own stand in their brackets. -/
theorem enclosed_onePerLine (b : Brackets) {R : List Phrase → List Token → Prop} {first last : String}
    (hR : OnLines category R) (hitems : ∀ q ∈ qs, ∀ depth, Laid q (childText o x depth q))
    (hqs : ∀ q ∈ qs, q.category = category) (hcategory : category.isComment = false)
    (hfirst : first.toList = [b.opening.2]) (hlast : last.toList = [b.closing.2]) :
    Enclosed b (StandAs R qs) (Layout.onePerLine Placed.view o
      (fun y depth => y.text o depth) (qs.map x.below) depth first last).toList := by
  rw [toList_onePerLine o x hqs hcategory, hfirst, hlast]
  have hlines := lays_lines hR ((depth + 1) * o.indentWidth) (fun q hq => hitems q hq (depth + 1)) hqs
  exact enclosed b hlines.before (depth * o.indentWidth)

/-- Pairs on lines of their own are read as items in braces. -/
theorem enclosed_pairsText {R : List Phrase → List Token → Prop} (hR : OnLines .pair R)
    (hitems : ∀ q ∈ qs, ∀ depth, Laid q (childText o x depth q))
    (hqs : ∀ q ∈ qs, q.category = .pair) (depth : Nat) :
    Enclosed braces (StandAs R qs) (if (qs.map x.below).isEmpty then Layout.braced "" else
      Layout.onePerLine Placed.view o (fun y depth => y.text o depth) (qs.map x.below) depth "\x7b"
        "\x7d").toList := by
  cases qs with
  | nil => simpa [Layout.braced] using enclosed braces (lays_nil ⟨[], rfl, hR.none⟩) 0
  | cons q qs => exact enclosed_onePerLine braces hR hitems hqs rfl rfl rfl

/-- The text of a hash is read as its items in braces. -/
theorem enclosed_hashText (hitems : ∀ q ∈ qs, ∀ depth, Laid q (childText o x depth q))
    (hqs : ∀ q ∈ qs, q.category = .pair) :
    Enclosed braces (StandAsItems .pair qs)
      (Layout.hashText Placed.view o (fun y depth => y.text o depth) (qs.map x.below) depth).toList := by
  have hlines := enclosed_pairsText (o := o) (onLines_items .pair) hitems hqs depth
  cases qs with
  | nil => exact hlines
  | cons q qs =>
    rw [Layout.hashText, if_neg (by simp)]
    split
    · rename_i text hshort
      -- only a single pair stays on the line
      cases qs with
      | cons q' qs => cases hshort
      | nil =>
        simp only [Layout.shortHash?, List.map_cons, List.map_nil] at hshort
        split at hshort
        · split at hshort
          · cases hshort
          · cases hshort
            have hinline := lays_inline (fun p hp => hitems p hp depth) hqs
            have hpair := hinline.blanks ((hitems q (by simp) depth).visible.append _) 1
            have htext := enclosed braces hpair.before 1
            simpa [Layout.braced, commaSeparated, afterCommas, childText] using htext
        · cases hshort
    · exact hlines

/-- The text of a list is read as its items in brackets, on one line or on several. -/
theorem enclosed_listText (hitems : ∀ q ∈ qs, ∀ depth, Laid q (childText o x depth q))
    (hqs : ∀ q ∈ qs, q.category = .expression) :
    Enclosed brackets (StandAsItems .expression qs)
      (Layout.listText Placed.view o (fun y depth => y.text o depth) (qs.map x.below) depth).toList := by
  have hlines : Enclosed brackets (StandAsItems .expression qs) (Layout.onePerLine Placed.view o
      (fun y depth => y.text o depth) (qs.map x.below) depth "[" "]").toList :=
    enclosed_onePerLine brackets (onLines_items .expression) hitems hqs rfl rfl rfl
  cases qs with
  | nil => simpa [Layout.listText] using enclosed brackets (lays_nil ⟨[], rfl, Written.noItem⟩) 0
  | cons q qs =>
    rw [Layout.listText, if_neg (by simp)]
    dsimp only
    split
    · exact hlines
    · have htext := enclosed brackets (lays_inline (fun p hp => hitems p hp depth) hqs).before 0
      have hcommas := toList_withCommas o x (q :: qs) depth
      rw [Layout.withCommas] at hcommas
      rw [String.toList_append, String.toList_append, hcommas]
      simpa using htext

end

/-- Terms with operators between them, as a term and operations. -/
theorem Alternating.operations {parts : List (Part Phrase)}
    (h : Alternating (parts.map (Part.map Phrase.category))) :
    ∃ term operations, parts = .term term :: operationParts operations := by
  generalize hcategories : parts.map (Part.map Phrase.category) = categories at h
  fun_induction Alternating categories generalizing parts with
  | case1 c =>
    obtain ⟨part, rfl, hpart⟩ := List.map_eq_singleton_iff.mp hcategories
    cases part with
    | operator => cases hpart
    | term x => exact ⟨x, [], rfl⟩
  | case2 c t categories ih =>
    obtain ⟨part, parts, rfl, hpart, hcategories⟩ := List.map_eq_cons_iff.mp hcategories
    obtain ⟨part', parts, rfl, hpart', hcategories⟩ := List.map_eq_cons_iff.mp hcategories
    obtain ⟨term, operations, rfl⟩ := ih hcategories h.2.2
    cases part with
    | operator => cases hpart
    | term x =>
      cases part' with
      | term => cases hpart'
      | operator t => exact ⟨x, (t, term) :: operations, rfl⟩
  | case3 => exact h.elim

/-- What is known of operators and terms, one by one. -/
theorem filled_operationParts {ok : Token → Prop} {operations : List (Token × Phrase)}
    (h : ∀ part ∈ operationParts (operations.map fun x => (x.1, x.2.category)), part.Filled ok) :
    ∀ x ∈ operations, x.1.Among ok binaryOperators ∧ x.2.category ∈ terms := by
  induction operations with
  | nil => simp
  | cons x operations ih =>
    obtain ⟨hoperator, hmore⟩ := List.forall_mem_cons.mp h
    obtain ⟨hterm, hmore⟩ := List.forall_mem_cons.mp hmore
    exact List.forall_mem_cons.mpr ⟨⟨hoperator, hterm⟩, ih hmore⟩

theorem canonical_filled {q : Phrase} (h : q.Every Form.Canonical) : q.Filled Token.Kept :=
  h.imp fun _ => Form.Canonical.filled

/-- Items that are no comments are of one category. -/
theorem category_of_kept {qs : List Phrase} {category : Category}
    (h : ∀ q ∈ qs, q.Every Form.Canonical)
    (hqs : qs.map Phrase.category ⊆ [.comment, .blockComment, category]) :
    ∀ q ∈ qs, q.category = category := by
  intro q hq
  have hcategory := hqs (List.mem_map_of_mem hq)
  have hcomment := (canonical_filled (h q hq)).not_comment
  simp_all

/-- The text of a value stands for it where the texts of its children do. -/
theorem laid_of_children {x : Placed} {o : Layout.Options} {depth : Nat}
    (h : x.phrase.Every Form.Canonical) (hx : x.phrase.category ∈ valueCategories)
    (hchildren : ∀ q ∈ x.phrase.children, ∀ depth, Laid q (childText o x depth q)) :
    Laid x.phrase (x.text o depth).toList := by
  obtain ⟨hfilled, hregular, hbasic⟩ := h.form
  have hchild (q : Phrase) (hq : q ∈ x.phrase.children) : q.Every Form.Canonical := h.child hq
  rw [Placed.text_eq]
  obtain ⟨inChain, level, line, form⟩ := x
  cases form with
  | simple t => exact laid_simple (hfilled.steady (by decide)) hfilled.2
  | parens inner =>
    have hlaid : Laid ⟨line, .parens inner⟩ _ := laid_parens
      (hchildren inner (by simp [Phrase.children, Form.children]) depth) hfilled
    simpa [Layout.formText, Placed.view, Form.map, childText] using hlaid
  | unary operator operand =>
    have hlaid : Laid ⟨line, .unary operator operand⟩ _ := laid_unary (hfilled.1.steady (by decide))
      hfilled.1.2 (hchildren operand (by simp [Phrase.children, Form.children]) depth) hfilled.2
    simpa [Layout.formText, Placed.view, Form.map, childText] using hlaid
  | call name args parenthesized =>
    obtain rfl : parenthesized = true := (Bool.and_eq_true_iff.mp hbasic).1
    obtain ⟨hname, hargs, -⟩ := hfilled
    have hlaid : Laid ⟨line, .call name args true⟩ _ := laid_call (hname.steady (by decide))
      (List.mem_singleton.mp hname.2) (fun q hq => hchildren q hq depth) (List.forall_mem_map.mp hargs)
    rw [← toList_withCommas] at hlaid
    simpa [Layout.formText, Placed.view, Form.map] using hlaid
  | reference head indexes =>
    obtain ⟨hhead, hindexes⟩ := hfilled
    cases indexes with
    | nil => exact absurd rfl hregular.1
    | cons index indexes =>
      have hlaid : Laid ⟨line, .reference head (index :: indexes)⟩ _ := laid_reference
        (hhead.steady (by decide)) hhead.2 (fun q hq => hchildren q hq depth)
        (List.forall_mem_map.mp hindexes)
      unfold childText at hlaid
      simpa [Layout.formText, Placed.view, Form.map, List.flatMap_map] using hlaid
  | hash items =>
    exact laid_hash (enclosed_hashText hchildren (category_of_kept hchild hfilled))
  | list items =>
    exact laid_list (enclosed_listText hchildren (category_of_kept hchild hfilled))
  | selector subject items =>
    obtain ⟨hsubject, hitems⟩ := hfilled
    have hmem {q : Phrase} (hq : q ∈ items) : q ∈ subject :: items := List.mem_cons_of_mem _ hq
    have hpairs := enclosed_pairsText (onLines_items .pair) (fun q hq => hchildren q (hmem hq))
      (category_of_kept (fun q hq => hchild q (hmem hq)) hitems) depth
    have hlaid : Laid ⟨line, .selector subject items⟩ _ := laid_selector
      (hchildren subject List.mem_cons_self depth) hsubject hpairs
    simpa [Layout.formText, Placed.view, Form.map, childText] using hlaid
  | pair key arrow value width =>
    obtain ⟨hkey, harrow, hvalue⟩ := hfilled
    -- one blank at least, also where the key is longer than the column
    have hlaid : Laid ⟨line, .pair key arrow value width⟩ _ := laid_pair (hkey.steady (by decide)) hkey.2
      (harrow.steady (by decide)) harrow.2
      (hchildren value (by simp [Phrase.children, Form.children]) depth) hvalue
      (width - key.text.length)
    simpa [Layout.formText, Placed.view, Form.map, childText, Layout.padRight, List.replicate_succ']
      using hlaid
  | assignment name operator value =>
    obtain ⟨hname, hoperator, hvalue⟩ := hfilled
    have hlaid : Laid ⟨line, .assignment name operator value⟩ _ := laid_assignment
      (hname.steady (by decide)) (List.mem_singleton.mp hname.2) (hoperator.steady (by decide))
      hoperator.2 (hchildren value (by simp [Phrase.children, Form.children]) depth) hvalue
    simpa [Layout.formText, Placed.view, Form.map, childText] using hlaid
  | expression parts =>
    obtain ⟨term, operations, rfl⟩ := Alternating.operations hregular
    obtain ⟨-, hparts⟩ := hfilled
    rw [List.map_cons, map_operationParts] at hparts
    obtain ⟨hterm, hoperations⟩ := List.forall_mem_cons.mp hparts
    have hoperations := filled_operationParts hoperations
    have hmem : ∀ y ∈ operations, y.2 ∈ Phrase.children ⟨line, .expression (.term term ::
        operationParts operations)⟩ := fun y hy => by
      simp only [Phrase.children, Form.children, Phrase.form_mk, List.filterMap_cons, Part.term?,
        terms_operationParts]
      exact List.mem_cons_of_mem _ (List.mem_map_of_mem hy)
    have hlaid : Laid ⟨line, .expression (.term term :: operationParts operations)⟩ _ :=
      laid_expression (hchildren term (by simp [Phrase.children, Form.children, Part.term?]) depth) hterm
        (fun y hy => ⟨(hoperations y hy).1.steady (by decide), (hoperations y hy).1.2⟩)
        (fun y hy => (hoperations y hy).2) fun y hy => hchildren y.2 (hmem y hy) depth
    rw [← toList_operations] at hlaid
    exact hlaid
  | pending => exact hfilled.elim
  | _ => simp [Phrase.category, Form.category, valueCategories, terms] at hx

/-- The text of a value stands for the value, apart from lines and columns. -/
theorem laid_text {q : Phrase} (h : q.Every Form.Canonical) (hq : q.category ∈ valueCategories)
    (o : Layout.Options) (inChain : Bool) (level : Int) (depth : Nat) :
    Laid q ((⟨inChain, level, q⟩ : Placed).text o depth).toList := by
  induction q using Phrase.induct generalizing inChain level depth with
  | step q ih =>
    refine laid_of_children (x := ⟨inChain, level, q⟩) h hq fun p hp depth => ?_
    exact ih p hp (h.child hp) ((canonical_filled h).child_values hq hp) _ _ depth

end Plain

end TidyManifest
