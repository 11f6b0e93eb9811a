import TidyManifest.Proofs.Lexing.Lossless

/-!
# Division signs and regular expressions

A slash divides after a value.  Elsewhere it opens a regular expression, if there is a slash later on
the line that no backslash escapes and that can close it.  The decision looks back over any number of
comments and newlines and ahead to the end of the line, and it is part of what later slashes look back
at.

The lexer carries one bit from token to token, whether the last token that is not trivia can end a
value.  `endsValue` says what this bit is after given tokens, so that one statement about the next
token (`next?_decided`) becomes one about all tokens of a source (`lex_slashes`).
-/

namespace TidyManifest.Token

/-- Whether the character after a text is escaped: backslashes are paired from left to right, and
`escaped` says whether one stands open before the text. -/
def escapesAfter (escaped : Bool) (text : List Char) : Bool :=
  text.foldl (fun escaped c => !escaped && c == '\\') escaped

/-- A text has a slash that no backslash in it escapes. -/
def HasOpenSlash (text : List Char) : Prop :=
  ∃ u v, text = u ++ '/' :: v ∧ escapesAfter false u = false

/-- What is left of the first line of a text. -/
def restOfLine (text : List Char) : List Char :=
  text.takeWhile (· != '\n')

/-- A regular expression with its slashes: no other slash ends it earlier, and it stays on its line. -/
def IsRegex (text : List Char) : Prop :=
  ∃ body, text = '/' :: (body ++ ['/']) ∧ '\n' ∉ body ∧ ¬ HasOpenSlash body ∧
    escapesAfter false body = false

section

variable {escaped : Bool} {cs : List Char} {n : Nat}

/-- The slash that closes a regular expression, and what is before it. -/
theorem regexEnd_eq_some (h : regexEnd escaped cs = some n) :
    ∃ body rest, cs = body ++ '/' :: rest ∧ n = body.length + 1 ∧ '\n' ∉ body ∧
      escapesAfter escaped body = false ∧
        ∀ u v, body = u ++ '/' :: v → escapesAfter escaped u = true := by
  fun_induction regexEnd escaped cs generalizing n with
  | case1 => cases h
  | case2 => cases h
  | case3 escaped c rest hc hslash =>
    cases h
    obtain ⟨rfl, rfl⟩ : escaped = false ∧ c = '/' := by simpa using hslash
    exact ⟨[], rest, rfl, rfl, by simp, rfl, by simp⟩
  | case4 escaped c rest hc hslash ih =>
    obtain ⟨m, hm, rfl⟩ := Option.map_eq_some_iff.mp h
    obtain ⟨body, after, rfl, rfl, hline, hopen, hbody⟩ := ih hm
    refine ⟨c :: body, after, rfl, rfl, ?_, hopen, fun u v huv => ?_⟩
    · have : c ≠ '\n' := by simpa using hc
      simp [hline, this.symm]
    · cases u with
      | nil =>
        cases huv
        simpa [escapesAfter] using hslash
      | cons c' u =>
        cases huv
        exact hbody u v rfl

/-- Where nothing closes a regular expression, all slashes on the line are escaped. -/
theorem regexEnd_eq_none (h : regexEnd escaped cs = none) {u v : List Char}
    (huv : restOfLine cs = u ++ '/' :: v) : escapesAfter escaped u = true := by
  fun_induction regexEnd escaped cs generalizing u with
  | case1 => simp [restOfLine] at huv
  | case2 escaped c rest hc =>
    rw [restOfLine, List.takeWhile_cons_of_neg (by simpa using hc)] at huv
    simp at huv
  | case3 => cases h
  | case4 escaped c rest hc hslash ih =>
    rw [restOfLine, List.takeWhile_cons_of_pos (by simpa using hc)] at huv
    cases u with
    | nil =>
      cases huv
      simpa [escapesAfter] using hslash
    | cons c' u =>
      obtain ⟨rfl, hrest⟩ := List.cons.inj huv
      exact ih (by simpa using h) hrest

end

/-- How a slash has been read: as a regular expression that does not stand after a value, or as a
division sign, which stands after a value or has no slash to close it on its line. -/
structure Decided (afterValue : Bool) (kind : Kind) (text rest : List Char) : Prop where
  regex : kind = .regex → afterValue = false ∧ IsRegex text
  slash : kind = .slash → afterValue = true ∨ ¬ HasOpenSlash (restOfLine rest)

/-- The rules by themselves recognise no regular expression. -/
theorem recognise_ne_regex {input : List Char} {k : Kind} {n : Nat}
    (h : recognise input = some (k, n)) : k ≠ .regex := by
  rintro rfl
  obtain ⟨p, hp, -⟩ := recognise_matches h
  cases hp

/-- The next token is decided by what stands before it and by its line. -/
theorem next?_decided {afterValue : Bool} {input : List Char} {k : Kind} {n : Nat}
    (h : next? afterValue input = some (k, n)) :
    Decided afterValue k (input.take n) (input.drop n) := by
  unfold next? at h
  split at h
  · obtain ⟨_, -, heq⟩ := Option.map_eq_some_iff.mp h
    cases heq
    exact ⟨by simp, by simp⟩
  · rename_i hrecognised
    obtain ⟨rfl, rest, rfl⟩ := recognise_literal "/" hrecognised rfl
    split at h
    · rename_i hvalue
      cases h
      exact ⟨by simp, fun _ => .inl hvalue⟩
    · rename_i hvalue
      split at h
      · rename_i m hm
        cases h
        obtain ⟨body, after, rfl, rfl, hline, hopen, hbody⟩ :=
          regexEnd_eq_some (show regexEnd false rest = some m from hm)
        refine ⟨fun _ => ⟨by simpa using hvalue, body, ?_, hline, ?_, hopen⟩, by simp⟩
        · rw [List.take_length_add_append, List.take_length_add_append]
          rfl
        · rintro ⟨u, v, huv, hu⟩
          rw [hbody u v huv] at hu
          cases hu
      · rename_i hnone
        cases h
        refine ⟨by simp, fun _ => .inr ?_⟩
        rintro ⟨u, v, huv, hu⟩
        rw [regexEnd_eq_none (show regexEnd false rest = none from hnone) huv] at hu
        cases hu
  · rename_i m hrecognised
    cases h
    cases hkeyword : Kind.keyword? (String.ofList (input.take n)) with
    | none => exact ⟨by simp, by simp⟩
    | some k =>
      have := isKeyword_of_keyword? hkeyword
      constructor
      · rintro rfl
        cases this
      · rintro rfl
        cases this
  · rename_i hslash _
    exact ⟨fun hk => absurd hk (recognise_ne_regex h), fun hk => absurd (hk ▸ h) (hslash n)⟩

/-- The last token that is not trivia. -/
def lastSolid (tokens : List Token) : Option Token :=
  tokens.reverse.find? fun t => !t.kind.isTrivia

/-- Whether a slash would stand after a value: what the lexer knows after some tokens, where `start`
is what it knew before them. -/
def endsValue (start : Bool) (tokens : List Token) : Bool :=
  tokens.foldl (fun known t => if t.kind.isTrivia then known else t.kind.canEndValue) start

/-- Whether a value has ended is decided by the last token that is neither white space nor a
comment. -/
theorem endsValue_eq (start : Bool) (tokens : List Token) :
    endsValue start tokens = ((lastSolid tokens).map (·.kind.canEndValue)).getD start := by
  unfold endsValue lastSolid
  rw [← List.foldr_reverse]
  induction tokens.reverse with
  | nil => rfl
  | cons t tokens ih =>
    rw [List.foldr_cons, ih]
    cases ht : t.kind.isTrivia <;> simp [ht]

/-- The text after a token, where each token is followed by its gap. -/
def textAfter (tokens : List Token) (gaps : List String) (i : Nat) : String :=
  gaps.getD i "" ++ woven (tokens.drop (i + 1)) (gaps.drop (i + 1))

/-- Every slash among tokens has been decided by what stands around it. -/
def AllDecided (start : Bool) (tokens : List Token) (gaps : List String) : Prop :=
  ∀ i (hi : i < tokens.length), Decided (endsValue start (tokens.take i)) tokens[i].kind
    tokens[i].text.toList (textAfter tokens gaps i).toList

/-- One more token in front whose slash is decided. -/
theorem AllDecided.cons {start : Bool} {t : Token} {tokens : List Token} {gap : String}
    {gaps : List String}
    (ht : Decided start t.kind t.text.toList (gap ++ woven tokens gaps).toList)
    (h : AllDecided (if t.kind.isTrivia then start else t.kind.canEndValue) tokens gaps) :
    AllDecided start (t :: tokens) (gap :: gaps) := by
  intro i hi
  cases i with
  | zero => exact ht
  | succ i => exact h i (by simpa using hi)

/-- Every slash that the lexer meets is decided by what stands around it. -/
theorem lexFrom_decided {source : String} {line : Nat} {afterValue : Bool} {input : List Char}
    (tokens : List Token) (h : lexFrom source line afterValue input = .ok tokens) :
    ∃ lead gaps, WovenFrom line tokens lead gaps input ∧ AllDecided afterValue tokens gaps := by
  fun_induction lexFrom source line afterValue input generalizing tokens with
  | case1 =>
    cases h
    exact ⟨"", [], ⟨rfl, by simp [IsGap], rfl, by simp⟩, by simp [AllDecided]⟩
  | case2 => cases h
  | case3 => cases h
  | case4 line afterValue c rest k n hnext text more hmore ih =>
    obtain ⟨lead, gaps, hwoven, hdecided⟩ := ih more hmore
    obtain ⟨m, rfl⟩ : ∃ m, n = m + 1 := ⟨n - 1, by have := next?_pos hnext; omega⟩
    have hinput : c :: rest = text ++ rest.drop m := (List.take_append_drop (m + 1) (c :: rest)).symm
    cases h
    rw [hinput]
    split
    · rename_i hblank
      obtain rfl := eq_of_beq hblank
      exact ⟨_, gaps, hwoven.blank (isGap_of_blank (next?_isTextOf hnext).2), hdecided⟩
    · refine ⟨"", lead :: gaps, hwoven.token, .cons ?_ hdecided⟩
      have hnext' := next?_decided hnext
      rw [← hwoven.text]
      simpa [text] using hnext'

/-- Slashes are told apart by their context.  The source is its tokens with gaps around them.  A regular
expression is closed by the first slash on its line that no backslash escapes, and the last token before
it that is not trivia, if there is one, cannot end a value.  A division sign has such a token before it
that can, or it has no slash after it on its line that no backslash escapes. -/
theorem lex_slashes {source : String} {tokens : List Token} (h : lex source = .ok tokens) :
    ∃ (lead : String) (gaps : List String), gaps.length = tokens.length ∧
      (∀ gap ∈ lead :: gaps, IsGap gap) ∧ source = lead ++ woven tokens gaps ∧
      ∀ i (hi : i < tokens.length),
        (tokens[i].kind = .regex →
          IsRegex tokens[i].text.toList ∧
            ∀ t ∈ lastSolid (tokens.take i), t.kind.canEndValue = false) ∧
        (tokens[i].kind = .slash →
          (∃ t ∈ lastSolid (tokens.take i), t.kind.canEndValue = true) ∨
            ¬ HasOpenSlash (restOfLine (textAfter tokens gaps i).toList)) := by
  obtain ⟨lead, gaps, hwoven, hdecided⟩ := lexFrom_decided tokens h
  refine ⟨lead, gaps, hwoven.length, hwoven.allGaps, String.toList_inj.mp hwoven.text, ?_⟩
  intro i hi
  have hi' := hdecided i hi
  rw [endsValue_eq] at hi'
  constructor
  · intro hkind
    obtain ⟨hvalue, hregex⟩ := hi'.regex hkind
    refine ⟨hregex, fun t ht => ?_⟩
    rw [ht] at hvalue
    exact hvalue
  · intro hkind
    rcases hi'.slash hkind with hvalue | hopen
    · cases hlast : lastSolid (tokens.take i) with
      | none => simp [hlast] at hvalue
      | some t => exact .inl ⟨t, rfl, by simpa [hlast] using hvalue⟩
    · exact .inr hopen

/-- A division after a comment, a regular expression with an escaped slash in it, and a division sign
that nothing closes. -/
theorem lex_slashes_of_lines :
    ∃ tokens lead gaps, lex "$a # /\n/ 3 =~ /b\\/c/\n( / 4" = .ok tokens ∧
      tokens.map (fun t => (t.kind, t.text)) =
        [(.dollarVar, "$a"), (.comment, "# /"), (.newline, "\n"), (.slash, "/"), (.number, "3"),
         (.isMatch, "=~"), (.regex, "/b\\/c/"), (.newline, "\n"), (.leftParen, "("), (.slash, "/"),
         (.number, "4")] ∧
      "$a # /\n/ 3 =~ /b\\/c/\n( / 4" = lead ++ woven tokens gaps ∧
      ∀ i (hi : i < tokens.length),
        (tokens[i].kind = .regex →
          IsRegex tokens[i].text.toList ∧
            ∀ t ∈ lastSolid (tokens.take i), t.kind.canEndValue = false) ∧
        (tokens[i].kind = .slash →
          (∃ t ∈ lastSolid (tokens.take i), t.kind.canEndValue = true) ∨
            ¬ HasOpenSlash (restOfLine (textAfter tokens gaps i).toList)) := by
  have hok : (lex "$a # /\n/ 3 =~ /b\\/c/\n( / 4").toOption.map
      (List.map fun t => (t.kind, t.text)) =
        some [(.dollarVar, "$a"), (.comment, "# /"), (.newline, "\n"), (.slash, "/"), (.number, "3"),
          (.isMatch, "=~"), (.regex, "/b\\/c/"), (.newline, "\n"), (.leftParen, "("), (.slash, "/"),
          (.number, "4")] := by
    decide +kernel
  rcases hlex : lex "$a # /\n/ 3 =~ /b\\/c/\n( / 4" with e | tokens
  · rw [hlex] at hok
    cases hok
  · rw [hlex] at hok
    obtain ⟨lead, gaps, -, -, hsource, hslashes⟩ := lex_slashes hlex
    exact ⟨tokens, lead, gaps, rfl, Option.some.inj hok, hsource, hslashes⟩

end TidyManifest.Token
