import TidyManifest.Proofs.Lexing.Apart

/-!
# Tokens and blanks make up the source

The lexer drops blanks and nothing else.  So a source is its tokens in their order, with runs of
blanks, tabs and carriage returns in front of the first, between them and after the last; and the line
of a token counts the line feeds of everything that stands before it (`lex_lossless`).

The extent of a token comes from a rule, from the end of a comment or from the end of a regular
expression.  What matters here is only that it is never empty, so that the lexer skips no character.
-/

namespace TidyManifest

open Pattern (Matches)

namespace Token

/-- Tokens, each with a text after it. -/
def woven (tokens : List Token) (gaps : List String) : String :=
  String.join (List.zipWith (fun t gap => t.text ++ gap) tokens gaps)

/-- Tokens and gaps are woven one by one. -/
@[simp] theorem woven_cons (t : Token) (tokens : List Token) (gap : String) (gaps : List String) :
    woven (t :: tokens) (gap :: gaps) = t.text ++ gap ++ woven tokens gaps := by
  simp [woven]

/-- A text that the lexer drops. -/
def IsGap (gap : String) : Prop :=
  ∀ c ∈ gap.toList, c ∈ [' ', '\t', '\r']

/-- Two gaps in a row are a gap. -/
theorem IsGap.append {gap more : String} (h : IsGap gap) (hmore : IsGap more) : IsGap (gap ++ more) := by
  intro c hc
  rw [String.toList_append, List.mem_append] at hc
  exact hc.elim (h c) (hmore c)

/-- No token has an empty text. -/
theorem Spelled.text_ne_nil {t : Token} (h : t.Spelled) : t.text.toList ≠ [] := by
  by_cases hopen : t.kind ∈ [Kind.regex, .blockComment]
  · unfold Spelled at h
    simp only [List.mem_cons, List.not_mem_nil, or_false] at hopen
    rcases hopen with hkind | hkind <;> rw [hkind] at h <;> obtain ⟨body, hbody, -⟩ := h <;> simp [hbody]
  · have hrules : ∀ e ∈ Kind.rules, e.2.nullable = false := by decide
    obtain ⟨e, he, -, hmatch⟩ := h.matches_rule hopen
    intro hnil
    rw [hnil, ← Pattern.nullable_iff, hrules e he] at hmatch
    cases hmatch

/-- The lexer takes at least one character. -/
theorem next?_pos {afterValue : Bool} {input : List Char} {k : Kind} {n : Nat}
    (h : next? afterValue input = some (k, n)) : 0 < n := by
  have hspelled : Spelled ⟨k, String.ofList (input.take n), 0⟩ := by
    simpa [Spelled] using (next?_isTextOf h).2
  refine Nat.pos_of_ne_zero fun hzero => hspelled.text_ne_nil ?_
  simp [hzero]

/-- The text of a blank is made of blanks, tabs and carriage returns. -/
theorem isGap_of_blank {text : List Char} (h : IsTextOf text .blank) : IsGap (String.ofList text) := by
  intro c hc
  rw [String.toList_ofList] at hc
  have hmatch := (isTextOf_pattern (k := .blank) rfl (by decide) (by decide)).mp h
  have := Pattern.uses_of_mem hmatch hc
  simpa [Pattern.repeated, Pattern.uses, or_assoc] using this

/-- A text is made of tokens and gaps, where the first line has a given number. -/
structure WovenFrom (line : Nat) (tokens : List Token) (lead : String) (gaps : List String)
    (text : List Char) : Prop where
  length : gaps.length = tokens.length
  allGaps : ∀ gap ∈ lead :: gaps, IsGap gap
  text : text = (lead ++ woven tokens gaps).toList
  lines : ∀ i (hi : i < tokens.length),
    tokens[i].line = line + (lead ++ woven (tokens.take i) gaps).toList.count '\n'

section

variable {line : Nat} {tokens : List Token} {lead : String} {gaps : List String} {cs : List Char}

/-- Blanks in front of a text belong to its first gap. -/
theorem WovenFrom.blank {text : List Char} (htext : IsGap (String.ofList text))
    (h : WovenFrom (line + text.count '\n') tokens lead gaps cs) :
    WovenFrom line tokens (String.ofList text ++ lead) gaps (text ++ cs) where
  length := h.length
  allGaps := by
    obtain ⟨hlead, hgaps⟩ := List.forall_mem_cons.mp h.allGaps
    exact List.forall_mem_cons.mpr ⟨htext.append hlead, hgaps⟩
  text := by simp [h.text]
  lines i hi := by
    rw [h.lines i hi]
    simp [Nat.add_assoc]

/-- A token in front of a text, stamped with the line where it starts. -/
theorem WovenFrom.token {kind : Kind} {text : List Char}
    (h : WovenFrom (line + text.count '\n') tokens lead gaps cs) :
    WovenFrom line (⟨kind, String.ofList text, line⟩ :: tokens) "" (lead :: gaps) (text ++ cs) where
  length := by simp [h.length]
  allGaps := List.forall_mem_cons.mpr ⟨by simp [IsGap], h.allGaps⟩
  text := by simp [h.text]
  lines i hi := by
    cases i with
    | zero => simp [woven]
    | succ i =>
      rw [List.length_cons, Nat.add_lt_add_iff_right] at hi
      simp [h.lines i hi, Nat.add_assoc]

end

/-- What the lexer has cut off an input, with what it dropped, is the input. -/
theorem lexFrom_woven {source : String} {line : Nat} {afterValue : Bool} {input : List Char}
    (tokens : List Token) (h : lexFrom source line afterValue input = .ok tokens) :
    ∃ lead gaps, WovenFrom line tokens lead gaps input := by
  fun_induction lexFrom source line afterValue input generalizing tokens with
  | case1 =>
    cases h
    exact ⟨"", [], rfl, by simp [IsGap], rfl, by simp⟩
  | case2 => cases h
  | case3 => cases h
  | case4 line afterValue c rest k n hnext text more hmore ih =>
    obtain ⟨lead, gaps, hwoven⟩ := ih more hmore
    obtain ⟨m, rfl⟩ : ∃ m, n = m + 1 := ⟨n - 1, by have := next?_pos hnext; omega⟩
    have hinput : c :: rest = text ++ rest.drop m := (List.take_append_drop (m + 1) (c :: rest)).symm
    cases h
    rw [hinput]
    split
    · rename_i hblank
      obtain rfl := eq_of_beq hblank
      exact ⟨_, gaps, hwoven.blank (isGap_of_blank (next?_isTextOf hnext).2)⟩
    · exact ⟨"", lead :: gaps, hwoven.token⟩

/-- A source is its tokens with gaps around them, and each token is stamped with one more than the
number of line feeds before it. -/
theorem lex_lossless {source : String} {tokens : List Token} (h : lex source = .ok tokens) :
    ∃ (lead : String) (gaps : List String), gaps.length = tokens.length ∧
      (∀ gap ∈ lead :: gaps, ∀ c ∈ gap.toList, c ∈ [' ', '\t', '\r']) ∧
      source = lead ++ woven tokens gaps ∧
      ∀ i (hi : i < tokens.length),
        tokens[i].line = 1 + (lead ++ woven (tokens.take i) gaps).toList.count '\n' := by
  obtain ⟨lead, gaps, hwoven⟩ := lexFrom_woven tokens h
  exact ⟨lead, gaps, hwoven.length, hwoven.allGaps, String.toList_inj.mp hwoven.text, hwoven.lines⟩

/-- A comment and a quoted text over two lines each, and a regular expression with a blank in it. -/
theorem lex_lossless_of_lines :
    ∃ tokens, lex "\t/* x\ny */ 'm\nl'\r\n$a =~ /b c/ " = .ok tokens ∧
      tokens.map (fun t => (t.text, t.line)) =
        [("/* x\ny */", 1), ("'m\nl'", 2), ("\r\n", 3), ("$a", 4), ("=~", 4), ("/b c/", 4)] ∧
      ∃ lead gaps, "\t/* x\ny */ 'm\nl'\r\n$a =~ /b c/ " = lead ++ woven tokens gaps ∧
        gaps.length = tokens.length ∧ ∀ i (hi : i < tokens.length),
          tokens[i].line = 1 + (lead ++ woven (tokens.take i) gaps).toList.count '\n' := by
  have hok : (lex "\t/* x\ny */ 'm\nl'\r\n$a =~ /b c/ ").toOption.map
      (List.map fun t => (t.text, t.line)) =
        some [("/* x\ny */", 1), ("'m\nl'", 2), ("\r\n", 3), ("$a", 4), ("=~", 4),
          ("/b c/", 4)] := by
    decide +kernel
  rcases hlex : lex "\t/* x\ny */ 'm\nl'\r\n$a =~ /b c/ " with e | tokens
  · rw [hlex] at hok
    cases hok
  · rw [hlex] at hok
    obtain ⟨lead, gaps, hlength, -, hsource, hlines⟩ := lex_lossless hlex
    exact ⟨tokens, rfl, Option.some.inj hok, lead, gaps, hsource, hlength, hlines⟩

end Token

end TidyManifest
