import TidyManifest.Proofs.Blame.Parse

/-!
# Newlines that are blamed

Nearly every step of the grammar passes the newlines in front of it before it fails, and an error
passes them before it looks at the next token.  The steps that stay on the line, those for the index
lists of a reference and for what follows the name of a call, fail at the newline itself.  So a
newline can be blamed, but only directly behind a token after which such a step is tried.
-/

namespace TidyManifest

namespace Token

open Pattern (Matches)

/-- The newlines are the tokens with the text of one. -/
theorem Spelled.newline_iff {t : Token} (h : t.Spelled) :
    t.kind = .newline ↔ t.text ∈ ["\n", "\r\n"] := by
  constructor
  · intro hk
    have hmatch := (isTextOf_pattern (k := t.kind) (by rw [hk]; rfl) (by simp [hk])
      (by simp [hk])).mp h
    have htext : t.text.toList = "\n".toList ∨ t.text.toList = "\r\n".toList := by
      simp only [Pattern.sequence, Pattern.optional, Pattern.one, List.foldr_cons, List.foldr_nil,
        Pattern.matches_join, Pattern.matches_concat, Pattern.matches_either, Pattern.matches_empty,
        Pattern.matches_char] at hmatch
      grind
    simpa only [List.mem_cons, List.not_mem_nil, or_false, String.toList_inj] using htext
  · intro htext
    -- no other rule matches the two texts, and no other scan starts with their characters
    have hrules : ∀ e ∈ Kind.rules, (e.2.after '\n').nullable = true ∨
        ((e.2.after '\r').after '\n').nullable = true → e.1 = .newline := by decide
    have hopen : t.kind ∉ [Kind.regex, .blockComment] := by
      intro hk
      unfold Spelled at h
      simp only [List.mem_cons, List.not_mem_nil, or_false] at hk htext
      rcases hk with hk | hk <;> rw [hk] at h <;> obtain ⟨body, hbody, -⟩ := h <;>
        rcases htext with htext | htext <;> rw [htext] at hbody <;> cases hbody
    obtain ⟨e, he, hkind, hmatch⟩ := h.matches_rule hopen
    have hnewline : e.1 = .newline := by
      refine hrules e he ?_
      simp only [List.mem_cons, List.not_mem_nil, or_false] at htext
      refine htext.imp (fun htext => ?_) fun htext => ?_
      all_goals
        rw [htext] at hmatch
        simp only [Pattern.nullable_iff, Pattern.matches_after_iff]
        exact hmatch
    rcases hkind with hkind | hkind
    · exact hkind.symm.trans hnewline
    · cases hkind.symm.trans hnewline

end Token

namespace Parse

/-- The token that a parse refuses is a newline only directly behind a closing bracket, where an index
may follow, or behind the name of a function that is called without parentheses, where its arguments
follow. -/
theorem parse_blames_newline {source : String} {tokens : List Token} {mode : SplitMode} {line : Nat}
    {text : String} (hlex : Token.lex source = .ok tokens)
    (h : parse mode tokens = .error (.unexpectedToken line text)) :
    ∃ before t rest, tokens = before ++ t :: rest ∧ t.line = line ∧ t.text = text ∧
      (t.kind = .newline ↔ text ∈ ["\n", "\r\n"]) ∧
      (t.kind = .newline → ∃ t', before.getLast? = some t' ∧
        (t'.kind = .rightBracket ∨ t'.kind = .name ∧ t'.text ∈ Grammar.bareFunctions)) := by
  have htraced : Traced mode (levels tokens) Tree.root none tokens (.start tokens) _ :=
    descent_traced mode (levels tokens) (.of_lt Nat.one_pos)
      (by simp only [levels, State.ahead, State.start, Cursor.ofList]; omega) (.whole rfl)
  unfold parse at h
  generalize (descent mode (levels tokens)).statements Tree.root none (.start tokens) = r
    at h htraced
  cases htraced with
  | ok => cases h
  | quiet hquiet =>
    cases h
    exact absurd rfl (hquiet line text)
  | @refused t rest _ _ _ _ hrefused hblames hrest hstart hdone hexcused =>
    have herror := hblames.blame_eq.symm.trans (Except.error.inj h)
    obtain ⟨hline, htext⟩ := ParseError.unexpectedToken.inj herror
    obtain ⟨before, hbefore⟩ := hrest
    have hmem : t ∈ tokens := by simp [← hbefore]
    refine ⟨before, t, rest, hbefore.symm, hline, htext, ?_, fun hnewline => ?_⟩
    · rw [← htext]
      exact (Token.lex_spelled hlex t hmem).1.newline_iff
    · obtain ⟨t', ⟨earlier, hearlier⟩, hholds⟩ := hexcused hnewline
      have heq : before = earlier ++ [t'] := by
        refine List.append_cancel_right (hbefore.trans ?_)
        rw [← hearlier, List.append_assoc, List.singleton_append]
      exact ⟨t', by rw [heq, List.getLast?_concat], hholds⟩

/-- An array that ends behind an index is refused at the end of its line. -/
theorem parse_blames_newline_of_index :
    let source := "$x = [$a[1]\r\n"
    ∃ tokens, Token.lex source = .ok tokens ∧
      parse .splice tokens = .error (.unexpectedToken 1 "\r\n") ∧
      ∃ before t rest, tokens = before ++ t :: rest ∧ t.line = 1 ∧ t.text = "\r\n" ∧
        (t.kind = .newline ↔ "\r\n" ∈ ["\n", "\r\n"]) ∧
        (t.kind = .newline → ∃ t', before.getLast? = some t' ∧
          (t'.kind = .rightBracket ∨ t'.kind = .name ∧ t'.text ∈ Grammar.bareFunctions)) := by
  intro source
  let tokens : List Token :=
    [⟨.dollarVar, "$x", 1⟩, ⟨.equals, "=", 1⟩, ⟨.leftBracket, "[", 1⟩, ⟨.dollarVar, "$a", 1⟩,
     ⟨.leftBracket, "[", 1⟩, ⟨.number, "1", 1⟩, ⟨.rightBracket, "]", 1⟩, ⟨.newline, "\r\n", 1⟩]
  have hlex : Token.lex source = .ok tokens := ok_of_toOption (by decide +kernel)
  have hparse : parse .splice tokens = .error (.unexpectedToken 1 "\r\n") :=
    error_of_refusal? (by decide +kernel)
  exact ⟨tokens, hlex, hparse, parse_blames_newline hlex hparse⟩

/-- A newline can be blamed: the one behind a function without arguments, at the end of a source. -/
theorem newline_blamed :
    ∃ tokens, Token.lex "notice\n" = .ok tokens ∧
      ∀ mode, parse mode tokens = .error (.unexpectedToken 1 "\n") := by
  have hlex : Token.lex "notice\n" = .ok [⟨.name, "notice", 1⟩, ⟨.newline, "\n", 1⟩] :=
    ok_of_toOption (by decide +kernel)
  refine ⟨_, hlex, fun mode => ?_⟩
  cases mode <;> exact error_of_refusal? (by decide +kernel)

end Parse

end TidyManifest
