import TidyManifest.Proofs.Lexing.Slashes

/-!
# Tokens by themselves

The text of a token, read as a source of its own, is that one token again (`lex_text`).  So where a
token ends and what kind it has does not depend on what stands around it.  The decision between a
regular expression and a division sign does, and it comes out the same without the surroundings: the
slash that closes a regular expression belongs to its text, and a division sign has nothing after it
that could close one.

The argument cuts an input behind its first token.  No rule is lost by that, because the longest
match ends before the cut (`recognise_cut`), and neither is the end of a comment or of a regular
expression, because they are found from left to right (`next?_take`).
-/

namespace TidyManifest.Token

section

variable {w rest input : List Char} {k : Kind} {n m : Nat} {b : Bool}

/-- What stops a text does so without what follows. -/
theorem Stops.of_append (more : List Char) (h : Stops w (rest ++ more)) : Stops w rest :=
  fun e he v x hv hx => h e he v (x ++ more) hv (by rw [hx, List.append_assoc])

/-- What is recognised at the start of an input is recognised also if the input is cut off after
it. -/
theorem recognise_cut (h : recognise input = some (k, n)) (hm : n ≤ m) :
    recognise (input.take m) = some (k, n) := by
  obtain ⟨j, rfl⟩ := Nat.exists_eq_add_of_le hm
  have hstops : Stops (input.take n) ((input.drop n).take j) := by
    refine .of_append ((input.drop n).drop j) ?_
    rw [List.take_append_drop]
    exact stops_of_recognise h
  rw [List.take_add, recognise_append hstops, recognise_take h]

/-- Where the rules alone decide, they decide also if the input is cut off behind the token. -/
theorem next?_take_of_rule (h : next? b input = some (k, n)) (hk : k ∉ openEnded) :
    next? false (input.take n) = some (k, n) := by
  obtain ⟨k', hrecognised, hnext⟩ := next?_eq_some h hk
  exact hnext false _ (recognise_take hrecognised) (by rw [List.take_take, Nat.min_self])

/-- A division sign has nothing after it that could close a regular expression. -/
theorem next?_take_slash (h : recognise input = some (.slash, n)) :
    next? false (input.take n) = some (.slash, n) := by
  simp [next?, recognise_take h, regexEnd]

/-- The lexer takes the same token if the input is cut off behind it. -/
theorem next?_take (h : next? b input = some (k, n)) :
    next? false (input.take n) = some (k, n) := by
  have hrule := next?_take_of_rule h
  have hcut (m j : Nat) : (input.take (m + j)).drop m = (input.drop m).take j := by
    rw [List.drop_take, Nat.add_sub_cancel_left]
  unfold next? at h
  split at h
  · rename_i m hrecognised
    obtain ⟨j, hj, heq⟩ := Option.map_eq_some_iff.mp h
    cases heq
    simp only [next?, recognise_cut hrecognised (Nat.le_add_right m j), hcut,
      (commentEnd_take hj).2, Option.map_some]
  · rename_i m hrecognised
    split at h
    · cases h
      exact next?_take_slash hrecognised
    · split at h
      · rename_i j hj
        cases h
        simp only [next?, recognise_cut hrecognised (Nat.le_add_right m j), hcut,
          (regexEnd_take hj).2, Bool.false_eq_true, if_false]
      · cases h
        exact next?_take_slash hrecognised
  · rename_i hrecognised
    cases h
    simp only [next?, recognise_take hrecognised, List.take_take, Nat.min_self]
  · rename_i hcomment hslash _
    refine hrule fun hk => ?_
    simp only [openEnded, List.mem_cons, List.not_mem_nil, or_false] at hk
    rcases hk with rfl | rfl | rfl
    · exact hslash n h
    · exact recognise_ne_regex h rfl
    · exact hcomment n h

/-- An input that is one token. -/
theorem lexFrom_single {source : String} {line : Nat} (hne : input ≠ [])
    (h : next? b input = some (k, input.length)) (hk : k ≠ .blank) :
    lexFrom source line b input = .ok [⟨k, String.ofList input, line⟩] := by
  cases input with
  | nil => exact absurd rfl hne
  | cons c rest =>
    have hrest : rest.drop ((c :: rest).length - 1) = [] := by simp
    rw [lexFrom, h]
    simp only [hrest, lexFrom, List.take_length]
    simp [hk]

end

/-- The text of a token, read by itself, is that token, on the first line. -/
theorem lex_text {source : String} {tokens : List Token} (h : lex source = .ok tokens) {t : Token}
    (ht : t ∈ tokens) : lex t.text = .ok [{ t with line := 1 }] := by
  obtain ⟨hblank, afterValue, input, n, hnext, htext⟩ := lex_next h t ht
  have hspelled : t.Spelled := (lex_spelled h t ht).1
  have hlength : t.text.toList.length = n := by
    rw [htext, List.length_take, Nat.min_eq_left (next?_isTextOf hnext).1]
  have hown : next? false t.text.toList = some (t.kind, t.text.toList.length) := by
    rw [hlength, htext]
    exact next?_take hnext
  rw [lex, lexFrom_single hspelled.text_ne_nil hown hblank, String.ofList_toList]

/-- A keyword, both kinds of slash, a quoted text with an escape, a comment over two lines and a
line end of two characters. -/
theorem lex_text_of_lines :
    ∃ tokens, lex "if $a / 2 =~ /b\\/c/ /* d\ne */\r\n'f\\'g'" = .ok tokens ∧
      tokens.map (fun t => (t.kind, t.text, t.line)) =
        [(.kwIf, "if", 1), (.dollarVar, "$a", 1), (.slash, "/", 1), (.number, "2", 1),
         (.isMatch, "=~", 1), (.regex, "/b\\/c/", 1), (.blockComment, "/* d\ne */", 1),
         (.newline, "\r\n", 2), (.singleQuoted, "'f\\'g'", 3)] ∧
      ∀ t ∈ tokens, lex t.text = .ok [{ t with line := 1 }] := by
  have hok : (lex "if $a / 2 =~ /b\\/c/ /* d\ne */\r\n'f\\'g'").toOption.map
      (List.map fun t => (t.kind, t.text, t.line)) =
        some [(.kwIf, "if", 1), (.dollarVar, "$a", 1), (.slash, "/", 1), (.number, "2", 1),
          (.isMatch, "=~", 1), (.regex, "/b\\/c/", 1), (.blockComment, "/* d\ne */", 1),
          (.newline, "\r\n", 2), (.singleQuoted, "'f\\'g'", 3)] := by
    decide +kernel
  rcases hlex : lex "if $a / 2 =~ /b\\/c/ /* d\ne */\r\n'f\\'g'" with e | tokens
  · rw [hlex] at hok
    cases hok
  · rw [hlex] at hok
    exact ⟨tokens, rfl, Option.some.inj hok, fun t ht => lex_text hlex ht⟩

end TidyManifest.Token
