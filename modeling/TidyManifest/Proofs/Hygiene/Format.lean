import TidyManifest.Proofs.Conservation.Manifest
import TidyManifest.Proofs.Hygiene.Layout
import TidyManifest.Proofs.Tree.Parsed

/-!
# Formatted sources have clean lines

If no token of a source goes over several lines, its canonical text has clean lines, whatever the
statements are and however they are nested (`format_clean`).
-/

namespace TidyManifest

open Layout

namespace Hygiene

variable {o : Options}

/-- No comment is set off by blank lines. -/
theorem isComment_of_outerSpacing {p : Phrase} (h : p.outerSpacing = true) :
    p.category.isComment = false := by
  unfold Phrase.outerSpacing at h
  split at h
  · rename_i hchain
    rw [eq_of_beq hchain]
    rfl
  · revert h
    generalize p.category = category
    cases category <;> decide

/-- A placed phrase that is set off by blank lines is no comment. -/
theorem setOff_placed (xs : List Placed) : SetOff Placed.view xs := by
  intro x _ houter
  rw [View.isComment, view_category]
  exact isComment_of_outerSpacing houter

/-- The text of a phrase has no blanks at the ends of lines, and ends as its category says. -/
theorem leads_text {x : Placed} (h : x.phrase.Filled OneLine) (depth : Nat) :
    Leads .any (x.text o depth) (after Placed.view x) := by
  obtain ⟨inChain, level, p⟩ := x
  induction p using Phrase.induct generalizing inChain level depth with
  | step p ih =>
    have hcategory : Placed.view.category ∘ Placed.below ⟨inChain, level, p⟩ = Phrase.category :=
      funext fun q => view_category _
    have hform := h.filled_form
    rw [← hcategory, ← Form.map_map] at hform
    rw [Placed.text_eq]
    refine leads_formText hform (fun y hy depth => ?_) (setOff_placed _) (innerSpacing_eq_false _)
      depth
    simp only [Placed.view, Form.children_map, List.mem_map] at hy
    obtain ⟨q, hq, rfl⟩ := hy
    exact ih q hq depth _ _ (h.child hq)

/-- The text of statements is empty, or a text that can be written anywhere with a newline at its
end. -/
theorem manifestText_eq {ps : List Phrase} (h : ∀ p ∈ ps, p.Filled OneLine) :
    manifestText o ps = "" ∨ ∃ w, manifestText o ps = w ++ "\n" ∧ Leads .any w .solid := by
  cases ps with
  | nil => exact .inl rfl
  | cons p ps =>
    let first : Placed := ⟨false, 0, p⟩
    let rest : List Placed := ps.map (⟨false, 0, ·⟩)
    have hflows : Flows Placed.view (fun x depth => x.text o depth) (first :: rest) := by
      intro x hx depth
      obtain ⟨q, hq, rfl⟩ : ∃ q ∈ p :: ps, (⟨false, 0, q⟩ : Placed) = x := List.mem_map.mp hx
      exact leads_text (h q hq) depth
    obtain ⟨w, hw, hleads⟩ := leads_statementLines (o := o) hflows (setOff_placed _)
      (innerSpacing_eq_false first.phrase.category)
    rw [statementLines_placed] at hw
    have htext : manifestText o (p :: ps) = if w.isEmpty then "" else w ++ "\n" := by
      have hbody : trimNewlines (phraseLines o ((p :: ps).map (⟨false, 0, ·⟩))) = w := by
        rw [← hleads.trimNewlines_eq, ← hw]
        rfl
      rw [manifestText, hbody]
    rw [htext]
    split
    · exact .inl rfl
    · exact .inr ⟨w, rfl, hleads⟩

/-- The text of a manifest consists of clean lines. -/
theorem clean_manifestText {ps : List Phrase} (h : ∀ p ∈ ps, p.Filled OneLine) :
    ∃ lines, (manifestText o ps).toList = lines.flatMap (· ++ ['\n']) ∧ Text.Clean lines := by
  rcases manifestText_eq (o := o) h with hempty | ⟨w, hw, hleads⟩
  · rw [hempty]
    have hrun : (Place.margin .nothing true).run [] = some (.margin .nothing true) := rfl
    exact clean_of_run hrun (by decide)
  · rw [hw]
    exact hleads.clean

end Hygiene

open Hygiene

/-- The canonical text of a source without tokens that go over several lines has clean lines.  So it
is empty or ends in exactly one newline. -/
theorem format_clean {source out : String} {tokens : List Token} {s : Settings}
    (hlex : Token.lex source = .ok tokens)
    (hline : ∀ t ∈ tokens, t.kind ≠ .newline → '\n' ∉ t.text.toList)
    (h : Source.format source s = .ok out) :
    (out = "" ∨ ∃ w c, out.toList = w ++ [c, '\n'] ∧ c ≠ '\n') ∧
      ∃ lines, out.toList = lines.flatMap (· ++ ['\n']) ∧ Text.Clean lines := by
  obtain ⟨t, hparse, rfl⟩ : ∃ t, parse s.splitMode tokens = .ok t ∧ render t s.layout = out := by
    unfold Source.format Source.parse at h
    rw [hlex] at h
    cases hparse : parse s.splitMode tokens with
    | error e => simp [hparse, Except.map] at h
    | ok t => exact ⟨t, rfl, by simpa [hparse, Except.map] using h⟩
  obtain ⟨ps, hps, rfl⟩ := parse_eq_ok hparse
  have htokens : ∀ t ∈ tokens, OneLine t := fun t ht =>
    ⟨(Token.lex_spelled hlex t ht).1, hline t ht⟩
  have hfilled : ∀ p ∈ s.splitMode.statements ps, p.Filled OneLine := fun p hp =>
    (filled_statements hps htokens p hp).2
  have haligned : ∀ p ∈ (if s.layout.alignArrows then
      (s.splitMode.statements ps).map Phrase.aligned else s.splitMode.statements ps),
      p.Filled OneLine := by
    split
    · exact List.forall_mem_map.mpr fun p hp => Phrase.filled_aligned.mpr (hfilled p hp)
    · exact hfilled
  rw [render_ofPhrases]
  obtain ⟨lines, hlines, hclean⟩ := clean_manifestText (o := s.layout) haligned
  refine ⟨?_, lines, hlines, hclean⟩
  rcases hclean.ends_once with hnil | ⟨w, c, hends, hc⟩
  · exact .inl (String.toList_eq_nil_iff.mp (hlines.trans hnil))
  · exact .inr ⟨w, c, hlines.trans hends, hc⟩

/-- Comments that end with an opening brace, a resource with two titles and a branch, with blank
lines and white space in many places. -/
theorem format_clean_of_blank_lines :
    let source := "\n# c \x7b \n\n\nf\x7b # \x7b\n\n'a': m=>1;\n'b':\x7d\n\n\n" ++
      "if $x \x7b\n\n\x7d\nelse \x7bg(1)\n\n\x7d"
    let out := "# c \x7b\n# \x7b\nf \x7b 'a':\n  m => 1,\n\x7d\n\nf \x7b 'b': \x7d\n\n" ++
      "if $x \x7b\x7d else \x7b\n  g(1)\n\x7d\n"
    (∃ tokens, Token.lex source = .ok tokens ∧
      ∀ t ∈ tokens, t.kind ≠ .newline → '\n' ∉ t.text.toList) ∧
      Source.format source {} = .ok out ∧
      (∃ w c, out.toList = w ++ [c, '\n'] ∧ c ≠ '\n') ∧
      ∃ lines, out.toList = lines.flatMap (· ++ ['\n']) ∧ Text.Clean lines := by
  intro source out
  have hok : (Token.lex source).toOption.any (fun tokens =>
      tokens.all fun t => decide (t.kind ≠ .newline → '\n' ∉ t.text.toList)) = true := by
    decide +kernel
  have hformat : Source.format source {} = .ok out := ok_of_toOption (by decide +kernel)
  obtain ⟨tokens, hlex, hall⟩ := ok_of_any hok
  have hline : ∀ t ∈ tokens, t.kind ≠ .newline → '\n' ∉ t.text.toList := fun t ht =>
    of_decide_eq_true (List.all_eq_true.mp hall t ht)
  obtain ⟨hends, hlines⟩ := format_clean hlex hline hformat
  exact ⟨⟨tokens, hlex, hline⟩, hformat, hends.resolve_left (by decide), hlines⟩

end TidyManifest
