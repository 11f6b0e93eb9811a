import TidyManifest.Proofs.Conservation.Manifest
import TidyManifest.Proofs.Layout.Unlined
import TidyManifest.Proofs.Newlines.Reading
import TidyManifest.Proofs.Tree.Parsed

/-!
# Blank lines, spacing and line numbers do not matter

Two sources whose tokens are the same when newlines are collapsed are formatted alike: blanks
between tokens are no tokens, blank lines are runs of newlines, and lines are forgotten by
`collapse`.
-/

namespace TidyManifest

namespace Plain

/-- A manifest is read from the collapsed tokens as from the tokens. -/
theorem full_collapse (tokens : List Token) :
    full.statements .manifest none (collapse tokens) =
      collapsedAll (List.map Phrase.unlined) (full.statements .manifest none tokens) := by
  obtain ⟨n, hn⟩ : ∃ n, n = 8 * (tokens.length + (collapse tokens).length) + 7 := ⟨_, rfl⟩
  have hfull : Settled _ (full.statements .manifest none tokens) :=
    (agrees_full n).statements (by omega)
  have hcollapse : Settled _ (full.statements .manifest none (collapse tokens)) :=
    (agrees_full n).statements (by omega)
  rw [← hfull.1, ← hcollapse.1, (level_steady n).statements]

/-- The manifest of the collapsed tokens is the manifest without lines. -/
theorem manifest_collapse (tokens : List Token) :
    manifest (Parse.levels (collapse tokens)) (collapse tokens) =
      (manifest (Parse.levels tokens) tokens).map (List.map Phrase.unlined) := by
  rw [manifest_eq, manifest_eq, full_collapse]
  rcases full.statements .manifest none tokens with fault | ⟨ps, rest⟩ <;> rfl

end Plain

section

variable {source : String} {tokens : List Token}

/-- A source that is read is formatted as the tree of its statements. -/
theorem format_of_manifest (hlex : Token.lex source = .ok tokens) {ps : List Phrase}
    (h : Plain.manifest (Parse.levels tokens) tokens = .ok ps) (s : Settings) :
    Source.format source s = .ok (Layout.render (Tree.ofPhrases ps) s.layout) :=
  format_eq_render hlex (parse_of_manifest h) s

/-- A source that is not read is not formatted. -/
theorem format_of_fault (hlex : Token.lex source = .ok tokens) {f : Plain.Fault}
    (h : Plain.manifest (Parse.levels tokens) tokens = .error f) (s : Settings) :
    ∃ e, Source.format source s = .error e := by
  unfold Source.format Source.parse
  simp only [hlex]
  cases hparse : parse s.splitMode tokens with
  | error e => exact ⟨_, rfl⟩
  | ok t =>
    obtain ⟨ps, hps, -⟩ := parse_eq_ok hparse
    cases h.symm.trans hps

end

/-- Sources whose tokens agree, where lines and the texts of newlines are ignored and every run of
newlines counts as one, have the same canonical text, or none of them has one. -/
theorem format_of_collapse {source source' : String} {tokens tokens' : List Token}
    (hlex : Token.lex source = .ok tokens) (hlex' : Token.lex source' = .ok tokens')
    (h : collapse tokens = collapse tokens') (s : Settings) :
    (∃ text, Source.format source s = .ok text ∧ Source.format source' s = .ok text) ∨
      ∃ e e', Source.format source s = .error e ∧ Source.format source' s = .error e' := by
  have hmanifest := Plain.manifest_collapse tokens
  have hmanifest' := Plain.manifest_collapse tokens'
  rw [h, hmanifest'] at hmanifest
  cases hps : Plain.manifest (Parse.levels tokens) tokens with
  | error f =>
    cases hps' : Plain.manifest (Parse.levels tokens') tokens' with
    | error f' =>
      obtain ⟨e, he⟩ := format_of_fault hlex hps s
      obtain ⟨e', he'⟩ := format_of_fault hlex' hps' s
      exact .inr ⟨e, e', he, he'⟩
    | ok ps' =>
      rw [hps, hps'] at hmanifest
      cases hmanifest
  | ok ps =>
    cases hps' : Plain.manifest (Parse.levels tokens') tokens' with
    | error f' =>
      rw [hps, hps'] at hmanifest
      cases hmanifest
    | ok ps' =>
      rw [hps, hps'] at hmanifest
      have hunlined : ps.map Phrase.unlined = ps'.map Phrase.unlined :=
        (Except.ok.inj hmanifest).symm
      have htext : Layout.render (Tree.ofPhrases ps') s.layout =
          Layout.render (Tree.ofPhrases ps) s.layout := by
        rw [← Layout.render_unlined, ← Tree.unlined_ofPhrases hunlined, Layout.render_unlined]
      refine .inl ⟨_, format_of_manifest hlex hps s, ?_⟩
      rw [format_of_manifest hlex' hps' s, htext]

/-- A statement and a resource, with and without blank lines and indentation. -/
theorem format_of_collapse_blank_lines :
    let source := "$x = 1\n\n\n  f \x7b 'a':\n\n    m   => $x\n\x7d"
    let source' := "$x=1\nf\x7b'a':\nm=>$x\n\x7d"
    ∃ text, Source.format source { splitMode := .splice } = .ok text ∧
      Source.format source' { splitMode := .splice } = .ok text := by
  intro source source'
  have hlex : ((Token.lex source).toOption.map collapse).isSome = true ∧
      (Token.lex source).toOption.map collapse = (Token.lex source').toOption.map collapse := by
    decide +kernel
  have hok : (Source.format source { splitMode := .splice }).toOption.isSome = true := by
    decide +kernel
  cases hl : Token.lex source with
  | error e =>
    rw [hl] at hlex
    cases hlex.1
  | ok tokens =>
    cases hl' : Token.lex source' with
    | error e =>
      rw [hl, hl'] at hlex
      cases hlex.2
    | ok tokens' =>
      rw [hl, hl'] at hlex
      rcases format_of_collapse hl hl' (Option.some.inj hlex.2) { splitMode := .splice } with
        h | ⟨e, e', he, -⟩
      · exact h
      · rw [he] at hok
        cases hok

end TidyManifest
