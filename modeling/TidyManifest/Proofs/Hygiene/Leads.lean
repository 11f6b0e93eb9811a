import TidyManifest.Layout.Render
import TidyManifest.Proofs.Hygiene.Scan
import TidyManifest.Proofs.Lexing.Lossless
import TidyManifest.Proofs.RoundTrip.Layout

/-!
# Pieces of clean text

The layout puts texts together from tokens, blanks, punctuation and newlines.  Which of them may
follow each other depends on four things that can be known of a place, each of them saying more than
the one before (`Standing`).  `Leads a w b` says that a text can be written wherever `a` is known,
and that `b` is known after it; then texts are put together by `Leads.append`.
-/

namespace TidyManifest

namespace Text

/-- The characters in ranges of code points. -/
def charsIn (ranges : List (Nat × Nat)) : List Char :=
  ranges.flatMap fun (first, last) => (List.range' first (last + 1 - first)).map Char.ofNat

/-- A character in a range is one of its characters. -/
theorem mem_charsIn {ranges : List (Nat × Nat)} {c : Char} (h : inRanges ranges c.toNat = true) :
    c ∈ charsIn ranges := by
  obtain ⟨⟨first, last⟩, hmem, hc⟩ := List.any_eq_true.mp h
  obtain ⟨hfirst, hlast⟩ : first ≤ c.toNat ∧ c.toNat ≤ last := by simpa using hc
  refine List.mem_flatMap.mpr ⟨_, hmem, List.mem_map.mpr ⟨c.toNat, ?_, Char.ofNat_toNat c⟩⟩
  rw [List.mem_range'_1]
  omega

end Text

namespace Token

variable {t : Token}

/-- A regular expression ends with its slash. -/
theorem regexEnd_getLast? {escaped : Bool} {body : List Char}
    (h : regexEnd escaped body = some body.length) : body.getLast? = some '/' := by
  fun_induction regexEnd escaped body with
  | case1 => cases h
  | case2 => cases h
  | case3 escaped c rest _ hslash =>
    obtain rfl : rest = [] := by simpa using h.symm
    simp_all
  | case4 escaped c rest _ _ ih =>
    obtain ⟨n, hn, hlength⟩ := Option.map_eq_some_iff.mp h
    have := ih (by simpa [hn] using hlength)
    simp [List.getLast?_cons, this]

/-- A block comment ends with its slash. -/
theorem commentEnd_getLast? {body : List Char} (h : commentEnd body = some body.length) :
    body.getLast? = some '/' := by
  fun_induction commentEnd body with
  | case1 => cases h
  | case2 rest =>
    obtain rfl : rest = [] := by simpa using h.symm
    rfl
  | case3 c rest _ ih =>
    obtain ⟨n, hn, hlength⟩ := Option.map_eq_some_iff.mp h
    have := ih (by simpa [hn] using hlength)
    simp [List.getLast?_cons, this]

/-- Kinds whose texts end with a character of their own, and may hold any others. -/
def enclosed : List Kind := [.singleQuoted, .doubleQuoted, .regex, .blockComment]

/-- Kinds whose texts may start or end with white space or a brace. -/
def loose : List Kind := [.leftBrace, .rightBrace, .newline, .comment, .blank]

/-- The text of an enclosed token is bounded by quotes or slashes. -/
theorem Spelled.enclosed_ends (h : t.Spelled) (hk : t.kind ∈ enclosed) :
    ∃ c ∈ ['\'', '"', '/'], t.text.toList.head? = some c ∧ t.text.toList.getLast? = some c := by
  have hquoted {quote : Char} (hquote : Pattern.Matches (.quotedText quote) t.text.toList) :
      t.text.toList.head? = some quote ∧ t.text.toList.getLast? = some quote := by
    obtain ⟨v, hv, hclosing⟩ := Pattern.matches_quotedText.mp hquote
    obtain ⟨u, x, rfl, -, hx⟩ := Pattern.matches_concat.mp hclosing
    obtain ⟨c, hc, rfl⟩ := Pattern.matches_char.mp hx
    rw [hv, ← List.cons_append, List.getLast?_concat, eq_of_beq hc]
    exact ⟨rfl, rfl⟩
  unfold Spelled at h
  simp only [enclosed, List.mem_cons, List.not_mem_nil, or_false] at hk
  rcases hk with hk | hk | hk | hk <;> rw [hk] at h
  · obtain ⟨p, hp, hmatch⟩ := h
    cases hp
    exact ⟨_, by simp, hquoted hmatch⟩
  · obtain ⟨p, hp, hmatch⟩ := h
    cases hp
    exact ⟨_, by simp, hquoted hmatch⟩
  · obtain ⟨body, htext, hbody⟩ := h
    have hlast := regexEnd_getLast? hbody
    exact ⟨'/', by simp, by simp [htext], by simp [htext, List.getLast?_cons, hlast]⟩
  · obtain ⟨body, htext, hbody⟩ := h
    have hlast := commentEnd_getLast? hbody
    exact ⟨'/', by simp, by simp [htext], by simp [htext, List.getLast?_cons, hlast]⟩

/-- No rule but those of loose and enclosed kinds allows white space or braces. -/
theorem rules_visible : ∀ e ∈ Kind.rules, e.1 ∉ enclosed → e.1 ∉ loose →
    ∀ c ∈ Text.charsIn Text.blankRanges ++ ['\x7b', '\x7d'], e.2.uses c = false := by
  decide +kernel

/-- The text of most tokens has neither white space nor braces. -/
theorem Spelled.visible (h : t.Spelled) (henclosed : t.kind ∉ enclosed) (hloose : t.kind ∉ loose) :
    ∀ c ∈ t.text.toList, Text.isBlank c = false ∧ c ≠ '\x7b' ∧ c ≠ '\x7d' := by
  intro c hc
  obtain ⟨e, he, hkind, hmatch⟩ := h.matches_rule fun hk => henclosed (List.mem_append_right
    [Kind.singleQuoted, .doubleQuoted] hk)
  have huses : ∀ c ∈ Text.charsIn Text.blankRanges ++ ['\x7b', '\x7d'], e.2.uses c = false := by
    rcases hkind with hkind | hkind
    · exact rules_visible e he (hkind ▸ henclosed) (hkind ▸ hloose)
    · exact rules_visible e he (hkind ▸ by decide) (hkind ▸ by decide)
  have hout : c ∉ Text.charsIn Text.blankRanges ++ ['\x7b', '\x7d'] := fun hmem => by
    cases (huses c hmem).symm.trans (Pattern.uses_of_mem hmatch hc)
  rw [List.mem_append, not_or] at hout
  refine ⟨?_, fun hbrace => hout.2 (by simp [hbrace]), fun hbrace => hout.2 (by simp [hbrace])⟩
  rw [← Bool.not_eq_true]
  exact fun hblank => hout.1 (Text.mem_charsIn hblank)

end Token

namespace Hygiene

open Text (isBlank)
open Layout (Options margin padRight trimNewlines tidyComment)

/-- What is known of a place. -/
inductive Standing where
  /-- nothing -/
  | any
  /-- there is no blank line directly above -/
  | clear
  /-- the last character is not white space -/
  | solid
  /-- the last character is neither white space nor an opening brace -/
  | shut
deriving DecidableEq

namespace Standing

/-- Whether a place is as it is known to be. -/
def holds : Standing → Place → Bool
  | any, _ => true
  | clear, .margin above _ => above != .blank
  | clear, .inked _ => true
  | solid, .margin _ _ => false
  | solid, .inked last => !isBlank last
  | shut, .margin _ _ => false
  | shut, .inked last => !isBlank last && last != '\x7b'

/-- Where `b` is known, `a` is known too.  Instances find this for any two that are compared. -/
class Under (a b : Standing) : Prop where
  mono : ∀ p : Place, b.holds p = true → a.holds p = true

instance (a : Standing) : Under a a := ⟨fun _ h => h⟩

instance (a : Standing) : Under any a := ⟨fun _ _ => rfl⟩

instance : Under solid shut where
  mono
    | .inked _, h => (Bool.and_eq_true_iff.mp h).1

instance : Under clear solid where
  mono
    | .inked _, _ => rfl

instance : Under clear shut where
  mono
    | .inked _, _ => rfl

end Standing

open Standing

/-- A text can be written at every place that is known to be `a`, and leads to one known to be
`b`. -/
def Leads (a : Standing) (w : String) (b : Standing) : Prop :=
  ∀ p, a.holds p = true → ∃ q, b.holds q = true ∧ p.run w.toList = some q

section

variable {a b c d : Standing} {u w : String}

/-- Texts lead on from one to the next if the second one takes what the first one leaves. -/
theorem Leads.append [hunder : Under c b] (hu : Leads a u b) (hw : Leads c w d) :
    Leads a (u ++ w) d := by
  intro p hp
  obtain ⟨q, hq, hrun⟩ := hu p hp
  obtain ⟨r, hr, hrun'⟩ := hw q (hunder.mono q hq)
  refine ⟨r, hr, ?_⟩
  rw [String.toList_append, Place.run_append, hrun]
  exact hrun'

/-- A text can be written where more is known, and less can be said of the place after it. -/
theorem Leads.weaken [hbefore : Under a c] [hafter : Under d b] (hw : Leads a w b) :
    Leads c w d := by
  intro p hp
  obtain ⟨q, hq, hrun⟩ := hw p (hbefore.mono p hp)
  exact ⟨q, hafter.mono q hq, hrun⟩

theorem leads_empty (a : Standing) : Leads a "" a :=
  fun p hp => ⟨p, hp, rfl⟩

/-- Texts one after the other, each of which leads back to where it can start. -/
theorem leads_join {texts : List String} (h : ∀ text ∈ texts, Leads a text a) :
    Leads a (String.join texts) a := by
  induction texts with
  | nil => exact leads_empty a
  | cons text texts ih =>
    rw [String.join_cons]
    exact (h text List.mem_cons_self).append
      (ih fun text' htext' => h text' (List.mem_cons_of_mem _ htext'))

/-- Texts with something between them. -/
theorem leads_intercalate {separator : String} {texts : List String} (hne : texts ≠ [])
    (h : ∀ text ∈ texts, Leads .any text .shut) (hseparator : Leads .shut separator .any) :
    Leads .any (separator.intercalate texts) .shut := by
  match texts with
  | [text] =>
    rw [String.intercalate_singleton]
    exact h text List.mem_cons_self
  | text :: text' :: texts =>
    rw [String.intercalate_cons_cons]
    exact ((h text List.mem_cons_self).append hseparator).append
      (leads_intercalate (List.cons_ne_nil _ _)
        (fun text'' h'' => h text'' (List.mem_cons_of_mem _ h'')) hseparator)

end

/-- Whether a character can be put on the line. -/
def Standing.takes : Standing → Char → Bool
  | any, c => !isBlank c && c != '\x7d'
  | clear, c => !isBlank c
  | solid, c => c != '\n'
  | shut, c => c != '\n'

/-- A character that a standing takes is ink. -/
theorem Standing.step_of_takes {a : Standing} {c : Char} {p : Place} (hc : a.takes c = true)
    (hp : a.holds p = true) : p.step c = some (.inked c) := by
  have hnewline : c ≠ '\n' := by
    rintro rfl
    cases a <;> cases hc
  cases p with
  | inked last => simp [Place.step, hnewline]
  | margin above fresh => cases a <;> simp_all [takes, holds, Place.step]

/-- Whether a fixed text leads from one standing to another. -/
def Standing.passes (a : Standing) (w : List Char) (b : Standing) : Bool :=
  match w with
  | [] => false
  | c :: cs => a.takes c && ((Place.inked c).run cs).any b.holds

/-- A text that passes from one standing to another leads there. -/
theorem leads (a : Standing) (w : String) (b : Standing) (h : a.passes w.toList b = true) :
    Leads a w b := by
  intro p hp
  unfold passes at h
  split at h
  · cases h
  · rename_i c cs hw
    rw [Bool.and_eq_true, Option.any_eq_true] at h
    obtain ⟨hc, q, hrun, hq⟩ := h
    refine ⟨q, hq, ?_⟩
    rw [hw, Place.run, step_of_takes hc hp]
    exact hrun

/-- A newline after ink ends the line. -/
theorem leads_newline : Leads .solid "\n" .clear := by
  intro p hp
  cases p with
  | margin above fresh => cases hp
  | inked last =>
    refine ⟨.margin (Place.aboveOf last) true, ?_, ?_⟩
    · unfold Place.aboveOf
      split <;> rfl
    · have hlast : isBlank last = false := by simpa [holds] using hp
      simp [Place.run, Place.step, hlast]

/-- A blank line can be written wherever no brace has been opened. -/
theorem leads_blankLine : Leads .shut "\n\n" .any := by
  intro p hp
  cases p with
  | margin above fresh => cases hp
  | inked last =>
    obtain ⟨hlast, hbrace⟩ : isBlank last = false ∧ last ≠ '\x7b' := by simpa [holds] using hp
    exact ⟨.margin .blank true, rfl,
      by simp [Place.run, Place.step, hlast, Place.aboveOf, hbrace]⟩

/-- Blanks at the start of a line change nothing that matters. -/
theorem leads_blanks {a : Standing} (ha : a = .any ∨ a = .clear) (n : Nat) :
    Leads a (String.ofList (List.replicate n ' ')) a := by
  have hblank : isBlank ' ' = true := by decide
  have hstep {p : Place} (hp : a.holds p = true) :
      ∃ q, a.holds q = true ∧ p.step ' ' = some q := by
    cases p with
    | margin above fresh =>
      refine ⟨.margin above false, ?_, by simp [Place.step, hblank]⟩
      rcases ha with rfl | rfl <;> exact hp
    | inked last =>
      refine ⟨.inked ' ', ?_, by simp [Place.step]⟩
      rcases ha with rfl | rfl <;> rfl
  intro p hp
  rw [String.toList_ofList]
  induction n generalizing p with
  | zero => exact ⟨p, hp, rfl⟩
  | succ n ih =>
    obtain ⟨q, hq, hstep⟩ := hstep hp
    obtain ⟨r, hr, hrun⟩ := ih q hq
    exact ⟨r, hr, by rw [List.replicate_succ, Place.run, hstep]; exact hrun⟩

theorem leads_margin (o : Options) (depth : Nat) : Leads .clear (margin o depth) .clear :=
  leads_blanks (.inr rfl) _

/-- Below a blank line too there may be a margin. -/
theorem leads_margin_any (o : Options) (depth : Nat) : Leads .any (margin o depth) .any :=
  leads_blanks (.inl rfl) _

/-- A padded text leaves the line clear for more. -/
theorem leads_padRight {w : String} (h : Leads .any w .shut) (width : Nat) :
    Leads .any (padRight width w) .clear :=
  h.append (leads_blanks (.inr rfl) _)

/-- A text on one line, by its first and its last character. -/
theorem leads_of_ends {w : String} {b : Standing} (hline : '\n' ∉ w.toList)
    (hfirst : ∃ c ∈ w.toList.head?, any.takes c = true)
    (hlast : ∀ c ∈ w.toList.getLast?, b.holds (.inked c) = true) : Leads .any w b := by
  obtain ⟨c, hhead, hc⟩ := hfirst
  obtain ⟨cs, hw⟩ := List.head?_eq_some_iff.mp hhead
  intro p hp
  rw [hw] at hline hlast ⊢
  refine ⟨.inked (cs.getLast?.getD c), hlast _ (by rw [List.getLast?_cons]; rfl), ?_⟩
  rw [Place.run, step_of_takes hc hp]
  exact Place.run_inked (fun hmem => hline (List.mem_cons_of_mem _ hmem)) c

/-- After a newline a line starts. -/
theorem Place.step_newline {p q : Place} (h : p.step '\n' = some q) :
    ∃ above, q = .margin above true := by
  cases p <;> simp only [Place.step, if_true] at h <;> split at h <;> cases h <;> exact ⟨_, rfl⟩

/-- A text that leads from anywhere to the end of a line has no newlines at its ends. -/
theorem Leads.trimNewlines_eq {w : String} (h : Leads .any w .solid) :
    trimNewlines (w ++ "\n") = w := by
  obtain ⟨q, hq, hrun⟩ := h (.margin .nothing true) rfl
  have hstarts : Token.StartsOutside ['\n'] w.toList := by
    cases hw : w.toList with
    | nil =>
      rw [hw] at hrun
      cases hrun
      cases hq
    | cons c cs =>
      refine ⟨c, cs, rfl, fun hc => ?_⟩
      rw [hw, List.mem_singleton.mp hc] at hrun
      cases hrun
  have hends : Plain.Closed w.toList := by
    obtain ⟨c, cs, hw, -⟩ := hstarts
    refine ⟨by simp [hw], fun hlast => ?_⟩
    obtain ⟨u, hu⟩ := List.getLast?_eq_some_iff.mp hlast
    rw [hu, Place.run_append] at hrun
    obtain ⟨r, -, hstep⟩ := Option.bind_eq_some_iff.mp hrun
    obtain ⟨s, hstep, hs⟩ := Option.bind_eq_some_iff.mp hstep
    obtain ⟨above, rfl⟩ := Place.step_newline hstep
    cases hs
    cases hq
  have hnewline : "\n".toList = ['\n'] := by decide
  rw [trimNewlines, String.toList_append, hnewline, Plain.trimBoth_concat hstarts hends,
    String.ofList_toList]

/-- A text that leads from anywhere to the end of a line has clean lines, with a newline after it. -/
theorem Leads.clean {w : String} (h : Leads .any w .solid) :
    ∃ lines, (w ++ "\n").toList = lines.flatMap (· ++ ['\n']) ∧ Text.Clean lines := by
  obtain ⟨p, hp, hrun⟩ := h (.margin .nothing true) rfl
  obtain ⟨q, hq, hnewline⟩ := leads_newline p hp
  obtain ⟨r, hstep, hr⟩ := Option.bind_eq_some_iff.mp hnewline
  obtain ⟨above, rfl⟩ := Place.step_newline hstep
  cases hr
  have habove : above ≠ .blank := by simpa [holds] using hq
  have hwhole : (Place.margin .nothing true).run (w ++ "\n").toList = some (.margin above true) := by
    rw [String.toList_append, Place.run_append, hrun]
    exact hnewline
  exact clean_of_run hwhole habove

/-- A token can be written anywhere, unless it is white space, a comment or a brace. -/
theorem leads_token {t : Token} (h : t.Spelled) (hline : '\n' ∉ t.text.toList)
    (hloose : t.kind ∉ Token.loose) : Leads .any t.text .shut := by
  by_cases henclosed : t.kind ∈ Token.enclosed
  · obtain ⟨c, hc, hfirst, hlast⟩ := h.enclosed_ends henclosed
    have hends : ∀ c ∈ ['\'', '"', '/'], any.takes c = true ∧ shut.holds (.inked c) = true := by
      decide
    refine leads_of_ends hline ⟨c, hfirst, (hends c hc).1⟩ fun d hd => ?_
    cases hlast.symm.trans hd
    exact (hends c hc).2
  · have hvisible := h.visible henclosed hloose
    obtain ⟨c, cs, htext⟩ := List.exists_cons_of_ne_nil h.text_ne_nil
    refine leads_of_ends hline ⟨c, by rw [htext]; rfl, ?_⟩ fun d hd => ?_
    · obtain ⟨hblank, -, hbrace⟩ := hvisible c (by simp [htext])
      simp [takes, hblank, hbrace]
    · obtain ⟨hblank, hbrace, -⟩ := hvisible d (List.mem_of_getLast? hd)
      simp [holds, hblank, hbrace]

/-- A text whose end is trimmed does not end with white space. -/
theorem getLast?_trimEnd {cs : List Char} {c : Char} (h : (Text.trimEnd cs).getLast? = some c) :
    isBlank c = false := by
  rw [Text.trimEnd, List.getLast?_reverse] at h
  have hhead := List.head?_dropWhile_not isBlank cs.reverse
  rw [h] at hhead
  simpa using hhead

/-- Trimming adds no characters. -/
theorem mem_of_mem_trimEnd {cs : List Char} {c : Char} (h : c ∈ Text.trimEnd cs) : c ∈ cs := by
  rw [Text.trimEnd, List.mem_reverse] at h
  exact List.mem_reverse.mp ((List.dropWhile_sublist _).mem h)

/-- A comment can be written anywhere. -/
theorem leads_comment {t : Token} (h : t.Spelled) (hk : t.kind = .comment) :
    Leads .any (tidyComment t.text) .solid := by
  obtain ⟨body, htext, hbody⟩ := h.comment_text hk
  simp only [tidyComment, htext]
  cases htrim : Text.trimEnd body with
  | nil => exact leads .any "#" .solid rfl
  | cons c rest =>
    -- the last character is that of the trimmed body, whatever stands in front of it
    have hafter (mark : String) (hmark : mark.toList.head? = some '#') (hline : '\n' ∉ mark.toList) :
        Leads .any (mark ++ String.ofList (c :: rest)) .solid := by
      rw [← htrim]
      refine leads_of_ends ?_ ⟨'#', ?_, by decide⟩ fun d hd => ?_
      · rw [String.toList_append, String.toList_ofList, List.mem_append, not_or]
        exact ⟨hline, fun hmem => (hbody _ (mem_of_mem_trimEnd hmem)).2 rfl⟩
      · rw [String.toList_append, List.head?_append, hmark]
        rfl
      · rw [String.toList_append, String.toList_ofList, List.getLast?_append, htrim,
          List.getLast?_cons, Option.some_or, ← List.getLast?_cons, ← htrim] at hd
        simp [holds, getLast?_trimEnd hd]
    dsimp only
    split
    · exact hafter "#" rfl (by decide)
    · exact hafter "# " rfl (by decide)

end Hygiene

end TidyManifest
