import TidyManifest.Text.Basic

/-!
# Clean lines, character by character

`Clean` says of lines that none ends in white space, that a blank line is neither the first nor the
last nor next to another one, and that none follows an opening brace or precedes a closing one.

The rules look at two lines at a time, but a text is put together from pieces that start and end
anywhere on a line.  So they are checked by a scan: a `Place` holds what has to be known of the text
so far, one character leads to the next place or is refused, and pieces are scanned one after the
other (`run_append`).  A text that is scanned to the start of a line consists of clean lines
(`clean_of_run`).
-/

namespace TidyManifest

namespace Text

/-- A line that has nothing but white space on it. -/
def IsBlankLine (line : List Char) : Prop :=
  ∀ c ∈ line, isBlank c = true

instance (line : List Char) : Decidable (IsBlankLine line) :=
  List.decidableBAll _ line

/-- A line is blank if no character with ink is found in it, which can be decided. -/
theorem isBlankLine_iff {line : List Char} :
    IsBlankLine line ↔ line.find? (fun c => !isBlank c) = none := by
  simp [IsBlankLine, List.find?_eq_none]

/-- Lines without stray white space. -/
structure Clean (lines : List (List Char)) : Prop where
  single : ∀ line ∈ lines, '\n' ∉ line
  first : ∀ line ∈ lines.head?, ¬ IsBlankLine line
  last : ∀ line ∈ lines.getLast?, ¬ IsBlankLine line
  /-- no line ends in white space -/
  ends : ∀ line ∈ lines, ∀ c ∈ line.getLast?, isBlank c = false
  /-- there are never two blank lines in a row -/
  doubled : ∀ above below, [above, below] <:+: lines → ¬ (IsBlankLine above ∧ IsBlankLine below)
  /-- no blank line stands below a line that ends with an opening brace -/
  opened : ∀ above below, [above, below] <:+: lines →
    above.getLast? = some '\x7b' → ¬ IsBlankLine below
  /-- no blank line stands above a line that starts with a closing brace -/
  closed : ∀ above below, [above, below] <:+: lines →
    below.find? (fun c => !isBlank c) = some '\x7d' → ¬ IsBlankLine above

/-- A text of clean lines is empty or ends in exactly one newline. -/
theorem Clean.ends_once {lines : List (List Char)} (h : Clean lines) :
    lines.flatMap (· ++ ['\n']) = [] ∨
      ∃ w c, lines.flatMap (· ++ ['\n']) = w ++ [c, '\n'] ∧ c ≠ '\n' := by
  rcases List.eq_nil_or_concat lines with rfl | ⟨before, line, rfl⟩
  · exact .inl rfl
  · have hblank : ¬ IsBlankLine line := h.last line (by simp)
    rcases List.eq_nil_or_concat line with rfl | ⟨body, c, rfl⟩
    · exact absurd (by simp [IsBlankLine]) hblank
    · have hsingle : '\n' ∉ body ++ [c] := h.single _ (by simp)
      exact .inr ⟨before.flatMap (· ++ ['\n']) ++ body, c, by simp,
        fun hc => hsingle (by simp [hc])⟩

end Text

namespace Hygiene

open Text (isBlank IsBlankLine Clean)

/-- What was on the line before. -/
inductive Above where
  /-- there is no such line -/
  | nothing
  | blank
  /-- a line that ends with an opening brace -/
  | opened
  | plain
deriving DecidableEq

/-- A place in a text. -/
inductive Place where
  /-- nothing but white space is on the line so far, and not even that if it is fresh -/
  | margin (above : Above) (fresh : Bool)
  /-- the last character so far, on a line that is not blank -/
  | inked (last : Char)
deriving DecidableEq

namespace Place

/-- What a line that is not blank is for the next one, by its last character. -/
def aboveOf (last : Char) : Above :=
  if last = '\x7b' then .opened else .plain

/-- The place after one more character, unless that breaks a rule. -/
def step : Place → Char → Option Place
  | margin above fresh, c =>
    if c = '\n' then if fresh && above == .plain then some (margin .blank true) else none
    else if isBlank c then some (margin above false)
    else if c = '\x7d' && above == .blank then none
    else some (inked c)
  | inked last, c =>
    if c = '\n' then if isBlank last then none else some (margin (aboveOf last) true)
    else some (inked c)

/-- The place after a text, unless that breaks a rule. -/
def run : Place → List Char → Option Place
  | p, [] => some p
  | p, c :: cs => (p.step c).bind fun q => q.run cs

/-- A text is scanned part by part. -/
theorem run_append (p : Place) (u v : List Char) : p.run (u ++ v) = (p.run u).bind (·.run v) := by
  induction u generalizing p with
  | nil => rfl
  | cons c u ih =>
    simp only [List.cons_append, run]
    cases p.step c with
    | none => rfl
    | some q => exact ih q

/-- On a line that is not blank anything can stand up to its end. -/
theorem run_inked {w : List Char} (h : '\n' ∉ w) (c : Char) :
    (inked c).run w = some (inked (w.getLast?.getD c)) := by
  induction w generalizing c with
  | nil => rfl
  | cons d w ih =>
    have hd : d ≠ '\n' := fun hd => h (by simp [hd])
    rw [run, step, if_neg hd, Option.bind_some, ih fun hw => h (by simp [hw])]
    rw [List.getLast?_cons, Option.getD_some]

end Place

/-- What a line is for the next one. -/
def aboveLine (line : List Char) : Above :=
  if IsBlankLine line then .blank else if line.getLast? = some '\x7b' then .opened else .plain

/-- Lines that are clean below some line: the rules for one line, and for those after it. -/
def CleanBelow : Above → List (List Char) → Prop
  | above, [] => above ≠ .blank
  | above, line :: lines =>
    '\n' ∉ line ∧ (∀ c ∈ line.getLast?, isBlank c = false) ∧
      (IsBlankLine line → above = .plain) ∧
      (line.find? (fun c => !isBlank c) = some '\x7d' → above ≠ .blank) ∧
      CleanBelow (aboveLine line) lines

/-- A place says what the line so far is like. -/
def Place.Describes (above : Above) (line : List Char) : Place → Prop
  | .margin above' fresh => above' = above ∧ IsBlankLine line ∧ fresh = line.isEmpty
  | .inked last => line.getLast? = some last ∧ ¬ IsBlankLine line ∧
      (line.find? (fun c => !isBlank c) = some '\x7d' → above ≠ .blank)

/-- One more character on the same line. -/
theorem Place.Describes.step {above : Above} {line : List Char} {p q : Place} {c : Char}
    (h : p.Describes above line) (hstep : p.step c = some q) (hc : c ≠ '\n') :
    q.Describes above (line ++ [c]) := by
  cases p with
  | margin above' fresh =>
    obtain ⟨rfl, hblank, -⟩ := h
    simp only [Place.step, if_neg hc] at hstep
    split at hstep
    · rename_i hcblank
      cases hstep
      refine ⟨rfl, ?_, by simp⟩
      intro d hd
      rcases List.mem_append.mp hd with hd | hd
      · exact hblank d hd
      · rw [List.mem_singleton.mp hd, hcblank]
    · rename_i hcblank
      split at hstep
      · cases hstep
      · rename_i hbrace
        cases hstep
        refine ⟨by simp, fun hall => hcblank (hall c (by simp)), fun hfirst => ?_⟩
        rw [List.find?_append, Text.isBlankLine_iff.mp hblank] at hfirst
        have hclosing : c = '\x7d' := by simpa [List.find?_singleton, hcblank] using hfirst
        rintro rfl
        exact hbrace (by simp [hclosing])
  | inked last =>
    obtain ⟨hlast, hblank, hfirst⟩ := h
    simp only [Place.step, if_neg hc] at hstep
    cases hstep
    refine ⟨by simp, fun hall => hblank fun d hd => hall d (by simp [hd]), fun hfind => hfirst ?_⟩
    rw [List.find?_append] at hfind
    cases hline : line.find? (fun c => !isBlank c) with
    | none => exact absurd (Text.isBlankLine_iff.mpr hline) hblank
    | some d => rwa [hline, Option.some_or] at hfind

/-- The end of a line. -/
theorem Place.Describes.newline {above : Above} {line : List Char} {p q : Place}
    (h : p.Describes above line) (hstep : p.step '\n' = some q) :
    q.Describes (aboveLine line) [] ∧ (∀ c ∈ line.getLast?, isBlank c = false) ∧
      (IsBlankLine line → above = .plain) ∧
      (line.find? (fun c => !isBlank c) = some '\x7d' → above ≠ .blank) := by
  cases p with
  | margin above' fresh =>
    obtain ⟨rfl, hblank, rfl⟩ := h
    simp only [Place.step, if_true] at hstep
    split at hstep
    · rename_i hfresh
      simp only [Bool.and_eq_true, List.isEmpty_iff, beq_iff_eq] at hfresh
      obtain ⟨rfl, rfl⟩ := hfresh
      cases hstep
      exact ⟨⟨rfl, hblank, rfl⟩, by simp, fun _ => rfl, by simp⟩
    · cases hstep
  | inked last =>
    obtain ⟨hlast, hblank, hfirst⟩ := h
    simp only [Place.step, if_true] at hstep
    split at hstep
    · cases hstep
    · rename_i hsolid
      cases hstep
      refine ⟨⟨?_, by simp [IsBlankLine], rfl⟩, by simp [hlast, hsolid], fun h => absurd h hblank,
        hfirst⟩
      simp [aboveLine, aboveOf, hblank, hlast]

/-- A text that is scanned to a fresh line consists of clean lines. -/
theorem cleanBelow_of_run {cs : List Char} {p : Place} {above last : Above} {line : List Char}
    (hp : p.Describes above line) (hline : '\n' ∉ line)
    (hrun : p.run cs = some (.margin last true)) (hlast : last ≠ .blank) :
    ∃ lines, line ++ cs = lines.flatMap (· ++ ['\n']) ∧ CleanBelow above lines := by
  induction cs generalizing p above line with
  | nil =>
    cases hrun
    obtain ⟨rfl, -, hfresh⟩ := hp
    have : line = [] := by simpa using hfresh.symm
    exact ⟨[], by simp [this], hlast⟩
  | cons c cs ih =>
    rw [Place.run] at hrun
    obtain ⟨q, hstep, hrest⟩ := Option.bind_eq_some_iff.mp hrun
    by_cases hc : c = '\n'
    · subst hc
      obtain ⟨hq, hends, hblank, hfirst⟩ := hp.newline hstep
      obtain ⟨lines, heq, hclean⟩ := ih hq (by simp) hrest
      exact ⟨line :: lines, by simpa using heq, hline, hends, hblank, hfirst, hclean⟩
    · obtain ⟨lines, heq, hclean⟩ :=
        ih (hp.step hstep hc) (by simp [hline, Ne.symm hc]) hrest
      exact ⟨lines, by simpa using heq, hclean⟩

/-- A plain line is not blank and does not open a brace at its end. -/
theorem aboveLine_eq_plain {line : List Char} (h : aboveLine line = .plain) :
    ¬ IsBlankLine line ∧ line.getLast? ≠ some '\x7b' := by
  unfold aboveLine at h
  split at h
  · cases h
  · split at h
    · cases h
    · exact ⟨by assumption, by assumption⟩

/-- A line that counts as anything else is not blank. -/
theorem aboveLine_ne_blank {line : List Char} (h : aboveLine line ≠ .blank) : ¬ IsBlankLine line :=
  fun hblank => h (if_pos hblank)

/-- The rules are about every line and the lines after it. -/
theorem CleanBelow.of_append {u v : List (List Char)} {above : Above} {line : List Char}
    (h : CleanBelow above (u ++ line :: v)) : ∃ above, CleanBelow above (line :: v) := by
  induction u generalizing above with
  | nil => exact ⟨above, h⟩
  | cons first u ih => exact ih h.2.2.2.2

/-- What is clean line by line is clean for any two lines. -/
theorem CleanBelow.clean {lines : List (List Char)} (h : CleanBelow .nothing lines) :
    Clean lines := by
  have hline {line : List Char} (hmem : line ∈ lines) :
      '\n' ∉ line ∧ ∀ c ∈ line.getLast?, isBlank c = false := by
    obtain ⟨u, v, rfl⟩ := List.append_of_mem hmem
    obtain ⟨_, hsingle, hends, -⟩ := h.of_append
    exact ⟨hsingle, hends⟩
  have hpair {line next : List Char} (hmem : [line, next] <:+: lines) :
      (IsBlankLine next → aboveLine line = .plain) ∧
        (next.find? (fun c => !isBlank c) = some '\x7d' → aboveLine line ≠ .blank) := by
    obtain ⟨u, v, rfl⟩ := hmem
    rw [List.append_assoc] at h
    obtain ⟨_, -, -, -, -, -, -, hblank, hfirst, -⟩ := h.of_append
    exact ⟨hblank, hfirst⟩
  refine ⟨fun line hmem => (hline hmem).1, fun line hmem hblank => ?_, fun line hmem => ?_,
    fun line hmem => (hline hmem).2, fun line next hmem hblank => ?_,
    fun line next hmem hopened hblank => ?_,
    fun line next hmem hclosed => aboveLine_ne_blank ((hpair hmem).2 hclosed)⟩
  · obtain ⟨v, rfl⟩ := List.head?_eq_some_iff.mp hmem
    cases h.2.2.1 hblank
  · obtain ⟨u, rfl⟩ := List.getLast?_eq_some_iff.mp hmem
    obtain ⟨_, -, -, -, -, hlast⟩ := h.of_append
    exact aboveLine_ne_blank hlast
  · exact (aboveLine_eq_plain ((hpair hmem).1 hblank.2)).1 hblank.1
  · exact (aboveLine_eq_plain ((hpair hmem).1 hblank)).2 hopened

/-- A text that is scanned to a fresh line consists of clean lines. -/
theorem clean_of_run {cs : List Char} {last : Above}
    (hrun : (Place.margin .nothing true).run cs = some (.margin last true)) (hlast : last ≠ .blank) :
    ∃ lines, cs = lines.flatMap (· ++ ['\n']) ∧ Clean lines := by
  have hstart : (Place.margin .nothing true).Describes .nothing [] :=
    ⟨rfl, by simp [IsBlankLine], rfl⟩
  obtain ⟨lines, heq, hclean⟩ := cleanBelow_of_run hstart (by simp) hrun hlast
  exact ⟨lines, heq, hclean.clean⟩

end Hygiene

end TidyManifest
