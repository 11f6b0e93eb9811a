import TidyManifest.Layout.Render

/-!
# Texts that move to the right

A text is indented by putting blanks in front of each of its lines that is not empty, the first line
apart (`indented`).  A text that is put together from pieces is indented piece by piece, if it is
known of each piece whether a line starts there.  `Moves a b f` says this of a piece that is written
for a depth: it starts on a fresh line if `a`, what follows it does if `b`, and writing it for more
levels indents it.

Where the width of a level is zero, nothing is indented, and it does not matter whether a line
starts.
-/

namespace TidyManifest.Layout

/-- Blanks in front of a line, unless it is empty. -/
def indentLine (n : Nat) (line : List Char) : List Char :=
  if line.isEmpty then [] else List.replicate n ' ' ++ line

/-- A text with blanks at the start of every line after the first that is not empty. -/
def indented (n : Nat) (text : String) : String :=
  match text.toList.splitOn '\n' with
  | [] => ""
  | first :: rest => String.ofList (first ++ rest.flatMap fun line => '\n' :: indentLine n line)

/-- Characters with blanks in front of every line that is not empty, where `fresh` says whether the
first one starts a line. -/
def shift (n : Nat) : Bool → List Char → List Char
  | _, [] => []
  | fresh, c :: rest =>
    if c = '\n' then '\n' :: shift n true rest
    else (if fresh then List.replicate n ' ' else []) ++ c :: shift n false rest

/-- Whether a line starts after characters. -/
def endsLine (fresh : Bool) : List Char → Bool
  | [] => fresh
  | c :: rest => endsLine (decide (c = '\n')) rest

section

variable {n : Nat} {fresh : Bool} {u w : List Char}

/-- A text is moved part by part; the second part has to know whether it starts a line. -/
theorem shift_append (n : Nat) (fresh : Bool) (u w : List Char) :
    shift n fresh (u ++ w) = shift n fresh u ++ shift n (endsLine fresh u) w := by
  induction u generalizing fresh with
  | nil => rfl
  | cons c u ih =>
    by_cases hc : c = '\n'
    · simp [shift, endsLine, hc, ih]
    · simp [shift, endsLine, hc, ih]

/-- Whether a text ends a line is found part by part. -/
theorem endsLine_append (fresh : Bool) (u w : List Char) :
    endsLine fresh (u ++ w) = endsLine (endsLine fresh u) w := by
  induction u generalizing fresh with
  | nil => rfl
  | cons c u ih => exact ih (decide (c = '\n'))

/-- Moving by nothing changes nothing. -/
theorem shift_zero (fresh : Bool) (w : List Char) : shift 0 fresh w = w := by
  induction w generalizing fresh with
  | nil => rfl
  | cons c w ih => by_cases hc : c = '\n' <;> simp [shift, hc, ih]

/-- A piece of one line stays as it is. -/
theorem shift_line (n : Nat) (h : '\n' ∉ w) : shift n false w = w := by
  induction w with
  | nil => rfl
  | cons c w ih =>
    rw [List.mem_cons, not_or] at h
    simp [shift, Ne.symm h.1, ih h.2]

/-- A text on one line does not end it. -/
theorem endsLine_line (h : '\n' ∉ w) : endsLine false w = false := by
  induction w with
  | nil => rfl
  | cons c w ih =>
    rw [List.mem_cons, not_or] at h
    simp [endsLine, Ne.symm h.1, ih h.2]

/-- Moving a text adds no newlines and removes none. -/
theorem mem_shift : '\n' ∈ shift n fresh w ↔ '\n' ∈ w := by
  induction w generalizing fresh with
  | nil => rfl
  | cons c w ih =>
    by_cases hc : c = '\n'
    · simp [shift, hc]
    · cases fresh <;> simp [shift, hc, Ne.symm hc, ih]

/-- Going through a text is indenting its lines. -/
theorem shift_eq (n : Nat) (w : List Char) :
    ∃ first rest, w.splitOn '\n' = first :: rest ∧
      shift n false w = first ++ rest.flatMap (fun line => '\n' :: indentLine n line) ∧
      shift n true w =
        indentLine n first ++ rest.flatMap fun line => '\n' :: indentLine n line := by
  induction w with
  | nil => exact ⟨[], [], rfl, rfl, rfl⟩
  | cons c w ih =>
    obtain ⟨first, rest, hsplit, hfalse, htrue⟩ := ih
    by_cases hc : c = '\n'
    · refine ⟨[], first :: rest, ?_, ?_, ?_⟩
      · simp [List.splitOn, List.splitOnP_cons_eq_if_modifyHead, hc, ← hsplit]
      · simp [shift, hc, htrue]
      · simp [shift, hc, htrue, indentLine]
    · refine ⟨c :: first, rest, ?_, ?_, ?_⟩
      · rw [List.splitOn, List.splitOnP_cons_eq_if_modifyHead, ← List.splitOn, hsplit]
        simp [hc]
      · simp [shift, hc, hfalse]
      · simp [shift, hc, hfalse, indentLine]

/-- The characters of an indented text are those of the text, moved. -/
theorem toList_indented (n : Nat) (text : String) :
    (indented n text).toList = shift n false text.toList := by
  obtain ⟨first, rest, hsplit, hshift, -⟩ := shift_eq n text.toList
  rw [indented, hsplit, hshift, String.toList_ofList]

end

/-- A piece of a text, for every depth: more levels indent it. -/
structure Moves (o : Options) (fresh ends : Bool) (f : Nat → String) : Prop where
  shifts : ∀ d k, (f (d + k)).toList = shift (k * o.indentWidth) fresh (f d).toList
  ends : 0 < o.indentWidth → ∀ d, endsLine fresh (f d).toList = ends

/-- A text starts with a character other than a newline. -/
def Inked (text : String) : Prop :=
  ∃ c rest, text.toList = c :: rest ∧ c ≠ '\n'

/-- A text does not start with a newline. -/
def Opens (text : String) : Prop :=
  text = "" ∨ Inked text

section

variable {o : Options} {a b c : Bool} {f g : Nat → String} {text more : String}

/-- Texts that move, one after the other, move together. -/
theorem Moves.append (hf : Moves o a b f) (hg : Moves o b c g) :
    Moves o a c fun d => f d ++ g d := by
  rcases Nat.eq_zero_or_pos o.indentWidth with hzero | hpos
  · refine ⟨fun d k => ?_, fun hpos => absurd hzero (Nat.ne_of_gt hpos)⟩
    have hf := hf.shifts d k
    have hg := hg.shifts d k
    rw [hzero, Nat.mul_zero, shift_zero] at hf hg ⊢
    rw [String.toList_append, String.toList_append, hf, hg]
  · refine ⟨fun d k => ?_, fun _ d => ?_⟩
    · rw [String.toList_append, String.toList_append, shift_append, hf.ends hpos, hf.shifts,
        hg.shifts]
    · rw [String.toList_append, endsLine_append, hf.ends hpos, hg.ends hpos]

theorem moves_empty (o : Options) (a : Bool) : Moves o a a fun _ => "" :=
  ⟨fun _ _ => rfl, fun _ _ => rfl⟩

/-- A text of one line. -/
theorem moves_line (h : '\n' ∉ text.toList) : Moves o false false fun _ => text :=
  ⟨fun _ _ => (shift_line _ h).symm, fun _ _ => endsLine_line h⟩

theorem moves_newline (o : Options) (a : Bool) : Moves o a true fun _ => "\n" :=
  ⟨fun _ _ => rfl, fun _ _ => rfl⟩

/-- A piece that is written for a deeper level. -/
theorem Moves.deeper (h : Moves o a b f) (n : Nat) : Moves o a b fun d => f (d + n) where
  shifts d k := by rw [Nat.add_right_comm, h.shifts]
  ends hpos d := h.ends hpos (d + n)

/-- A text that moves takes more than one line at every depth or at none. -/
theorem Moves.hasLineBreak_eq (h : Moves o a b f) (d : Nat) :
    hasLineBreak (f d) = hasLineBreak (f 0) := by
  have hshift := h.shifts 0 d
  rw [Nat.zero_add] at hshift
  rw [hasLineBreak, hasLineBreak, hshift, Bool.eq_iff_iff, List.contains_iff_mem,
    List.contains_iff_mem, mem_shift]

/-- Texts that move can be joined. -/
theorem moves_join {ι : Type} {write : ι → Nat → String} {ids : List ι}
    (h : ∀ id ∈ ids, Moves o a a (write id)) :
    Moves o a a fun d => String.join (ids.map fun id => write id d) := by
  induction ids with
  | nil => exact moves_empty o a
  | cons id ids ih =>
    obtain ⟨hid, hids⟩ := List.forall_mem_cons.mp h
    simp only [List.map_cons, String.join_cons]
    exact hid.append (ih hids)

/-- Texts that move can be joined with a separator that moves. -/
theorem moves_intercalate {ι : Type} {write : ι → Nat → String} {ids : List ι}
    {separator : Nat → String} (h : ∀ id ∈ ids, Moves o false false (write id))
    (hseparator : Moves o false false separator) :
    Moves o false false fun d => (separator d).intercalate (ids.map fun id => write id d) := by
  induction ids with
  | nil => exact moves_empty o false
  | cons id ids ih =>
    obtain ⟨hid, hids⟩ := List.forall_mem_cons.mp h
    cases ids with
    | nil =>
      simp only [List.map_cons, List.map_nil, String.intercalate_singleton]
      exact hid
    | cons id' ids =>
      simp only [List.map_cons, String.intercalate_cons_cons] at ih ⊢
      exact (hid.append hseparator).append (ih hids)

/-- A text that starts with ink does so whatever follows it. -/
theorem Inked.append (h : Inked text) (more : String) : Inked (text ++ more) := by
  obtain ⟨c, rest, htext, hc⟩ := h
  exact ⟨c, rest ++ more.toList, by simp [htext], hc⟩

/-- A text that is empty or starts with ink can stand in front of one that starts with ink. -/
theorem Opens.inked (h : Opens text) (hmore : Inked more) : Inked (text ++ more) := by
  rcases h with rfl | h
  · simpa using hmore
  · exact h.append more

/-- Two texts that are empty or start with ink are so together. -/
theorem Opens.append (h : Opens text) (hmore : Opens more) : Opens (text ++ more) := by
  rcases h with rfl | h
  · simpa using hmore
  · exact .inr (h.append more)

/-- A text on one line is empty or starts with ink. -/
theorem opens_of_line (h : '\n' ∉ text.toList) : Opens text := by
  cases htext : text.toList with
  | nil => exact .inl (String.toList_eq_nil_iff.mp htext)
  | cons c rest =>
    rw [htext, List.mem_cons, not_or] at h
    exact .inr ⟨c, rest, htext, Ne.symm h.1⟩

/-- The blanks of a margin are moved by adding blanks in front of them. -/
theorem shift_blanks (n m : Nat) :
    shift n true (List.replicate (m + 1) ' ') = List.replicate (n + (m + 1)) ' ' ∧
      endsLine true (List.replicate (m + 1) ' ') = false := by
  have hline : '\n' ∉ List.replicate m ' ' := fun h => by cases List.eq_of_mem_replicate h
  have hsum : List.replicate (n + (m + 1)) ' ' =
      List.replicate n ' ' ++ ' ' :: List.replicate m ' ' := by
    rw [← List.replicate_succ, List.replicate_append_replicate]
  rw [hsum, List.replicate_succ]
  exact ⟨by simp [shift, shift_line n hline], endsLine_line hline⟩

/-- A margin that is not empty, unless all margins are. -/
theorem moves_margin (o : Options) (n : Nat) :
    Moves o true false fun d => margin o (d + (n + 1)) := by
  rcases Nat.eq_zero_or_pos o.indentWidth with hzero | hpos
  · exact ⟨fun d k => by simp [margin, hzero, shift], fun h => absurd hzero (Nat.ne_of_gt h)⟩
  · have hwidth (d : Nat) : ∃ m, (d + (n + 1)) * o.indentWidth = m + 1 :=
      Nat.exists_eq_succ_of_ne_zero (Nat.ne_of_gt (Nat.mul_pos (Nat.succ_pos _) hpos))
    refine ⟨fun d k => ?_, fun _ d => ?_⟩
    · obtain ⟨m, hm⟩ := hwidth d
      have hsum : (d + k + (n + 1)) * o.indentWidth = k * o.indentWidth + (m + 1) := by
        rw [← hm, ← Nat.add_mul]
        congr 1
        omega
      rw [margin, margin, String.toList_ofList, String.toList_ofList, hsum, hm,
        (shift_blanks _ m).1]
    · obtain ⟨m, hm⟩ := hwidth d
      rw [margin, String.toList_ofList, hm]
      exact (shift_blanks 0 m).2

/-- A margin in front of a piece that starts with a character other than a newline. -/
theorem Moves.margin (h : Moves o false b f) (hinked : ∀ d, Inked (f d)) :
    Moves o true b fun d => margin o d ++ f d := by
  have hfresh (n d : Nat) : shift n true (f d).toList = List.replicate n ' ' ++
      shift n false (f d).toList ∧ endsLine true (f d).toList = endsLine false (f d).toList := by
    obtain ⟨c, rest, htext, hc⟩ := hinked d
    rw [htext]
    exact ⟨by simp [shift, hc], rfl⟩
  have hblanks (n m d : Nat) : shift n true (List.replicate m ' ' ++ (f d).toList) =
      List.replicate (n + m) ' ' ++ shift n false (f d).toList ∧
        endsLine true (List.replicate m ' ' ++ (f d).toList) = endsLine false (f d).toList := by
    cases m with
    | zero => simpa using hfresh n d
    | succ m =>
      rw [shift_append, endsLine_append, (shift_blanks n m).1, (shift_blanks n m).2]
      exact ⟨rfl, rfl⟩
  refine ⟨fun d k => ?_, fun hpos d => ?_⟩
  · rw [String.toList_append, String.toList_append, Layout.margin, Layout.margin,
      String.toList_ofList, String.toList_ofList, (hblanks _ _ d).1, h.shifts, Nat.add_mul,
      Nat.add_comm (d * o.indentWidth)]
  · rw [String.toList_append, Layout.margin, String.toList_ofList, (hblanks 0 _ d).2, h.ends hpos]

end

end TidyManifest.Layout
