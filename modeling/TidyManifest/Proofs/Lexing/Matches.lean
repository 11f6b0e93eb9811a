import TidyManifest.Token.Rules

/-!
# The texts of a pattern

`Pattern.Matches` says which texts a pattern describes, without reading them from left to right.
Reading agrees with it: the pattern after a character matches what may follow
(`matches_after_iff`), and `Pattern.longest` is the length of the longest prefix that is matched
(`longest_eq_some`, `longest_eq_none_iff`).
-/

namespace TidyManifest.Pattern

/-- A text that a pattern describes. -/
inductive Matches : Pattern → List Char → Prop
  | empty : Matches .empty []
  | char {test : Char → Bool} {c : Char} (h : test c = true) : Matches (.char test) [c]
  | concat {p q : Pattern} {u v : List Char} (hu : Matches p u) (hv : Matches q v) :
      Matches (.concat p q) (u ++ v)
  | left {p q : Pattern} {w : List Char} (h : Matches p w) : Matches (.union p q) w
  | right {p q : Pattern} {w : List Char} (h : Matches q w) : Matches (.union p q) w
  | done {p : Pattern} : Matches (.star p) []
  | more {p : Pattern} {u v : List Char} (hu : Matches p u) (hv : Matches (.star p) v) :
      Matches (.star p) (u ++ v)

section

variable {p q : Pattern} {w : List Char} {c : Char}

@[simp] theorem matches_nothing : ¬ Matches .nothing w := nofun

@[simp] theorem matches_empty : Matches .empty w ↔ w = [] :=
  ⟨fun h => by cases h; rfl, fun h => h ▸ .empty⟩

@[simp] theorem matches_char {test : Char → Bool} :
    Matches (.char test) w ↔ ∃ c, test c = true ∧ w = [c] :=
  ⟨fun h => by cases h with | char h => exact ⟨_, h, rfl⟩, fun ⟨_, h, hw⟩ => hw ▸ .char h⟩

theorem matches_concat : Matches (.concat p q) w ↔ ∃ u v, w = u ++ v ∧ Matches p u ∧ Matches q v :=
  ⟨fun h => by cases h with | concat hu hv => exact ⟨_, _, rfl, hu, hv⟩,
    fun ⟨_, _, hw, hu, hv⟩ => hw ▸ .concat hu hv⟩

@[simp] theorem matches_union : Matches (.union p q) w ↔ Matches p w ∨ Matches q w :=
  ⟨fun h => by
    cases h with
    | left h => exact .inl h
    | right h => exact .inr h,
   fun h => h.elim .left .right⟩

/-- A text of a repeated pattern that is not empty starts with a text of the pattern that is not
empty. -/
theorem matches_star_cons : Matches (.star p) (c :: w) ↔
    ∃ u v, w = u ++ v ∧ Matches p (c :: u) ∧ Matches (.star p) v := by
  constructor
  · intro h
    generalize hp : Pattern.star p = r at h
    generalize hw : c :: w = x at h
    induction h with
    | more hu hv _ ih =>
      cases hp
      rename_i u v _
      cases u with
      | nil => exact ih rfl hw
      | cons c' u =>
        cases hw
        exact ⟨u, v, rfl, hu, hv⟩
    | done => cases hw
    | _ => cases hp
  · rintro ⟨u, v, rfl, hu, hv⟩
    exact .more hu hv

/-- Any number of characters of a class. -/
theorem matches_star_char {test : Char → Bool} :
    Matches (.star (.char test)) w ↔ ∀ c ∈ w, test c = true := by
  induction w with
  | nil => simp [Matches.done]
  | cons c w ih =>
    rw [matches_star_cons, List.forall_mem_cons, ← ih]
    constructor
    · rintro ⟨u, v, rfl, hu, hv⟩
      obtain ⟨c', hc', heq⟩ := matches_char.mp hu
      cases heq
      exact ⟨hc', hv⟩
    · rintro ⟨hc, hw⟩
      exact ⟨[], w, rfl, .char hc, hw⟩

/-- A pattern is nullable if it describes the empty text. -/
theorem nullable_iff : p.nullable = true ↔ Matches p [] := by
  induction p with
  | nothing => simp [nullable]
  | empty => simp [nullable]
  | char test => simp [nullable]
  | concat p q ihp ihq =>
    rw [nullable, Bool.and_eq_true, ihp, ihq, matches_concat]
    constructor
    · rintro ⟨hp, hq⟩
      exact ⟨[], [], rfl, hp, hq⟩
    · rintro ⟨u, v, huv, hu, hv⟩
      obtain ⟨rfl, rfl⟩ := List.append_eq_nil_iff.mp huv.symm
      exact ⟨hu, hv⟩
  | union p q ihp ihq => rw [nullable, Bool.or_eq_true, ihp, ihq, matches_union]
  | star p => simp [nullable, Matches.done]

/-- Joining patterns describes what concatenating them does. -/
@[simp] theorem matches_join : Matches (join p q) w ↔ Matches (.concat p q) w := by
  unfold join
  split
  · simp [matches_concat]
  · rw [matches_concat]
    constructor
    · exact fun h => ⟨[], w, rfl, .empty, h⟩
    · rintro ⟨u, v, rfl, hu, hv⟩
      rw [matches_empty.mp hu]
      exact hv
  · rfl

/-- Either of two patterns describes what their union does. -/
@[simp] theorem matches_either : Matches (either p q) w ↔ Matches p w ∨ Matches q w := by
  unfold either
  split <;> simp

/-- What may follow a character. -/
theorem matches_after_iff : Matches (p.after c) w ↔ Matches p (c :: w) := by
  induction p generalizing w with
  | nothing => simp [after]
  | empty => simp [after]
  | char test =>
    rw [after]
    split
    · rename_i h
      rw [matches_empty, matches_char]
      constructor
      · rintro rfl
        exact ⟨c, h, rfl⟩
      · rintro ⟨c', -, hc⟩
        exact (List.cons.inj hc).2
    · rename_i h
      simp only [matches_nothing, matches_char, false_iff]
      rintro ⟨c', hc', hc⟩
      exact h ((List.cons.inj hc).1 ▸ hc')
  | concat p q ihp ihq =>
    have hfirst : Matches (join (p.after c) q) w ↔
        ∃ u v, w = u ++ v ∧ Matches p (c :: u) ∧ Matches q v := by
      simp only [matches_join, matches_concat, ihp]
    have hsplit : Matches (.concat p q) (c :: w) ↔
        (∃ u v, w = u ++ v ∧ Matches p (c :: u) ∧ Matches q v) ∨
          Matches p [] ∧ Matches q (c :: w) := by
      rw [matches_concat]
      constructor
      · rintro ⟨u, v, huv, hu, hv⟩
        cases u with
        | nil => exact .inr ⟨hu, by simpa [huv] using hv⟩
        | cons c' u =>
          cases huv
          exact .inl ⟨u, v, rfl, hu, hv⟩
      · rintro (⟨u, v, rfl, hu, hv⟩ | ⟨hp, hq⟩)
        · exact ⟨c :: u, v, rfl, hu, hv⟩
        · exact ⟨[], c :: w, rfl, hp, hq⟩
    rw [after, hsplit]
    split
    · rename_i hp
      rw [matches_either, hfirst, ihq]
      simp [nullable_iff.mp hp]
    · rename_i hp
      rw [nullable_iff] at hp
      simp [hfirst, hp]
  | union p q ihp ihq => simp [after, ihp, ihq]
  | star p ih => simp only [after, matches_join, matches_concat, ih, matches_star_cons]

end

section

variable {p : Pattern} {input : List Char} {n : Nat}

/-- Nothing is matched by the empty pattern. -/
@[simp] theorem longest_nothing (input : List Char) : longest nothing input = none := by
  rw [longest]

/-- Of an empty input only the empty text can be matched. -/
theorem longest_nil (p : Pattern) : p.longest [] = if p.nullable then some 0 else none := by
  cases p <;> rfl

/-- The longest match either takes the next character, or is empty. -/
theorem longest_cons (p : Pattern) (c : Char) (rest : List Char) :
    p.longest (c :: rest) =
      match (p.after c).longest rest with
      | some n => some (n + 1)
      | none => if p.nullable then some 0 else none := by
  cases p with
  | nothing => simp [after, nullable]
  | _ => cases h : longest _ rest <;> simp [longest, h]

/-- Nothing is found exactly if no prefix is matched. -/
theorem longest_eq_none_iff : p.longest input = none ↔ ∀ n, ¬ Matches p (input.take n) := by
  induction input generalizing p with
  | nil => simp [longest_nil, ← nullable_iff]
  | cons c rest ih =>
    have hrest := ih (p := p.after c)
    simp only [matches_after_iff] at hrest
    rw [longest_cons]
    cases hlongest : (p.after c).longest rest with
    | none =>
      have hrest := hrest.mp hlongest
      constructor
      · intro h n hn
        cases n with
        | zero => simp [nullable_iff.mpr hn] at h
        | succ n => exact hrest n hn
      · intro h
        have hempty : ¬ p.nullable = true := fun hp => h 0 (nullable_iff.mp hp)
        simp [hempty]
    | some n =>
      simp only [reduceCtorEq, false_iff]
      intro h
      have := hrest.mpr fun n => h (n + 1)
      simp [this] at hlongest

/-- What is found is matched, and no longer prefix is. -/
theorem longest_eq_some (h : p.longest input = some n) :
    n ≤ input.length ∧ Matches p (input.take n) ∧
      ∀ m, n < m → m ≤ input.length → ¬ Matches p (input.take m) := by
  induction input generalizing p n with
  | nil =>
    rw [longest_nil] at h
    split at h
    · rename_i hp
      cases h
      exact ⟨Nat.le_refl _, nullable_iff.mp hp, fun m hm hle => absurd hle (Nat.not_le.mpr hm)⟩
    · cases h
  | cons c rest ih =>
    rw [longest_cons] at h
    cases hlongest : (p.after c).longest rest with
    | some k =>
      rw [hlongest] at h
      cases h
      obtain ⟨hle, hmatch, hmax⟩ := ih hlongest
      refine ⟨Nat.succ_le_succ hle, matches_after_iff.mp hmatch, fun m hm hle => ?_⟩
      obtain ⟨m, rfl⟩ : ∃ k, m = k + 1 := ⟨m - 1, by omega⟩
      exact fun hm' => hmax m (by omega) (Nat.le_of_succ_le_succ hle) (matches_after_iff.mpr hm')
    | none =>
      rw [hlongest] at h
      dsimp only at h
      split at h
      · rename_i hp
        cases h
        refine ⟨Nat.zero_le _, nullable_iff.mp hp, fun m hm _ hm' => ?_⟩
        obtain ⟨m, rfl⟩ : ∃ k, m = k + 1 := ⟨m - 1, by omega⟩
        exact longest_eq_none_iff.mp hlongest m (matches_after_iff.mpr hm')
      · cases h

/-- A text that is matched is found if nothing that follows can extend it. -/
theorem longest_append {w rest : List Char} (hw : Matches p w)
    (hmax : ∀ v x, v ≠ [] → rest = v ++ x → ¬ Matches p (w ++ v)) :
    p.longest (w ++ rest) = some w.length := by
  cases h : p.longest (w ++ rest) with
  | none => exact absurd (by simpa using hw) (longest_eq_none_iff.mp h w.length)
  | some n =>
    obtain ⟨hle, hmatch, hlongest⟩ := longest_eq_some h
    rcases Nat.lt_trichotomy n w.length with hlt | heq | hgt
    · exact absurd (by simpa using hw) (hlongest w.length hlt (by simp))
    · rw [heq]
    · rw [List.take_append, List.take_of_length_le (Nat.le_of_lt hgt)] at hmatch
      simp only [List.length_append] at hle
      refine absurd hmatch (hmax _ (rest.drop (n - w.length)) (fun hnil => ?_) (by simp))
      have := congrArg List.length hnil
      simp only [List.length_take, List.length_nil] at this
      omega

end

end TidyManifest.Pattern
