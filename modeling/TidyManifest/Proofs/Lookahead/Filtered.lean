import Mathlib.Data.List.Forall2
import TidyManifest.Proofs.Agree.State
import TidyManifest.Proofs.Plain.Evaluate

/-!
# Lookahead as prefix matching

A pattern is matched set by set, and tokens to be skipped are passed over anew before each of them.
It comes to the same if they are all taken out beforehand and nothing is skipped on the way
(`fits_eq_unskipped`): what is left has to begin with one token of each set (`fits_nil_iff`).  So a
set that names a kind to be skipped names it in vain (`fits_without_skipped`).

A sequence of kinds is a pattern of sets with one kind each (`spells_eq_fits`), and looking at the
next token is a pattern of one set.
-/

namespace TidyManifest

namespace Lookahead

open Plain (significant_head fits_single)

/-- The tokens that are not to be skipped. -/
def unskipped (skip : List Kind) (tokens : List Token) : List Token :=
  tokens.filter fun t => !t.isOneOf skip

variable {skip : List Kind} {tokens rest : List Token} {t : Token}

/-- What is skipped is filtered out anyway. -/
theorem unskipped_significant (skip : List Kind) (tokens : List Token) :
    unskipped skip (significant skip tokens) = unskipped skip tokens := by
  unfold unskipped significant
  induction tokens with
  | nil => rfl
  | cons t rest ih =>
    by_cases h : t.isOneOf skip = true
    · simpa [h] using ih
    · simp [h]

/-- The next token that is not skipped is the first of those that are not to be skipped. -/
theorem unskipped_of_significant (h : significant skip tokens = t :: rest) :
    unskipped skip tokens = t :: unskipped skip rest := by
  have hkind : t.isOneOf skip = false := by simpa [Token.isOneOf] using significant_head h
  rw [← unskipped_significant, h]
  simp [unskipped, hkind]

/-- Passing over tokens before each set is the same as taking them out beforehand. -/
theorem fits_eq_unskipped (skip : List Kind) (sets : List (List Kind)) (tokens : List Token) :
    fits skip sets tokens = fits [] sets (unskipped skip tokens) := by
  induction sets generalizing tokens with
  | nil => rfl
  | cons set sets ih =>
    cases h : significant skip tokens with
    | nil =>
      have hnone : unskipped skip tokens = [] := by rw [← unskipped_significant, h]; rfl
      rw [fits, h, hnone]
      rfl
    | cons t rest =>
      rw [fits, h, unskipped_of_significant h, Plain.fits_cons (by simp), ← ih]
      rfl

/-- Where nothing is skipped, the tokens themselves begin with one token of each set. -/
theorem fits_nil_iff {sets : List (List Kind)} :
    fits [] sets tokens = true ↔ ∃ first rest, tokens = first ++ rest ∧
      List.Forall₂ (fun set t => t.kind ∈ set) sets first := by
  induction sets generalizing tokens with
  | nil => exact ⟨fun _ => ⟨[], tokens, rfl, .nil⟩, fun _ => rfl⟩
  | cons set sets ih =>
    constructor
    · intro h
      cases tokens with
      | nil => cases h
      | cons t tokens =>
        rw [Plain.fits_cons (by simp), Bool.and_eq_true] at h
        obtain ⟨first, rest, rfl, hfirst⟩ := ih.mp h.2
        exact ⟨t :: first, rest, rfl, .cons (by simpa using h.1) hfirst⟩
    · rintro ⟨_, rest, rfl, hfirst⟩
      cases hfirst with
      | @cons _ t _ first ht hfirst =>
        rw [List.cons_append, Plain.fits_cons (by simp), Bool.and_eq_true]
        exact ⟨by simpa using ht, ih.mpr ⟨first, rest, rfl, hfirst⟩⟩

/-- A kind to be skipped is never matched, also where a set names it. -/
theorem fits_without_skipped (skip : List Kind) (sets : List (List Kind)) (tokens : List Token) :
    fits skip (sets.map (·.filter (!skip.contains ·))) tokens = fits skip sets tokens := by
  induction sets generalizing tokens with
  | nil => rfl
  | cons set sets ih =>
    rw [List.map_cons, fits, fits]
    cases h : significant skip tokens with
    | nil => rfl
    | cons t rest =>
      have hkind := significant_head h
      have hset : t.isOneOf (set.filter (!skip.contains ·)) = t.isOneOf set := by
        simp [Token.isOneOf, hkind]
      simp only [hset, ih]

/-- A sequence of kinds is a pattern of sets with one kind each. -/
theorem spells_eq_fits (skip kinds : List Kind) (tokens : List Token) :
    spells skip kinds tokens = fits skip (kinds.map ([·])) tokens := by
  induction kinds generalizing tokens with
  | nil => rfl
  | cons kind kinds ih =>
    rw [List.map_cons, spells, fits]
    cases significant skip tokens with
    | nil => rfl
    | cons t rest =>
      have hone : t.isOneOf [kind] = (t.kind == kind) := by
        rw [Token.isOneOf, List.contains_cons, List.contains_nil, Bool.or_false]
      simp only [hone, ih]

/-- Lookahead is prefix matching.  A pattern fits at a cursor if and only if the tokens from the
cursor on, without those to be skipped, begin with one token of each set in order; so the kinds to
be skipped may as well be left out of the sets.  A sequence fits as its pattern of single kinds does,
and the next token is looked at as by a pattern of one set. -/
theorem lookahead_filtered (c : Cursor) (skip : List Kind) (sets : List (List Kind))
    (kinds : List Kind) :
    (fits skip sets c.ahead = true ↔
      ∃ first rest, (c.toList.drop c.position).filter (!·.isOneOf skip) = first ++ rest ∧
        List.Forall₂ (fun set t => t.kind ∈ set) sets first) ∧
    fits skip (sets.map (·.filter (!skip.contains ·))) c.ahead = fits skip sets c.ahead ∧
    spells skip kinds c.ahead = fits skip (kinds.map ([·])) c.ahead ∧
    startsWith kinds skip c.ahead = fits skip [kinds] c.ahead := by
  refine ⟨?_, fits_without_skipped skip sets c.ahead, spells_eq_fits skip kinds c.ahead,
    (fits_single skip kinds).symm⟩
  rw [fits_eq_unskipped, fits_nil_iff, c.drop_position]
  rfl

end Lookahead

end TidyManifest
