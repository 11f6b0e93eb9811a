import TidyManifest.Token.Cursor

/-!
# Brackets and what is left of them

Braces, brackets and parentheses are properly nested if they can be taken apart into an opening one,
nested ones, its closing one and nested ones again (`Nested`).  Of other sequences something is left
when matched pairs are cancelled: `residue` computes it from the right, one bracket at a time.

What a sequence does in front of others depends on its residue alone (`foldr_foldr_push`).
Cancelling a pair anywhere does not change the residue (`residue_cancel`), the brackets between
those that are left are nested (`leaves_residue`), and so is a sequence without residue
(`nested_of_residue`).
-/

namespace TidyManifest

/-- The bracket that closes an opening one. -/
def Kind.closer? : Kind → Option Kind
  | .leftBrace => some .rightBrace
  | .leftBracket => some .rightBracket
  | .leftParen => some .rightParen
  | _ => none

/-- Braces, brackets and parentheses. -/
def Kind.isBracket (k : Kind) : Bool :=
  [leftBrace, rightBrace, leftBracket, rightBracket, leftParen, rightParen].contains k

/-- A closing bracket closes and does not open. -/
theorem Kind.closer?_of_closer {k c : Kind} (h : k.closer? = some c) : c.closer? = none := by
  cases k <;> cases h <;> rfl

/-- Brackets that are properly nested and all matched. -/
inductive Nested : List Kind → Prop
  | nil : Nested []
  | wrap {opening closing : Kind} {inner rest : List Kind} (h : opening.closer? = some closing)
      (hinner : Nested inner) (hrest : Nested rest) :
      Nested (opening :: (inner ++ closing :: rest))

/-- Nested brackets after nested brackets are nested. -/
theorem Nested.append {u v : List Kind} (hu : Nested u) (hv : Nested v) : Nested (u ++ v) := by
  induction hu with
  | nil => exact hv
  | wrap h hinner _ _ ih =>
    rw [List.cons_append, List.append_assoc, List.cons_append]
    exact .wrap h hinner ih

/-- Put a bracket in front of brackets of which no two can be cancelled. -/
def push (k : Kind) : List Kind → List Kind
  | [] => [k]
  | c :: rest => if k.closer? = some c then rest else k :: c :: rest

/-- What is left of brackets when every matched pair has been cancelled. -/
def residue (ks : List Kind) : List Kind :=
  ks.foldr push []

/-- An opening bracket is matched by its own closing one. -/
theorem push_of_closer {k c : Kind} (h : k.closer? = some c) (rest : List Kind) :
    push k (c :: rest) = rest := by
  simp [push, h]

/-- A bracket that opens nothing stays. -/
theorem push_closing {c : Kind} (h : c.closer? = none) (rest : List Kind) :
    push c rest = c :: rest := by
  cases rest <;> simp [push, h]

/-- A matched pair can be cancelled in front of anything. -/
theorem push_push {k c : Kind} (h : k.closer? = some c) (rest : List Kind) :
    push k (push c rest) = rest := by
  rw [push_closing (Kind.closer?_of_closer h), push_of_closer h]

/-- Pushing first and adding the rest later makes no difference. -/
theorem foldr_push (k : Kind) (ks rest : List Kind) :
    (push k ks).foldr push rest = push k (ks.foldr push rest) := by
  cases ks with
  | nil => rfl
  | cons c ks =>
    by_cases h : k.closer? = some c
    · rw [push_of_closer h, List.foldr_cons, push_push h]
    · simp [push, h]

/-- What a sequence does in front of others depends on its residue alone. -/
theorem foldr_foldr_push (ks more rest : List Kind) :
    (ks.foldr push more).foldr push rest = ks.foldr push (more.foldr push rest) := by
  induction ks with
  | nil => rfl
  | cons k ks ih => rw [List.foldr_cons, foldr_push, ih, List.foldr_cons]

/-- What is unmatched is found from the end on. -/
theorem residue_append (ks more : List Kind) :
    residue (ks ++ more) = ks.foldr push (residue more) :=
  List.foldr_append

/-- Cancelling a matched pair does not change what is left. -/
theorem residue_cancel {k c : Kind} (h : k.closer? = some c) (ks more : List Kind) :
    residue (ks ++ k :: c :: more) = residue (ks ++ more) := by
  rw [residue_append, residue_append]
  exact congrArg (ks.foldr push) (push_push h (residue more))

/-- Brackets of which some are left, with nested ones between them. -/
inductive Leaves : List Kind → List Kind → Prop
  | nested {ks : List Kind} (h : Nested ks) : Leaves ks []
  | left {ks more left : List Kind} {k : Kind} (h : Nested ks) (hmore : Leaves more left) :
      Leaves (ks ++ k :: more) (k :: left)

/-- Nested brackets in front leave what was left. -/
theorem Leaves.after {ks more left : List Kind} (h : Nested ks) (hmore : Leaves more left) :
    Leaves (ks ++ more) left := by
  cases hmore with
  | nested h' => exact .nested (h.append h')
  | left h' hmore =>
    rw [← List.append_assoc]
    exact .left (h.append h') hmore

/-- The residue is left, and everything between is nested. -/
theorem leaves_residue (ks : List Kind) : Leaves ks (residue ks) := by
  induction ks with
  | nil => exact .nested .nil
  | cons k ks ih =>
    show Leaves (k :: ks) (push k (residue ks))
    generalize residue ks = left at ih
    cases ih with
    | nested h => exact .left .nil (.nested h)
    | @left inner more left c h hmore =>
      by_cases hc : k.closer? = some c
      · rw [push_of_closer hc]
        have hpair : Nested (k :: (inner ++ [c])) := .wrap hc h .nil
        simpa using hmore.after hpair
      · simp only [push, hc, if_false]
        exact .left .nil (.left h hmore)

/-- Brackets without a residue are nested. -/
theorem nested_of_residue {ks : List Kind} (h : residue ks = []) : Nested ks := by
  have hleaves := leaves_residue ks
  rw [h] at hleaves
  cases hleaves with
  | nested h => exact h

/-- The brackets among tokens, in order. -/
def brackets (tokens : List Token) : List Kind :=
  (tokens.map (·.kind)).filter Kind.isBracket

/-- The brackets of tokens that have no partner. -/
def unmatched (tokens : List Token) : List Kind :=
  residue (brackets tokens)

/-- A bracket is pushed. -/
theorem unmatched_cons {t : Token} (h : t.kind.isBracket = true) (tokens : List Token) :
    unmatched (t :: tokens) = push t.kind (unmatched tokens) := by
  simp [unmatched, brackets, h, residue]

/-- What is no bracket changes nothing. -/
theorem unmatched_cons_other {t : Token} (h : t.kind.isBracket = false) (tokens : List Token) :
    unmatched (t :: tokens) = unmatched tokens := by
  simp [unmatched, brackets, h]

/-- Tokens that are no brackets can be skipped. -/
theorem unmatched_significant (kinds : List Kind) (h : ∀ k ∈ kinds, k.isBracket = false)
    (tokens : List Token) : unmatched (Lookahead.significant kinds tokens) = unmatched tokens := by
  unfold Lookahead.significant
  induction tokens with
  | nil => rfl
  | cons t tokens ih =>
    by_cases ht : t.isOneOf kinds = true
    · have hbracket : t.kind.isBracket = false := h _ (by simpa [Token.isOneOf] using ht)
      rw [List.dropWhile_cons, if_pos ht, ih, unmatched_cons_other hbracket]
    · rw [List.dropWhile_cons, if_neg ht]

/-- Tokens that leave some braces open, and nothing else. -/
def Unclosed (n : Nat) (tokens : List Token) : Prop :=
  unmatched tokens = List.replicate n .leftBrace

/-- One more opening brace leaves one more unclosed. -/
theorem unclosed_cons {n : Nat} {t : Token} {tokens : List Token} (ht : t.kind = .leftBrace)
    (h : Unclosed n tokens) : Unclosed (n + 1) (t :: tokens) := by
  rw [Unclosed, unmatched_cons (by rw [ht]; rfl), h, ht]
  cases n <;> rfl

/-- A brace and the brace that closes it leave nothing. -/
theorem unmatched_braces {opening closing : Token} {tokens rest : List Token}
    (hopening : opening.kind = .leftBrace) (hclosing : closing.kind = .rightBrace)
    (h : unmatched tokens = unmatched (closing :: rest)) :
    unmatched (opening :: tokens) = unmatched rest := by
  rw [unmatched_cons (by rw [hopening]; rfl), h, unmatched_cons (by rw [hclosing]; rfl), hopening,
    hclosing, push_push rfl]

end TidyManifest
