import TidyManifest.Parse.Recognise
import TidyManifest.Proofs.Phrase.Lines
import TidyManifest.Proofs.Plain.Spells

/-!
# Collapsed newlines

`collapse` makes one newline of every run of newlines, and forgets lines and the texts of newlines.
This module shows that looking ahead does not tell tokens from their collapsed form: skipping
newlines gives the collapsed form of the same tokens (`significant_collapse`), and whatever a
category is recognised by is there or not in both (`atPattern_collapse`, `atResource_collapse`,
`atSelector_collapse`).

Bracket groups are counted in tokens, and the counts differ.  What they are used for is the tokens
after the groups, and these are the same (`afterGroups_collapse`).
-/

namespace TidyManifest

/-- The token without its line, and a newline also without its text. -/
def Token.bare (t : Token) : Token :=
  if t.kind = .newline then ⟨.newline, "", 0⟩ else t.unlined

/-- Put a token in front of collapsed tokens.  A newline in front of a newline adds nothing. -/
def press (t : Token) (tokens : List Token) : List Token :=
  if t.kind = .newline ∧ tokens.head?.map (·.kind) = some .newline then tokens
  else t.bare :: tokens

/-- The tokens with one newline for every run of newlines, without lines and without the texts of
newlines. -/
def collapse (tokens : List Token) : List Token :=
  tokens.foldr press []

@[simp] theorem Token.isOneOf_unlined (t : Token) (kinds : List Kind) :
    t.unlined.isOneOf kinds = t.isOneOf kinds := rfl

@[simp] theorem Token.kind_unlined (t : Token) : t.unlined.kind = t.kind := rfl

/-- A bare token keeps its kind. -/
@[simp] theorem Token.kind_bare (t : Token) : t.bare.kind = t.kind := by
  unfold bare
  split
  · rename_i h
    exact h.symm
  · rfl

/-- A bare token has no line. -/
@[simp] theorem Token.line_bare (t : Token) : t.bare.line = 0 := by
  unfold bare
  split <;> rfl

@[simp] theorem collapse_nil : collapse [] = [] := rfl

section

variable {t : Token} {rest tokens : List Token} {kinds : List Kind}

/-- A token that is no newline keeps its place and loses its line. -/
theorem collapse_cons (ht : t.kind ≠ .newline) (rest : List Token) :
    collapse (t :: rest) = t.unlined :: collapse rest := by
  simp [collapse, press, ht, Token.bare]

/-- A token is kept or, if it is one newline more, dropped. -/
theorem collapse_cons_or (t : Token) (rest : List Token) :
    collapse (t :: rest) = collapse rest ∨ collapse (t :: rest) = t.bare :: collapse rest := by
  change press t (collapse rest) = _ ∨ press t (collapse rest) = _
  unfold press
  split
  · exact .inl rfl
  · exact .inr rfl

/-- The first kind stays. -/
theorem head_collapse (tokens : List Token) :
    (collapse tokens).head?.map (·.kind) = tokens.head?.map (·.kind) := by
  cases tokens with
  | nil => rfl
  | cons t rest =>
    change (press t (collapse rest)).head?.map (·.kind) = _
    unfold press
    split
    · rename_i h
      rw [h.2]
      simp [h.1]
    · simp

/-- Where a newline stands, the collapsed tokens have a newline. -/
theorem collapse_newline (ht : t.kind = .newline) (rest : List Token) :
    ∃ n more, collapse (t :: rest) = n :: more ∧ n.kind = .newline := by
  have hhead := head_collapse (t :: rest)
  cases hcollapse : collapse (t :: rest) with
  | nil => rw [hcollapse] at hhead; cases hhead
  | cons n more =>
    rw [hcollapse] at hhead
    exact ⟨n, more, rfl, (Option.some.inj hhead).trans ht⟩

/-- Collapsed tokens have no lines. -/
theorem line_collapse (tokens : List Token) :
    ((collapse tokens).head?.map (·.line)).getD 0 = 0 := by
  have hlines : ∀ t ∈ collapse tokens, t.line = 0 := by
    induction tokens with
    | nil => simp
    | cons t rest ih =>
      change ∀ t' ∈ press t (collapse rest), t'.line = 0
      unfold press
      split
      · exact ih
      · simpa using ih
  cases h : collapse tokens with
  | nil => rfl
  | cons t rest => simpa using hlines t (by simp [h])

/-- Behind a token that is no newline. -/
theorem tail_collapse (h : tokens.head?.map (·.kind) ≠ some .newline) :
    (collapse tokens).tail = collapse tokens.tail := by
  cases tokens with
  | nil => rfl
  | cons t rest => rw [collapse_cons (by simpa using h), List.tail_cons, List.tail_cons]

open Lookahead

/-- A token that is to be skipped is skipped. -/
theorem significant_cons_of_mem (ht : t.kind ∈ kinds) (rest : List Token) :
    significant kinds (t :: rest) = significant kinds rest := by
  have hone : t.isOneOf kinds = true := by simpa [Token.isOneOf] using ht
  rw [significant, List.dropWhile_cons, if_pos hone]
  rfl

/-- A token that is not to be skipped ends the skipping. -/
theorem significant_cons_of_not_mem (ht : t.kind ∉ kinds) (rest : List Token) :
    significant kinds (t :: rest) = t :: rest := by
  have hone : ¬ t.isOneOf kinds = true := by simpa [Token.isOneOf] using ht
  rw [significant, List.dropWhile_cons, if_neg hone]

/-- Skipping newlines, perhaps with other kinds. -/
theorem significant_collapse (h : .newline ∈ kinds) (tokens : List Token) :
    significant kinds (collapse tokens) = collapse (significant kinds tokens) := by
  induction tokens with
  | nil => rfl
  | cons t rest ih =>
    by_cases ht : t.kind = .newline
    · have hskip :
          significant kinds (collapse (t :: rest)) = significant kinds (collapse rest) := by
        rcases collapse_cons_or t rest with heq | heq
        · rw [heq]
        · rw [heq, significant_cons_of_mem (by simpa [ht] using h)]
      rw [hskip, significant_cons_of_mem (by rwa [ht]), ih]
    · rw [collapse_cons ht]
      by_cases hmem : t.kind ∈ kinds
      · rw [significant_cons_of_mem (by simpa using hmem), significant_cons_of_mem hmem, ih]
      · rw [significant_cons_of_not_mem (by simpa using hmem), significant_cons_of_not_mem hmem,
          collapse_cons ht]

theorem newline_mem : Kind.newline ∈ Grammar.newlines := by decide

/-- What is ahead behind newlines. -/
theorem collapse_significant (h : .newline ∈ kinds) (heq : significant kinds tokens = t :: rest) :
    significant kinds (collapse tokens) = t.unlined :: collapse rest := by
  have ht : t.kind ≠ .newline := fun hkind => Plain.significant_head heq (hkind ▸ h)
  rw [significant_collapse h, heq, collapse_cons ht]

/-- Looking past newlines finds the same token, without its line. -/
theorem peek_collapse (h : .newline ∈ kinds) (tokens : List Token) :
    peek kinds (collapse tokens) = (peek kinds tokens).map Token.unlined := by
  unfold peek
  cases heq : significant kinds tokens with
  | nil => rw [significant_collapse h, heq]; rfl
  | cons t rest => rw [collapse_significant h heq]; rfl

/-- Looking past newlines finds the same kind. -/
theorem startsWith_collapse (h : .newline ∈ kinds) (sought : List Kind) (tokens : List Token) :
    startsWith sought kinds (collapse tokens) = startsWith sought kinds tokens := by
  unfold startsWith
  rw [peek_collapse h]
  cases peek kinds tokens <;> rfl

/-- A pattern fits the collapsed tokens where it fits the tokens, if it skips newlines, or skips
nothing and looks for none. -/
theorem fits_collapse {sets : List (List Kind)}
    (h : .newline ∈ kinds ∨ kinds = [] ∧ ∀ set ∈ sets, .newline ∉ set) (tokens : List Token) :
    fits kinds sets (collapse tokens) = fits kinds sets tokens := by
  induction sets generalizing tokens with
  | nil => rfl
  | cons set sets ih =>
    replace ih := ih (h.imp_right fun h => ⟨h.1, fun set hset => h.2 set (.tail _ hset)⟩)
    unfold fits
    rcases h with h | ⟨rfl, h⟩
    · cases heq : significant kinds tokens with
      | nil => rw [significant_collapse h, heq]; rfl
      | cons t rest =>
        rw [collapse_significant h heq]
        simp only [Token.isOneOf_unlined, ih]
    · cases tokens with
      | nil => rfl
      | cons t rest =>
        rw [significant_cons_of_not_mem (List.not_mem_nil)]
        by_cases ht : t.kind = .newline
        · obtain ⟨n, more, hcollapse, hn⟩ := collapse_newline ht rest
          rw [hcollapse, significant_cons_of_not_mem (List.not_mem_nil)]
          simp [Token.isOneOf, hn, ht, h set (.head _)]
        · rw [collapse_cons ht, significant_cons_of_not_mem (List.not_mem_nil)]
          simp only [Token.isOneOf_unlined, ih]

end

namespace Parse

open Grammar

/-- The tokens after the bracket that closes the first one, where `depth` brackets are open. -/
def afterGroup (depth : Nat) : List Token → Option (List Token)
  | [] => none
  | t :: rest =>
    if t.kind == .leftBracket then afterGroup (depth + 1) rest
    else if t.kind == .rightBracket then
      if depth == 1 then some rest else afterGroup (depth - 1) rest
    else afterGroup depth rest

/-- Dropping the tokens of a group leaves what stands after it. -/
theorem drop_groupLength (depth : Nat) (tokens : List Token) :
    (groupLength depth tokens).map tokens.drop = afterGroup depth tokens := by
  have hstep {t : Token} {rest : List Token} (o : Option Nat) :
      (o.map (· + 1)).map (t :: rest).drop = o.map rest.drop := by
    cases o <;> simp
  induction tokens generalizing depth with
  | nil => rfl
  | cons t rest ih =>
    unfold groupLength afterGroup
    split
    · rw [hstep, ih]
    · split
      · split
        · rfl
        · rw [hstep, ih]
      · rw [hstep, ih]

/-- A group ends with its closing bracket. -/
theorem groupLength_last {depth n : Nat} {tokens : List Token}
    (h : groupLength depth tokens = some n) :
    ∃ t, tokens[n - 1]? = some t ∧ t.kind = .rightBracket ∧ 0 < n := by
  have hstep {n : Nat} {t : Token} {rest : List Token} {o : Option Nat}
      (ih : ∀ {n}, o = some n → ∃ t, rest[n - 1]? = some t ∧ t.kind = .rightBracket ∧ 0 < n)
      (h : o.map (· + 1) = some n) :
      ∃ t', (t :: rest)[n - 1]? = some t' ∧ t'.kind = .rightBracket ∧ 0 < n := by
    obtain ⟨m, hm, rfl⟩ := Option.map_eq_some_iff.mp h
    obtain ⟨t', ht', hkind, hpos⟩ := ih hm
    refine ⟨t', ?_, hkind, Nat.succ_pos m⟩
    obtain ⟨k, rfl⟩ := Nat.exists_eq_succ_of_ne_zero (Nat.ne_of_gt hpos)
    simpa using ht'
  induction tokens generalizing depth n with
  | nil => cases h
  | cons t rest ih =>
    unfold groupLength at h
    split at h
    · exact hstep ih h
    · split at h
      · rename_i hkind
        split at h
        · cases h
          exact ⟨t, rfl, by simpa using hkind, Nat.one_pos⟩
        · exact hstep ih h
      · exact hstep ih h

/-- A group takes up tokens. -/
theorem afterGroup_length {depth : Nat} {tokens rest : List Token}
    (h : afterGroup depth tokens = some rest) : rest.length < tokens.length := by
  rw [← drop_groupLength] at h
  obtain ⟨n, hn, rfl⟩ := Option.map_eq_some_iff.mp h
  obtain ⟨t, ht, -, hpos⟩ := groupLength_last hn
  obtain ⟨hlt, -⟩ := List.getElem?_eq_some_iff.mp ht
  rw [List.length_drop]
  omega

/-- A group ends at the same place in the collapsed tokens. -/
theorem afterGroup_collapse (depth : Nat) (tokens : List Token) :
    afterGroup depth (collapse tokens) = (afterGroup depth tokens).map collapse := by
  induction tokens generalizing depth with
  | nil => rfl
  | cons t rest ih =>
    by_cases ht : t.kind = .newline
    · have hskip : afterGroup depth (collapse (t :: rest)) = afterGroup depth (collapse rest) := by
        rcases collapse_cons_or t rest with heq | heq
        · rw [heq]
        · rw [heq, afterGroup]
          simp [ht]
      rw [hskip, ih, afterGroup.eq_def depth (t :: rest)]
      simp [ht]
    · rw [collapse_cons ht]
      unfold afterGroup
      simp only [Token.kind_unlined, ih]
      split
      · rfl
      · split
        · split <;> rfl
        · rfl

/-- The tokens after the bracket groups at the start. -/
def afterGroups (tokens : List Token) : Option (List Token) :=
  (groupsLength tokens).map tokens.drop

/-- A bracket starts one more group. -/
theorem afterGroups_bracket {t : Token} (ht : t.kind = .leftBracket) (rest : List Token) :
    afterGroups (t :: rest) = (afterGroup 0 (t :: rest)).bind afterGroups := by
  rw [afterGroups, groupsLength, if_pos (by simp [ht]), ← drop_groupLength]
  cases hgroup : groupLength 0 (t :: rest) with
  | none => rfl
  | some n =>
    obtain ⟨-, -, -, hpos⟩ := groupLength_last hgroup
    obtain ⟨k, rfl⟩ := Nat.exists_eq_succ_of_ne_zero (Nat.ne_of_gt hpos)
    simp only [Nat.succ_eq_add_one, Nat.add_sub_cancel, Option.map_some, Option.bind_some,
      List.drop_succ_cons, afterGroups]
    cases groupsLength (rest.drop k) with
    | none => rfl
    | some m =>
      simp only [Option.map_some, List.drop_drop]
      rw [show k + 1 + m = (k + m) + 1 by omega, List.drop_succ_cons]

/-- Without a bracket there are no groups. -/
theorem groupsLength_other {tokens : List Token}
    (h : tokens.head?.map (·.kind) ≠ some .leftBracket) : groupsLength tokens = some 0 := by
  cases tokens with
  | nil => rw [groupsLength]
  | cons t rest => rw [groupsLength, if_neg (by simpa using h)]

/-- Without a bracket nothing is passed over. -/
theorem afterGroups_other {tokens : List Token}
    (h : tokens.head?.map (·.kind) ≠ some .leftBracket) : afterGroups tokens = some tokens := by
  rw [afterGroups, groupsLength_other h]
  rfl

/-- Bracket groups end at the same place in the collapsed tokens. -/
theorem afterGroups_collapse (tokens : List Token) :
    afterGroups (collapse tokens) = (afterGroups tokens).map collapse := by
  induction hn : tokens.length using Nat.strongRecOn generalizing tokens with
  | ind n ih =>
    by_cases h : tokens.head?.map (·.kind) = some .leftBracket
    · cases tokens with
      | nil => cases h
      | cons t rest =>
        have ht : t.kind = .leftBracket := Option.some.inj h
        have hgroup := afterGroup_collapse 0 (t :: rest)
        rw [collapse_cons (by simp [ht])] at hgroup ⊢
        rw [afterGroups_bracket (by exact ht), hgroup, afterGroups_bracket ht]
        cases hafter : afterGroup 0 (t :: rest) with
        | none => rfl
        | some after =>
          have hlt := afterGroup_length hafter
          exact ih after.length (by omega) after rfl
    · rw [afterGroups_other h, afterGroups_other (by rwa [head_collapse])]
      rfl

/-- The last token of a subject is a bracket if groups follow its first token. -/
theorem groupsLength_last {n : Nat} {tokens : List Token} (h : groupsLength tokens = some n)
    (hfirst : tokens.head?.map (·.kind) = some .leftBracket) :
    ∃ t, tokens[n - 1]? = some t ∧ t.kind = .rightBracket ∧ 0 < n := by
  induction hlength : tokens.length using Nat.strongRecOn generalizing tokens n with
  | ind k ih =>
    cases tokens with
    | nil => cases hfirst
    | cons t rest =>
      rw [groupsLength, if_pos (by simpa using hfirst)] at h
      cases hgroup : groupLength 0 (t :: rest) with
      | none => rw [hgroup] at h; cases h
      | some m =>
        rw [hgroup] at h
        obtain ⟨more, hmore, rfl⟩ := Option.map_eq_some_iff.mp h
        obtain ⟨closing, hclosing, hkind, hpos⟩ := groupLength_last hgroup
        obtain ⟨j, rfl⟩ := Nat.exists_eq_succ_of_ne_zero (Nat.ne_of_gt hpos)
        simp only [Nat.succ_eq_add_one, Nat.add_sub_cancel] at hmore hclosing
        by_cases hnext : (rest.drop j).head?.map (·.kind) = some .leftBracket
        · obtain ⟨last, hlast, hbracket, hpos'⟩ := ih (rest.drop j).length
            (by rw [← hlength, List.length_drop, List.length_cons]; omega) hmore hnext rfl
          refine ⟨last, ?_, hbracket, by omega⟩
          rw [List.getElem?_drop] at hlast
          rw [show j + 1 + more - 1 = (j + (more - 1)) + 1 by omega, List.getElem?_cons_succ]
          exact hlast
        · obtain rfl : more = 0 := Option.some.inj (hmore.symm.trans (groupsLength_other hnext))
          exact ⟨closing, hclosing, hkind, Nat.succ_pos j⟩

/-- The tokens after the subject at the start. -/
def afterSubject (tokens : List Token) : Option (List Token) :=
  match Lookahead.significant newlines tokens with
  | [] => none
  | t :: rest =>
    if t.isOneOf simpleKinds then
      if t.isOneOf referenceHeads then afterGroups rest else some rest
    else none

/-- Whether the subject at the start ends in an index. -/
def indexed (tokens : List Token) : Bool :=
  match Lookahead.significant newlines tokens with
  | [] => false
  | t :: rest => t.isOneOf referenceHeads && rest.head?.map (·.kind) == some .leftBracket

/-- Dropping the newlines ahead by their number is skipping them. -/
theorem drop_takeWhile_length (tokens : List Token) :
    tokens.drop (tokens.takeWhile (·.isOneOf newlines)).length =
      Lookahead.significant newlines tokens := by
  unfold Lookahead.significant
  induction tokens with
  | nil => rfl
  | cons t rest ih => by_cases h : t.isOneOf newlines <;> simp [h, ih]

/-- Counting the tokens of a subject tells what is after it, and whether it ends in an index. -/
theorem subjectLength_eq (tokens : List Token) :
    (subjectLength tokens).map (fun n =>
        (tokens.drop n, (tokens[n - 1]?).any fun t => t.kind == .rightBracket)) =
      (afterSubject tokens).map (·, indexed tokens) := by
  have hdrop := drop_takeWhile_length tokens
  unfold subjectLength afterSubject indexed
  rw [← hdrop]
  generalize (tokens.takeWhile (·.isOneOf newlines)).length = lead
  have hget (i : Nat) : tokens[lead + i]? = (tokens.drop lead)[i]? := by rw [List.getElem?_drop]
  dsimp only
  cases htokens : tokens.drop lead with
  | nil => rfl
  | cons t rest =>
    have hafter (m : Nat) : tokens.drop (lead + 1 + m) = rest.drop m := by
      rw [Nat.add_assoc, ← List.drop_drop, htokens, Nat.add_comm 1 m, List.drop_succ_cons]
    have hlast (m : Nat) : tokens[lead + 1 + m - 1]? = (t :: rest)[m]? := by
      rw [← htokens, ← hget, show lead + 1 + m - 1 = lead + m by omega]
    by_cases hsimple : t.isOneOf simpleKinds = true
    · have hfirst : (t.kind == .rightBracket) = false := by
        rw [beq_eq_false_iff_ne]
        rintro hkind
        rw [Token.isOneOf, hkind] at hsimple
        cases hsimple
      simp only [hsimple, if_true]
      by_cases hreference : t.isOneOf referenceHeads = true
      · simp only [hreference, if_true, Bool.true_and, afterGroups]
        cases hgroups : groupsLength rest with
        | none => rfl
        | some m =>
          simp only [Option.map_some, hafter, hlast]
          by_cases hbracket : rest.head?.map (·.kind) = some .leftBracket
          · obtain ⟨last, hlast, hkind, hpos⟩ := groupsLength_last hgroups hbracket
            obtain ⟨k, rfl⟩ := Nat.exists_eq_succ_of_ne_zero (Nat.ne_of_gt hpos)
            have hget : (t :: rest)[k + 1]? = some last := by simpa using hlast
            simp [hget, hkind, hbracket]
          · obtain rfl : m = 0 := Option.some.inj (hgroups.symm.trans (groupsLength_other hbracket))
            simp [hfirst, hbracket]
      · have hrest : tokens.drop (lead + 1) = rest := hafter 0
        have hname : tokens[lead + 1 - 1]? = some t := hlast 0
        simp only [hreference, Bool.false_eq_true, if_false, Bool.false_and, Option.map_some]
        rw [hrest, hname, Option.any_some, hfirst]
    · simp only [hsimple, Bool.false_eq_true, if_false]
      rfl

/-- A selector starts where a question mark follows the subject. -/
theorem atSelector_eq (tokens : List Token) :
    atSelector tokens =
      (afterSubject tokens).any (Lookahead.startsWith [.question] newlines ·) := by
  have h := subjectLength_eq tokens
  unfold atSelector
  cases hn : subjectLength tokens <;> cases ha : afterSubject tokens <;> simp_all

/-- A reference with a block starts where a brace follows a subject that ends in an index. -/
theorem atOverride_eq (tokens : List Token) :
    atOverride tokens =
      (indexed tokens &&
        (afterSubject tokens).any (Lookahead.startsWith [.leftBrace] newlines ·)) := by
  have h := subjectLength_eq tokens
  unfold atOverride
  cases hn : subjectLength tokens <;> cases ha : afterSubject tokens <;> simp_all

/-- A subject ends at the same place in the collapsed tokens. -/
theorem afterSubject_collapse (tokens : List Token) :
    afterSubject (collapse tokens) = (afterSubject tokens).map collapse := by
  unfold afterSubject
  cases heq : Lookahead.significant newlines tokens with
  | nil => rw [significant_collapse newline_mem, heq]; rfl
  | cons t rest =>
    rw [collapse_significant newline_mem heq]
    simp only [Token.isOneOf_unlined, afterGroups_collapse]
    split
    · split <;> rfl
    · rfl

/-- A subject ends in an index in the collapsed tokens if it does so in the tokens. -/
theorem indexed_collapse (tokens : List Token) : indexed (collapse tokens) = indexed tokens := by
  unfold indexed
  cases heq : Lookahead.significant newlines tokens with
  | nil => rw [significant_collapse newline_mem, heq]; rfl
  | cons t rest =>
    rw [collapse_significant newline_mem heq]
    simp only [Token.isOneOf_unlined, head_collapse]

/-- What follows a subject, past newlines, is the same in the collapsed tokens. -/
theorem any_startsWith_collapse (kinds : List Kind) (o : Option (List Token)) :
    (o.map collapse).any (Lookahead.startsWith kinds newlines ·) =
      o.any (Lookahead.startsWith kinds newlines ·) := by
  cases o with
  | none => rfl
  | some rest => exact startsWith_collapse newline_mem kinds rest

/-- Selectors are recognised in the collapsed tokens. -/
theorem atSelector_collapse (tokens : List Token) :
    atSelector (collapse tokens) = atSelector tokens := by
  rw [atSelector_eq, atSelector_eq, afterSubject_collapse, any_startsWith_collapse]

/-- Resources are recognised in the collapsed tokens. -/
theorem atResource_collapse (tokens : List Token) :
    atResource (collapse tokens) = atResource tokens := by
  unfold atResource
  rw [startsWith_collapse newline_mem, fits_collapse (.inl newline_mem),
    fits_collapse (.inl newline_mem), atOverride_eq, atOverride_eq, indexed_collapse,
    afterSubject_collapse, any_startsWith_collapse]

/-- Pairs are recognised in the collapsed tokens. -/
theorem atPair_collapse (tokens : List Token) : atPair (collapse tokens) = atPair tokens :=
  fits_collapse (.inl newline_mem) tokens

/-- Calls without parentheses are recognised in the collapsed tokens. -/
theorem atPlainCall_collapse (tokens : List Token) :
    atPlainCall (collapse tokens) = atPlainCall tokens := by
  unfold atPlainCall
  rw [peek_collapse newline_mem]
  cases Lookahead.peek newlines tokens <;> rfl

/-- Every pattern of the grammar skips newlines, or skips nothing and looks for none. -/
theorem patterns_rule (category : Category) : ∀ pattern ∈ category.rule.patterns,
    .newline ∈ category.rule.skip ∨
      category.rule.skip = [] ∧ ∀ set ∈ pattern, Kind.newline ∉ set := by
  cases category <;> decide

/-- The patterns of the grammar fit the collapsed tokens where they fit the tokens. -/
theorem atPattern_collapse (category : Category) (tokens : List Token) :
    atPattern category.rule (collapse tokens) = atPattern category.rule tokens := by
  have hpatterns := patterns_rule category
  unfold atPattern
  generalize category.rule.patterns = patterns at hpatterns
  induction patterns with
  | nil => rfl
  | cons pattern patterns ih =>
    rw [List.any_cons, List.any_cons, fits_collapse (hpatterns pattern (.head _)),
      ih fun pattern hmem => hpatterns pattern (.tail _ hmem)]

end Parse

end TidyManifest
