import TidyManifest.Proofs.Brackets.Subjects

/-!
# What counting brackets finds

A bracket is matched by counting: one more is open after an opening bracket, one less after a
closing one, and the bracket that leaves none open is the one that was looked for.  As long as it is
not found, the depth is positive and is the number of brackets opened so far less those closed
(`depthAfter_count`), so a depth of zero never has to be taken down (`checkedLength_eq`).

Counting therefore stops where as many brackets have been closed as opened for the first time, and
it runs to the end of the tokens if there is no such place (`groupLength_first`,
`groupLength_none`).  What it has passed is a bracket, tokens in which the brackets are matched, and
the bracket that closes it (`exists_group`).  A subject is one token and the groups that follow it,
up to a token that is no bracket (`exists_subject`).
-/

namespace TidyManifest.Parse

open Grammar

/-- How many brackets are opened. -/
def openings (tokens : List Token) : Nat :=
  tokens.countP fun t => t.kind == .leftBracket

/-- How many brackets are closed. -/
def closings (tokens : List Token) : Nat :=
  tokens.countP fun t => t.kind == .rightBracket

theorem openings_append (u v : List Token) : openings (u ++ v) = openings u + openings v :=
  List.countP_append

theorem closings_append (u v : List Token) : closings (u ++ v) = closings u + closings v :=
  List.countP_append

theorem openings_cons (t : Token) (w : List Token) :
    openings (t :: w) = openings [t] + openings w :=
  openings_append [t] w

theorem closings_cons (t : Token) (w : List Token) :
    closings (t :: w) = closings [t] + closings w :=
  closings_append [t] w

section

variable {t : Token}

theorem openings_left (ht : t.kind = .leftBracket) : openings [t] = 1 := by
  simp [openings, ht]

theorem closings_left (ht : t.kind = .leftBracket) : closings [t] = 0 := by
  simp [closings, ht]

theorem openings_right (ht : t.kind = .rightBracket) : openings [t] = 0 := by
  simp [openings, ht]

theorem closings_right (ht : t.kind = .rightBracket) : closings [t] = 1 := by
  simp [closings, ht]

end

section

variable {depth d k : Nat} {w tokens rest : List Token}

/-- One step of counting closes the last bracket, or it goes on at a depth that has changed by what
the token opens and closes. -/
theorem depthAfter_step (depth : Nat) (t : Token) :
    (depth = 0 ∧ t.kind = .rightBracket) ∨
      ∃ depth', depth' + closings [t] = depth + openings [t] ∧
        ∀ w, depthAfter (depth + 1) (t :: w) = depthAfter (depth' + 1) w := by
  by_cases hleft : t.kind = .leftBracket
  · refine .inr ⟨depth + 1, ?_, fun w => by simp [depthAfter, hleft]⟩
    rw [closings_left hleft, openings_left hleft]
  · by_cases hright : t.kind = .rightBracket
    · cases depth with
      | zero => exact .inl ⟨rfl, hright⟩
      | succ depth =>
        refine .inr ⟨depth, ?_, fun w => by simp [depthAfter, hright]⟩
        rw [closings_right hright, openings_right hright]
    · exact .inr ⟨depth, by simp [closings, openings, hleft, hright],
        depthAfter_cons (by simp [squareBrackets, hleft, hright]) (depth + 1)⟩

/-- While a bracket is open, the depth is positive and is what was opened less what was closed. -/
theorem depthAfter_count (h : depthAfter (depth + 1) w = some d) :
    0 < d ∧ d + closings w = depth + 1 + openings w := by
  induction w generalizing depth with
  | nil =>
    cases h
    exact ⟨Nat.succ_pos depth, rfl⟩
  | cons t w ih =>
    rcases depthAfter_step depth t with ⟨rfl, ht⟩ | ⟨depth', hdepth, hstep⟩
    · simp [depthAfter, ht] at h
    · obtain ⟨hpos, hcount⟩ := ih ((hstep w).symm.trans h)
      rw [closings_cons, openings_cons]
      exact ⟨hpos, by omega⟩

/-- Counting runs through all the tokens, or it comes to the bracket that closes the last one. -/
theorem depthAfter_or_closed (depth : Nat) (tokens : List Token) :
    (∃ d, depthAfter (depth + 1) tokens = some d) ∨
      ∃ w closing rest, tokens = w ++ closing :: rest ∧ closing.kind = .rightBracket ∧
        depthAfter (depth + 1) w = some 1 := by
  induction tokens generalizing depth with
  | nil => exact .inl ⟨depth + 1, rfl⟩
  | cons t tokens ih =>
    rcases depthAfter_step depth t with ⟨rfl, ht⟩ | ⟨depth', -, hstep⟩
    · exact .inr ⟨[], t, tokens, rfl, ht, rfl⟩
    · rcases ih depth' with ⟨d, hd⟩ | ⟨w, closing, rest, rfl, hclosing, hw⟩
      · exact .inl ⟨d, (hstep tokens).trans hd⟩
      · exact .inr ⟨t :: w, closing, rest, rfl, hclosing, (hstep w).trans hw⟩

/-- Where counting passes over tokens, it passes over each first part of them. -/
theorem depthAfter_take (h : depthAfter depth w = some d) (k : Nat) :
    ∃ d', depthAfter depth (w.take k) = some d' := by
  rw [← List.take_append_drop k w, depthAfter_append] at h
  obtain ⟨d', hd', -⟩ := Option.bind_eq_some_iff.mp h
  exact ⟨d', hd'⟩

/-- Nothing is found where counting runs through. -/
theorem groupLength_of_depthAfter (h : depthAfter depth tokens = some d) :
    groupLength depth tokens = none := by
  simpa [groupLength] using groupLength_append h []

/-- The bracket that closes the last one ends the group. -/
theorem groupLength_of_closed {closing : Token} (h : depthAfter depth w = some 1)
    (hclosing : closing.kind = .rightBracket) (rest : List Token) :
    groupLength depth (w ++ closing :: rest) = some (w.length + 1) := by
  rw [groupLength_append h]
  simp [groupLength, hclosing]

/-- The first bracket of a group opens it. -/
theorem groupLength_bracket {t : Token} (ht : t.kind = .leftBracket) (rest : List Token) :
    groupLength 0 (t :: rest) = (groupLength 1 rest).map (· + 1) := by
  simp [groupLength, ht]

/-- Counting as `groupLength` does, but refusing to take down a depth of zero. -/
def checkedLength (depth : Nat) : List Token → Option (Option Nat)
  | [] => some none
  | t :: rest =>
    if t.kind == .leftBracket then (checkedLength (depth + 1) rest).map (Option.map (· + 1))
    else if t.kind == .rightBracket then
      if depth == 0 then none
      else if depth == 1 then some (some 1)
      else (checkedLength (depth - 1) rest).map (Option.map (· + 1))
    else (checkedLength depth rest).map (Option.map (· + 1))

/-- While a bracket is open, no depth of zero is taken down. -/
theorem checkedLength_eq (depth : Nat) (tokens : List Token) :
    checkedLength (depth + 1) tokens = some (groupLength (depth + 1) tokens) := by
  induction tokens generalizing depth with
  | nil => rfl
  | cons t rest ih =>
    unfold checkedLength groupLength
    split
    · rw [ih]; rfl
    · split
      · cases depth with
        | zero => rfl
        | succ depth => exact congrArg (Option.map (Option.map (· + 1))) (ih depth)
      · rw [ih]; rfl

/-- One bracket more is closed than opened among the first `k` tokens. -/
def ClosedBy (tokens : List Token) (k : Nat) : Prop :=
  k ≤ tokens.length ∧ closings (tokens.take k) = openings (tokens.take k) + 1

/-- No more is closed than opened where counting passes. -/
theorem closings_take_le (h : depthAfter 1 w = some d) (k : Nat) :
    closings (w.take k) ≤ openings (w.take k) := by
  obtain ⟨d', hd'⟩ := depthAfter_take h k
  obtain ⟨hpos, hcount⟩ := depthAfter_count hd'
  omega

/-- Where counting runs through, the bracket is never closed. -/
theorem never_closedBy (h : depthAfter 1 tokens = some d) (k : Nat) : ¬ClosedBy tokens k := by
  rintro ⟨-, hclosed⟩
  have := closings_take_le h k
  omega

/-- No place inside a group at which the depth is known closes it. -/
theorem not_closedBy (h : depthAfter 1 w = some d) (rest : List Token) (hk : k ≤ w.length) :
    ¬ClosedBy (w ++ rest) k := by
  rintro ⟨-, hclosed⟩
  rw [List.take_append_of_le_length hk] at hclosed
  have := closings_take_le h k
  omega

/-- A closing bracket at depth one closes the group. -/
theorem closedBy_closing {closing : Token} (h : depthAfter 1 w = some 1)
    (hclosing : closing.kind = .rightBracket) (rest : List Token) :
    ClosedBy (w ++ closing :: rest) (w.length + 1) := by
  obtain ⟨-, hcount⟩ := depthAfter_count h
  refine ⟨by simp, ?_⟩
  rw [List.take_length_add_append, List.take_succ_cons, List.take_zero, closings_append,
    openings_append, closings_right hclosing, openings_right hclosing]
  omega

/-- Counting stops at the first place where one bracket more is closed than opened. -/
theorem groupLength_first (tokens : List Token) (n : Nat) :
    groupLength 1 tokens = some n ↔ ClosedBy tokens n ∧ ∀ k < n, ¬ClosedBy tokens k := by
  rcases depthAfter_or_closed 0 tokens with ⟨d, hd⟩ | ⟨w, closing, rest, rfl, hclosing, hw⟩
  · simp [groupLength_of_depthAfter hd, never_closedBy hd]
  · have hclosed := closedBy_closing hw hclosing rest
    rw [groupLength_of_closed hw hclosing]
    constructor
    · rintro ⟨⟩
      exact ⟨hclosed, fun k hk => not_closedBy hw _ (Nat.le_of_lt_succ hk)⟩
    · rintro ⟨hn, hbefore⟩
      rcases Nat.lt_trichotomy n (w.length + 1) with hlt | rfl | hgt
      · exact absurd hn (not_closedBy hw _ (Nat.le_of_lt_succ hlt))
      · rfl
      · exact absurd hclosed (hbefore _ hgt)

/-- Counting finds nothing only if there is no such place. -/
theorem groupLength_none (tokens : List Token) :
    groupLength 1 tokens = none ↔ ∀ k, ¬ClosedBy tokens k := by
  rcases depthAfter_or_closed 0 tokens with ⟨d, hd⟩ | ⟨w, closing, rest, rfl, hclosing, hw⟩
  · exact ⟨fun _ => never_closedBy hd, fun _ => groupLength_of_depthAfter hd⟩
  · rw [groupLength_of_closed hw hclosing]
    exact ⟨fun h => (by cases h), fun h => absurd (closedBy_closing hw hclosing rest) (h _)⟩

end

/-- The index of the bracket that closes the one at `opening`. -/
def closingIndex (tokens : List Token) (opening : Nat) : Option Nat :=
  (groupLength 0 (tokens.drop opening)).map (opening + · - 1)

/-- From the bracket at `opening` up to and including `i`, as many brackets are opened as closed. -/
structure EvenTo (tokens : List Token) (opening i : Nat) : Prop where
  after : opening < i
  inside : i < tokens.length
  even : openings ((tokens.take (i + 1)).drop opening) =
    closings ((tokens.take (i + 1)).drop opening)

section

variable {tokens rest : List Token} {opening i : Nat} {t : Token}

/-- The index of the closing bracket is found by counting from the opening one. -/
theorem closingIndex_eq (hdrop : tokens.drop opening = t :: rest) (ht : t.kind = .leftBracket) :
    closingIndex tokens opening = (groupLength 1 rest).map (opening + ·) := by
  rw [closingIndex, hdrop, groupLength_bracket ht, Option.map_map]
  rfl

/-- Being even from the bracket on is closing one bracket more than is opened behind it. -/
theorem evenTo_iff (hdrop : tokens.drop opening = t :: rest) (ht : t.kind = .leftBracket) :
    EvenTo tokens opening i ↔ ∃ k, opening + k = i ∧ ClosedBy rest k := by
  have hlength : tokens.length - opening = rest.length + 1 := by
    rw [← List.length_drop, hdrop, List.length_cons]
  have hspan (k : Nat) : (tokens.take (opening + k + 1)).drop opening = t :: rest.take k := by
    rw [List.drop_take, hdrop, show opening + k + 1 - opening = k + 1 by omega, List.take_succ_cons]
  constructor
  · rintro ⟨hafter, hinside, heven⟩
    obtain ⟨k, rfl⟩ := Nat.exists_eq_add_of_lt hafter
    refine ⟨k + 1, rfl, by omega, ?_⟩
    rw [Nat.add_assoc opening k 1, hspan, openings_cons, closings_cons, openings_left ht,
      closings_left ht] at heven
    omega
  · rintro ⟨k, rfl, hk, hclosed⟩
    have hpos : k ≠ 0 := by
      rintro rfl
      cases hclosed
    refine ⟨by omega, by omega, ?_⟩
    rw [hspan, openings_cons, closings_cons, openings_left ht, closings_left ht]
    omega

/-- The closing bracket is the first token up to which the brackets are even. -/
theorem closingIndex_eq_some_iff (hdrop : tokens.drop opening = t :: rest)
    (ht : t.kind = .leftBracket) :
    closingIndex tokens opening = some i ↔
      EvenTo tokens opening i ∧ ∀ j < i, ¬EvenTo tokens opening j := by
  simp only [closingIndex_eq hdrop ht, Option.map_eq_some_iff, groupLength_first,
    evenTo_iff hdrop ht]
  constructor
  · rintro ⟨k, ⟨hk, hfirst⟩, rfl⟩
    refine ⟨⟨k, rfl, hk⟩, ?_⟩
    rintro _ hlt ⟨m, rfl, hm⟩
    exact hfirst m (by omega) hm
  · rintro ⟨⟨k, rfl, hk⟩, hfirst⟩
    exact ⟨k, ⟨hk, fun m hm hclosed => hfirst _ (by omega) ⟨m, rfl, hclosed⟩⟩, rfl⟩

/-- No closing bracket is found if the brackets never come out even. -/
theorem closingIndex_eq_none_iff (hdrop : tokens.drop opening = t :: rest)
    (ht : t.kind = .leftBracket) :
    closingIndex tokens opening = none ↔ ∀ i, ¬EvenTo tokens opening i := by
  simp only [closingIndex_eq hdrop ht, Option.map_eq_none_iff, groupLength_none,
    evenTo_iff hdrop ht]
  exact ⟨fun h _ ⟨k, _, hk⟩ => h k hk, fun h k hk => h _ ⟨k, rfl, hk⟩⟩

end

/-- Tokens in which the brackets are matched: no first part closes more of them than it opens, and
all that are opened are closed. -/
structure Matched (w : List Token) : Prop where
  within : ∀ k, closings (w.take k) ≤ openings (w.take k)
  even : closings w = openings w

/-- A bracket, tokens in which the brackets are matched, and the bracket that closes it. -/
inductive IsGroup : List Token → Prop
  | intro {opening closing : Token} {inner : List Token} (hopening : opening.kind = .leftBracket)
      (hinner : Matched inner) (hclosing : closing.kind = .rightBracket) :
      IsGroup (opening :: (inner ++ [closing]))

section

variable {w g tokens rest : List Token} {t : Token} {n : Nat}

/-- Counting passes over tokens without a change of depth if and only if they are matched. -/
theorem matched_iff : Matched w ↔ depthAfter 1 w = some 1 := by
  constructor
  · intro h
    rcases depthAfter_or_closed 0 w with ⟨d, hd⟩ | ⟨u, closing, rest, rfl, hclosing, hu⟩
    · have hcount := (depthAfter_count hd).2
      have heven := h.even
      rw [hd, show d = 1 by omega]
    · have hclosed := (closedBy_closing hu hclosing rest).2
      have hwithin := h.within (u.length + 1)
      omega
  · intro h
    have hcount := (depthAfter_count h).2
    exact ⟨closings_take_le h, by omega⟩

/-- Counting finds the end of a group. -/
theorem IsGroup.groupLength (h : IsGroup g) (rest : List Token) :
    groupLength 0 (g ++ rest) = some g.length := by
  cases h with
  | @intro opening closing inner hopening hinner hclosing =>
    have heq : opening :: (inner ++ [closing]) ++ rest = opening :: (inner ++ closing :: rest) := by
      simp
    rw [heq, groupLength_bracket hopening, groupLength_of_closed (matched_iff.mp hinner) hclosing]
    simp

/-- What is counted from a bracket on is a group. -/
theorem exists_group (ht : t.kind = .leftBracket) (h : groupLength 0 (t :: tokens) = some n) :
    ∃ g rest, t :: tokens = g ++ rest ∧ IsGroup g ∧ n = g.length := by
  rw [groupLength_bracket ht] at h
  rcases depthAfter_or_closed 0 tokens with ⟨d, hd⟩ | ⟨w, closing, rest, rfl, hclosing, hw⟩
  · rw [groupLength_of_depthAfter hd] at h
    cases h
  · rw [groupLength_of_closed hw hclosing] at h
    cases h
    exact ⟨t :: (w ++ [closing]), rest, by simp, .intro ht (matched_iff.mpr hw) hclosing, by simp⟩

/-- The groups at the start are counted one after the other. -/
theorem IsGroup.groupsLength (h : IsGroup g) (rest : List Token) :
    groupsLength (g ++ rest) = (groupsLength rest).map (g.length + ·) := by
  have hlength := h.groupLength rest
  cases h with
  | @intro opening closing inner hopening _ _ =>
    rw [List.cons_append, Parse.groupsLength, if_pos (by simp [hopening]), ← List.cons_append,
      hlength]
    simp

/-- All groups up to a token that is no bracket are counted. -/
theorem groupsLength_flatten {groups : List (List Token)} (hgroups : ∀ g ∈ groups, IsGroup g)
    (hrest : rest.head?.map (·.kind) ≠ some .leftBracket) :
    groupsLength (groups.flatten ++ rest) = some groups.flatten.length := by
  induction groups with
  | nil => exact groupsLength_other hrest
  | cons g groups ih =>
    rw [List.flatten_cons, List.append_assoc, (hgroups g (by simp)).groupsLength,
      ih fun g hg => hgroups g (by simp [hg])]
    simp

/-- What is counted one after the other are groups, and no bracket follows them. -/
theorem exists_groups (h : groupsLength tokens = some n) :
    ∃ (groups : List (List Token)) (rest : List Token), tokens = groups.flatten ++ rest ∧
      (∀ g ∈ groups, IsGroup g) ∧ rest.head?.map (·.kind) ≠ some .leftBracket ∧
      n = groups.flatten.length := by
  -- each group takes up at least its bracket, so what follows it is shorter
  induction hlength : tokens.length using Nat.strongRecOn generalizing tokens n with
  | ind m ih =>
    by_cases hfirst : tokens.head?.map (·.kind) = some .leftBracket
    · cases tokens with
      | nil => cases hfirst
      | cons t tokens =>
        have ht : t.kind = .leftBracket := Option.some.inj hfirst
        cases hgroup : groupLength 0 (t :: tokens) with
        | none =>
          rw [groupsLength, if_pos (by simp [ht]), hgroup] at h
          cases h
        | some k =>
          obtain ⟨g, after, heq, hg, -⟩ := exists_group ht hgroup
          rw [heq, hg.groupsLength] at h
          obtain ⟨more, hmore, rfl⟩ := Option.map_eq_some_iff.mp h
          have hshorter : after.length < m := by
            have hpos : 0 < g.length := by cases hg; simp
            rw [← hlength, heq, List.length_append]
            omega
          obtain ⟨groups, rest, rfl, hgroups, hrest, rfl⟩ := ih _ hshorter hmore rfl
          exact ⟨g :: groups, rest, by simp [heq], by simpa using ⟨hg, hgroups⟩, hrest, by simp⟩
    · rw [groupsLength_other hfirst] at h
      cases h
      exact ⟨[], tokens, rfl, by simp, hfirst, rfl⟩

end

/-- A subject with the newlines before it and the tokens after it: one simple token and, only behind
a token that can be indexed, all the groups that follow it directly. -/
structure IsSubject (ns : List Token) (head : Token) (groups : List (List Token))
    (rest : List Token) : Prop where
  leads : ∀ t ∈ ns, t.kind ∈ newlines
  simple : head.kind ∈ simpleKinds
  grouped : ∀ g ∈ groups, IsGroup g
  indexed : head.kind ∉ referenceHeads → groups = []
  next : head.kind ∈ referenceHeads → rest.head?.map (·.kind) ≠ some .leftBracket

section

variable {ns tokens rest : List Token} {head : Token} {groups : List (List Token)} {n : Nat}

/-- The length of a subject counts the newlines in front of it, its head and the groups behind it.
-/
theorem subjectLength_append (hns : ∀ t ∈ ns, t.kind ∈ newlines) (hhead : head.kind ∉ newlines)
    (rest : List Token) :
    subjectLength (ns ++ head :: rest) =
      if head.kind ∈ simpleKinds then
        if head.kind ∈ referenceHeads then (groupsLength rest).map (ns.length + 1 + ·)
        else some (ns.length + 1)
      else none := by
  have hlead : (ns ++ head :: rest).takeWhile (·.isOneOf newlines) = ns := by
    rw [List.takeWhile_append_of_pos fun t ht => by simpa [Token.isOneOf] using hns t ht]
    simp [Token.isOneOf, hhead]
  rw [subjectLength, hlead]
  simp [Token.isOneOf]

/-- A subject is found up to its end. -/
theorem IsSubject.subjectLength (h : IsSubject ns head groups rest) :
    subjectLength (ns ++ head :: (groups.flatten ++ rest)) =
      some (ns.length + 1 + groups.flatten.length) := by
  have hdisjoint : ∀ k ∈ simpleKinds, k ∉ newlines := by decide
  rw [subjectLength_append h.leads (hdisjoint _ h.simple), if_pos h.simple]
  by_cases hreference : head.kind ∈ referenceHeads
  · rw [if_pos hreference, groupsLength_flatten h.grouped (h.next hreference)]
    rfl
  · rw [if_neg hreference, h.indexed hreference]
    rfl

/-- What is found is a subject. -/
theorem exists_subject (h : subjectLength tokens = some n) :
    ∃ ns head groups rest, IsSubject ns head groups rest ∧
      tokens = ns ++ head :: (groups.flatten ++ rest) ∧
      n = ns.length + 1 + groups.flatten.length := by
  obtain ⟨ns, hns, htokens⟩ := Plain.significant_eq newlines tokens
  cases hsignificant : Lookahead.significant newlines tokens with
  | nil =>
    rw [subjectLength, drop_takeWhile_length, hsignificant] at h
    cases h
  | cons head after =>
    rw [hsignificant] at htokens
    subst htokens
    rw [subjectLength_append hns (Plain.significant_head hsignificant)] at h
    by_cases hsimple : head.kind ∈ simpleKinds
    · by_cases hreference : head.kind ∈ referenceHeads
      · rw [if_pos hsimple, if_pos hreference] at h
        obtain ⟨m, hm, rfl⟩ := Option.map_eq_some_iff.mp h
        obtain ⟨groups, rest, rfl, hgroups, hrest, rfl⟩ := exists_groups hm
        exact ⟨ns, head, groups, rest,
          ⟨hns, hsimple, hgroups, fun h => absurd hreference h, fun _ => hrest⟩, rfl, rfl⟩
      · rw [if_pos hsimple, if_neg hreference] at h
        cases h
        exact ⟨ns, head, [], after,
          ⟨hns, hsimple, by simp, fun _ => rfl, fun h => absurd h hreference⟩, rfl, rfl⟩
    · rw [if_neg hsimple] at h
      cases h

end

/-- The position after the subject that is ahead of a cursor. -/
def subjectEnd (c : Cursor) : Option Nat :=
  (subjectLength c.ahead).map (c.position + ·)

/-- Brackets are matched by counting.  From a bracket on, no depth of zero is taken down; what is
found is the first token up to which as many brackets are closed as opened, and nothing is found if
there is no such token.  So the end of the subject ahead of a cursor is after the cursor and not
after the last token, and up to there stand newlines, one simple token and matched groups; after a
token that can be indexed no further bracket follows them.  All subjects of this form are found. -/
theorem brackets_counted :
    (∀ (tokens : List Token) (opening : Nat),
      (tokens[opening]?).map (·.kind) = some .leftBracket →
        checkedLength 0 (tokens.drop opening) = some (groupLength 0 (tokens.drop opening)) ∧
        (∀ i, closingIndex tokens opening = some i ↔
          EvenTo tokens opening i ∧ ∀ j < i, ¬EvenTo tokens opening j) ∧
        (closingIndex tokens opening = none ↔ ∀ i, ¬EvenTo tokens opening i)) ∧
    ∀ (c : Cursor) (e : Nat), subjectEnd c = some e ↔
      c.position < e ∧ e ≤ c.toList.length ∧
      ∃ ns head groups rest, IsSubject ns head groups rest ∧
        c.toList.drop c.position = ns ++ head :: (groups.flatten ++ rest) ∧
        e = c.position + (ns.length + 1 + groups.flatten.length) := by
  constructor
  · intro tokens opening hopening
    obtain ⟨t, hget, ht⟩ := Option.map_eq_some_iff.mp hopening
    have hdrop : tokens.drop opening = t :: tokens.drop (opening + 1) := by
      obtain ⟨hlt, rfl⟩ := List.getElem?_eq_some_iff.mp hget
      exact List.drop_eq_getElem_cons hlt
    refine ⟨?_, fun i => closingIndex_eq_some_iff hdrop ht, closingIndex_eq_none_iff hdrop ht⟩
    rw [hdrop, checkedLength, if_pos (by simp [ht]), checkedLength_eq, groupLength_bracket ht]
    rfl
  · intro c e
    rw [subjectEnd, Option.map_eq_some_iff, c.drop_position, c.length_toList]
    constructor
    · rintro ⟨n, hn, rfl⟩
      have hle := subjectLength_le hn
      obtain ⟨ns, head, groups, rest, h, htokens, rfl⟩ := exists_subject hn
      exact ⟨by omega, by omega, ns, head, groups, rest, h, htokens, rfl⟩
    · rintro ⟨-, -, ns, head, groups, rest, h, htokens, rfl⟩
      exact ⟨_, htokens ▸ h.subjectLength, rfl⟩

/-- A newline, a variable with a nested and an empty group, and one closing bracket too many. -/
theorem brackets_counted_of_nested :
    let tokens : List Token :=
      [⟨.newline, "\n", 1⟩, ⟨.dollarVar, "$a", 2⟩, ⟨.leftBracket, "[", 2⟩, ⟨.leftBracket, "[", 2⟩,
       ⟨.rightBracket, "]", 2⟩, ⟨.comma, ",", 2⟩, ⟨.rightBracket, "]", 2⟩, ⟨.leftBracket, "[", 2⟩,
       ⟨.rightBracket, "]", 2⟩, ⟨.rightBracket, "]", 2⟩]
    checkedLength 0 (tokens.drop 2) = some (some 5) ∧
      EvenTo tokens 2 6 ∧ (∀ j < 6, ¬EvenTo tokens 2 j) ∧
      ∃ ns head groups rest, IsSubject ns head groups rest ∧
        tokens = ns ++ head :: (groups.flatten ++ rest) ∧
        9 = ns.length + 1 + groups.flatten.length := by
  intro tokens
  obtain ⟨hmatching, hsubject⟩ := brackets_counted
  obtain ⟨hchecked, hsome, -⟩ := hmatching tokens 2 rfl
  obtain ⟨heven, hfirst⟩ := (hsome 6).mp (by decide)
  obtain ⟨-, -, ns, head, groups, rest, h, htokens, he⟩ :=
    (hsubject (.ofList tokens) 9).mp (by decide +kernel)
  exact ⟨hchecked.trans (by decide), heven, hfirst, ns, head, groups, rest, h, htokens,
    he.trans (Nat.zero_add _)⟩

end TidyManifest.Parse
