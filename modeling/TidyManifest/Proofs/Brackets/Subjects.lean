import TidyManifest.Proofs.Brackets.Groups
import TidyManifest.Proofs.Progress.Descent

/-!
# Subjects, counted and read

What a selector chooses by, and what an override changes, is recognised by counting brackets and
read by the rules of references and simple values.  Both find the same end as long as the index lists
of a reference follow each other directly (`subjects_agree`).

They part where an index list stands on a later line.  Counting stops at the newline; reading goes on,
because a list is recognised behind newlines and skips them.  Then neither a selector nor an override
is recognised (`subject_on_two_lines`).
-/

namespace TidyManifest

namespace Parse

open Grammar

/-- What counting leaves out of a subject: nothing, or index lists of which the first stands behind a
newline. -/
def Overlooked (v : List Token) : Prop :=
  v = [] ∨
    v.head?.map (·.kind) = some .newline ∧ Lookahead.startsWith [.leftBracket] newlines v = true

/-- Groups are no longer than the tokens. -/
theorem groupsLength_le {n : Nat} {tokens : List Token} (h : groupsLength tokens = some n) :
    n ≤ tokens.length := by
  by_cases hfirst : tokens.head?.map (·.kind) = some .leftBracket
  · obtain ⟨_, hlast, -, _⟩ := groupsLength_last h hfirst
    obtain ⟨hlt, -⟩ := List.getElem?_eq_some_iff.mp hlast
    omega
  · rw [groupsLength_other hfirst] at h
    cases h
    exact Nat.zero_le _

/-- A subject is no longer than the tokens. -/
theorem subjectLength_le {n : Nat} {tokens : List Token} (h : subjectLength tokens = some n) :
    n ≤ tokens.length := by
  unfold subjectLength at h
  dsimp only at h
  generalize (tokens.takeWhile (·.isOneOf newlines)).length = lead at h
  cases hdrop : tokens.drop lead with
  | nil => rw [hdrop] at h; cases h
  | cons t rest =>
    have hlength : tokens.length - lead = rest.length + 1 := by
      rw [← List.length_drop, hdrop, List.length_cons]
    rw [hdrop] at h
    dsimp only at h
    split at h
    · split at h
      · obtain ⟨m, hm, rfl⟩ := Option.map_eq_some_iff.mp h
        have := groupsLength_le hm
        omega
      · cases h
        omega
    · cases h

/-- The length of a subject, from what is after it. -/
theorem subjectLength_of_afterSubject {w rest : List Token}
    (h : afterSubject (w ++ rest) = some rest) : subjectLength (w ++ rest) = some w.length := by
  have heq := subjectLength_eq (w ++ rest)
  rw [h] at heq
  obtain ⟨n, hn, hdrop⟩ := Option.map_eq_some_iff.mp heq
  have hle := subjectLength_le hn
  have hlength := congrArg (List.length ·.1) hdrop
  simp only [List.length_drop, List.length_append] at hlength hle
  rw [hn, show n = w.length by omega]

end Parse

namespace Plain

open Parse Grammar

variable {n : Nat} {parent : Category} {tokens rest : List Token} {p : Phrase}

/-- What a level chooses is recognised and read by a level below it. -/
theorem level_choose_eq_some {categories : List Category}
    (h : (level n).choose categories parent tokens = .ok (some (p, rest))) :
    ∃ m, ∃ category ∈ categories, accepts (level m) category parent tokens = true ∧
      phrase (level m) category tokens = .ok (some (p, rest)) := by
  cases n with
  | zero => cases h
  | succ n => exact ⟨n, chooseFrom_eq_some h⟩

/-- An index list may stand behind newlines, and counting from its bracket finds its end. -/
theorem level_choose_list (h : (level n).choose [.list] parent tokens = .ok (some (p, rest))) :
    ∃ ns t w, tokens = ns ++ t :: (w ++ rest) ∧ (∀ t ∈ ns, t.kind = .newline) ∧
      t.kind = .leftBracket ∧ afterGroup 0 (t :: (w ++ rest)) = some rest := by
  obtain ⟨m, category, hmem, haccepts, hphrase⟩ := level_choose_eq_some h
  obtain rfl : category = .list := List.mem_singleton.mp hmem
  obtain ⟨ns, hns, htokens⟩ := significant_eq newlines tokens
  have hsame : phrase (level m) .list (Lookahead.significant newlines tokens) =
      .ok (some (p, rest)) := by
    rw [← hphrase, phrase, phrase, Lookahead.significant_significant]
  obtain ⟨-, w, hw, hspells⟩ :=
    phrase_sound (level_sound m) (show Recognised parent .list _ from trivial) hsame
  obtain ⟨t, w, rfl⟩ := List.exists_cons_of_length_pos hspells.length_pos
  have hbracket : t.kind = .leftBracket := by
    have hfits : Lookahead.startsWith [.leftBracket] newlines tokens = true := by
      simpa [accepts, Category.rule, atPattern, fits_single] using haccepts
    simpa [Lookahead.startsWith, Lookahead.peek, hw, Token.isOneOf] using hfits
  rw [hw] at htokens hsame
  exact ⟨ns, t, w, htokens, fun t ht => List.mem_singleton.mp (hns t ht), hbracket,
    afterGroup_of_phrase (level_sound m) hbracket hsame⟩

/-- The index lists of a reference. -/
def indexes : Step :=
  ((Step.oneOf [.list]).named "indexes").many.sameLine

/-- An index of a reference is a list. -/
theorem once_indexes {trace : Trace Phrase}
    (h : once (level n) .reference indexes tokens = .ok (some (trace, rest))) :
    ∃ p, (level n).choose [.list] .reference tokens = .ok (some (p, rest)) := by
  obtain ⟨p, _, hp, heq⟩ := andThen_eq_some (show andThen _ _ = _ from h)
  cases heq
  exact ⟨p, hp⟩

/-- Counting passes over an index list that stands directly ahead, and over none that stands behind a
newline. -/
theorem afterGroups_of_list (h : (level n).choose [.list] parent tokens = .ok (some (p, rest))) :
    (∃ w, tokens = w ++ rest ∧ afterGroups tokens = afterGroups rest) ∨
      ∃ v, tokens = v ++ rest ∧ afterGroups tokens = some tokens ∧
        v.head?.map (·.kind) = some .newline ∧
        Lookahead.startsWith [.leftBracket] newlines v = true := by
  obtain ⟨ns, t, w, rfl, hns, ht, hgroup⟩ := level_choose_list h
  cases ns with
  | nil =>
    refine .inl ⟨t :: w, rfl, ?_⟩
    rw [List.nil_append, afterGroups_bracket ht, hgroup, Option.bind_some]
  | cons newline ns =>
    have hnewline : newline.kind = .newline := hns newline (by simp)
    refine .inr ⟨newline :: (ns ++ t :: w), by simp, afterGroups_other (by simp [hnewline]),
      by simp [hnewline], ?_⟩
    have hskip : Lookahead.significant newlines (newline :: (ns ++ t :: w)) = t :: w := by
      rw [← List.cons_append, Lookahead.significant, List.dropWhile_append_of_pos
        fun t ht => by simp [Token.isOneOf, hns t ht, newlines]]
      exact Lookahead.significant_cons (by rw [ht]; decide) w
    simp [Lookahead.startsWith, Lookahead.peek, hskip, Token.isOneOf, ht]

/-- How tokens start does not depend on what follows them. -/
theorem startsWith_append {kinds skip : List Kind} {u : List Token}
    (h : Lookahead.startsWith kinds skip u = true) (v : List Token) :
    Lookahead.startsWith kinds skip (u ++ v) = true := by
  simp only [Lookahead.startsWith, Lookahead.peek, Lookahead.significant] at h ⊢
  rw [List.dropWhile_append]
  cases hdrop : u.dropWhile (·.isOneOf skip) with
  | nil => rw [hdrop] at h; cases h
  | cons t rest => rw [hdrop] at h; simpa using h

/-- Counting index lists comes as far as reading them, or leaves out those from a later line on. -/
def CountedTo (tokens rest : List Token) : Prop :=
  ∃ w v, tokens = w ++ (v ++ rest) ∧ afterGroups tokens = some (v ++ rest) ∧ Overlooked v

/-- One more index list in front. -/
theorem CountedTo.cons {trace : Trace Phrase} {middle : List Token}
    (h : once (level n) .reference indexes tokens = .ok (some (trace, middle)))
    (hmore : CountedTo middle rest) : CountedTo tokens rest := by
  obtain ⟨p, hp⟩ := once_indexes h
  obtain ⟨w, v, rfl, hgroups, hv⟩ := hmore
  rcases afterGroups_of_list hp with ⟨u, rfl, heq⟩ | ⟨u, rfl, heq, hnewline, hbracket⟩
  · exact ⟨u ++ w, v, by simp, heq.trans hgroups, hv⟩
  · refine ⟨[], u ++ (w ++ v), by simp, by simpa using heq, .inr ⟨?_, startsWith_append hbracket _⟩⟩
    cases u with
    | nil => cases hnewline
    | cons t u => exact hnewline

/-- Reading index lists as long as there are any, next to counting them. -/
theorem countedTo_of_again {k : Nat} {trace : Trace Phrase}
    (h : again (fun tokens => once (level n) .reference indexes tokens) k tokens =
      .ok (trace, rest))
    (hrest : rest.head?.map (·.kind) ≠ some .leftBracket) : CountedTo tokens rest := by
  induction k generalizing tokens trace with
  | zero => cases h
  | succ k ih =>
    rw [again] at h
    split at h
    · cases h
    · cases h
      exact ⟨[], [], rfl, afterGroups_other hrest, .inl rfl⟩
    · rename_i first middle hfirst
      obtain ⟨p, hp⟩ := once_indexes hfirst
      have hlt := (level_sound n).progress hp
      rw [if_neg (by omega)] at h
      split at h
      · cases h
      · rename_i more last hmore
        cases h
        exact .cons hfirst (ih hmore)

/-- The index lists of a reference, of which there is at least one. -/
theorem countedTo_of_indexes {trace : Trace Phrase}
    (h : inOrder (level n) .reference [indexes] tokens = .ok (some (trace, rest)))
    (hrest : rest.head?.map (·.kind) ≠ some .leftBracket) : CountedTo tokens rest := by
  rw [inOrder] at h
  obtain ⟨_, _, hused, h₁⟩ := andThen_eq_some h
  obtain ⟨_, _, hnil, h₂⟩ := andThen_eq_some h₁
  cases h₂
  rw [inOrder] at hnil
  cases hnil
  rw [used] at hused
  split at hused
  · cases hused
  · cases hused
  · rename_i first middle hfirst
    rw [if_pos (by rfl)] at hused
    split at hused
    · cases hused
    · rename_i more last hmore
      cases hused
      exact .cons hfirst (countedTo_of_again hmore hrest)

/-- What is after a reference, as counting sees it. -/
theorem afterSubject_of_reference
    (h : phrase (level n) .reference tokens = .ok (some (p, rest)))
    (hpattern : atPattern Category.reference.rule tokens = true)
    (hrest : rest.head?.map (·.kind) ≠ some .leftBracket) :
    ∃ w v, tokens = w ++ (v ++ rest) ∧ afterSubject tokens = some (v ++ rest) ∧ Overlooked v ∧
      indexed tokens = true := by
  obtain ⟨head, opening, tokens, rfl, hhead, hopening⟩ :=
    fits_pair (by simpa [atPattern, Category.rule] using hpattern)
  have hkinds : ∀ k ∈ referenceHeads, k ∉ newlines ∧ k ∈ simpleKinds := by decide
  obtain ⟨hnewline, hsimple⟩ := hkinds head.kind hhead
  obtain ⟨_, hsteps, -⟩ := phrase_eq_some (level_sound n) (by decide) h
  rw [Lookahead.significant_cons hnewline] at hsteps
  obtain ⟨_, _, _, heq, -, hindexes, -⟩ := inOrder_token_inv rfl rfl hsteps
  rw [lead_cons (by simpa [newlines] using hnewline)] at heq
  cases heq
  obtain ⟨w, v, htokens, hgroups, hv⟩ := countedTo_of_indexes hindexes hrest
  refine ⟨head :: w, v, by rw [htokens]; rfl, ?_, hv, ?_⟩
  · rw [afterSubject, Lookahead.significant_cons hnewline]
    simp only [Token.isOneOf, List.contains_eq_mem, hsimple, hhead, hgroups, decide_true, if_true]
  · rw [indexed, Lookahead.significant_cons hnewline]
    simp [Token.isOneOf, hhead, List.mem_singleton.mp hopening]

/-- What is after a simple value, as counting sees it. -/
theorem afterSubject_of_simple
    (h : phrase (level n) .simple tokens = .ok (some (p, rest)))
    (hrest : rest.head?.map (·.kind) ≠ some .leftBracket) :
    ∃ w, tokens = w ++ rest ∧ afterSubject tokens = some rest := by
  obtain ⟨_, hsteps, -⟩ := phrase_eq_some (level_sound n) (by decide) h
  obtain ⟨t, middle, _, hlead, ht, hnil, -⟩ := inOrder_token_inv rfl rfl hsteps
  rw [inOrder] at hnil
  cases hnil
  obtain ⟨ns, -, htokens⟩ := significant_eq newlines tokens
  have hsignificant : Lookahead.significant newlines tokens = t :: rest := by
    rw [← Lookahead.significant_significant]
    exact hlead
  have hsimple : t.isOneOf simpleKinds = true := by simpa [Token.isOneOf] using ht
  refine ⟨ns ++ [t], by rw [hsignificant] at htokens; simpa using htokens, ?_⟩
  rw [afterSubject, hsignificant]
  dsimp only
  rw [if_pos hsimple, afterGroups_other hrest, ite_self]

/-- A subject that is read, next to what counting finds of it. -/
theorem level_choose_subject
    (h : (level n).choose [.reference, .simple] parent tokens = .ok (some (p, rest)))
    (hrest : rest.head?.map (·.kind) ≠ some .leftBracket) :
    ∃ w v, tokens = w ++ (v ++ rest) ∧ afterSubject tokens = some (v ++ rest) ∧ Overlooked v ∧
      (p.category = .reference → indexed tokens = true) := by
  obtain ⟨m, category, hmem, haccepts, hphrase⟩ := level_choose_eq_some h
  have hcategory := (phrase_sound (level_sound m) (recognised_of_accepts haccepts) hphrase).1
  obtain rfl | rfl : category = .reference ∨ category = .simple := by simpa using hmem
  · obtain ⟨w, v, htokens, hafter, hv, hindexed⟩ :=
      afterSubject_of_reference hphrase (by simpa [accepts, Category.rule] using haccepts) hrest
    exact ⟨w, v, htokens, hafter, hv, fun _ => hindexed⟩
  · obtain ⟨w, htokens, hafter⟩ := afterSubject_of_simple hphrase hrest
    exact ⟨w, [], htokens, hafter, .inl rfl, fun h => by rw [hcategory] at h; cases h⟩

end Plain

namespace Parse

open Grammar

variable {mode : SplitMode} {n : Nat} {parent id : NodeId} {s s' : State}

/-- The node of a phrase that was added has its category. -/
theorem Advanced.category_eq {owner : NodeId} {level : Int} {p : Phrase} {rest : List Token}
    (h : Advanced owner level s [p] rest s') : s'.tree.category s.tree.size = p.category := by
  have hstarts := category_starts s.tree [] [] owner level [p]
  rw [List.length_nil, List.nil_append, List.append_nil, Nat.add_zero, ← h.tree] at hstarts
  simpa [Phrase.starts] using hstarts

/-- A subject that is read, and is not followed by a bracket, is found by counting up to its end or up
to an index list behind a newline.  If it is found to its end, then it starts a selector where a
question mark follows, and, as a reference, it starts a resource where a brace follows. -/
theorem subjects_agree (hparent : parent < s.tree.size)
    (h : (descent mode n).choose [.reference, .simple] parent s = .ok (some id) s')
    (hnext : s'.cursor.currentKind ≠ some .leftBracket) :
    ∃ w v, s.ahead = w ++ (v ++ s'.ahead) ∧ subjectLength s.ahead = some w.length ∧ Overlooked v ∧
      (v = [] →
        (Lookahead.startsWith [.question] newlines s'.ahead = true → ∀ m categories,
          chooseFrom mode (descent mode m) (.selector :: categories) parent s =
            readCategory mode (descent mode m) .selector parent s) ∧
        (s'.tree.category id = .reference →
          Lookahead.startsWith [.leftBrace] newlines s'.ahead = true → ∀ m categories,
            chooseFrom mode (descent mode m) (.resource :: categories) parent s =
              readCategory mode (descent mode m) .resource parent s)) := by
  have hkeeps : [Category.reference, .simple].all (keepsWhole (s.tree.category parent)) = true := rfl
  have hchosen := (descent_follows mode n).choose (Owns.of_lt hparent) (.inr hkeeps)
  rw [h] at hchosen
  generalize ho : (Plain.level n).choose [.reference, .simple] (s.tree.category parent) s.ahead = o
    at hchosen
  cases hchosen with
  | @some p rest _ hadvanced =>
    rw [hadvanced.ahead]
    have hrest : rest.head?.map (·.kind) ≠ some .leftBracket := by
      rw [← hadvanced.ahead]
      exact hnext
    obtain ⟨w, v, htokens, hafter, hv, hindexed⟩ := Plain.level_choose_subject ho hrest
    refine ⟨w, v, htokens, ?_, hv, ?_⟩
    · rw [htokens] at hafter ⊢
      exact subjectLength_of_afterSubject hafter
    · rintro rfl
      rw [List.nil_append] at hafter
      have hfollows := descent_follows mode
      refine ⟨fun hquestion m =>
          chooseFrom_of_accepts (hfollows m) (by decide) (by decide) (.of_lt hparent) ?_,
        fun hcategory hbrace m =>
          chooseFrom_of_accepts (hfollows m) (by decide) (by decide) (.of_lt hparent) ?_⟩
      · rw [Plain.accepts, atSelector_eq, hafter]
        exact hquestion
      · rw [hadvanced.category_eq] at hcategory
        rw [Plain.accepts, atResource, atOverride_eq, hindexed hcategory, hafter]
        simp [hbrace]

/-- A variable with an index that is itself indexed, in front of a question mark. -/
theorem subjects_agree_of_nested :
    let tokens : List Token :=
      [⟨.dollarVar, "$a", 1⟩, ⟨.leftBracket, "[", 1⟩, ⟨.dollarVar, "$b", 1⟩, ⟨.leftBracket, "[", 1⟩,
       ⟨.number, "1", 1⟩, ⟨.rightBracket, "]", 1⟩, ⟨.newline, "\n", 1⟩, ⟨.rightBracket, "]", 2⟩,
       ⟨.question, "?", 2⟩]
    ∃ s', (descent .splice 20).choose [.reference, .simple] Tree.root (.start tokens) =
        .ok (some 1) s' ∧
      s'.cursor.currentKind ≠ some .leftBracket ∧
      ∃ w v, tokens = w ++ (v ++ s'.ahead) ∧ subjectLength tokens = some w.length ∧ Overlooked v := by
  intro tokens
  have hchosen : ((descent .splice 20).choose [.reference, .simple] Tree.root).run' (.start tokens) =
      some (some 1) := by decide +kernel
  have hkind : (ending ((descent .splice 20).choose [.reference, .simple] Tree.root
      (.start tokens))).cursor.currentKind ≠ some .leftBracket := by decide +kernel
  obtain ⟨s', h⟩ := ok_of_run' hchosen
  rw [h] at hkind
  obtain ⟨w, v, htokens, hlength, hv, -⟩ := subjects_agree Nat.one_pos h hkind
  exact ⟨s', h, hkind, w, v, htokens, hlength, hv⟩

/-- Counting and reading part at a newline between two index lists: the reference is read up to the
question mark, counting ends after the first list, and no selector is recognised. -/
theorem subject_on_two_lines :
    let tokens : List Token :=
      [⟨.dollarVar, "$a", 1⟩, ⟨.leftBracket, "[", 1⟩, ⟨.number, "1", 1⟩, ⟨.rightBracket, "]", 1⟩,
       ⟨.newline, "\n", 1⟩, ⟨.leftBracket, "[", 2⟩, ⟨.number, "2", 2⟩, ⟨.rightBracket, "]", 2⟩,
       ⟨.question, "?", 2⟩]
    (∃ s', (descent .splice 20).choose [.reference, .simple] Tree.root (.start tokens) =
        .ok (some 1) s' ∧ s'.ahead = [⟨.question, "?", 2⟩]) ∧
      subjectLength tokens = some 4 ∧ atSelector tokens = false := by
  intro tokens
  have hchosen : ((descent .splice 20).choose [.reference, .simple] Tree.root).run' (.start tokens) =
      some (some 1) := by decide +kernel
  have hahead : (ending ((descent .splice 20).choose [.reference, .simple] Tree.root
      (.start tokens))).ahead = [⟨.question, "?", 2⟩] := by decide +kernel
  obtain ⟨s', h⟩ := ok_of_run' hchosen
  rw [h] at hahead
  exact ⟨⟨s', h, hahead⟩, by decide +kernel, by decide +kernel⟩

end Parse

end TidyManifest
