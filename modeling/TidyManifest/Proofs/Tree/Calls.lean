import TidyManifest.Proofs.Plain.Found
import TidyManifest.Proofs.Plain.Values
import TidyManifest.Proofs.Tree.Parsed

/-!
# Calls without parentheses

A few functions may be called without parentheses, but only where a statement is expected.  A call is
recognised in two ways: by the parenthesis directly after its name, or as a statement by the name
alone.  Its rule then tries both branches again and does not know which way it was.

The second branch is nevertheless left to the calls that were recognised by name: where the
parenthesis is there, whatever the second branch reads begins with a term in parentheses, and the
first branch reads that too.  So every call without parentheses stands below a node that takes
statements, and has one of the names (`parse_bareCalls`).
-/

namespace TidyManifest

open Grammar

namespace Plain

open Parse

variable {d : Oracle} {tokens rest : List Token} {p : Phrase} {name : Token} {args : List Phrase}
  {parenthesized : Bool}

/-- The name of a call is the token that it starts with. -/
theorem phrase_call_name (hd : Sound d) (h : phrase d .call tokens = .ok (some (p, rest)))
    (hp : p.form = .call name args parenthesized) :
    ∃ more, Lookahead.significant newlines tokens = name :: more := by
  obtain ⟨trace, hsteps, schema⟩ := phrase_eq_some hd (by decide) h
  have hfirst := inOrder_firstOf_inv hsteps
  rw [lead_significant] at hfirst
  -- both branches start with the name
  have hhead {steps : List Step}
      (h : inOrder d .call ((Step.expect [.name]).named "name" :: steps)
        (Lookahead.significant newlines tokens) = .ok (some (trace, rest))) :
      ∃ t more, Lookahead.significant newlines tokens = t :: more ∧
        trace.head? = some (Plain.named "name" t) := by
    obtain ⟨t, more, _, hlead, -, -, rfl⟩ := inOrder_token_inv rfl rfl h
    rw [lead_significant] at hlead
    exact ⟨t, more, hlead, rfl⟩
  obtain ⟨t, more, hahead, htrace⟩ : ∃ t more, Lookahead.significant newlines tokens = t :: more ∧
      trace.head? = some (Plain.named "name" t) := by
    rw [firstOf] at hfirst
    split at hfirst
    · rw [firstOf] at hfirst
      split at hfirst
      · cases hfirst
      · exact hhead hfirst
    · exact hhead hfirst
  refine ⟨more, ?_⟩
  rw [hp] at schema
  cases schema with
  | call | bareCall =>
    cases htrace
    exact hahead

/-- A call that is read without parentheses was not recognised by a parenthesis after its name, but
as a statement, by its name. -/
theorem bare_of_accepts {parent : Category} (haccepts : accepts full .call parent tokens = true)
    (h : phrase full .call tokens = .ok (some (p, rest))) (hp : p.form = .call name args false) :
    atPattern Category.call.rule tokens = false ∧ parent.takesStatements = true ∧
      name.text ∈ bareFunctions := by
  have hpattern : atPattern Category.call.rule tokens = false := by
    refine Bool.eq_false_iff.mpr fun hpattern => ?_
    cases parenthesized_of_pattern h hpattern hp
  obtain ⟨more, hahead⟩ := phrase_call_name full_sound h hp
  simp only [accepts, hpattern, Bool.false_or, Bool.and_eq_true, atPlainCall, Lookahead.peek, hahead,
    List.head?_cons, Option.any_some, List.contains_iff_mem] at haccepts
  exact ⟨hpattern, haccepts.1, haccepts.2.2⟩

end Plain

namespace Phrase

/-- Calls without parentheses stand below a parent that takes statements, here and in all parts. -/
inductive BareCalls : Category → Phrase → Prop
  | intro {parent : Category} {p : Phrase}
      (own : ∀ name args, p.form = .call name args false →
        parent.takesStatements = true ∧ name.text ∈ bareFunctions)
      (below : ∀ q ∈ p.children, BareCalls p.category q) : BareCalls parent p

variable {parent : Category} {p : Phrase}

/-- A call without parentheses stands among statements and names one of some functions. -/
theorem BareCalls.own (h : BareCalls parent p) {name : Token} {args : List Phrase}
    (hp : p.form = .call name args false) :
    parent.takesStatements = true ∧ name.text ∈ bareFunctions := by
  cases h with
  | intro own _ => exact own name args hp

/-- The calls of a phrase are those of its children as well. -/
theorem BareCalls.child (h : BareCalls parent p) {q : Phrase} (hq : q ∈ p.children) :
    BareCalls p.category q := by
  cases h with
  | intro _ below => exact below q hq

/-- Splitting leaves calls where they are. -/
theorem BareCalls.split (h : BareCalls parent p) : ∀ q ∈ p.split, BareCalls parent q := by
  induction p using induct generalizing parent with
  | step p ih =>
    by_cases hresource : ∃ sigil token items, p.form = .resource sigil (.type token) none true items
    · obtain ⟨sigil, token, items, hform⟩ := hresource
      obtain ⟨line, form⟩ := p
      obtain rfl : form = _ := hform
      rw [split_resource, resources, List.forall_mem_map]
      intro part hpart
      refine .intro (fun _ _ hcall => by cases hcall) fun q hq => h.child ?_
      exact Layout.mem_of_mem_cutSections hpart hq
    · rw [split_other fun sigil token items hform => hresource ⟨sigil, token, items, hform⟩]
      intro q hq
      obtain rfl := List.mem_singleton.mp hq
      have hcategory : category ⟨p.line, p.form.withBodies id Phrase.split⟩ = p.category :=
        Form.category_withBodies ..
      refine .intro (fun name args hcall => ?_) fun q hq => ?_
      · have hcall' : p.form.category = .call := by
          rw [← category, ← hcategory, category, hcall]
          rfl
        rw [form_mk, Form.withBodies_id (by rw [hcall']; rfl)] at hcall
        exact h.own hcall
      · rw [hcategory]
        rcases Form.mem_children_withBodies hq with hq | ⟨s, hs, hq⟩
        · exact h.child hq
        · exact ih s hs (h.child hs) q hq

end Phrase

/-- The statements of a manifest were found in it. -/
theorem Plain.manifest_finds {tokens : List Token} {ps : List Phrase}
    (h : manifest (Parse.levels tokens) tokens = .ok ps) : ∀ p ∈ ps, Found .manifest p := by
  rw [Plain.manifest_eq, full_statements] at h
  cases hread : statements full .manifest none (tokens.length + 1) tokens with
  | error f =>
    rw [hread] at h
    cases h
  | ok r =>
    rw [hread] at h
    cases h
    exact statements_finds hread

/-- Whatever is found has its calls without parentheses at statements. -/
theorem Plain.Found.bareCalls {parent : Category} {p : Phrase} (h : Found parent p) :
    p.BareCalls parent := by
  induction p using Phrase.induct generalizing parent with
  | step p ih =>
    refine .intro (fun name args hp => ?_) fun q hq => ih q hq (h.child hq)
    obtain ⟨tokens, rest, haccepts, hphrase⟩ := h.call (by rw [Phrase.category, hp]; rfl)
    exact (bare_of_accepts haccepts hphrase hp).2

/-- Contents that are a call once their children are put in were a call before. -/
theorem Form.eq_call_of_withChildren {α β : Type} {default : β} {ids args : List β} {form : Form α}
    {name : Token} {parenthesized : Bool}
    (h : form.withChildren default ids = .call name args parenthesized) :
    ∃ args', form = .call name args' parenthesized := by
  have hcategory : form.category = .call := by
    rw [← category_withChildren default ids, h]
    rfl
  cases form with
  | call name' args' parenthesized' =>
    cases h
    exact ⟨args', rfl⟩
  | pending => cases h
  | _ => cases hcategory

/-- A call without parentheses is a statement of its parent and calls a function that may be called
so.  At no level and in no state is a call that was recognised by the parenthesis after its name
read without parentheses. -/
theorem parse_bareCalls (mode : SplitMode) :
    (∀ tokens t, parse mode tokens = .ok t →
      ∀ id < t.size, ∀ name args, t.form id = .call name args false →
        ∃ parent, (t.node id).parent = some parent ∧
          (t.category parent).takesStatements = true ∧ name.text ∈ bareFunctions) ∧
    ∀ n categories parent s id s', parent < s.tree.size →
      (Parse.descent mode n).choose categories parent s = .ok (some id) s' →
        Parse.atPattern Category.call.rule s.ahead = true →
          ∀ name args parenthesized, s'.tree.form id = .call name args parenthesized →
            parenthesized = true := by
  refine ⟨fun tokens t h id hlt name args hform => ?_,
    fun n categories parent s id s' hparent h hpattern name args parenthesized hform => ?_⟩
  · obtain ⟨ps, hps, rfl⟩ := parse_eq_ok h
    have hcalls : ∀ p ∈ mode.statements ps, p.BareCalls .manifest := by
      have hfound := Plain.manifest_finds hps
      cases mode with
      | render => exact fun p hp => (hfound p hp).bareCalls
      | splice =>
        intro q hq
        obtain ⟨p, hp, hq⟩ := List.mem_flatMap.mp hq
        exact (hfound p hp).bareCalls.split q hq
    have hpos : 0 < id := by
      refine Nat.pos_of_ne_zero ?_
      rintro rfl
      cases hform
    rw [Tree.size_ofPhrases] at hlt
    obtain ⟨parent, p, hstands, hp⟩ :=
      (Tree.stands_ofPhrases _).find (fun h q hq => h.child hq) hcalls hpos hlt
    have hp' : p.form.withChildren 0 (Phrase.starts (id + 1) p.children) = .call name args false := by
      rw [← hform, Tree.form, hstands.node_eq]
      rfl
    obtain ⟨args', hp'⟩ := Form.eq_call_of_withChildren hp'
    exact ⟨parent, by rw [hstands.node_eq]; rfl, hp.own hp'⟩
  · have hcategory : (s'.tree.form id).category = .call := by rw [hform]; rfl
    obtain ⟨m, p, rest, -, hphrase, hp⟩ := Parse.choose_phrase hparent h hcategory rfl
    have hfull := Plain.phrase_eq_full (by decide) m hphrase
    obtain ⟨args', hp⟩ := Form.eq_call_of_withChildren (hp.symm.trans hform)
    exact Plain.parenthesized_of_pattern hfull hpattern hp

/-- A statement that calls a function without parentheses, with a call in parentheses as its argument,
and a statement with a parenthesis after the name. -/
theorem parse_bareCalls_of_class :
    let tokens : List Token :=
      [⟨.kwClass, "class", 1⟩, ⟨.name, "a", 1⟩, ⟨.leftBrace, "\x7b", 1⟩, ⟨.name, "notice", 1⟩,
       ⟨.name, "fail", 1⟩, ⟨.leftParen, "(", 1⟩, ⟨.number, "1", 1⟩, ⟨.rightParen, ")", 1⟩,
       ⟨.rightBrace, "\x7d", 1⟩]
    let tokens' : List Token :=
      [⟨.name, "notice", 1⟩, ⟨.leftParen, "(", 1⟩, ⟨.number, "1", 1⟩, ⟨.rightParen, ")", 1⟩]
    (∃ t, parse .splice tokens = .ok t ∧ t.form 2 = .call ⟨.name, "notice", 1⟩ [3] false ∧
      ∃ parent, (t.node 2).parent = some parent ∧ (t.category parent).takesStatements = true ∧
        "notice" ∈ bareFunctions) ∧
    ∃ s' name args parenthesized,
      (Parse.descent .splice 20).choose [.call] Tree.root (.start tokens') = .ok (some 1) s' ∧
        s'.tree.form 1 = .call name args parenthesized ∧ parenthesized = true := by
  intro tokens tokens'
  have hok : (parse .splice tokens).toOption.map (fun t => (decide (2 < t.size), t.form 2)) =
      some (true, .call ⟨.name, "notice", 1⟩ [3] false) := by decide +kernel
  have hchosen : ((Parse.descent .splice 20).choose [.call] Tree.root).run' (.start tokens') =
      some (some 1) := by decide +kernel
  have hform : ∃ name args parenthesized,
      (Parse.ending ((Parse.descent .splice 20).choose [.call] Tree.root
        (.start tokens'))).tree.form 1 = .call name args parenthesized :=
    ⟨⟨.name, "notice", 1⟩, [2], true, by decide +kernel⟩
  constructor
  · rcases hparse : parse .splice tokens with e | t
    · rw [hparse] at hok
      cases hok
    · rw [hparse] at hok
      obtain ⟨hlt, hcall⟩ := Prod.mk.inj (Option.some.inj hok)
      exact ⟨t, rfl, hcall,
        (parse_bareCalls .splice).1 tokens t hparse 2 (of_decide_eq_true hlt) _ _ hcall⟩
  · obtain ⟨s', h⟩ := Parse.ok_of_run' hchosen
    rw [h] at hform
    obtain ⟨name, args, parenthesized, hform⟩ := hform
    have hroot : Tree.root < (Parse.State.start tokens').tree.size := Nat.one_pos
    exact ⟨s', name, args, parenthesized, h, hform,
      (parse_bareCalls .splice).2 20 [.call] _ _ 1 s' hroot h (by decide) _ _ _ hform⟩

end TidyManifest
