import TidyManifest.Proofs.Plain.Interpret

/-!
# The tokens that spell a phrase

`Spells` relates phrases to the tokens they can be read from: newlines may stand in front of every
token, commas and semicolons may stand between the items of a resource, and newlines and semicolons
between statements.  It says nothing about which of several readings is preferred, so it is simpler
than reading; but it fixes every other token and their order.

Plain reading is sound for it (`level_sound`): whatever is read is spelled by the tokens that were
consumed.  In particular every phrase consumes at least one token (`Sound.progress`).
-/

namespace TidyManifest.Plain

open Parse Grammar
open List (mem_singleton)

/-- What a list of tokens can stand for. -/
inductive Reading where
  /-- a phrase below a parent of some category -/
  | phrase (parent : Category) (p : Phrase)
  /-- what the steps of a rule read for a node of some category -/
  | trace (owner : Category) (trace : Trace Phrase)
  /-- the items of a resource, with the brace after them -/
  | items (ps : List Phrase)
  /-- statements below a parent of some category -/
  | body (parent : Category) (ps : List Phrase)

/-- What is known of the tokens at which a category was recognised, apart from patterns that its
rule repeats. -/
def Recognised (parent : Category) : Category → List Token → Prop
  | .call, tokens =>
    atPattern Category.call.rule tokens = true ∨
      parent.takesStatements = true ∧ atPlainCall tokens = true
  | .resource, tokens => atResource tokens = true
  | .caseOption, _ => parent = .caseBlock
  | _, _ => True

/-- The text of sigils. -/
def sigilText (sigils : List Token) : String :=
  String.join (sigils.map (·.text))

/-- Tokens that spell a reading. -/
inductive Spells : Reading → List Token → Prop
  | rule {parent category : Category} {line : Nat} {form : Form Phrase} {trace : Trace Phrase}
      {w rest : List Token} (schema : Schema Phrase.category category form trace)
      (recognised : Recognised parent category (w ++ rest)) (spelled : Spells (.trace category trace) w) :
      Spells (.phrase parent ⟨line, form⟩) w
  | collected {parent : Category} {line : Nat} {sigils : List Token} {head : Head Phrase}
      {collector : Phrase} {trace : Trace Phrase} {w rest : List Token}
      (schema : HeadSchema Phrase.category sigils head (some collector) trace)
      (recognised : atResource (w ++ rest) = true) (spelled : Spells (.trace .resource trace) w) :
      Spells (.phrase parent ⟨line, .resource (sigilText sigils) head (some collector) false []⟩) w
  | resource {parent : Category} {line : Nat} {sigils newlines : List Token} {opening : Token}
      {head : Head Phrase} {collector : Option Phrase} {trace : Trace Phrase} {items : List Phrase}
      {w v rest : List Token} (schema : HeadSchema Phrase.category sigils head collector trace)
      (recognised : atResource (w ++ (newlines ++ opening :: v) ++ rest) = true)
      (spelled : Spells (.trace .resource trace) w) (hnewlines : ∀ t ∈ newlines, t.kind = .newline)
      (hopening : opening.kind = .leftBrace) (body : Spells (.items items) v) :
      Spells (.phrase parent ⟨line, .resource (sigilText sigils) head collector true items⟩)
        (w ++ (newlines ++ opening :: v))
  | done {owner : Category} : Spells (.trace owner []) []
  | newline {owner : Category} {trace : Trace Phrase} {t : Token} {w : List Token}
      (ht : t.kind = .newline) (more : Spells (.trace owner trace) w) :
      Spells (.trace owner trace) (t :: w)
  | token {owner : Category} {label : Option String} {trace : Trace Phrase} {t : Token}
      {w : List Token} (more : Spells (.trace owner trace) w) :
      Spells (.trace owner ((label, .token t) :: trace)) (t :: w)
  | node {owner : Category} {label : Option String} {trace : Trace Phrase} {p : Phrase}
      {v w : List Token} (phrase : Spells (.phrase owner p) v)
      (more : Spells (.trace owner trace) w) :
      Spells (.trace owner ((label, .node p) :: trace)) (v ++ w)
  | block {owner : Category} {label : Option String} {trace : Trace Phrase} {ps : List Phrase}
      {opening closing : Token} {v w : List Token} (hopening : opening.kind = .leftBrace)
      (body : Spells (.body owner ps) v) (hclosing : closing.kind = .rightBrace)
      (more : Spells (.trace owner trace) w) :
      Spells (.trace owner ((label, .block ps) :: trace)) (opening :: (v ++ closing :: w))
  | close {t : Token} (ht : t.kind = .rightBrace) : Spells (.items []) [t]
  | separator {ps : List Phrase} {t : Token} {w : List Token}
      (ht : t.kind ∈ [Kind.newline, .semicolon, .comma]) (more : Spells (.items ps) w) :
      Spells (.items ps) (t :: w)
  | item {p : Phrase} {ps : List Phrase} {v w : List Token}
      (hp : p.category ∈ [Category.comment, .blockComment, .pair, .title])
      (phrase : Spells (.phrase .resource p) v) (more : Spells (.items ps) w) :
      Spells (.items (p :: ps)) (v ++ w)
  | empty {parent : Category} : Spells (.body parent []) []
  | pause {parent : Category} {ps : List Phrase} {t : Token} {w : List Token}
      (ht : t.kind ∈ [Kind.newline, .semicolon]) (more : Spells (.body parent ps) w) :
      Spells (.body parent ps) (t :: w)
  | statement {parent : Category} {p : Phrase} {ps : List Phrase} {v w : List Token}
      (hp : p.category ∈ Grammar.statements) (phrase : Spells (.phrase parent p) v)
      (more : Spells (.body parent ps) w) :
      Spells (.body parent (p :: ps)) (v ++ w)

section

variable {owner : Category} {trace first more : Trace Phrase} {v w ns : List Token}

/-- Newlines in front of a trace are part of its spelling. -/
theorem Spells.after_newlines (hns : ∀ t ∈ ns, t.kind = .newline) (h : Spells (.trace owner trace) w) :
    Spells (.trace owner trace) (ns ++ w) := by
  induction ns with
  | nil => exact h
  | cons t ns ih => exact .newline (hns t (by simp)) (ih fun t ht => hns t (by simp [ht]))

/-- Spellings of two traces make a spelling of both. -/
theorem Spells.append (hfirst : Spells (.trace owner first) v)
    (hmore : Spells (.trace owner more) w) : Spells (.trace owner (first ++ more)) (v ++ w) := by
  generalize hr : Reading.trace owner first = r at hfirst
  induction hfirst generalizing first with
  | done => cases hr; exact hmore
  | newline ht _ ih => cases hr; exact .newline ht (ih rfl)
  | token _ ih => cases hr; exact .token (ih rfl)
  | node phrase _ _ ih => cases hr; rw [List.append_assoc]; exact .node phrase (ih rfl)
  | block hopening body hclosing _ _ ih =>
    cases hr
    simp only [List.cons_append, List.append_assoc]
    exact .block hopening body hclosing (ih rfl)
  | _ => cases hr

end

/-- A token that was read is among those that were taken up. -/
theorem Spells.mem_of_token {owner : Category} {trace : Trace Phrase} {w : List Token} {t : Token}
    (h : Spells (.trace owner trace) w) (ht : .token t ∈ trace.map (·.2)) : t ∈ w := by
  generalize hr : Reading.trace owner trace = r at h
  induction h generalizing trace with
  | done => cases hr; exact absurd ht List.not_mem_nil
  | newline _ _ ih => cases hr; exact List.mem_cons_of_mem _ (ih ht rfl)
  | token _ ih =>
    cases hr
    rcases List.mem_cons.mp ht with heq | ht
    · cases heq
      exact List.mem_cons_self
    · exact List.mem_cons_of_mem _ (ih ht rfl)
  | node _ _ _ ih =>
    cases hr
    exact List.mem_append_right _ (ih ((List.mem_cons.mp ht).resolve_left (by simp)) rfl)
  | block _ _ _ _ _ ih =>
    cases hr
    have hmore := ih ((List.mem_cons.mp ht).resolve_left (by simp)) rfl
    simp [hmore]
  | _ => cases hr

/-- What has been read, if it fits and the consumed tokens spell it. -/
def Reads (owner : Category) (fits : Trace Phrase → Prop) (tokens : List Token)
    (trace : Trace Phrase) (rest : List Token) : Prop :=
  fits trace ∧ ∃ w, tokens = w ++ rest ∧ Spells (.trace owner trace) w

/-- An oracle that reads only what the consumed tokens spell. -/
structure Sound (d : Oracle) : Prop where
  choose : ∀ {categories parent tokens p rest},
    d.choose categories parent tokens = .ok (some (p, rest)) →
      p.category ∈ categories ∧ ∃ w, tokens = w ++ rest ∧ Spells (.phrase parent p) w
  statements : ∀ {parent closing tokens ps rest},
    d.statements parent closing tokens = .ok (ps, rest) →
      (∃ w, tokens = w ++ rest ∧ Spells (.body parent ps) w) ∧
        rest.head?.map (·.kind) = closing

/-- Newlines in front of a step are consumed. -/
theorem lead_eq (usage : Usage) (tokens : List Token) :
    ∃ ns, (∀ t ∈ ns, t.kind = .newline) ∧ tokens = ns ++ lead usage tokens := by
  unfold lead Lookahead.significant
  split
  · exact ⟨[], by simp, rfl⟩
  · refine ⟨tokens.takeWhile (·.isOneOf newlines), fun t ht => ?_, by simp⟩
    simpa [Token.isOneOf, newlines] using List.all_eq_true.mp (List.all_takeWhile ..) t ht

section

variable {owner : Category} {tokens rest : List Token} {trace : Trace Phrase}

/-- What is read from where a step starts is read from the tokens in front of it. -/
theorem Reads.after_lead {usage : Usage} {fits : Trace Phrase → Prop}
    (h : Reads owner fits (lead usage tokens) trace rest) : Reads owner fits tokens trace rest := by
  obtain ⟨ns, hns, heq⟩ := lead_eq usage tokens
  obtain ⟨hfits, w, hw, hspells⟩ := h
  exact ⟨hfits, ns ++ w, by rw [heq, hw, List.append_assoc], hspells.after_newlines hns⟩

/-- Two readings, one after the other, are one reading. -/
theorem Reads.append {fits fits' : Trace Phrase → Prop} {more : Trace Phrase} {middle : List Token}
    (h : Reads owner fits tokens trace middle) (h' : Reads owner fits' middle more rest) :
    Reads owner (fun trace => ∃ first second, trace = first ++ second ∧ fits first ∧ fits' second)
      tokens (trace ++ more) rest := by
  obtain ⟨hfirst, v, rfl, hv⟩ := h
  obtain ⟨hsecond, w, rfl, hw⟩ := h'
  exact ⟨⟨trace, more, rfl, hfirst, hsecond⟩, v ++ w, by simp, hv.append hw⟩

/-- What is read again and again consists of readings. -/
theorem again_sound {reading : List Token → Outcome (Trace Phrase)} {fits : Trace Phrase → Prop}
    {n : Nat}
    (hreading : ∀ {tokens trace rest}, reading tokens = .ok (some (trace, rest)) →
      Reads owner fits tokens trace rest)
    (h : again reading n tokens = .ok (trace, rest)) :
    Reads owner (fun trace => ∃ pieces, trace = List.flatten pieces ∧ ∀ piece ∈ pieces, fits piece)
      tokens trace rest := by
  induction n generalizing tokens trace with
  | zero => cases h
  | succ n ih =>
    unfold again at h
    split at h
    · cases h
    · cases h; exact ⟨⟨[], rfl, by simp⟩, [], rfl, .done⟩
    · rename_i first middle hfirst
      obtain ⟨hfits, v, rfl, hv⟩ := hreading hfirst
      split at h
      · cases h; exact ⟨⟨[trace], by simp, by simpa using hfits⟩, v, rfl, hv⟩
      · split at h
        · cases h
        · rename_i more rest hmore
          cases h
          obtain ⟨⟨pieces, rfl, hpieces⟩, w, rfl, hw⟩ := ih hmore
          exact ⟨⟨first :: pieces, rfl, by simpa using ⟨hfits, hpieces⟩⟩, v ++ w, by simp,
            hv.append hw⟩

/-- What a step reads as its rule says consists of readings of the step. -/
theorem used_sound {usage : Usage} {reading : List Token → Outcome (Trace Phrase)}
    {rounds : List Token → Nat} {fits : Trace Phrase → Prop}
    (hreading : ∀ {tokens trace rest}, reading tokens = .ok (some (trace, rest)) →
      Reads owner fits tokens trace rest)
    (h : used usage rounds reading tokens = .ok (some (trace, rest))) :
    Reads owner (FitsUsed usage fits) tokens trace rest := by
  unfold used at h
  split at h
  · cases h
  · split at h
    · rename_i ho
      cases h; exact ⟨.inl ⟨ho, rfl⟩, [], rfl, .done⟩
    · cases h
  · rename_i first middle hfirst
    obtain ⟨hfits, v, rfl, hv⟩ := hreading hfirst
    split at h
    · rename_i hm
      split at h
      · cases h
      · rename_i more rest hmore
        cases h
        obtain ⟨⟨pieces, rfl, hpieces⟩, w, rfl, hw⟩ := again_sound hreading hmore
        refine ⟨.inr ?_, v ++ w, by simp, hv.append hw⟩
        rw [if_pos hm]
        exact ⟨first, pieces, rfl, hfits, hpieces⟩
    · rename_i hm
      cases h
      refine ⟨.inr ?_, v, rfl, hv⟩
      rwa [if_neg hm]

end

section

variable {d : Oracle} {owner : Category}

/-- A block that is read is spelled by its tokens. -/
theorem block_sound (hd : Sound d) {usage : Usage} {tokens rest : List Token} {trace : Trace Phrase}
    (h : once d owner (.block usage) tokens = .ok (some (trace, rest))) :
    Reads owner (FitsOnce Phrase.category (.block usage)) tokens trace rest := by
  simp only [once] at h
  split at h
  · cases h
  · rename_i t middle hlead
    split at h
    · rename_i ht
      split at h
      · cases h
      · rename_i ps after hps
        obtain ⟨⟨w, rfl, hw⟩, hafter⟩ := hd.statements hps
        cases after with
        | nil => simp at hafter
        | cons t' after =>
          cases h
          have heq : lead usage tokens = t :: (w ++ [t']) ++ after := by simp [hlead]
          exact .after_lead ⟨⟨ps, rfl⟩, _, heq,
            .block (by simpa using ht) hw (by simpa using hafter) .done⟩
    · cases h

mutual

/-- What a step reads at one time is spelled by the tokens that it consumes. -/
theorem once_sound (hd : Sound d) (step : Step) {tokens rest : List Token} {trace : Trace Phrase}
    (h : once d owner step tokens = .ok (some (trace, rest))) :
    Reads owner (FitsOnce Phrase.category step) tokens trace rest := by
  cases step with
  | token usage kinds =>
    simp only [once] at h
    split at h
    · cases h
    · rename_i t middle hlead
      split at h
      · rename_i ht
        cases h
        exact .after_lead ⟨⟨t, by simpa [Token.isOneOf] using ht, rfl⟩, [t], hlead, .token .done⟩
      · cases h
  | node usage categories =>
    obtain ⟨p, _, hp, heq⟩ := andThen_eq_some (by simpa only [once] using h)
    cases heq
    obtain ⟨hcategory, w, hw, hspells⟩ := hd.choose hp
    exact .after_lead ⟨⟨p, hcategory, rfl⟩, w, hw, by simpa using Spells.node hspells .done⟩
  | group usage steps =>
    simp only [once] at h
    exact (inOrder_sound hd steps h).after_lead
  | choice usage branches =>
    simp only [once] at h
    exact (firstOf_sound hd branches h).after_lead
  | block usage => exact block_sound hd h

/-- What steps read in order is spelled by the tokens that they consume. -/
theorem inOrder_sound (hd : Sound d) (steps : List Step) {tokens rest : List Token}
    {trace : Trace Phrase} (h : inOrder d owner steps tokens = .ok (some (trace, rest))) :
    Reads owner (Fits Phrase.category steps) tokens trace rest := by
  cases steps with
  | nil =>
    simp only [inOrder] at h
    cases h
    exact ⟨rfl, [], rfl, .done⟩
  | cons step steps =>
    simp only [inOrder] at h
    obtain ⟨first, _, hfirst, h₁⟩ := andThen_eq_some h
    obtain ⟨more, _, hmore, h₂⟩ := andThen_eq_some h₁
    cases h₂
    exact (used_sound (fun h => once_sound hd step h) hfirst).append (inOrder_sound hd steps hmore)

/-- What one of several sequences of steps reads is spelled by the tokens that it consumes. -/
theorem firstOf_sound (hd : Sound d) (branches : List (List Step)) {tokens rest : List Token}
    {trace : Trace Phrase} (h : firstOf d owner branches tokens = .ok (some (trace, rest))) :
    Reads owner (FitsOne Phrase.category branches) tokens trace rest := by
  cases branches with
  | nil => simp only [firstOf] at h; cases h
  | cons branch branches =>
    simp only [firstOf] at h
    split at h
    · obtain ⟨hfits, hw⟩ := firstOf_sound hd branches h
      exact ⟨.inr hfits, hw⟩
    · obtain ⟨hfits, hw⟩ := inOrder_sound hd branch h
      exact ⟨.inl hfits, hw⟩

end

end

/-- What is skipped stands in front of what is left. -/
theorem significant_eq (kinds : List Kind) (tokens : List Token) :
    ∃ skipped, (∀ t ∈ skipped, t.kind ∈ kinds) ∧
      tokens = skipped ++ Lookahead.significant kinds tokens := by
  refine ⟨tokens.takeWhile (·.isOneOf kinds), fun t ht => ?_, by simp [Lookahead.significant]⟩
  simpa [Token.isOneOf] using List.all_eq_true.mp List.all_takeWhile t ht

/-- The first token that is not skipped is of another kind. -/
theorem significant_head {kinds : List Kind} {tokens rest : List Token} {t : Token}
    (h : Lookahead.significant kinds tokens = t :: rest) : t.kind ∉ kinds := by
  have hhead := List.head?_dropWhile_not (·.isOneOf kinds) tokens
  rw [← Lookahead.significant, h] at hhead
  simpa [Token.isOneOf] using hhead

/-- Newlines in front of items are part of their spelling. -/
theorem Spells.after_separators {ns w : List Token} {ps : List Phrase}
    (hns : ∀ t ∈ ns, t.kind ∈ newlines) (h : Spells (.items ps) w) :
    Spells (.items ps) (ns ++ w) := by
  induction ns with
  | nil => exact h
  | cons t ns ih =>
    exact .separator (by simp [mem_singleton.mp (hns t (by simp))])
      (ih fun t ht => hns t (by simp [ht]))

/-- Newlines and semicolons in front of statements are part of their spelling. -/
theorem Spells.after_pauses {ns w : List Token} {parent : Category} {ps : List Phrase}
    (hns : ∀ t ∈ ns, t.kind ∈ [Kind.newline, .semicolon]) (h : Spells (.body parent ps) w) :
    Spells (.body parent ps) (ns ++ w) := by
  induction ns with
  | nil => exact h
  | cons t ns ih => exact .pause (hns t (by simp)) (ih fun t ht => hns t (by simp [ht]))

section

variable {d : Oracle}

/-- Items that are read are spelled by their tokens. -/
theorem items_sound (hd : Sound d) {n : Nat} {tokens rest : List Token} {ps : List Phrase}
    (h : items d n tokens = .ok (some (ps, rest))) :
    ∃ w, tokens = w ++ rest ∧ Spells (.items ps) w := by
  induction n generalizing tokens ps with
  | zero => cases h
  | succ n ih =>
    obtain ⟨ns, hns, heq⟩ := significant_eq newlines tokens
    suffices ∃ w, Lookahead.significant newlines tokens = w ++ rest ∧ Spells (.items ps) w by
      obtain ⟨w, hw, hspells⟩ := this
      exact ⟨ns ++ w, by rw [heq, hw, List.append_assoc], hspells.after_separators hns⟩
    clear heq hns
    rw [items] at h
    split at h
    · cases h
    rename_i t middle hsignificant
    rw [hsignificant]
    split at h
    · rename_i ht
      cases h
      exact ⟨[t], rfl, .close (by simpa using ht)⟩
    split at h
    · rename_i ht
      obtain ⟨w, rfl, hspells⟩ := ih h
      have : t.kind = .semicolon ∨ t.kind = .comma := by simpa using ht
      exact ⟨t :: w, rfl, .separator (by rcases this with ht | ht <;> simp [ht]) hspells⟩
    obtain ⟨p, _, hp, h⟩ := andThen_eq_some h
    obtain ⟨more, _, hmore, h⟩ := andThen_eq_some h
    cases h
    obtain ⟨hcategory, v, hv, hspells⟩ := hd.choose hp
    obtain ⟨w, rfl, hrest⟩ := ih hmore
    refine ⟨v ++ w, by rw [hv, List.append_assoc], .item ?_ hspells hrest⟩
    split at hcategory
    · revert hcategory; simp [comments]; rintro (h | h) <;> simp [h]
    · split at hcategory <;> simp_all

/-- A resource that is read is spelled by its tokens. -/
theorem resource_sound (hd : Sound d) {parent : Category} {line : Nat} {trace : Trace Phrase}
    {v tokens rest : List Token} {form : Form Phrase}
    (hfits : Fits Phrase.category Category.resource.rule.steps trace)
    (hspells : Spells (.trace .resource trace) v) (hrecognised : atResource (v ++ tokens) = true)
    (h : resource d trace tokens = .ok (some (form, rest))) :
    form.category = .resource ∧
      ∃ w, tokens = w ++ rest ∧ Spells (.phrase parent ⟨line, form⟩) (v ++ w) := by
  obtain ⟨sigils, head, collector, schema⟩ := headSchema_of_fits hfits
  have collected {rest : List Token} (hc : collector.isSome = true) (heq : tokens = rest) :
      ∃ w, tokens = w ++ rest ∧ Spells (.phrase parent
        ⟨line, .resource (sigilText sigils) head collector false []⟩) (v ++ w) := by
    obtain ⟨c, rfl⟩ := Option.isSome_iff_exists.mp hc
    exact ⟨[], heq, by rw [List.append_nil]; exact .collected schema hrecognised hspells⟩
  simp only [resource, schema.head_eq, schema.sigils_eq, schema.collector_eq] at h
  split at h
  · rename_i t middle hsignificant
    split at h
    · rename_i ht
      obtain ⟨ps, _, hps, heq⟩ := andThen_eq_some h
      cases heq
      obtain ⟨w, rfl, hitems⟩ := items_sound hd hps
      obtain ⟨ns, hns, htokens⟩ := significant_eq newlines tokens
      rw [hsignificant] at htokens
      have hrecognised : atResource (v ++ (ns ++ t :: w) ++ rest) = true := by
        simpa [htokens] using hrecognised
      exact ⟨rfl, ns ++ t :: w, by simp [htokens],
        .resource schema hrecognised hspells (fun t ht => mem_singleton.mp (hns t ht))
          (by simpa using ht) hitems⟩
    · split at h
      · rename_i hc
        cases h
        exact ⟨rfl, collected hc rfl⟩
      · cases h
  · split at h
    · rename_i hc
      cases h
      exact ⟨rfl, collected hc rfl⟩
    · cases h

/-- A phrase that is read has the category that was asked for and is spelled by its tokens. -/
theorem phrase_sound (hd : Sound d) {category parent : Category} {tokens rest : List Token}
    {p : Phrase} (hrecognised : Recognised parent category tokens)
    (h : phrase d category tokens = .ok (some (p, rest))) :
    p.category = category ∧ ∃ w, tokens = w ++ rest ∧ Spells (.phrase parent p) w := by
  obtain ⟨trace, middle, htrace, h₁⟩ := andThen_eq_some h
  obtain ⟨ns, hns, heq⟩ := significant_eq newlines tokens
  obtain ⟨hfits, v, hv, hspells⟩ := inOrder_sound hd _ htrace
  replace heq : tokens = ns ++ v ++ middle := by rw [heq, hv, List.append_assoc]
  replace hspells := hspells.after_newlines fun t ht => mem_singleton.mp (hns t ht)
  split at h₁
  · rename_i hresource
    obtain rfl : category = .resource := by simpa using hresource
    obtain ⟨form, _, hform, hp⟩ := andThen_eq_some h₁
    cases hp
    rw [heq] at hrecognised
    obtain ⟨hcategory, w, rfl, hspells⟩ := resource_sound hd hfits hspells hrecognised hform
    exact ⟨hcategory, ns ++ v ++ w, by rw [heq]; simp, hspells⟩
  · rename_i hresource
    have hr : category ≠ .resource := by simpa using hresource
    have hm : category ≠ .manifest := by
      rintro rfl
      cases h₁
    obtain ⟨form, hform⟩ := schema_of_fits hm hr hfits
    rw [hform.ofCaptures?_eq] at h₁
    cases h₁
    exact ⟨hform.category_eq, _, heq, .rule hform (heq ▸ hrecognised) hspells⟩

/-- A category that is accepted is recognised by the tokens ahead. -/
theorem recognised_of_accepts {category parent : Category} {tokens : List Token}
    (h : accepts d category parent tokens = true) : Recognised parent category tokens := by
  cases category <;> simp_all [accepts, Recognised]

/-- A phrase that is chosen has one of the categories and is spelled by its tokens. -/
theorem chooseFrom_sound (hd : Sound d) {categories : List Category} {parent : Category}
    {tokens rest : List Token} {p : Phrase}
    (h : chooseFrom d categories parent tokens = .ok (some (p, rest))) :
    p.category ∈ categories ∧ ∃ w, tokens = w ++ rest ∧ Spells (.phrase parent p) w := by
  induction categories with
  | nil => cases h
  | cons category categories ih =>
    obtain ⟨haccepts, h⟩ | ⟨-, h⟩ := chooseFrom_cons_eq_ok h
    · obtain ⟨hcategory, hspells⟩ := phrase_sound hd (recognised_of_accepts haccepts) h
      exact ⟨by simp [hcategory], hspells⟩
    · obtain ⟨hcategory, hspells⟩ := ih h
      exact ⟨by simp [hcategory], hspells⟩

/-- Statements that are read are spelled by their tokens, and end where they should. -/
theorem statements_sound (hd : Sound d) {parent : Category} {closing : Option Kind} {n : Nat}
    {tokens rest : List Token} {ps : List Phrase}
    (h : statements d parent closing n tokens = .ok (ps, rest)) :
    (∃ w, tokens = w ++ rest ∧ Spells (.body parent ps) w) ∧
      rest.head?.map (·.kind) = closing := by
  induction n generalizing tokens ps with
  | zero => cases h
  | succ n ih =>
    obtain ⟨ns, hns, heq⟩ := significant_eq [.newline, .semicolon] tokens
    suffices (∃ w, Lookahead.significant [.newline, .semicolon] tokens = w ++ rest ∧
        Spells (.body parent ps) w) ∧ rest.head?.map (·.kind) = closing by
      obtain ⟨⟨w, hw, hspells⟩, hclosing⟩ := this
      exact ⟨⟨ns ++ w, by rw [heq, hw, List.append_assoc], hspells.after_pauses hns⟩, hclosing⟩
    clear heq hns
    rw [statements] at h
    split at h
    · rename_i hsignificant
      rw [hsignificant]
      split at h
      · cases h
      · rename_i hclosing
        cases h
        obtain rfl : closing = none := by simpa using hclosing
        exact ⟨⟨[], rfl, .empty⟩, rfl⟩
    rename_i t middle hsignificant
    rw [hsignificant]
    split at h
    · rename_i ht
      cases h
      exact ⟨⟨[], rfl, .empty⟩, by simpa using ht⟩
    split at h
    · cases h
    · cases h
    rename_i p rest' hp
    obtain ⟨hcategory, v, hv, hspells⟩ := hd.choose hp
    split at h
    · cases h
    split at h
    · cases h
    rename_i qs after hqs
    cases h
    obtain ⟨⟨w, rfl, hrest⟩, hclosing⟩ := ih hqs
    exact ⟨⟨v ++ w, by rw [hv, List.append_assoc], .statement hcategory hspells hrest⟩, hclosing⟩

end

/-- Plain reading is sound: what it reads is spelled by the tokens that it consumes. -/
theorem level_sound (n : Nat) : Sound (level n) := by
  induction n with
  | zero => constructor <;> intros <;> contradiction
  | succ n ih => exact ⟨chooseFrom_sound ih, statements_sound ih⟩

/-- Every phrase, and every trace that is not empty, takes up at least one token. -/
theorem Spells.length_pos {r : Reading} {w : List Token} (h : Spells r w) :
    match r with
    | .phrase _ _ => 0 < w.length
    | .trace _ trace => 0 < trace.length → 0 < w.length
    | _ => True := by
  induction h with
  | rule schema _ _ ih => exact ih schema.trace_pos
  | collected schema _ _ ih => exact ih schema.trace_pos
  | resource schema _ _ _ _ _ ih _ =>
    have := ih schema.trace_pos
    simp only [List.length_append]
    omega
  | node phrase more ih _ =>
    intro _
    simp only [List.length_append] at ih ⊢
    omega
  | _ => simp

/-- A phrase that is read takes up tokens. -/
theorem Sound.progress {d : Oracle} (hd : Sound d) {categories : List Category} {parent : Category}
    {tokens rest : List Token} {p : Phrase}
    (h : d.choose categories parent tokens = .ok (some (p, rest))) :
    rest.length < tokens.length := by
  obtain ⟨_, w, rfl, hw⟩ := hd.choose h
  have : 0 < w.length := hw.length_pos
  simp only [List.length_append]
  omega

end TidyManifest.Plain
