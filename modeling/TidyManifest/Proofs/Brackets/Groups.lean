import TidyManifest.Proofs.Newlines.Collapse
import TidyManifest.Proofs.Plain.Found

/-!
# Lists, counted and read

A subject is recognised by counting brackets, where the rules of the grammar read lists with
everything that may stand in them.  A list is the only category whose own tokens are brackets, and
every other phrase is made of lists and tokens, so counting passes over each phrase without a change
of depth (`Spells.counted`).  It therefore finds the end of every list that is read
(`afterGroup_of_phrase`).
-/

namespace TidyManifest

namespace Parse

/-- How many brackets are open after some tokens, where `depth` of them are open before; nothing if
the last one is closed on the way. -/
def depthAfter (depth : Nat) : List Token → Option Nat
  | [] => some depth
  | t :: rest =>
    if t.kind == .leftBracket then depthAfter (depth + 1) rest
    else if t.kind == .rightBracket then
      if depth == 1 then none else depthAfter (depth - 1) rest
    else depthAfter depth rest

/-- The depth after tokens is counted part by part. -/
theorem depthAfter_append (depth : Nat) (u v : List Token) :
    depthAfter depth (u ++ v) = (depthAfter depth u).bind (depthAfter · v) := by
  induction u generalizing depth with
  | nil => rfl
  | cons t u ih =>
    simp only [List.cons_append, depthAfter, ih]
    split
    · rfl
    · split
      · split <;> rfl
      · rfl

/-- The length of a group goes on being counted at the depth that has been reached. -/
theorem groupLength_append {depth depth' : Nat} {w : List Token}
    (h : depthAfter depth w = some depth') (rest : List Token) :
    groupLength depth (w ++ rest) = (groupLength depth' rest).map (w.length + ·) := by
  have hnext (o : Option Nat) (t : Token) (w : List Token) :
      (o.map (w.length + ·)).map (· + 1) = o.map ((t :: w).length + ·) := by
    cases o with
    | none => rfl
    | some n => exact congrArg some (Nat.add_right_comm w.length n 1)
  induction w generalizing depth with
  | nil => cases h; simp
  | cons t w ih =>
    simp only [List.cons_append, groupLength, depthAfter] at h ⊢
    split at h
    · rw [if_pos ‹_›, ih h, hnext]
    · rw [if_neg ‹_›]
      split at h
      · rw [if_pos ‹_›]
        split at h
        · cases h
        · rw [if_neg ‹_›, ih h, hnext]
      · rw [if_neg ‹_›, ih h, hnext]

/-- Counting goes on behind tokens that leave a bracket open. -/
theorem afterGroup_append {depth depth' : Nat} {w : List Token}
    (h : depthAfter depth w = some depth') (rest : List Token) :
    afterGroup depth (w ++ rest) = afterGroup depth' rest := by
  rw [← drop_groupLength, ← drop_groupLength, groupLength_append h, Option.map_map]
  cases groupLength depth' rest with
  | none => rfl
  | some n => exact congrArg some (List.drop_length_add_append n)

/-- The kinds that are counted. -/
def squareBrackets : List Kind := [.leftBracket, .rightBracket]

/-- Tokens over which counting passes without a change of depth. -/
def Passed (w : List Token) : Prop :=
  ∀ depth, depthAfter (depth + 1) w = some (depth + 1)

section

variable {t opening closing : Token} {u v w : List Token}

theorem Passed.nil : Passed [] :=
  fun _ => rfl

/-- What is passed over at any depth can be put together. -/
theorem Passed.append (hu : Passed u) (hv : Passed v) : Passed (u ++ v) := by
  intro depth
  rw [depthAfter_append, hu]
  exact hv depth

/-- A token that is no square bracket does not change the depth. -/
theorem depthAfter_cons (ht : t.kind ∉ squareBrackets) (depth : Nat) (w : List Token) :
    depthAfter depth (t :: w) = depthAfter depth w := by
  simp only [squareBrackets, List.mem_cons, List.not_mem_nil, or_false, not_or] at ht
  simp [depthAfter, ht.1, ht.2]

/-- A token that is no square bracket is passed over. -/
theorem Passed.cons (ht : t.kind ∉ squareBrackets) (hw : Passed w) : Passed (t :: w) := by
  intro depth
  rw [depthAfter_cons ht]
  exact hw depth

/-- Tokens without square brackets are passed over. -/
theorem Passed.of_forall (h : ∀ t ∈ w, t.kind ∉ squareBrackets) : Passed w := by
  induction w with
  | nil => exact .nil
  | cons t w ih => exact .cons (h t (by simp)) (ih fun t ht => h t (by simp [ht]))

/-- Counting passes over a bracket together with the one that closes it. -/
theorem Passed.wrap (hopening : opening.kind = .leftBracket) (hw : Passed w)
    (hclosing : closing.kind = .rightBracket) : Passed (opening :: (w ++ [closing])) := by
  intro depth
  have hopen : depthAfter (depth + 1) (opening :: (w ++ [closing])) =
      depthAfter (depth + 1 + 1) (w ++ [closing]) := by simp [depthAfter, hopening]
  rw [hopen, depthAfter_append, hw (depth + 1), Option.bind_some]
  simp [depthAfter, hclosing]

theorem not_mem_squareBrackets {kinds : List Kind} (h : t.kind ∈ kinds)
    (hkinds : ∀ k ∈ kinds, k ∉ squareBrackets) : t.kind ∉ squareBrackets :=
  hkinds t.kind h

end

end Parse

namespace Plain

open Parse Grammar

variable {ι : Type} {categoryOf : ι → Category} {trace : Trace ι}

/-- The tokens that steps read themselves. -/
def tokensOf (trace : Trace ι) : List Token :=
  trace.filterMap (·.2.token?)

@[simp] theorem tokensOf_nil : tokensOf ([] : Trace ι) = [] := rfl

@[simp] theorem tokensOf_token (label : Option String) (t : Token) (trace : Trace ι) :
    tokensOf ((label, .token t) :: trace) = t :: tokensOf trace := rfl

@[simp] theorem tokensOf_node (label : Option String) (x : ι) (trace : Trace ι) :
    tokensOf ((label, .node x) :: trace) = tokensOf trace := rfl

@[simp] theorem tokensOf_block (label : Option String) (xs : List ι) (trace : Trace ι) :
    tokensOf ((label, .block xs) :: trace) = tokensOf trace := rfl

@[simp] theorem tokensOf_append (first more : Trace ι) :
    tokensOf (first ++ more) = tokensOf first ++ tokensOf more :=
  List.filterMap_append

@[simp] theorem tokensOf_map_sub (label : String) (xs : List ι) :
    tokensOf (xs.map (sub label)) = [] := by
  induction xs <;> simp_all

@[simp] theorem tokensOf_map_named (label : String) (ts : List Token) :
    tokensOf (ts.map (named label) : Trace ι) = ts := by
  induction ts <;> simp_all

/-- The commas of a list are passed over. -/
theorem Listed.passed {label : String} {categories : List Category} {xs : List ι}
    (h : Listed categoryOf label categories xs trace) : Passed (tokensOf trace) := by
  induction h with
  | nil => exact .nil
  | plain _ _ ih => exact ih
  | comma _ ht _ ih => exact .cons (by rw [ht]; decide) ih

/-- The commas of the rest of a list are passed over. -/
theorem Further.passed {label : String} {xs : List ι} (h : Further categoryOf label xs trace) :
    Passed (tokensOf trace) := by
  induction h with
  | nil => exact .nil
  | cons ht _ _ ih => exact .cons (by rw [ht]; decide) ih

/-- The commas of a list without one at its end are passed over. -/
theorem Joined.passed {label : String} {xs : List ι} (h : Joined categoryOf label xs trace) :
    Passed (tokensOf trace) := by
  cases h with
  | intro _ more => exact more.passed

/-- The names of a node are passed over. -/
theorem FurtherNames.passed {names : List Token} (h : FurtherNames names trace) :
    Passed (tokensOf trace) := by
  induction h with
  | nil => exact .nil
  | cons ht hname _ ih =>
    exact .cons (by rw [ht]; decide) (.cons (not_mem_squareBrackets hname (by decide)) ih)

/-- The edges of a chain are passed over. -/
theorem Linked.passed {xs : List ι} {ts : List Token} (h : Linked categoryOf xs ts trace) :
    Passed (tokensOf trace) := by
  induction h with
  | nil => exact .nil
  | cons ht _ _ ih => exact .cons (not_mem_squareBrackets ht (by decide)) ih

/-- The operators of an expression are passed over. -/
theorem Operated.passed {parts : List (Part ι)} (h : Operated categoryOf parts trace) :
    Passed (tokensOf trace) := by
  induction h with
  | nil => exact .nil
  | cons ht _ _ ih => exact .cons (not_mem_squareBrackets ht (by decide)) ih

/-- The parentheses and commas of a parameter list are passed over. -/
theorem Parameters.passed {xs : List ι} (h : Parameters categoryOf xs trace) :
    Passed (tokensOf trace) := by
  cases h with
  | none => exact .nil
  | list hopening items hclosing =>
    simp only [tokensOf_token, tokensOf_append, tokensOf_nil]
    exact .cons (by rw [hopening]; decide)
      (items.passed.append (.cons (by rw [hclosing]; decide) .nil))

/-- What a head inherits from is passed over. -/
theorem Inheriting.passed {kinds : List Kind} {inherits : Option Token}
    (hkinds : ∀ k ∈ kinds, k ∉ squareBrackets)
    (h : Inheriting kinds inherits trace) : Passed (tokensOf trace) := by
  cases h with
  | none => exact .nil
  | some ht hname =>
    exact .cons (by rw [ht]; decide) (.cons (not_mem_squareBrackets hname hkinds) .nil)

/-- What may be left out brings no brackets. -/
theorem Possible.passed {label : String} {categories : List Category} {x : Option ι}
    (h : Possible categoryOf label categories x trace) : Passed (tokensOf trace) := by
  cases h <;> exact .nil

/-- The sign of a default is passed over. -/
theorem Defaulted.passed {x : Option ι} (h : Defaulted categoryOf x trace) :
    Passed (tokensOf trace) := by
  cases h with
  | none => exact .nil
  | some ht _ => exact .cons (by rw [ht]; decide) .nil

/-- A comma that may be left out is passed over. -/
theorem PossibleComma.passed (h : PossibleComma trace) : Passed (tokensOf trace) := by
  cases h with
  | none => exact .nil
  | some ht => exact .cons (by rw [ht]; decide) .nil

/-- The tokens of a rule leave the depth as it is: only a list has brackets, and it has two. -/
theorem Schema.passed {category : Category} {form : Form ι}
    (h : Schema categoryOf category form trace) : Passed (tokensOf trace) := by
  cases h <;>
    simp only [tokensOf_token, tokensOf_node, tokensOf_block, tokensOf_append, tokensOf_nil,
      tokensOf_map_sub, List.append_nil]
  case comment ht => exact .cons (by rw [ht]; decide) .nil
  case blockComment ht => exact .cons (by rw [ht]; decide) .nil
  case caseOption hvalues hcolon => exact hvalues.passed.append (.cons (by rw [hcolon]; decide) .nil)
  case classBlock hkeyword hname hparams hinherits =>
    exact .cons (by rw [hkeyword]; decide) (.cons (by rw [hname]; decide)
      (hparams.passed.append (hinherits.passed (by decide))))
  case defineBlock hkeyword hname hparams =>
    exact .cons (by rw [hkeyword]; decide) (.cons (by rw [hname]; decide) hparams.passed)
  case nodeBlock hkeyword hname hnames hinherits =>
    exact .cons (by rw [hkeyword]; decide) (.cons (not_mem_squareBrackets hname (by decide))
      (hnames.passed.append (hinherits.passed (by decide))))
  case parameter htype hname hvalue =>
    exact htype.passed.append (.cons (by rw [hname]; decide) hvalue.passed)
  case title htitles hcolon => exact htitles.passed.append (.cons (by rw [hcolon]; decide) .nil)
  case collector hopening hquery hclosing =>
    exact .cons (not_mem_squareBrackets hopening (by decide))
      (hquery.passed.append (.cons (not_mem_squareBrackets hclosing (by decide)) .nil))
  case branch hkeyword _ => exact .cons (not_mem_squareBrackets hkeyword (by decide)) .nil
  case elseBranch hkeyword => exact .cons (by rw [hkeyword]; decide) .nil
  case caseBlock hkeyword _ => exact .cons (by rw [hkeyword]; decide) .nil
  case selector _ hquestion hopening hitems hclosing =>
    exact .cons (by rw [hquestion]; decide) (.cons (by rw [hopening]; decide)
      (hitems.passed.append (.cons (by rw [hclosing]; decide) .nil)))
  case inclusion hkeyword hargs =>
    exact .cons (not_mem_squareBrackets hkeyword (by decide)) hargs.passed
  case assignment hname hoperator _ =>
    exact .cons (by rw [hname]; decide) (.cons (not_mem_squareBrackets hoperator (by decide)) .nil)
  case call hname hopening harg hargs hcomma hclosing =>
    exact .cons (by rw [hname]; decide) (.cons (by rw [hopening]; decide)
      (harg.passed.append (hargs.passed.append
        (hcomma.passed.append (.cons (by rw [hclosing]; decide) .nil)))))
  case bareCall hname hargs => exact .cons (by rw [hname]; decide) hargs.passed
  case chain _ hmembers => exact hmembers.passed
  case reference hhead _ => exact .cons (not_mem_squareBrackets hhead (by decide)) .nil
  case hash hopening hitems hclosing =>
    exact .cons (by rw [hopening]; decide)
      (hitems.passed.append (.cons (by rw [hclosing]; decide) .nil))
  case list hopening hitems hclosing => exact .wrap hopening hitems.passed hclosing
  case pair hkey harrow _ =>
    exact .cons (not_mem_squareBrackets hkey (by decide))
      (.cons (not_mem_squareBrackets harrow (by decide)) .nil)
  case expression _ hparts => exact hparts.passed
  case parens hopening _ hclosing =>
    exact .cons (by rw [hopening]; decide) (.cons (by rw [hclosing]; decide) .nil)
  case unary hoperator _ => exact .cons (not_mem_squareBrackets hoperator (by decide)) .nil
  case simple ht => exact .cons (not_mem_squareBrackets ht (by decide)) .nil

/-- The tokens of the head of a resource are passed over. -/
theorem HeadSchema.passed {sigils : List Token} {head : Head ι} {collector : Option ι}
    (h : HeadSchema categoryOf sigils head collector trace) : Passed (tokensOf trace) := by
  have hpassed {sigils : List Token} (hsigils : ∀ s ∈ sigils, s.kind = .atSign) : Passed sigils :=
    .of_forall fun s hs => by rw [hsigils s hs]; decide
  cases h <;> simp only [tokensOf_append, tokensOf_map_named, tokensOf_token, tokensOf_node]
  case type hsigils ht hcollector =>
    exact (hpassed hsigils).append (.cons (not_mem_squareBrackets ht (by decide)) hcollector.passed)
  case reference hsigils _ hcollector => exact (hpassed hsigils).append hcollector.passed

/-- Counting over the tokens of a trace is counting over those that its steps read themselves. -/
theorem depthAfter_token {t : Token} {u w : List Token}
    (h : ∀ depth, depthAfter (depth + 1) w = depthAfter (depth + 1) u) (depth : Nat) :
    depthAfter (depth + 1) (t :: w) = depthAfter (depth + 1) (t :: u) := by
  simp only [depthAfter, h]
  split
  · rfl
  · split
    · cases depth with
      | zero => rfl
      | succ depth => exact h depth
    · rfl

/-- What has been read, as counting sees it: a phrase, items and statements are passed over, and so
is everything in a trace but the tokens of its rule. -/
theorem Spells.counted {r : Reading} {w : List Token} (h : Spells r w) :
    match r with
    | .trace _ trace => ∀ depth, depthAfter (depth + 1) w = depthAfter (depth + 1) (tokensOf trace)
    | _ => Passed w := by
  induction h with
  | rule schema _ _ ih => exact fun depth => (ih depth).trans (schema.passed depth)
  | collected schema _ _ ih => exact fun depth => (ih depth).trans (schema.passed depth)
  | @resource _ _ _ ns opening _ _ _ _ _ v _ schema _ _ hnewlines hopening _ ih ihitems =>
    have hns : Passed ns := .of_forall fun t ht => by rw [hnewlines t ht]; decide
    have hhead : Passed _ := fun depth => (ih depth).trans (schema.passed depth)
    exact hhead.append (hns.append (.cons (by rw [hopening]; decide) ihitems))
  | done => exact fun _ => rfl
  | newline ht _ ih =>
    intro depth
    rw [depthAfter_cons (by rw [ht]; decide)]
    exact ih depth
  | token _ ih => exact depthAfter_token ih
  | node _ _ ihphrase ih =>
    intro depth
    rw [depthAfter_append, ihphrase]
    exact ih depth
  | block hopening _ hclosing _ ihbody ih =>
    intro depth
    rw [depthAfter_cons (by rw [hopening]; decide), depthAfter_append, ihbody, Option.bind_some,
      depthAfter_cons (by rw [hclosing]; decide)]
    exact ih depth
  | close ht => exact .cons (by rw [ht]; decide) .nil
  | separator ht _ ih => exact .cons (not_mem_squareBrackets ht (by decide)) ih
  | item _ _ _ ihphrase ih => exact ihphrase.append ih
  | empty => exact .nil
  | pause ht _ ih => exact .cons (not_mem_squareBrackets ht (by decide)) ih
  | statement _ _ _ ihphrase ih => exact ihphrase.append ih

section

variable {d : Oracle} {owner : Category} {tokens rest : List Token} {items : Trace Phrase}

/-- Counting passes over the items of a list or a hash. -/
theorem passed_of_items (hd : Sound d) {categories : List Category}
    (h : used (Grammar.items categories).usage d.rounds
      (fun tokens => once d owner (Grammar.items categories) tokens) tokens =
        .ok (some (items, rest))) :
    ∃ w, tokens = w ++ rest ∧ Passed w := by
  obtain ⟨hfits, w, hw, hspells⟩ := used_sound (fun h => once_sound hd _ h) h
  have hsteps : Fits Phrase.category [Grammar.items categories] items :=
    ⟨items, [], (List.append_nil items).symm, hfits, rfl⟩
  obtain ⟨_, first, more, hlisted, heq, hmore⟩ := fits_listed hsteps
  obtain rfl : more = [] := hmore
  rw [List.append_nil] at heq
  subst heq
  exact ⟨w, hw, fun depth => (hspells.counted depth).trans (hlisted.passed depth)⟩

/-- Counting finds the end of a list that is read. -/
theorem afterGroup_of_phrase (hd : Sound d) {t : Token} {p : Phrase} (ht : t.kind = .leftBracket)
    (h : phrase d .list (t :: tokens) = .ok (some (p, rest))) :
    afterGroup 0 (t :: tokens) = some rest := by
  have hnewline : t.kind ∉ newlines := by rw [ht]; decide
  obtain ⟨_, hsteps, -⟩ := phrase_eq_some hd (by decide) h
  rw [Lookahead.significant_cons hnewline] at hsteps
  obtain ⟨_, _, _, heq, -, hsteps, -⟩ := inOrder_token_inv rfl rfl hsteps
  rw [lead_cons (by simpa [newlines] using hnewline)] at heq
  cases heq
  rw [inOrder] at hsteps
  obtain ⟨items, middle, hitems, h₁⟩ := andThen_eq_some hsteps
  obtain ⟨more, after, hlast, h₂⟩ := andThen_eq_some h₁
  cases h₂
  obtain ⟨w, rfl, hw⟩ := passed_of_items hd hitems
  obtain ⟨closing, last, _, hlead, hclosing, hnil, -⟩ := inOrder_token_inv rfl rfl hlast
  rw [inOrder] at hnil
  cases hnil
  obtain ⟨ns, hns, hmiddle⟩ := lead_eq {} middle
  replace hlead : lead {} middle = closing :: rest := hlead
  have hpassed : Passed (w ++ ns) :=
    hw.append (.of_forall fun t ht => by rw [hns t ht]; decide)
  rw [hlead] at hmiddle
  rw [hmiddle, ← List.append_assoc]
  have hopen : afterGroup 0 (t :: (w ++ ns ++ closing :: rest)) =
      afterGroup 1 (w ++ ns ++ closing :: rest) := by simp [afterGroup, ht]
  rw [hopen, afterGroup_append (hpassed 0)]
  simp [afterGroup, List.mem_singleton.mp hclosing]

end

end Plain

end TidyManifest
