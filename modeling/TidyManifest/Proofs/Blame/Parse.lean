import TidyManifest.Proofs.Blame.Bodies
import TidyManifest.Proofs.Lexing.Refusal

/-!
# The token that is blamed

A parse that refuses a token names one of the input, although its tokens may hold heads of resources
that were put in.  The token stands in the innermost statement that failed or behind it, and behind
everything that was read before.

`Refused` follows a parse into the body in which a statement failed.  `Traced` is what is known of a
list of statements, whatever it gives: what is left of the input when they have been read, or the
place of the blame.
-/

namespace TidyManifest

namespace Parse

open Plain (Reopening)
open Grammar (newlines)

/-- The state in front of the next statement.  No failure of an earlier one is remembered. -/
def front (s : State) : State :=
  { s.skip [.newline, .semicolon] with furthest := none }

/-- How the statements below `parent`, read from `s` on, come to be refused.  At `start` stands the
innermost statement that failed, `stop` is the state in which it was given up, and `done` are the
states behind the statements that had been read by then, in the same body and in those around it. -/
inductive Refused (mode : SplitMode) :
    Nat → (parent : NodeId) → (s : State) → (done : List State) → (start stop : State) → Prop
  /-- a statement that cannot be read -/
  | here {n : Nat} {parent : NodeId} {s stop : State}
      (h : (descent mode n).choose Grammar.statements parent (front s) = .ok none stop) :
      Refused mode (n + 1) parent s [] (front s) stop
  /-- after a statement that has been read -/
  | after {n : Nat} {parent id : NodeId} {s s' start stop : State} {done : List State}
      (h : (descent mode n).choose Grammar.statements parent (front s) = .ok (some id) s')
      (hmore : Refused mode (n + 1) parent s' done start stop) :
      Refused mode (n + 1) parent s (s' :: done) start stop
  /-- in the body of a statement -/
  | inside {n : Nat} {parent : NodeId} {s s' b start stop : State} {done : List State}
      {category : Category}
      (h : (descent mode (n + 1)).choose Grammar.statements parent (front s) = .error stop.blame s')
      (hopens : Opens (descent mode n) category parent (front s) b)
      (hbody : Refused mode n (front s).tree.size b.advance done start stop) :
      Refused mode (n + 2) parent s done start stop

/-- The token that is blamed, with its position: the furthest failure if the cursor has not passed
it, otherwise the next token. -/
def State.blamed? (s : State) : Option (Nat × Token) :=
  let cursor := s.cursor.skip newlines
  let next := cursor.current.map (cursor.position, ·)
  match s.furthest with
  | some known => if cursor.position ≤ known.1 then some known else next
  | none => next

/-- A state blames a token.  After it come the tokens `rest`. -/
def Blames (s : State) (t : Token) (rest : List Token) : Prop :=
  ∃ position, s.blamed? = some (position, t) ∧ s.cursor.toList.drop position = t :: rest

/-- If `t` is a newline, it stands in the tokens, before `rest`, behind a token that holds the line. -/
def Excused (tokens : List Token) (t : Token) (rest : List Token) : Prop :=
  t.kind = .newline → ∃ t', (t' :: t :: rest) <:+ tokens ∧ HoldsLine t'

/-- What is excused in some tokens is excused in those in front of them. -/
theorem Excused.of_suffix {tokens tokens' rest : List Token} {t : Token}
    (h : Excused tokens t rest) (hsuffix : tokens <:+ tokens') : Excused tokens' t rest := by
  intro hnewline
  obtain ⟨t', ht', hholds⟩ := h hnewline
  exact ⟨t', ht'.trans hsuffix, hholds⟩

section

variable {s : State}

/-- The tokens from the position on are those ahead. -/
theorem drop_position (c : Cursor) : c.toList.drop c.position = c.ahead := by
  rw [Cursor.toList, c.position_eq, ← List.length_reverse, List.drop_left]

/-- The error names the token that is blamed. -/
theorem blame_eq (s : State) :
    s.blame = match s.blamed? with
      | some (_, t) => .unexpectedToken t.line t.text
      | none => .unexpectedEnd := by
  unfold State.blame State.blamed?
  dsimp only
  cases s.furthest with
  | none => cases (s.cursor.skip newlines).current <;> rfl
  | some known =>
    by_cases hle : (s.cursor.skip newlines).position ≤ known.1
    · simp only [hle, if_true]
    · simp only [hle, if_false]
      cases (s.cursor.skip newlines).current <;> rfl

/-- The error that a state gives names the token that it blames. -/
theorem Blames.blame_eq {t : Token} {rest : List Token} (h : Blames s t rest) :
    s.blame = .unexpectedToken t.line t.text := by
  obtain ⟨position, hblamed, -⟩ := h
  rw [Parse.blame_eq, hblamed]

/-- A newline is blamed only if it was missed. -/
theorem mem_furthest_of_newline {position : Nat} {t : Token}
    (h : s.blamed? = some (position, t)) (hnewline : t.kind = .newline) :
    (position, t) ∈ s.furthest := by
  have hnext : (s.cursor.skip newlines).current.map ((s.cursor.skip newlines).position, ·) ≠
      some (position, t) := by
    intro hcurrent
    obtain ⟨t', ht', heq⟩ := Option.map_eq_some_iff.mp hcurrent
    cases heq
    obtain ⟨rest, hahead⟩ := List.head?_eq_some_iff.mp ht'
    have hkind := Plain.significant_head ((ahead_skip s newlines).symm.trans hahead)
    exact hkind (by simp [newlines, hnewline])
  unfold State.blamed? at h
  dsimp only at h
  cases hfurthest : s.furthest with
  | none =>
    rw [hfurthest] at h
    exact absurd h hnext
  | some known =>
    rw [hfurthest] at h
    dsimp only at h
    split at h
    · exact h
    · exact absurd h hnext

/-- The token that is blamed stands neither before the cursor nor before a known failure. -/
theorem blamed?_le (h : ∀ known ∈ s.furthest, s.cursor.toList[known.1]? = some known.2)
    {position : Nat} {t : Token} (hblamed : s.blamed? = some (position, t)) :
    (∃ rest, s.cursor.toList.drop position = t :: rest) ∧ s.cursor.position ≤ position ∧
      ∀ known ∈ s.furthest, known.1 ≤ position := by
  have hskip := extends_skip s newlines
  have hnext (hcurrent : (s.cursor.skip newlines).current.map
      ((s.cursor.skip newlines).position, ·) = some (position, t)) :
      (∃ rest, s.cursor.toList.drop position = t :: rest) ∧
        (s.cursor.skip newlines).position = position := by
    obtain ⟨t', ht', heq⟩ := Option.map_eq_some_iff.mp hcurrent
    cases heq
    obtain ⟨rest, hahead⟩ := List.head?_eq_some_iff.mp ht'
    refine ⟨⟨rest, ?_⟩, rfl⟩
    rw [← hskip.tokens]
    exact (drop_position _).trans hahead
  unfold State.blamed? at hblamed
  dsimp only at hblamed
  cases hfurthest : s.furthest with
  | none =>
    rw [hfurthest] at hblamed
    obtain ⟨hdrop, rfl⟩ := hnext hblamed
    exact ⟨hdrop, hskip.position_le, by simp⟩
  | some known =>
    rw [hfurthest] at hblamed h
    by_cases hle : (s.cursor.skip newlines).position ≤ known.1
    · simp only [hle, if_true] at hblamed
      cases hblamed
      obtain ⟨hlt, htoken⟩ := List.getElem?_eq_some_iff.mp (h _ rfl)
      refine ⟨⟨s.cursor.toList.drop (position + 1), ?_⟩, Nat.le_trans hskip.position_le hle, ?_⟩
      · rw [List.drop_eq_getElem_cons hlt]
        exact congrArg (· :: _) htoken
      · rintro _ ⟨⟩
        exact Nat.le_refl _
    · simp only [hle, if_false] at hblamed
      obtain ⟨hdrop, rfl⟩ := hnext hblamed
      refine ⟨hdrop, hskip.position_le, ?_⟩
      rintro _ ⟨⟩
      exact Nat.le_of_not_le hle

end

section

variable {mode : SplitMode} {n : Nat} {owner : NodeId} {parent : Category} {level : Int}
  {tokens : List Token} {s s' : State}

/-- Going to the front of the next statement is an extension. -/
theorem extends_front (s : State) : Extends s (front s) := by
  have h := extends_skip s [.newline, .semicolon]
  exact ⟨h.tokens, h.onward, h.tree, h.trials⟩

/-- The front of the next statement is past newlines and semicolons. -/
theorem ahead_front (s : State) :
    (front s).ahead = Lookahead.significant [.newline, .semicolon] s.ahead :=
  ahead_skip s [.newline, .semicolon]

/-- Where a statement starts: at tokens of the input, or at a head that was put in before them. -/
def Facing (tokens : List Token) (s : State) : Prop :=
  s.ahead = tokens ∨ ∃ r : Reopening, s.ahead = r.tokens tokens ∧ AtTitle tokens

/-- Tokens that are faced are still to be read. -/
theorem Facing.pending (h : Facing tokens s) : Pending tokens s := by
  rcases h with h | ⟨r, h, htitle⟩
  · exact .whole h
  · exact .reopened r (by rw [h, r.significant_tokens tokens (by decide)]) htitle

/-- From tokens that are still to be read one comes to face the next statement. -/
theorem Pending.facing (h : Pending tokens s) :
    ∃ rest, rest <:+ tokens ∧ Facing rest (front s) := by
  cases h with
  | whole h => exact ⟨_, h ▸ (extends_front s).suffix, .inl rfl⟩
  | reopened r h htitle =>
    refine ⟨tokens, List.suffix_refl _, .inr ⟨r, ?_, htitle⟩⟩
    obtain ⟨skipped, hskipped, hahead⟩ := Plain.significant_eq newlines s.ahead
    have hkinds (t : Token) (ht : t ∈ skipped) : t.isOneOf [.newline, .semicolon] = true := by
      have hnewline : t.kind = .newline := by simpa [newlines] using hskipped t ht
      simp [Token.isOneOf, hnewline]
    rw [ahead_front, hahead, h, Lookahead.significant, List.dropWhile_append_of_pos hkinds]
    exact r.significant_tokens tokens (by decide)

/-- In front of a closing brace nothing was put in. -/
theorem Pending.ahead_eq (h : Pending tokens s)
    (hclosing : s.cursor.currentKind = some .rightBrace) : s.ahead = tokens := by
  cases h with
  | whole h => exact h
  | reopened r h htitle =>
    exfalso
    obtain ⟨more, hmore⟩ := r.tokens_eq tokens
    have hfirst := r.first_mem
    cases hahead : s.ahead with
    | nil =>
      rw [currentKind_of_end hahead] at hclosing
      cases hclosing
    | cons t rest =>
      have ht : t.kind = .rightBrace := by simpa [currentKind_of_ahead hahead] using hclosing
      rw [hahead, Lookahead.significant_cons (by simp [ht, newlines]), hmore] at h
      rw [← (List.cons.inj h).1, ht] at hfirst
      exact absurd hfirst (by decide)

/-- A token at which a statement fails is one of the input. -/
theorem blames_suffix (hfurthest : s.furthest = none) (ho : Owns s owner parent level)
    (hm : 8 * s.ahead.length + 6 ≤ n) (hfacing : Facing tokens s)
    (h : (descent mode (n + 1)).choose Grammar.statements owner s = .ok none s') :
    Quiet s'.blame ∨ ∃ t rest, Blames s' t rest ∧ (t :: rest) <:+ tokens := by
  have hnotes := choose_none_notes ho h
  have hsame := choose_none ho h
  have hknown (known : Nat × Token) (hmem : known ∈ s'.furthest) :
      s'.cursor.toList[known.1]? = some known.2 := by
    rcases hnotes.remembers known hmem with hmem | hremembers
    · rw [hfurthest] at hmem
      cases hmem
    · rw [hnotes.tokens]
      exact hremembers.token
  have hahead : s'.ahead <:+ s'.cursor.toList := ⟨_, rfl⟩
  cases hblamed : s'.blamed? with
  | none => exact .inl (by rw [blame_eq, hblamed]; exact quiet_unexpectedEnd)
  | some blamed =>
    obtain ⟨position, t⟩ := blamed
    obtain ⟨⟨rest, hdrop⟩, hposition, hfurther⟩ := blamed?_le hknown hblamed
    refine .inr ⟨t, rest, ⟨position, hblamed, hdrop⟩, ?_⟩
    have hsuffix : (t :: rest) <:+ s'.cursor.toList := hdrop ▸ List.drop_suffix _ _
    have hlength := congrArg List.length hdrop
    rw [List.length_drop] at hlength
    have htokens := Cursor.length_toList s'.cursor
    rcases hfacing with rfl | ⟨r, hreopened, htitle⟩
    · refine List.suffix_of_suffix_length_le hsuffix (hsame.ahead ▸ hahead) ?_
      rw [← hsame.ahead, State.ahead]
      omega
    · -- the failure that the title has left stands behind the head
      obtain ⟨known, hmem, hlast⟩ := (statement_reopened ho hm r hreopened htitle h).2 rfl
      have hle := hfurther known hmem
      have htail : tokens <:+ s'.ahead := by
        rw [hsame.ahead, hreopened]
        exact suffix_tokens r tokens
      exact List.suffix_of_suffix_length_le hsuffix (htail.trans hahead) (by omega)

/-- The next statement does not start with a newline. -/
theorem not_newline_front (s : State) :
    ∀ t, (front s).cursor.current = some t → t.kind ≠ .newline := by
  intro t hcurrent
  obtain ⟨rest, hahead⟩ := List.head?_eq_some_iff.mp hcurrent
  have hkind := Plain.significant_head ((ahead_front s).symm.trans hahead)
  exact fun hnewline => hkind (by simp [hnewline])

/-- A newline that is blamed was missed behind a token that holds the line. -/
theorem blames_excused (hfurthest : s.furthest = none)
    (hstart : ∀ t, s.cursor.current = some t → t.kind ≠ .newline) (hnotes : Notes s s')
    {t : Token} {rest : List Token} (h : Blames s' t rest) : Excused s.ahead t rest := by
  intro hnewline
  obtain ⟨position, hblamed, hdrop⟩ := h
  have hknown := mem_furthest_of_newline hblamed hnewline
  obtain ⟨honward, htoken, hexcused⟩ : Remembers s (position, t) := by
    rcases hnotes.remembers _ hknown with hmem | hremembers
    · rw [hfurthest] at hmem
      cases hmem
    · exact hremembers
  obtain ⟨i, t', rfl, ht', hholds⟩ := hexcused hnewline
  rw [hnotes.tokens] at hdrop
  -- the statement does not start with a newline, so the token before it belongs to the statement
  have hle : s.cursor.position ≤ i := by
    refine Nat.le_of_lt_succ (Nat.lt_of_le_of_ne honward fun hposition => ?_)
    rw [← show s.cursor.position = i + 1 from hposition, drop_position] at hdrop
    exact hstart t (congrArg List.head? hdrop) hnewline
  obtain ⟨hlt, hget⟩ := List.getElem?_eq_some_iff.mp ht'
  have hboth : s.cursor.toList.drop i = t' :: t :: rest := by
    rw [List.drop_eq_getElem_cons hlt, hdrop, hget]
  refine ⟨t', ?_, hholds⟩
  rw [← hboth, ← Nat.add_sub_cancel' hle, ← List.drop_drop, drop_position]
  exact List.drop_suffix _ _

/-- A head that was put in does not end in a token that holds the line. -/
theorem Excused.of_facing {t : Token} {rest : List Token} (h : Excused s.ahead t rest)
    (hfacing : Facing tokens s) (hrest : (t :: rest) <:+ tokens) : Excused tokens t rest := by
  intro hnewline
  obtain ⟨t', hsuffix, hholds⟩ := h hnewline
  refine ⟨t', ?_, hholds⟩
  rcases hfacing with rfl | ⟨r, hreopened, -⟩
  · exact hsuffix
  · have hopening : (r.opening :: tokens) <:+ s.ahead :=
      hreopened ▸ ⟨r.sigils ++ [r.type], by simp [Plain.Reopening.tokens]⟩
    have htokens : (t' :: t :: rest) <:+ r.opening :: tokens := by
      refine List.suffix_of_suffix_length_le hsuffix hopening ?_
      simpa using hrest.length_le
    rcases List.suffix_cons_iff.mp htokens with heq | hsuffix'
    · obtain ⟨rfl, -⟩ := List.cons.inj heq
      rcases hholds with hbracket | ⟨hname, -⟩
      · cases hbracket.symm.trans r.hopening
      · cases hname.symm.trans r.hopening
    · exact hsuffix'

/-- The body of a statement stands behind its brace. -/
theorem Opens.body {d : Descent} {p : Plain.Oracle} {category : Category} {b : State}
    (h : Opens d category owner s b) (hd : Follows mode d p) (hbody : category.hasBody = true)
    (ho : Owns s owner parent level) :
    Owns b.advance s.tree.size category (level + 1) ∧ b.advance.ahead <:+ s.ahead ∧
      b.advance.ahead.length < s.ahead.length := by
  have hextends := h.extends hd hbody ho
  have hadvance := extends_advance b
  have hall := (extends_entered category ho).trans hextends
  refine ⟨(owns_entered ho).of_extends (hextends.trans hadvance),
    hadvance.suffix.trans hall.suffix, ?_⟩
  cases hahead : b.ahead with
  | nil =>
    have hbrace := h.brace
    rw [currentKind_of_end hahead] at hbrace
    cases hbrace
  | cons t rest =>
    have hle := hall.onward
    rw [hahead, List.length_cons] at hle
    rw [ahead_advance, hahead, List.tail_cons]
    omega

end

/-- What is known of a list of statements below `parent`, if `tokens` are the input ahead of them.
If they have been read, a part of the input is left.  If a token is refused, it is one of the input,
and it stands neither before the innermost statement that failed nor in one that had been read.  If it
is a newline, it stands behind a token of the input that holds the line. -/
inductive Traced (mode : SplitMode) (n : Nat) (parent : NodeId) (closing : Option Kind)
    (tokens : List Token) (s : State) : EStateM.Result ParseError State (List NodeId) → Prop
  | ok {ids : List NodeId} {rest : List Token} {s' : State} (hrest : rest <:+ tokens)
      (hpending : Pending rest s')
      (hclosing : ∀ kind, closing = some kind → s'.cursor.currentKind = some kind) :
      Traced mode n parent closing tokens s (.ok ids s')
  | refused {t : Token} {rest : List Token} {done : List State} {start stop s' : State}
      (h : Refused mode n parent s done start stop) (hblames : Blames stop t rest)
      (hrest : (t :: rest) <:+ tokens) (hstart : (t :: rest) <:+ start.ahead)
      (hdone : ∀ s₁ ∈ done, (t :: rest) <:+ s₁.ahead) (hline : Excused tokens t rest) :
      Traced mode n parent closing tokens s (.error stop.blame s')
  | quiet {e : ParseError} {s' : State} (h : Quiet e) :
      Traced mode n parent closing tokens s (.error e s')

/-- The bodies of statements are traced, if there are enough levels. -/
def TracesBodies (mode : SplitMode) (n : Nat) : Prop :=
  ∀ {owner category level tokens s}, Owns s owner category level → 8 * s.ahead.length + 8 ≤ n →
    Pending tokens s →
    Traced mode n owner (some .rightBrace) tokens s
      ((descent mode n).statements owner (some .rightBrace) s)

section

variable {mode : SplitMode} {n : Nat} {owner id : NodeId} {parent : Category} {level : Int}
  {tokens : List Token} {e : ParseError} {s s' : State}

/-- A statement that is read leaves a part of the input. -/
theorem statement_leaves (hbodies : TracesBodies mode n) (ho : Owns s owner parent level)
    (hm : 8 * s.ahead.length + 6 ≤ n) (hfacing : Facing tokens s)
    (h : (descent mode (n + 1)).choose Grammar.statements owner s = .ok (some id) s') :
    Leaves true tokens s' := by
  rcases hfacing with rfl | ⟨r, hreopened, htitle⟩
  · have hd := descent_follows mode n
    rcases chooseFrom_read hd Grammar.statements ho with hnone | hout | ⟨category, hmem, -, hread⟩
    · cases hnone.symm.trans h
    · cases hout.symm.trans h
    · replace h := hread.symm.trans h
      by_cases hresource : category = .resource
      · subst hresource
        exact resource_leaves hd ho hm h
      · cases hbody : category.hasBody with
        | true =>
          obtain ⟨b, ids, s₁, hopens, hstatements, hahead⟩ := readCategory_found hbody h
          obtain ⟨hob, hsuffix, hlt⟩ := hopens.body hd hbody ho
          have htraced : Traced mode n s.tree.size (some .rightBrace) b.advance.ahead b.advance _ :=
            hbodies hob (by omega) (.whole rfl)
          rw [hstatements] at htraced
          cases htraced with
          | ok hrest hpending hclosing =>
            refine leaves_whole ?_
            rw [hahead, ahead_advance, hpending.ahead_eq (hclosing _ rfl)]
            exact (List.tail_suffix _).trans (hrest.trans hsuffix)
        | false =>
          have hchosen := readCategory_chosen hd (Plain.level_sound n) ho
            (.inr (keepsWhole_of_statement hmem hresource hbody))
          rw [h] at hchosen
          generalize Plain.phrase (Plain.level n) category s.ahead = o at hchosen
          cases hchosen with
          | some hsome => exact leaves_whole hsome.extends_.suffix
  · exact (statement_reopened ho hm r hreopened htitle h).1 rfl

/-- A statement in which a token is refused has a body in which it is refused. -/
theorem statement_traced (hbodies : TracesBodies mode n) (closing : Option Kind)
    (ho : Owns (front s) owner parent level) (hm : 8 * (front s).ahead.length + 6 ≤ n)
    (hfacing : Facing tokens (front s))
    (h : (descent mode (n + 1)).choose Grammar.statements owner (front s) = .error e s') :
    Traced mode (n + 2) owner closing tokens s (.error e s') := by
  rcases hfacing with hahead | ⟨r, hreopened, -⟩
  · have hd := descent_follows mode n
    rcases chooseFrom_read hd Grammar.statements ho with hnone | hout | ⟨category, hmem, -, hread⟩
    · cases hnone.symm.trans h
    · cases hout.symm.trans h
      exact .quiet quiet_exhausted
    · rcases readCategory_error (descent_quieted mode n) (hread.symm.trans h) with
        hquiet | ⟨hbody, b, hopens, hstatements⟩
      · exact .quiet hquiet
      · obtain ⟨hob, hsuffix, hlt⟩ := hopens.body hd hbody ho
        have htraced : Traced mode n (front s).tree.size (some .rightBrace) b.advance.ahead
            b.advance _ :=
          hbodies hob (by omega) (.whole rfl)
        rw [hstatements] at htraced
        cases htraced with
        | quiet hquiet => exact .quiet hquiet
        | refused hrefused hblames hrest hstart hdone hline =>
          exact .refused (.inside h hopens hrefused) hblames (hrest.trans (hahead ▸ hsuffix)) hstart
            hdone (hline.of_suffix (hahead ▸ hsuffix))
  · obtain ⟨c, hc, hread⟩ := choose_reopened mode ho (Nat.le_of_succ_le hm) r hreopened
    rw [hread] at h
    refine .quiet (readCategory_quiet (descent_quieted mode n) ?_ h)
    rcases hc with rfl | rfl <;> rfl

/-- What is traced in some tokens is traced in those in front of them. -/
theorem Traced.of_suffix {closing : Option Kind} {rest : List Token}
    {r : EStateM.Result ParseError State (List NodeId)}
    (h : Traced mode n owner closing rest s r) (hsuffix : rest <:+ tokens) :
    Traced mode n owner closing tokens s r := by
  cases h with
  | ok hrest hpending hclosing => exact .ok (hrest.trans hsuffix) hpending hclosing
  | refused hrefused hblames hrest hstart hdone hline =>
    exact .refused hrefused hblames (hrest.trans hsuffix) hstart hdone (hline.of_suffix hsuffix)
  | quiet hquiet => exact .quiet hquiet

/-- The statements after one that has been read. -/
theorem Traced.after {closing : Option Kind} {more : Reader (List NodeId)}
    (h : (descent mode n).choose Grammar.statements owner (front s) = .ok (some id) s')
    (hpending : Pending tokens s') (hmore : Traced mode (n + 1) owner closing tokens s' (more s')) :
    Traced mode (n + 1) owner closing tokens s
      ((do return id :: (← more) : Reader (List NodeId)) s') := by
  simp only [bind_apply]
  generalize more s' = r at hmore
  cases hmore with
  | ok hrest hleft hclosing => exact .ok hrest hleft hclosing
  | refused hrefused hblames hrest hstart hdone hline =>
    refine .refused (.after h hrefused) hblames hrest hstart (fun s₁ hs₁ => ?_) hline
    rcases List.mem_cons.mp hs₁ with rfl | hs₁
    · exact hrest.trans hpending.suffix
    · exact hdone s₁ hs₁
  | quiet hquiet => exact .quiet hquiet

/-- A list of statements is traced, one statement after the other. -/
theorem readStatements_traced (hbodies : TracesBodies mode n) {closing : Option Kind} (k : Nat)
    (ho : Owns s owner parent level) (hm : 8 * s.ahead.length + 6 ≤ n)
    (hpending : Pending tokens s) :
    Traced mode (n + 2) owner closing tokens s
      (readStatements (descent mode (n + 1)) owner closing k s) := by
  induction k generalizing s tokens parent level with
  | zero => exact .quiet quiet_exhausted
  | succ k ih =>
    obtain ⟨facing, hsuffix, hfacing⟩ := hpending.facing
    refine Traced.of_suffix ?_ hsuffix
    have hextends := extends_front s
    have hle := hextends.onward
    replace ho := ho.of_extends hextends
    -- without a statement the state is that in front of one, with its failures
    have hended {ids : List NodeId}
        (hclosing : ∀ kind, closing = some kind →
          (s.skip [.newline, .semicolon]).cursor.currentKind = some kind) :
        Traced mode (n + 2) owner closing facing s (.ok ids (s.skip [.newline, .semicolon])) :=
      .ok (List.suffix_refl _)
        (show Facing facing (s.skip [.newline, .semicolon]) from hfacing).pending hclosing
    rw [readStatements]
    simp only [bind_apply, modify_apply, get_apply]
    cases hkind : (s.skip [.newline, .semicolon]).cursor.currentKind with
    | none =>
      dsimp only
      split
      · exact .quiet quiet_unexpectedEnd
      · rename_i hopen
        exact hended fun kind hclosing => absurd (by rw [hclosing]; rfl) hopen
    | some kind =>
      dsimp only
      split
      · rename_i hclosing
        exact hended fun kind' hclosing' => by rw [hkind, ← hclosing', eq_of_beq hclosing]
      simp only [bind_apply, modify_apply]
      rcases hr : (descent mode (n + 1)).choose Grammar.statements owner (front s) with
        ⟨_ | id, s'⟩ | ⟨e, s'⟩
      all_goals
        have hread := hr
        unfold front at hread
        rw [hread]
      · simp only [bind_apply, get_apply, throw_apply]
        rcases blames_suffix rfl ho (by omega) hfacing hr with hquiet | ⟨t, rest, hblames, hrest⟩
        · exact .quiet hquiet
        · have hexcused := (blames_excused rfl (not_newline_front s) (choose_none_notes ho hr)
            hblames).of_facing hfacing hrest
          exact .refused (.here hr) hblames hrest (hrest.trans hfacing.pending.suffix) (by simp)
            hexcused
      · obtain ⟨rest, hrest, hleft, -⟩ := statement_leaves hbodies ho (by omega) hfacing hr
        have htaken : Taken (front s) (.ok (some id) s') :=
          hr ▸ (descent_progresses mode (n + 1)).choose ho.lt
        obtain ⟨j, hrun⟩ : Runs (front s) s' := htaken.runs
        have honward := hrun.onward
        have hmore := ih (.of_lt (Nat.lt_of_lt_of_le ho.lt hrun.size)) (by omega) hleft
        simp only [bind_apply, get_apply]
        split
        · exact .quiet (quiet_stalled _)
        · exact (hmore.after hr hleft).of_suffix hrest
      · exact statement_traced hbodies closing ho (by omega) hfacing hr

end

/-- Every level of the descent is traced, if there are enough levels below it. -/
theorem descent_traced (mode : SplitMode) (n : Nat) {owner : NodeId} {closing : Option Kind}
    {category : Category} {level : Int} {tokens : List Token} {s : State}
    (ho : Owns s owner category level) (hm : 8 * s.ahead.length + 8 ≤ n)
    (hpending : Pending tokens s) :
    Traced mode n owner closing tokens s ((descent mode n).statements owner closing s) := by
  induction n using Nat.strongRecOn generalizing owner closing category level tokens s with
  | ind n ih =>
    obtain ⟨n, rfl⟩ : ∃ k, n = k + 2 := ⟨n - 2, by omega⟩
    exact readStatements_traced (fun ho hm hpending => ih n (by omega) ho hm hpending) (n + 1) ho
      (by omega) hpending

/-- If a parse refuses a token, it names the line and the text of a token of the input, wherever
heads of resources have been put in: from the blamed token on, the tokens of the parse are those of
the input.  The token stands at or after the first token of the innermost statement that failed, and
so behind every statement that had been read before it, in the same body and in those around it. -/
theorem parse_blames_input {mode : SplitMode} {tokens : List Token} {line : Nat} {text : String}
    (h : parse mode tokens = .error (.unexpectedToken line text)) :
    ∃ t rest done start stop,
      Refused mode (levels tokens) Tree.root (.start tokens) done start stop ∧
      Blames stop t rest ∧ t.line = line ∧ t.text = text ∧ (t :: rest) <:+ tokens ∧
      (t :: rest) <:+ start.ahead ∧ ∀ s ∈ done, (t :: rest) <:+ s.ahead := by
  have htraced : Traced mode (levels tokens) Tree.root none tokens (.start tokens) _ :=
    descent_traced mode (levels tokens) (.of_lt Nat.one_pos)
      (by simp only [levels, State.ahead, State.start, Cursor.ofList]; omega) (.whole rfl)
  unfold parse at h
  generalize (descent mode (levels tokens)).statements Tree.root none (.start tokens) = r
    at h htraced
  cases htraced with
  | ok => cases h
  | quiet hquiet =>
    cases h
    exact absurd rfl (hquiet line text)
  | refused hrefused hblames hrest hstart hdone =>
    have herror := hblames.blame_eq.symm.trans (Except.error.inj h)
    obtain ⟨hline, htext⟩ := ParseError.unexpectedToken.inj herror
    exact ⟨_, _, _, _, _, hrefused, hblames, hline, htext, hrest, hstart, hdone⟩

/-- A resource in a class is split in front of its second title, and the resource that is read from
there on fails at the second of two values. -/
theorem parse_blames_input_of_split :
    let tokens : List Token :=
      [⟨.kwClass, "class", 1⟩, ⟨.name, "c", 1⟩, ⟨.leftBrace, "\x7b", 1⟩, ⟨.newline, "\n", 1⟩,
       ⟨.name, "f", 2⟩, ⟨.leftBrace, "\x7b", 2⟩, ⟨.newline, "\n", 2⟩, ⟨.name, "a", 3⟩,
       ⟨.colon, ":", 3⟩, ⟨.semicolon, ";", 3⟩, ⟨.newline, "\n", 3⟩, ⟨.name, "b", 4⟩,
       ⟨.colon, ":", 4⟩, ⟨.number, "1", 4⟩, ⟨.number, "2", 4⟩, ⟨.newline, "\n", 4⟩,
       ⟨.rightBrace, "\x7d", 5⟩, ⟨.rightBrace, "\x7d", 5⟩]
    parse .splice tokens = .error (.unexpectedToken 4 "2") ∧
    ∃ t rest done start stop,
      Refused .splice (levels tokens) Tree.root (.start tokens) done start stop ∧
      Blames stop t rest ∧ t.line = 4 ∧ t.text = "2" ∧ (t :: rest) <:+ tokens ∧
      (t :: rest) <:+ start.ahead ∧ ∀ s ∈ done, (t :: rest) <:+ s.ahead := by
  intro tokens
  have hparse : parse .splice tokens = .error (.unexpectedToken 4 "2") :=
    error_of_refusal? (by decide +kernel)
  exact ⟨hparse, parse_blames_input hparse⟩

end Parse

end TidyManifest
