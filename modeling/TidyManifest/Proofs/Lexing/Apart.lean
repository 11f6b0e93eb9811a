import TidyManifest.Proofs.Lexing.Spelling

/-!
# Tokens side by side

The lexer takes the longest text that a rule matches, so a token may change when something is
written directly after it.  `Stops w rest` says that this does not happen: no rule has a text that
goes on from `w` into `rest`.

A token of a source is a token by itself (`lex_alone`), and stays one in front of a blank, a newline,
a comma or a bracket (`Steady.stops`).  So a text that is put together from tokens with such characters
after them is cut into these tokens again: `Lexes` says of a text which tokens it is cut into, and is
built up from the end of the text.
-/

namespace TidyManifest

namespace Pattern

/-- Whether a character can occur in a text of the pattern. -/
def uses (c : Char) : Pattern → Bool
  | nothing => false
  | empty => false
  | char test => test c
  | concat p q => p.uses c || q.uses c
  | union p q => p.uses c || q.uses c
  | star p => p.uses c

/-- Whether a text of the pattern can start with a character. -/
def starts (c : Char) : Pattern → Bool
  | nothing => false
  | empty => false
  | char test => test c
  | concat p q => p.starts c || p.nullable && q.starts c
  | union p q => p.starts c || q.starts c
  | star p => p.starts c

/-- Whether a text of the pattern can end with a character. -/
def ends (c : Char) : Pattern → Bool
  | nothing => false
  | empty => false
  | char test => test c
  | concat p q => q.ends c || q.nullable && p.ends c
  | union p q => p.ends c || q.ends c
  | star p => p.ends c

section

variable {p : Pattern} {w rest : List Char} {c : Char}

/-- A pattern uses every character of the texts that it describes. -/
theorem uses_of_mem (h : Matches p w) (hc : c ∈ w) : p.uses c = true := by
  induction h with
  | empty => simp at hc
  | char h => simpa [uses, List.mem_singleton.mp hc] using h
  | concat _ _ ihu ihv =>
    rw [uses, Bool.or_eq_true]
    exact (List.mem_append.mp hc).imp ihu ihv
  | left _ ih => simp [uses, ih hc]
  | right _ ih => simp [uses, ih hc]
  | done => simp at hc
  | more _ _ ihu ihv => exact (List.mem_append.mp hc).elim ihu ihv

/-- A pattern starts with the first character of the texts that it describes. -/
theorem starts_of_matches (h : Matches p (c :: w)) : p.starts c = true := by
  generalize hw : c :: w = x at h
  induction h generalizing w with
  | empty => cases hw
  | char h =>
    cases hw
    exact h
  | @concat _ _ u v hu _ ihu ihv =>
    rw [starts, Bool.or_eq_true, Bool.and_eq_true]
    cases u with
    | nil => exact .inr ⟨nullable_iff.mpr hu, ihv hw⟩
    | cons c' u =>
      cases hw
      exact .inl (ihu rfl)
  | left _ ih => simp [starts, ih hw]
  | right _ ih => simp [starts, ih hw]
  | done => cases hw
  | @more _ u v _ _ ihu ihv =>
    cases u with
    | nil => exact ihv hw
    | cons c' u =>
      cases hw
      exact ihu rfl

/-- A pattern ends with the last character of the texts that it describes. -/
theorem ends_of_matches (h : Matches p (w ++ [c])) : p.ends c = true := by
  generalize hw : w ++ [c] = x at h
  induction h generalizing w with
  | empty => simp at hw
  | char h =>
    cases w with
    | nil =>
      cases hw
      exact h
    | cons c' w => simp at hw
  | @concat _ _ u v _ hv ihu ihv =>
    rw [ends, Bool.or_eq_true, Bool.and_eq_true]
    rcases List.eq_nil_or_concat v with rfl | ⟨v, d, hd⟩
    · exact .inr ⟨nullable_iff.mpr hv, ihu (by simpa using hw)⟩
    · rw [List.concat_eq_append] at hd
      rw [hd, ← List.append_assoc] at hw
      obtain rfl : c = d := by simpa using (List.append_inj' hw rfl).2
      exact .inl (ihv hd.symm)
  | left _ ih => simp [ends, ih hw]
  | right _ ih => simp [ends, ih hw]
  | done => simp at hw
  | @more _ u v _ _ ihu ihv =>
    rcases List.eq_nil_or_concat v with rfl | ⟨v, d, hd⟩
    · exact ihu (by simpa using hw)
    · rw [List.concat_eq_append] at hd
      rw [hd, ← List.append_assoc] at hw
      obtain rfl : c = d := by simpa using (List.append_inj' hw rfl).2
      exact ihv hd.symm

/-- What comes after a text does not matter if nothing that is matched goes on into it. -/
theorem longest_append_of_stop
    (h : ∀ v x, v ≠ [] → rest = v ++ x → ¬ Matches p (w ++ v)) :
    p.longest (w ++ rest) = p.longest w := by
  induction w generalizing p with
  | nil =>
    cases rest with
    | nil => rfl
    | cons c rest =>
      have hnone : (p.after c).longest rest = none := by
        rw [longest_eq_none_iff]
        intro n hn
        exact h (c :: rest.take n) (rest.drop n) (by simp) (by simp) (matches_after_iff.mp hn)
      rw [List.nil_append, longest_cons, hnone, longest_nil]
  | cons c w ih =>
    have hrest := ih (p := p.after c) fun v x hv hx hm => h v x hv hx (matches_after_iff.mp hm)
    rw [List.cons_append, longest_cons, longest_cons, hrest]

end

/-- The rest of a text after its opening quote, with the closing quote. -/
def closing (quote : Char) : Pattern :=
  concat
    (star (union (char fun c => c != quote && c != '\\')
      (concat (one '\\') (char fun c => c != '\n'))))
    (one quote)

/-- A quoted text is its quote and what closes it. -/
theorem matches_quotedText {quote : Char} {w : List Char} :
    Matches (quotedText quote) w ↔ ∃ v, w = quote :: v ∧ Matches (closing quote) v := by
  simp only [quotedText, openText, closing, one, matches_concat, matches_char, beq_iff_eq]
  constructor
  · rintro ⟨_, _, rfl, ⟨_, u, rfl, ⟨_, rfl, rfl⟩, hu⟩, _, rfl, rfl⟩
    exact ⟨u ++ [_], by simp, u, _, rfl, hu, _, rfl, rfl⟩
  · rintro ⟨_, rfl, u, _, rfl, hu, _, rfl, rfl⟩
    exact ⟨_, _, (List.cons_append ..).symm, ⟨[_], u, rfl, ⟨_, rfl, rfl⟩, hu⟩, _, rfl, rfl⟩

/-- Whether a quoted text ends is decided character by character. -/
theorem matches_closing_cons {quote c : Char} {w : List Char} (hquote : quote ≠ '\\')
    (h : Matches (closing quote) (c :: w)) :
    c = quote ∧ w = [] ∨ c ≠ quote ∧ c ≠ '\\' ∧ Matches (closing quote) w ∨
      c = '\\' ∧ ∃ d v, w = d :: v ∧ Matches (closing quote) v := by
  obtain ⟨u, v, heq, hu, hv⟩ := matches_concat.mp h
  obtain ⟨c', hc', rfl⟩ := matches_char.mp hv
  obtain rfl : c' = quote := by simpa using hc'
  cases u with
  | nil =>
    cases heq
    exact .inl ⟨rfl, rfl⟩
  | cons d u =>
    cases heq
    obtain ⟨x, y, rfl, hx, hy⟩ := matches_star_cons.mp hu
    rcases matches_union.mp hx with hx | hx
    · obtain ⟨e, he, heq⟩ := matches_char.mp hx
      cases heq
      simp only [Bool.and_eq_true, bne_iff_ne] at he
      exact .inr (.inl ⟨he.1, he.2, .concat hy hv⟩)
    · obtain ⟨a, b, hab, ha, hb⟩ := matches_concat.mp hx
      obtain ⟨e, he, rfl⟩ := matches_char.mp ha
      obtain ⟨f, -, rfl⟩ := matches_char.mp hb
      cases hab
      exact .inr (.inr ⟨by simpa using he, f, y ++ [c'], by simp, .concat hy hv⟩)

/-- No text that ends with its closing quote is the start of another one. -/
theorem closing_unique {quote : Char} (hquote : quote ≠ '\\') {w v : List Char}
    (hw : Matches (closing quote) w) (hv : Matches (closing quote) (w ++ v)) : v = [] := by
  induction h : w.length using Nat.strongRecOn generalizing w with
  | ind n ih =>
    cases w with
    | nil =>
      obtain ⟨u, x, heq, -, hx⟩ := matches_concat.mp hw
      obtain ⟨d, -, hd⟩ := matches_char.mp hx
      simp [hd] at heq
    | cons c w =>
      rw [List.cons_append] at hv
      rcases matches_closing_cons hquote hw with ⟨rfl, rfl⟩ | ⟨hc, hc', hw⟩ | ⟨rfl, d, y, rfl, hy⟩
      · rcases matches_closing_cons hquote hv with ⟨-, h⟩ | ⟨hc, -⟩ | ⟨hc, -⟩
        · simpa using h
        · exact absurd rfl hc
        · exact absurd hc hquote
      · rcases matches_closing_cons hquote hv with ⟨h, -⟩ | ⟨-, -, hv⟩ | ⟨h, -⟩
        · exact absurd h hc
        · exact ih w.length (by simp [← h]) hw hv rfl
        · exact absurd h hc'
      · rcases matches_closing_cons hquote hv with ⟨h, -⟩ | ⟨-, h, -⟩ | ⟨-, d', y', heq, hv⟩
        · exact absurd h.symm hquote
        · exact absurd rfl h
        · obtain ⟨-, rfl⟩ := List.cons.inj heq
          exact ih y.length (by simp only [← h, List.length_cons]; omega) hy hv rfl

end Pattern

namespace Token

open Pattern (Matches)

/-- What holds of the characters in a list is decided along the list, not over all characters. -/
instance (priority := high) decidableForallChars (P : Char → Prop) [DecidablePred P]
    (cs : List Char) : Decidable (∀ c ∈ cs, P c) :=
  List.decidableBAll P cs

/-- No rule has a text that goes on from `w` into `rest`. -/
def Stops (w rest : List Char) : Prop :=
  ∀ e ∈ Kind.rules, ∀ v x, v ≠ [] → rest = v ++ x → ¬ Matches e.2 (w ++ v)

section

variable {w rest input : List Char} {k : Kind} {n : Nat}

/-- What stops a text does not change what is recognised. -/
theorem recognise_append (h : Stops w rest) : recognise (w ++ rest) = recognise w := by
  unfold recognise
  congr 1
  refine List.map_congr_left fun e he => ?_
  exact congrArg (Prod.mk e.1) (Pattern.longest_append_of_stop (h e he))

/-- The longest match is at least as long as each of them. -/
theorem longer_foldl_le {matched : List (Kind × Option Nat)} {best : Option (Kind × Nat)}
    (h : matched.foldl longer best = some (k, n)) :
    (∀ k' m, best = some (k', m) → m ≤ n) ∧ ∀ k' m, (k', some m) ∈ matched → m ≤ n := by
  induction matched generalizing best with
  | nil =>
    cases h
    exact ⟨fun _ _ h => by cases h; exact Nat.le_refl _, by simp⟩
  | cons next matched ih =>
    rw [List.foldl_cons] at h
    obtain ⟨hbest, hmatched⟩ := ih h
    obtain ⟨k₁, m₁⟩ := next
    have hnext : (∀ k' m, best = some (k', m) → m ≤ n) ∧ ∀ m, m₁ = some m → m ≤ n := by
      rcases best with _ | ⟨k₀, m₀⟩ <;> rcases m₁ with _ | m₁
      · simp
      · simpa [longer] using hbest k₁ m₁ rfl
      · simpa [longer] using hbest
      · by_cases hlt : m₀ < m₁
        · have := hbest k₁ m₁ (by simp [longer, hlt])
          simp
          omega
        · have := hbest k₀ m₀ (by simp [longer, hlt])
          simp
          omega
    refine ⟨hnext.1, fun k' m hm => ?_⟩
    rcases List.mem_cons.mp hm with hm | hm
    · exact hnext.2 m (Prod.mk.inj hm).2.symm
    · exact hmatched k' m hm

/-- What is recognised at the start of an input does not go on. -/
theorem stops_of_recognise (h : recognise input = some (k, n)) :
    Stops (input.take n) (input.drop n) := by
  intro e he v x hv hx hmatch
  obtain ⟨p, -, hlongest⟩ := recognise_matches h
  have hle := (Pattern.longest_eq_some hlongest).1
  have htake : input.take n ++ v = input.take (n + v.length) := by
    rw [List.take_add, hx, List.take_left]
  have hlength : n + v.length ≤ input.length := by
    have := congrArg List.length hx
    simp only [List.length_drop, List.length_append] at this
    omega
  have hpos : 0 < v.length := List.length_pos_iff.mpr hv
  rw [htake] at hmatch
  cases hm : e.2.longest input with
  | none => exact Pattern.longest_eq_none_iff.mp hm _ hmatch
  | some m =>
    have hmle : m ≤ n :=
      (longer_foldl_le h).2 e.1 m (List.mem_map.mpr ⟨e, he, congrArg (Prod.mk e.1) hm⟩)
    exact (Pattern.longest_eq_some hm).2.2 _ (by omega) hlength hmatch

/-- What is recognised in an input is recognised without the rest of it. -/
theorem recognise_take (h : recognise input = some (k, n)) :
    recognise (input.take n) = some (k, n) := by
  rw [← recognise_append (stops_of_recognise h), List.take_append_drop, h]

/-- Kinds whose end the lexer finds without a rule. -/
def openEnded : List Kind := [.slash, .regex, .blockComment]

/-- For most kinds the lexer decides by the rules alone. -/
theorem next?_eq_some {b : Bool} (h : next? b input = some (k, n)) (hk : k ∉ openEnded) :
    ∃ k', recognise input = some (k', n) ∧
      ∀ b' input', recognise input' = some (k', n) → input'.take n = input.take n →
        next? b' input' = some (k, n) := by
  unfold next? at h
  split at h
  · obtain ⟨m, -, heq⟩ := Option.map_eq_some_iff.mp h
    cases heq
    exact absurd (by decide) hk
  · split at h
    · cases h
      exact absurd (by decide) hk
    · split at h <;> cases h <;> exact absurd (by decide) hk
  · rename_i m hrecognised
    cases h
    refine ⟨.name, hrecognised, fun b' input' h' htake => ?_⟩
    simp only [next?, h', htake]
  · rename_i hcomment hslash hname
    refine ⟨k, h, fun b' input' h' _ => ?_⟩
    unfold next?
    rw [h']
    split
    · rename_i heq
      cases heq
      exact absurd h (hcomment n)
    · rename_i heq
      cases heq
      exact absurd h (hslash n)
    · rename_i heq
      cases heq
      exact absurd h (hname n)
    · rfl

end

/-- The text of the token is one token, of the same kind, whatever stands before it. -/
def Alone (t : Token) : Prop :=
  t.kind ∉ openEnded ∧ ∀ b, next? b t.text.toList = some (t.kind, t.text.toList.length)

/-- A token that can stand alone has a text. -/
theorem Alone.text_ne_nil {t : Token} (h : t.Alone) : t.text.toList ≠ [] := by
  intro hnil
  have hnone : next? false [] = none := by decide
  have hnext := h.2 false
  rw [hnil, hnone] at hnext
  cases hnext

/-- A token stays the same where the text after it cannot extend it. -/
theorem Alone.next?_append {t : Token} {rest : List Char} (h : t.Alone)
    (hstops : Stops t.text.toList rest) (b : Bool) :
    next? b (t.text.toList ++ rest) = some (t.kind, t.text.toList.length) := by
  obtain ⟨k, hrecognised, hnext⟩ := next?_eq_some (h.2 b) h.1
  exact hnext b _ ((recognise_append hstops).trans hrecognised) (by simp)

/-- A token of a source is a token by itself. -/
theorem lex_alone {source : String} {tokens : List Token} (h : lex source = .ok tokens) :
    ∀ t ∈ tokens, t.kind ∉ openEnded → t.Alone := by
  intro t ht hk
  obtain ⟨-, afterValue, input, n, hnext, htext⟩ := lex_next h t ht
  obtain ⟨k', hrecognised, hnext'⟩ := next?_eq_some hnext hk
  refine ⟨hk, fun b => ?_⟩
  rw [htext, List.length_take, Nat.min_eq_left (next?_isTextOf hnext).1]
  exact hnext' b _ (recognise_take hrecognised) (by rw [List.take_take, Nat.min_self])

/-- White space and punctuation that ends any token of a value. -/
def delimiters : List Char := [' ', '\n', ',', '(', ')', '[', ']', '\x7d']

/-- Characters with which white space, comments and quoted texts start. -/
def special : List Char := ['\r', '\n', '#', ' ', '\t', '\'', '"']

/-- A text starts with a character that is none of some others. -/
def StartsOutside (chars cs : List Char) : Prop :=
  ∃ c v, cs = c :: v ∧ c ∉ chars

/-- The end stops every text. -/
theorem stops_nil (w : List Char) : Stops w [] := by
  intro e _ v x hv heq
  exact absurd (List.append_eq_nil_iff.mp heq.symm).1 hv

section

variable {w rest : List Char} {c first : Char}

/-- A character stops a text if no spelling and no shape goes on with it. -/
theorem stops_cons (hspellings : ∀ e ∈ Kind.spellings, ∀ v, e.2.toList ≠ w ++ c :: v)
    (hshapes : ∀ e ∈ Kind.shapes, ∀ v, ¬ Matches e.2 (w ++ c :: v)) : Stops w (c :: rest) := by
  intro e he v x hv heq hmatch
  obtain ⟨u, rfl⟩ : ∃ u, v = c :: u := by
    cases v with
    | nil => exact absurd rfl hv
    | cons c' u =>
      cases heq
      exact ⟨u, rfl⟩
  rcases List.mem_append.mp he with he | he
  · obtain ⟨spelling, hmem, rfl⟩ := List.mem_map.mp he
    exact hspellings spelling hmem u (Pattern.matches_literal.mp hmatch).symm
  · exact hshapes e he u hmatch

/-- A shape uses no delimiter and ends with no colon, unless it starts with a special character. -/
theorem shapes_delimited : ∀ e ∈ Kind.shapes,
    (∀ c ∈ delimiters, e.2.uses c = false) ∧ e.2.ends ':' = false ∨
      ∀ c, e.2.starts c = true → c ∈ special := by
  simp only [Kind.shapes, List.forall_mem_cons, List.not_mem_nil, false_implies, implies_true,
    and_true]
  refine ⟨.inl (by decide), .inl (by decide), .inl (by decide), .inl (by decide), .inr ?_, .inr ?_,
    .inr ?_, .inr ?_, .inr ?_⟩
  all_goals
    intro c hc
    simp only [Pattern.quotedText, Pattern.openText, Pattern.sequence, Pattern.optional,
      Pattern.either, Pattern.join, Pattern.repeated, Pattern.one, Pattern.starts, Pattern.nullable,
      List.foldr_cons, List.foldr_nil, Bool.or_eq_true, Bool.and_eq_true, beq_iff_eq] at hc
    simp only [special, List.mem_cons]
    grind

/-- A text that does not start as white space, comments and quoted texts do is not extended by a
delimiter. -/
theorem stops_delimiter (hfirst : first ∉ special) (hc : c ∈ delimiters) :
    Stops (first :: w) (c :: rest) := by
  have hspellings : ∀ e ∈ Kind.spellings, ∀ c ∈ e.2.toList.tail, c ∉ delimiters := by decide
  refine stops_cons (fun e he v heq => ?_) fun e he v hmatch => ?_
  · exact hspellings e he c (by simp [heq]) hc
  · rcases shapes_delimited e he with ⟨huses, -⟩ | hstarts
    · have := Pattern.uses_of_mem (c := c) hmatch (by simp)
      rw [huses c hc] at this
      cases this
    · exact hfirst (hstarts first (Pattern.starts_of_matches hmatch))

/-- A quoted text is extended by nothing. -/
theorem stops_quoted {quote : Char} (hquote : quote = '\'' ∨ quote = '"')
    (hw : Matches (.quotedText quote) w) : Stops w rest := by
  cases rest with
  | nil => exact stops_nil w
  | cons c rest =>
    obtain ⟨u, rfl, hu⟩ := Pattern.matches_quotedText.mp hw
    have hspellings : ∀ e ∈ Kind.spellings, ∀ q ∈ ['\'', '"'], e.2.toList.head? ≠ some q := by decide
    have hshapes : ∀ e ∈ Kind.shapes, ∀ q ∈ ['\'', '"'], e.2.starts q = true →
        e.1 = .singleQuoted ∧ q = '\'' ∨ e.1 = .doubleQuoted ∧ q = '"' := by decide
    have hmem : quote ∈ ['\'', '"'] := by simpa using hquote
    have hne : quote ≠ '\\' := by rcases hquote with rfl | rfl <;> decide
    refine stops_cons (fun e he v heq => hspellings e he quote hmem (by simp [heq]))
      fun e he v hmatch => ?_
    have hown : e.2 = .quotedText quote := by
      have hkind := hshapes e he quote hmem (Pattern.starts_of_matches hmatch)
      revert he hkind
      simp only [Kind.shapes, List.mem_cons, List.not_mem_nil, or_false]
      rintro (rfl | rfl | rfl | rfl | rfl | rfl | rfl | rfl | rfl) (⟨h, rfl⟩ | ⟨h, rfl⟩) <;>
        first | rfl | cases h
    rw [hown] at hmatch
    obtain ⟨x, heq, hx⟩ := Pattern.matches_quotedText.mp hmatch
    cases heq
    have := Pattern.closing_unique hne hu hx
    cases this

/-- An opening bracket, a newline and a sigil are extended by nothing. -/
theorem stops_opening (hfirst : first ∈ ['[', '(', '\x7b', '\n', '@']) : Stops [first] rest := by
  cases rest with
  | nil => exact stops_nil _
  | cons c rest =>
    have hspellings : ∀ e ∈ Kind.spellings, ∀ c ∈ ['[', '(', '\x7b', '\n', '@'],
        e.2.toList.head? = some c → e.2.toList.length = 1 := by decide
    have hshapes : ∀ e ∈ Kind.shapes, ∀ c ∈ ['[', '(', '\x7b', '\n', '@'], e.2.starts c = true →
        e.1 = .newline := by decide
    refine stops_cons (fun e he v heq => ?_) fun e he v hmatch => ?_
    · have := hspellings e he first hfirst (by simp [heq])
      simp [heq] at this
    · have hown := hshapes e he first hfirst (Pattern.starts_of_matches hmatch)
      revert he hown
      simp only [Kind.shapes, List.mem_cons, List.not_mem_nil, or_false]
      rintro (rfl | rfl | rfl | rfl | rfl | rfl | rfl | rfl | rfl) h <;> cases h
      simp only [Pattern.sequence, Pattern.optional, Pattern.one, List.foldr_cons, List.foldr_nil,
        Pattern.matches_join, Pattern.matches_concat, Pattern.matches_either, Pattern.matches_empty,
        Pattern.matches_char] at hmatch
      grind

/-- A sign is extended only by the rest of an arrow or of a comparison. -/
theorem stops_sign (hfirst : first ∈ ['-', '!']) (hc : c ∉ ['>', '=', '~']) :
    Stops [first] (c :: rest) := by
  have hspellings : ∀ e ∈ Kind.spellings, ∀ c ∈ ['-', '!'], e.2.toList.head? = some c →
      ∀ d ∈ e.2.toList.tail.take 1, d ∈ ['>', '=', '~'] := by decide
  have hshapes : ∀ e ∈ Kind.shapes, ∀ c ∈ ['-', '!'], e.2.starts c = false := by decide
  refine stops_cons (fun e he v heq => ?_) fun e he v hmatch => ?_
  · exact hc (hspellings e he first hfirst (by simp [heq]) c (by simp [heq]))
  · have := Pattern.starts_of_matches hmatch
    rw [hshapes e he first hfirst] at this
    cases this

end

section

variable {t : Token} {rest : List Char}

/-- The text of a token is matched by a rule, for a keyword by that of names. -/
theorem Spelled.matches_rule (h : t.Spelled) (hk : t.kind ∉ [Kind.regex, .blockComment]) :
    ∃ e ∈ Kind.rules, (e.1 = t.kind ∨ e.1 = .name) ∧ Matches e.2 t.text.toList := by
  have hname : (Kind.name, Kind.namePattern) ∈ Kind.rules :=
    List.mem_append_right _ List.mem_cons_self
  by_cases hkeyword : t.kind.isKeyword = true
  · exact ⟨_, hname, .inr rfl, ((isTextOf_keyword hkeyword).mp h).1⟩
  · unfold Spelled IsTextOf at h
    split at h
    · rename_i hregex
      exact absurd (by simp [hregex]) hk
    · rename_i hcomment
      exact absurd (by simp [hcomment]) hk
    · exact ⟨_, hname, .inr rfl, h.1⟩
    · rw [if_neg hkeyword] at h
      obtain ⟨p, hp, hmatch⟩ := h
      obtain ⟨before, after, heq, -⟩ := List.lookup_eq_some_iff.mp hp
      exact ⟨(t.kind, p), by rw [heq]; simp, .inl rfl, hmatch⟩

/-- The text of a token starts with a character that the rule of its kind allows. -/
theorem Spelled.startsOutside (h : t.Spelled) (hk : t.kind ∉ [Kind.regex, .blockComment])
    {chars : List Char} (hrules : ∀ e ∈ Kind.rules, e.1 = t.kind ∨ e.1 = .name →
      e.2.nullable = false ∧ ∀ c ∈ chars, e.2.starts c = false) :
    StartsOutside chars t.text.toList := by
  obtain ⟨e, he, hkind, hmatch⟩ := h.matches_rule hk
  obtain ⟨hnullable, hstarts⟩ := hrules e he hkind
  cases htext : t.text.toList with
  | nil =>
    rw [htext, ← Pattern.nullable_iff, hnullable] at hmatch
    cases hmatch
  | cons c w =>
    refine ⟨c, w, rfl, fun hc => ?_⟩
    rw [htext] at hmatch
    have := Pattern.starts_of_matches hmatch
    rw [hstarts c hc] at this
    cases this

/-- A token that stays what it is wherever a delimiter follows it. -/
structure Steady (t : Token) : Prop where
  spelled : t.Spelled
  alone : t.Alone
  visible : t.kind ∉ [Kind.newline, .comment, .blank]

/-- A steady token is neither a regular expression nor a block comment. -/
theorem Steady.not_openEnded (h : t.Steady) : t.kind ∉ [Kind.regex, .blockComment] :=
  fun hmem => h.alone.1 (List.mem_cons_of_mem _ hmem)

/-- Only a quoted text may go on over delimiters. -/
theorem Steady.quoted_or (h : t.Steady) :
    (∃ quote, (quote = '\'' ∨ quote = '"') ∧ Matches (.quotedText quote) t.text.toList) ∨
      StartsOutside special t.text.toList := by
  by_cases hquoted : t.kind ∈ [Kind.singleQuoted, .doubleQuoted]
  · have hpattern {p : Pattern} (hp : t.kind.pattern? = some p) : Matches p t.text.toList := by
      refine (isTextOf_pattern hp (fun hk => ?_) fun hk => h.not_openEnded (by simp [hk])).mp h.spelled
      rw [hk] at hquoted
      revert hquoted
      decide
    rcases List.mem_cons.mp hquoted with hk | hk
    · exact .inl ⟨_, .inl rfl, hpattern (by rw [hk]; rfl)⟩
    · exact .inl ⟨_, .inr rfl, hpattern (by rw [List.mem_singleton.mp hk]; rfl)⟩
  · have hrules : ∀ e ∈ Kind.rules,
        e.1 ∉ [Kind.newline, .comment, .blank] ++ [Kind.singleQuoted, .doubleQuoted] →
          e.2.nullable = false ∧ ∀ c ∈ special, e.2.starts c = false := by decide
    refine .inr (h.spelled.startsOutside h.not_openEnded fun e he hkind => hrules e he ?_)
    rcases hkind with hkind | hkind
    · rw [hkind]
      exact fun hmem => (List.mem_append.mp hmem).elim h.visible hquoted
    · rw [hkind]
      decide

/-- Nothing follows, or a delimiter does. -/
def Delimited (rest : List Char) : Prop :=
  ∀ c ∈ rest.head?, c ∈ delimiters

/-- Nothing follows, or a delimiter does, perhaps after a colon. -/
def Bounded (rest : List Char) : Prop :=
  Delimited rest ∨ ∃ v, rest = ':' :: v ∧ Delimited v

/-- Of a name only two colons could be a part. -/
theorem stops_colon {first : Char} {w : List Char} (hfirst : first ∉ special)
    (hrest : Delimited rest) : Stops (first :: w) (':' :: rest) := by
  have hspellings : ∀ e ∈ Kind.spellings, ':' ∉ e.2.toList.tail := by decide
  intro e he v x hv heq hmatch
  obtain ⟨u, rfl⟩ : ∃ u, v = ':' :: u := by
    cases v with
    | nil => exact absurd rfl hv
    | cons c u =>
      cases heq
      exact ⟨u, rfl⟩
  obtain rfl : rest = u ++ x := (List.cons.inj heq).2
  rcases List.mem_append.mp he with he | he
  · obtain ⟨spelling, hmem, rfl⟩ := List.mem_map.mp he
    exact hspellings spelling hmem (by simp [← Pattern.matches_literal.mp hmatch])
  · rcases shapes_delimited e he with ⟨huses, hends⟩ | hstarts
    · -- the text would end with the colon, or go on with a delimiter
      cases u with
      | nil =>
        have := Pattern.ends_of_matches (w := first :: w) hmatch
        rw [hends] at this
        cases this
      | cons c u =>
        have := Pattern.uses_of_mem (c := c) hmatch (by simp)
        rw [huses c (hrest c rfl)] at this
        cases this
    · exact hfirst (hstarts first (Pattern.starts_of_matches hmatch))

/-- A steady token is stopped by what is bounded. -/
theorem Steady.stops (h : t.Steady) (hrest : Bounded rest) : Stops t.text.toList rest := by
  rcases h.quoted_or with ⟨quote, hquote, hmatch⟩ | ⟨first, w, htext, hfirst⟩
  · exact stops_quoted hquote hmatch
  · rw [htext]
    rcases hrest with hrest | ⟨v, rfl, hv⟩
    · cases rest with
      | nil => exact stops_nil _
      | cons c rest => exact stops_delimiter hfirst (hrest c rfl)
    · exact stops_colon hfirst hv

/-- A steady token does not end with a newline. -/
theorem Steady.getLast?_ne (h : t.Steady) : t.text.toList.getLast? ≠ some '\n' := by
  rcases h.quoted_or with ⟨quote, hquote, hmatch⟩ | ⟨first, w, htext, hfirst⟩
  · obtain ⟨v, hv, hclosing⟩ := Pattern.matches_quotedText.mp hmatch
    obtain ⟨u, x, rfl, -, hx⟩ := Pattern.matches_concat.mp hclosing
    obtain ⟨c, hc, rfl⟩ := Pattern.matches_char.mp hx
    rw [hv, ← List.cons_append, List.getLast?_concat, eq_of_beq hc]
    rcases hquote with rfl | rfl <;> decide
  · intro hlast
    obtain ⟨u, hu⟩ := List.getLast?_eq_some_iff.mp hlast
    obtain ⟨e, he, -, hmatch⟩ := h.spelled.matches_rule h.not_openEnded
    rw [hu] at hmatch htext
    cases u with
    | nil =>
      cases htext
      exact hfirst (by decide)
    | cons c u =>
      cases htext
      have hstops : Stops (first :: u) ['\n'] := stops_delimiter hfirst (by decide)
      exact hstops e he ['\n'] [] (by simp) rfl hmatch

end

/-- Most tokens of a source are steady. -/
theorem lex_steady {source : String} {tokens : List Token} (h : lex source = .ok tokens) {t : Token}
    (ht : t ∈ tokens) (hopen : t.kind ∉ openEnded) (hvisible : t.kind ∉ [Kind.newline, .comment]) :
    t.Steady := by
  obtain ⟨hspelled, hblank⟩ := lex_spelled h t ht
  refine ⟨hspelled, lex_alone h t ht hopen, fun hmem => ?_⟩
  rcases List.mem_append.mp (show t.kind ∈ [Kind.newline, .comment] ++ [Kind.blank] from hmem) with
    hk | hk
  · exact hvisible hk
  · exact hblank (List.mem_singleton.mp hk)

/-- A text is cut into tokens of some sort, whatever stands before it. -/
def Lexes (cs : List Char) (sort : List Token → Prop) : Prop :=
  ∀ source line afterValue, ∃ tokens,
    lexFrom source line afterValue cs = .ok tokens ∧ sort tokens

/-- Tokens of one sort, and then tokens of another. -/
def Then (first more : List Token → Prop) (tokens : List Token) : Prop :=
  ∃ v w, tokens = v ++ w ∧ first v ∧ more w

/-- One token, on whatever line. -/
def Only (t : Token) (tokens : List Token) : Prop :=
  ∃ line, tokens = [{ t with line }]

section

variable {cs input : List Char} {sort : List Token → Prop} {k : Kind} {n : Nat}

theorem lexes_nil (h : sort []) : Lexes [] sort :=
  fun _ _ _ => ⟨[], by rw [lexFrom], h⟩

theorem Lexes.mono {sort' : List Token → Prop} (h : Lexes cs sort) (hsort : ∀ w, sort w → sort' w) :
    Lexes cs sort' := by
  intro source line afterValue
  obtain ⟨tokens, htokens, hsort'⟩ := h source line afterValue
  exact ⟨tokens, htokens, hsort tokens hsort'⟩

theorem Lexes.lex {source : String} (h : Lexes source.toList sort) :
    ∃ tokens, Token.lex source = .ok tokens ∧ sort tokens :=
  h source 1 false

theorem Lexes.step (hpos : 0 < n) (hlength : n ≤ input.length)
    (hnext : ∀ b, next? b input = some (k, n)) (h : Lexes (input.drop n) sort) (source : String)
    (line : Nat) (afterValue : Bool) :
    ∃ tokens, sort tokens ∧ lexFrom source line afterValue input =
      .ok (if k == .blank then tokens else ⟨k, String.ofList (input.take n), line⟩ :: tokens) := by
  cases input with
  | nil => exact absurd hlength (Nat.not_le.mpr hpos)
  | cons c rest =>
    obtain ⟨n, rfl⟩ : ∃ m, n = m + 1 := ⟨n - 1, by omega⟩
    rw [List.drop_succ_cons] at h
    obtain ⟨tokens, htokens, hsort⟩ := h source
      (line + ((c :: rest).take (n + 1)).count '\n')
      (if k.isTrivia then afterValue else k.canEndValue)
    refine ⟨tokens, hsort, ?_⟩
    rw [lexFrom, hnext afterValue]
    simp only [Nat.add_sub_cancel, htokens]

/-- A token in front of a text that cannot extend it. -/
theorem Lexes.token {t : Token} (ht : t.Alone) (hblank : t.kind ≠ .blank)
    (hstops : Stops t.text.toList cs) (h : Lexes cs sort) :
    Lexes (t.text.toList ++ cs) (Then (Only t) sort) := by
  intro source line afterValue
  obtain ⟨tokens, hsort, htokens⟩ := Lexes.step (List.length_pos_iff.mpr ht.text_ne_nil) (by simp)
    (ht.next?_append hstops) (by rwa [List.drop_left]) source line afterValue
  refine ⟨_, htokens, [{ t with line }], tokens, ?_, ⟨line, rfl⟩, hsort⟩
  simp [hblank]

/-- Where a pattern matches something, something is recognised. -/
theorem recognise_isSome {e : Kind × Pattern} (he : e ∈ Kind.rules)
    (h : (e.2.longest input).isSome = true) : (recognise input).isSome = true := by
  have hfold (matched : List (Kind × Option Nat)) (best : Option (Kind × Nat))
      (h : best.isSome = true ∨ ∃ x ∈ matched, x.2.isSome = true) :
      (matched.foldl longer best).isSome = true := by
    induction matched generalizing best with
    | nil => simpa using h
    | cons next matched ih =>
      refine ih _ ?_
      obtain ⟨k', _ | m⟩ := next <;> rcases best with _ | ⟨k₀, m₀⟩ <;> simp_all [longer]
      exact .inl (by split <;> rfl)
  exact hfold _ none (.inr ⟨(e.1, e.2.longest input), List.mem_map.mpr ⟨e, he, rfl⟩, h⟩)

/-- Where only one rule can start, it decides. -/
theorem recognise_only {e : Kind × Pattern} {c : Char} {rest : List Char} (he : e ∈ Kind.rules)
    (honly : ∀ e' ∈ Kind.rules, e'.1 ≠ e.1 → e'.2.nullable = false ∧ e'.2.starts c = false)
    (h : e.2.longest (c :: rest) = some n) : recognise (c :: rest) = some (e.1, n) := by
  obtain ⟨⟨k, m⟩, hrecognised⟩ :=
    Option.isSome_iff_exists.mp (recognise_isSome he (by rw [h]; rfl))
  obtain ⟨p, hp, hlongest⟩ := recognise_matches hrecognised
  have hkind : k = e.1 := by
    obtain ⟨before, after, heq, -⟩ := List.lookup_eq_some_iff.mp hp
    refine Decidable.byContradiction fun hne => ?_
    obtain ⟨hnullable, hstarts⟩ := honly (k, p) (by rw [heq]; simp) hne
    have hmatch := (Pattern.longest_eq_some hlongest).2.1
    cases m with
    | zero =>
      rw [List.take_zero, ← Pattern.nullable_iff, hnullable] at hmatch
      cases hmatch
    | succ m =>
      have := Pattern.starts_of_matches hmatch
      rw [hstarts] at this
      cases this
  have hpattern : e.1.pattern? = some e.2 := lookup_of_mem Kind.nodup_rules he
  rw [hkind, hpattern] at hp
  cases hp
  rw [hlongest] at h
  cases h
  rw [hrecognised, hkind]

/-- Blanks in front of a text that does not start with one. -/
theorem Lexes.blanks (n : Nat) (hcs : ∀ c ∈ cs.head?, c ∉ [' ', '\t', '\r']) (h : Lexes cs sort) :
    Lexes (List.replicate n ' ' ++ cs) sort := by
  cases n with
  | zero => exact h
  | succ n =>
    obtain ⟨e, he, hkind, hblank⟩ : ∃ e ∈ Kind.rules, e.1 = .blank ∧
        e.2 = .repeated (.char fun c => c == ' ' || c == '\t' || c == '\r') :=
      ⟨_, List.mem_append_right _ (List.mem_of_getLast? rfl), rfl, rfl⟩
    have honly : ∀ e' ∈ Kind.rules, e'.1 ≠ .blank →
        e'.2.nullable = false ∧ e'.2.starts ' ' = false := by decide
    have hlongest : e.2.longest (List.replicate (n + 1) ' ' ++ cs) =
        some (List.replicate (n + 1) ' ').length := by
      rw [hblank]
      refine Pattern.longest_append (.concat (u := [' ']) (.char rfl)
        (Pattern.matches_star_char.mpr fun c hc => by simp [List.eq_of_mem_replicate hc]))
        fun v x hv hx hmatch => ?_
      obtain ⟨c, v, rfl⟩ := List.exists_cons_of_ne_nil hv
      have := Pattern.uses_of_mem (c := c) hmatch (by simp)
      refine hcs c (by simp [hx]) ?_
      simpa [Pattern.repeated, Pattern.uses, or_assoc] using this
    have hrecognised : recognise (List.replicate (n + 1) ' ' ++ cs) = some (.blank, n + 1) := by
      rw [List.length_replicate] at hlongest
      rw [← hkind]
      exact recognise_only he (fun e' he' hne => honly e' he' (hkind ▸ hne)) hlongest
    have hnext (b : Bool) : next? b (List.replicate (n + 1) ' ' ++ cs) = some (.blank, n + 1) := by
      simp only [next?, hrecognised]
    have hrest : (List.replicate (n + 1) ' ' ++ cs).drop (n + 1) = cs :=
      List.drop_left' List.length_replicate
    intro source line afterValue
    obtain ⟨tokens, hsort, htokens⟩ :=
      Lexes.step (Nat.succ_pos n) (by simp) hnext (hrest ▸ h) source line afterValue
    exact ⟨tokens, htokens, hsort⟩

end

end Token

end TidyManifest
