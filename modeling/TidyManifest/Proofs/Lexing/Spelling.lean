import TidyManifest.Proofs.Lexing.Matches
import TidyManifest.Token.Lexer

/-!
# The texts of tokens

Every token that comes out of a source has a text of its kind (`lex_spelled`).  For most kinds that
is a text of the kind's pattern, and for punctuation and keywords one text only; regular
expressions and block comments have their ends decided by the lexer.
-/

namespace TidyManifest

namespace Kind

/-- The pattern by which a kind is recognised. -/
def pattern? (k : Kind) : Option Pattern :=
  rules.lookup k

/-- The pattern of names and keywords. -/
def namePattern : Pattern :=
  .qualified (.segment fun c => isLowerLetter c || c == '_')

/-- No kind has two rules. -/
theorem nodup_rules : (rules.map (·.1)).Nodup := by
  decide

end Kind

/-- In a table without repeated keys, an entry is found under its key. -/
theorem lookup_of_mem {α β : Type} [BEq α] [LawfulBEq α] {l : List (α × β)} {a : α} {b : β}
    (hl : (l.map (·.1)).Nodup) (h : (a, b) ∈ l) : l.lookup a = some b := by
  induction l with
  | nil => simp at h
  | cons entry l ih =>
    obtain ⟨a', b'⟩ := entry
    rw [List.map_cons, List.nodup_cons] at hl
    rcases List.mem_cons.mp h with h | h
    · cases h
      simp
    · have hne : (a == a') = false := by
        rw [beq_eq_false_iff_ne]
        rintro rfl
        exact hl.1 (List.mem_map.mpr ⟨(a, b), by assumption, rfl⟩)
      rw [List.lookup_cons, hne]
      exact ih hl.2 (by assumption)

namespace Pattern

/-- A literal pattern describes its text and no other. -/
theorem matches_literal {text : String} {w : List Char} :
    Matches (literal text) w ↔ w = text.toList := by
  unfold literal
  generalize text.toList = cs
  induction cs generalizing w with
  | nil => simp
  | cons c cs ih =>
    rw [List.foldr_cons, matches_join, matches_concat]
    constructor
    · rintro ⟨u, v, rfl, hu, hv⟩
      obtain ⟨c', hc', rfl⟩ := matches_char.mp hu
      rw [ih.mp hv, eq_of_beq hc', List.singleton_append]
    · rintro rfl
      exact ⟨[c], cs, rfl, .char (beq_self_eq_true c), ih.mpr rfl⟩

end Pattern

namespace Token

open Pattern (Matches)

/-- The texts that the lexer gives to a kind. -/
def IsTextOf (text : List Char) : Kind → Prop
  | .regex => ∃ body, text = '/' :: body ∧ regexEnd false body = some body.length
  | .blockComment => ∃ body, text = '/' :: '*' :: body ∧ commentEnd body = some body.length
  | .name => Matches Kind.namePattern text ∧ Kind.keyword? (String.ofList text) = none
  | kind =>
    if kind.isKeyword then
      Matches Kind.namePattern text ∧ Kind.keyword? (String.ofList text) = some kind
    else ∃ p, kind.pattern? = some p ∧ Matches p text

/-- A token with a text of its kind. -/
def Spelled (t : Token) : Prop :=
  IsTextOf t.text.toList t.kind

/-- The longest match is one of the matches. -/
theorem longer_foldl {matched : List (Kind × Option Nat)} {best : Option (Kind × Nat)} {k : Kind}
    {n : Nat} (h : matched.foldl longer best = some (k, n)) :
    best = some (k, n) ∨ (k, some n) ∈ matched := by
  induction matched generalizing best with
  | nil => exact .inl h
  | cons next matched ih =>
    rw [List.foldl_cons] at h
    rcases ih h with h | h
    · obtain ⟨k', _ | n'⟩ := next
      · exact .inl (by simpa [longer] using h)
      · rcases best with _ | ⟨k₀, n₀⟩
        · simp only [longer, Option.some.injEq, Prod.mk.injEq] at h
          simp [h.1, h.2]
        · simp only [longer] at h
          split at h
          · cases h
            simp
          · exact .inl h
    · exact .inr (by simp [h])

/-- A kind that is recognised has a pattern, and its length is that of the longest match. -/
theorem recognise_matches {input : List Char} {k : Kind} {n : Nat}
    (h : recognise input = some (k, n)) :
    ∃ p, k.pattern? = some p ∧ p.longest input = some n := by
  rcases longer_foldl h with h | h
  · cases h
  · obtain ⟨⟨k', p⟩, hmem, heq⟩ := List.mem_map.mp h
    simp only [Prod.mk.injEq] at heq
    obtain ⟨rfl, hlongest⟩ := heq
    exact ⟨p, lookup_of_mem Kind.nodup_rules hmem, hlongest⟩

/-- The texts of a keyword are names that are this keyword. -/
theorem isTextOf_keyword {text : List Char} {k : Kind} (h : k.isKeyword = true) :
    IsTextOf text k ↔
      Matches Kind.namePattern text ∧ Kind.keyword? (String.ofList text) = some k := by
  have hregex : k ≠ .regex := by rintro rfl; cases h
  have hcomment : k ≠ .blockComment := by rintro rfl; cases h
  have hname : k ≠ .name := by rintro rfl; cases h
  rw [IsTextOf] <;> try assumption
  simp [h]

/-- The texts of most kinds are those that their pattern describes. -/
theorem isTextOf_pattern {text : List Char} {k : Kind} {p : Pattern} (hp : k.pattern? = some p)
    (hname : k ≠ .name) (hcomment : k ≠ .blockComment) : IsTextOf text k ↔ Matches p text := by
  have hkeyword : k.isKeyword = false := by
    revert hp
    cases k <;> first | (intro _; rfl) | nofun
  have hregex : k ≠ .regex := by rintro rfl; cases hp
  rw [IsTextOf] <;> try assumption
  simp [hkeyword, hp]

/-- What the table of keywords gives is a keyword. -/
theorem isKeyword_of_keyword? {text : String} {k : Kind} (h : Kind.keyword? text = some k) :
    k.isKeyword = true := by
  obtain ⟨before, after, heq, -⟩ := List.lookup_eq_some_iff.mp h
  rw [Kind.isKeyword, heq]
  simp

/-- The end of a block comment is found without what follows it. -/
theorem commentEnd_take {input : List Char} {n : Nat} (h : commentEnd input = some n) :
    n ≤ input.length ∧ commentEnd (input.take n) = some n := by
  fun_induction commentEnd input generalizing n with
  | case1 => cases h
  | case2 rest =>
    cases h
    simp [commentEnd]
  | case3 c rest hc ih =>
    obtain ⟨m, hm, rfl⟩ := Option.map_eq_some_iff.mp h
    obtain ⟨hle, htake⟩ := ih hm
    refine ⟨Nat.succ_le_succ hle, ?_⟩
    rw [List.take_succ_cons, commentEnd, htake]
    · rfl
    · rintro rest' rfl hrest
      obtain ⟨more, rfl⟩ : ∃ more, rest = '/' :: more := by
        rw [← List.take_append_drop m rest, hrest]
        exact ⟨_, rfl⟩
      exact hc more rfl rfl

/-- The end of a regular expression is found without what follows it. -/
theorem regexEnd_take {escaped : Bool} {input : List Char} {n : Nat}
    (h : regexEnd escaped input = some n) :
    n ≤ input.length ∧ regexEnd escaped (input.take n) = some n := by
  fun_induction regexEnd escaped input generalizing n with
  | case1 => cases h
  | case2 => cases h
  | case3 escaped c rest hc hslash =>
    cases h
    simp_all [regexEnd]
  | case4 escaped c rest hc hslash ih =>
    obtain ⟨m, hm, rfl⟩ := Option.map_eq_some_iff.mp h
    obtain ⟨hle, htake⟩ := ih hm
    refine ⟨Nat.succ_le_succ hle, ?_⟩
    rw [List.take_succ_cons, regexEnd, htake]
    simp_all

/-- A kind with a literal pattern is recognised where its text stands. -/
theorem recognise_literal {input : List Char} {k : Kind} {n : Nat} (text : String)
    (h : recognise input = some (k, n)) (hk : k.pattern? = some (.literal text)) :
    n = text.toList.length ∧ ∃ rest, input = text.toList ++ rest := by
  obtain ⟨p, hp, hlongest⟩ := recognise_matches h
  obtain rfl : p = .literal text := Option.some.inj (hp.symm.trans hk)
  obtain ⟨hle, hmatch, -⟩ := Pattern.longest_eq_some hlongest
  have htake := Pattern.matches_literal.mp hmatch
  have := congrArg List.length htake
  rw [List.length_take, Nat.min_eq_left hle] at this
  exact ⟨this, input.drop n, by rw [← htake, List.take_append_drop]⟩

/-- What the lexer takes from an input is a text of the kind that it gives. -/
theorem next?_isTextOf {afterValue : Bool} {input : List Char} {k : Kind} {n : Nat}
    (h : next? afterValue input = some (k, n)) : n ≤ input.length ∧ IsTextOf (input.take n) k := by
  unfold next? at h
  split at h
  · rename_i m hrecognised
    obtain ⟨rfl, rest, rfl⟩ := recognise_literal "/*" hrecognised rfl
    obtain ⟨j, hj, heq⟩ := Option.map_eq_some_iff.mp h
    cases heq
    obtain ⟨hle, hend⟩ := commentEnd_take (show commentEnd rest = some j from hj)
    rw [List.take_length_add_append, List.length_append]
    exact ⟨Nat.add_le_add_left hle _, rest.take j, rfl,
      by rw [hend, List.length_take, Nat.min_eq_left hle]⟩
  · rename_i m hrecognised
    obtain ⟨rfl, rest, rfl⟩ := recognise_literal "/" hrecognised rfl
    have hslash : IsTextOf (("/".toList ++ rest).take "/".toList.length) .slash := by
      rw [List.take_left, isTextOf_pattern (p := .literal "/") rfl (by decide) (by decide)]
      exact Pattern.matches_literal.mpr rfl
    split at h
    · cases h
      exact ⟨by simp, hslash⟩
    · split at h
      · rename_i j hj
        cases h
        obtain ⟨hle, hend⟩ := regexEnd_take (show regexEnd false rest = some j from hj)
        rw [List.take_length_add_append, List.length_append]
        exact ⟨Nat.add_le_add_left hle _, rest.take j, rfl,
          by rw [hend, List.length_take, Nat.min_eq_left hle]⟩
      · cases h
        exact ⟨by simp, hslash⟩
  · rename_i m hrecognised
    obtain ⟨p, hp, hlongest⟩ := recognise_matches hrecognised
    obtain rfl : Kind.namePattern = p := Option.some.inj hp
    obtain ⟨hle, hmatch, -⟩ := Pattern.longest_eq_some hlongest
    cases h
    refine ⟨hle, ?_⟩
    cases hkeyword : Kind.keyword? (String.ofList (input.take n)) with
    | none => exact ⟨hmatch, hkeyword⟩
    | some k => exact (isTextOf_keyword (isKeyword_of_keyword? hkeyword)).mpr ⟨hmatch, hkeyword⟩
  · rename_i hcomment _ hname
    obtain ⟨p, hp, hlongest⟩ := recognise_matches h
    obtain ⟨hle, hmatch, -⟩ := Pattern.longest_eq_some hlongest
    refine ⟨hle, (isTextOf_pattern hp ?_ ?_).mpr hmatch⟩
    · rintro rfl
      exact hname n h
    · rintro rfl
      exact hcomment n h

/-- Every token of a source was taken from the start of some input, and none is blank. -/
theorem lex_next {source : String} {tokens : List Token} (h : lex source = .ok tokens) :
    ∀ t ∈ tokens, t.kind ≠ .blank ∧ ∃ afterValue input n,
      next? afterValue input = some (t.kind, n) ∧ t.text.toList = input.take n := by
  have hfrom (line : Nat) (afterValue : Bool) (input : List Char) (tokens : List Token)
      (h : lexFrom source line afterValue input = .ok tokens) :
      ∀ t ∈ tokens, t.kind ≠ .blank ∧ ∃ afterValue input n,
        next? afterValue input = some (t.kind, n) ∧ t.text.toList = input.take n := by
    fun_induction lexFrom source line afterValue input generalizing tokens with
    | case1 => cases h; simp
    | case2 => cases h
    | case3 => cases h
    | case4 line afterValue c rest k n hnext text more hmore ih =>
      cases h
      intro t ht
      split at ht
      · exact ih _ hmore t ht
      · rename_i hblank
        rcases List.mem_cons.mp ht with rfl | ht
        · exact ⟨by simpa using hblank, afterValue, c :: rest, n, hnext, String.toList_ofList⟩
        · exact ih _ hmore t ht
  exact hfrom 1 false source.toList tokens h

/-- Every token of a source has a text of its kind, and none is blank. -/
theorem lex_spelled {source : String} {tokens : List Token} (h : lex source = .ok tokens) :
    ∀ t ∈ tokens, t.Spelled ∧ t.kind ≠ .blank := by
  intro t ht
  obtain ⟨hblank, afterValue, input, n, hnext, htext⟩ := lex_next h t ht
  refine ⟨?_, hblank⟩
  rw [Spelled, htext]
  exact (next?_isTextOf hnext).2

end Token

namespace Kind

/-- The text of a kind that has one text only. -/
def spelling? (k : Kind) : Option String :=
  if k = .blockComment then none
  else match spellings.lookup k with
    | some text => some text
    | none => (keywords.find? fun entry => entry.2 == k).map (·.1)

/-- No keyword has two texts. -/
theorem keywords_unique :
    ∀ e ∈ keywords, ∀ e' ∈ keywords, e.2 = e'.2 → e = e' := by
  decide

/-- A kind with one spelling has that spelling as its pattern. -/
theorem pattern?_of_spelling {k : Kind} {text : String} (h : spellings.lookup k = some text) :
    k.pattern? = some (.literal text) := by
  obtain ⟨before, after, heq, -⟩ := List.lookup_eq_some_iff.mp h
  refine lookup_of_mem nodup_rules (List.mem_append_left _ (List.mem_map.mpr ⟨(k, text), ?_, rfl⟩))
  rw [heq]
  simp

end Kind

namespace Token

open Pattern (Matches)

variable {t : Token} (h : t.Spelled)

include h

/-- A spelled token of a kind with one spelling has this text. -/
theorem Spelled.text_eq {text : String} (hk : t.kind.spelling? = some text) : t.text = text := by
  unfold Kind.spelling? at hk
  split at hk
  · cases hk
  · rename_i hcomment
    split at hk
    · rename_i text' hlookup
      cases hk
      have hname : t.kind ≠ .name := by
        intro hname
        rw [hname] at hlookup
        cases hlookup
      have := (isTextOf_pattern (Kind.pattern?_of_spelling hlookup) hname hcomment).mp h
      exact String.toList_inj.mp (Pattern.matches_literal.mp this)
    · obtain ⟨entry, hfind, rfl⟩ := Option.map_eq_some_iff.mp hk
      have hentry := List.mem_of_find?_eq_some hfind
      have hkind : entry.2 = t.kind := by simpa using List.find?_some hfind
      have hkeyword : t.kind.isKeyword = true := by
        rw [Kind.isKeyword, List.any_eq_true]
        exact ⟨entry, hentry, by simp [hkind]⟩
      obtain ⟨-, hlookup⟩ := (isTextOf_keyword hkeyword).mp h
      obtain ⟨before, after, heq, -⟩ := List.lookup_eq_some_iff.mp hlookup
      have hmem : (t.text, t.kind) ∈ Kind.keywords := by
        rw [heq]
        simp
      rw [Kind.keywords_unique _ hentry _ hmem hkind]

/-- A spelled comment starts with its sign and stays on its line. -/
theorem Spelled.comment_text (hk : t.kind = .comment) :
    ∃ body, t.text.toList = '#' :: body ∧ ∀ c ∈ body, c ≠ '\r' ∧ c ≠ '\n' := by
  have := (isTextOf_pattern (k := t.kind) (by rw [hk]; rfl) (by simp [hk]) (by simp [hk])).mp h
  obtain ⟨u, body, heq, hu, hbody⟩ := Pattern.matches_concat.mp this
  obtain ⟨c, hc, rfl⟩ := Pattern.matches_char.mp hu
  refine ⟨body, by rw [heq, eq_of_beq hc, List.singleton_append], fun c hc => ?_⟩
  simpa using Pattern.matches_star_char.mp hbody c hc

end Token

end TidyManifest
