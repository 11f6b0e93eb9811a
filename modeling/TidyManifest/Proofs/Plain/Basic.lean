import TidyManifest.Parse.Basic
import TidyManifest.Proofs.Phrase.Basic

/-!
# Plain reading

The parser moves a cursor, grows a tree and remembers failures.  What it reads depends on none of
this: it is a function of the tokens ahead and of the category of the parent.  This module says
that function outright.  A plain reading takes tokens and gives a phrase with the tokens after it,
nothing if the phrase is not there, or a fault if the whole text is to be refused.

Taking back needs no care here, because a reading that gives nothing has changed nothing.  The
definitions follow those of the parser one by one; `Proofs.Agree.Parse` shows that the parser
does what they say.
-/

namespace TidyManifest.Plain

open Parse Grammar

/-- Why a plain reading gives up: the text is refused at one of its tokens, it ends inside a block,
or the levels do not suffice. -/
inductive Fault where
  | refused
  | ended
  | exhausted
deriving DecidableEq

/-- What a plain reading gives: something with the tokens after it, nothing, or a fault. -/
abbrev Outcome (α : Type) := Except Fault (Option (α × List Token))

/-- What steps read, each thing with the name under which it is kept. -/
abbrev Trace (ι : Type) := List (Option String × Capture ι)

/-- What a rule keeps of a trace. -/
def logOf {ι : Type} (trace : Trace ι) : List (String × Capture ι) :=
  trace.filterMap fun entry => entry.1.map (·, entry.2)

/-- What the next level can read. -/
structure Oracle where
  /-- a phrase of the first category that applies, below a parent of some category -/
  choose : List Category → Category → List Token → Outcome Phrase
  /-- statements below a parent of some category, up to a closing kind or the end -/
  statements : Category → Option Kind → List Token → Except Fault (List Phrase × List Token)
  /-- how often a step may be repeated on the tokens ahead -/
  rounds : List Token → Nat

section

variable {α β : Type}

/-- Go on with what has been read. -/
def andThen (reading : Outcome α) (next : α → List Token → Outcome β) : Outcome β :=
  match reading with
  | .error f => .error f
  | .ok none => .ok none
  | .ok (some (a, rest)) => next a rest

@[simp] theorem andThen_error (f : Fault) (next : α → List Token → Outcome β) :
    andThen (.error f) next = .error f := rfl

@[simp] theorem andThen_none (next : α → List Token → Outcome β) :
    andThen (.ok none) next = .ok none := rfl

@[simp] theorem andThen_some (a : α) (rest : List Token) (next : α → List Token → Outcome β) :
    andThen (.ok (some (a, rest))) next = next a rest := rfl

/-- What has been read comes from a first reading and from what follows it. -/
theorem andThen_eq_some {reading : Outcome α} {next : α → List Token → Outcome β} {b : β}
    {rest : List Token} (h : andThen reading next = .ok (some (b, rest))) :
    ∃ a middle, reading = .ok (some (a, middle)) ∧ next a middle = .ok (some (b, rest)) := by
  match reading, h with
  | .ok (some (a, middle)), h => exact ⟨a, middle, rfl, h⟩

end

/-- The tokens at which a step starts. -/
def lead (usage : Usage) (tokens : List Token) : List Token :=
  if usage.sameLine then tokens else Lookahead.significant newlines tokens

/-- Read something again until it fails or stays where it is. -/
def again (reading : List Token → Outcome (Trace Phrase)) :
    Nat → List Token → Except Fault (Trace Phrase × List Token)
  | 0, _ => .error .exhausted
  | n + 1, tokens =>
    match reading tokens with
    | .error f => .error f
    | .ok none => .ok ([], tokens)
    | .ok (some (trace, rest)) =>
      if rest.length = tokens.length then .ok (trace, rest)
      else match again reading n rest with
        | .error f => .error f
        | .ok (more, rest) => .ok (trace ++ more, rest)

/-- Use a step as its rule says: it may be left out, or read more than once. -/
def used (usage : Usage) (rounds : List Token → Nat) (reading : List Token → Outcome (Trace Phrase))
    (tokens : List Token) : Outcome (Trace Phrase) :=
  match reading tokens with
  | .error f => .error f
  | .ok none => if usage.optional then .ok (some ([], tokens)) else .ok none
  | .ok (some (trace, rest)) =>
    if usage.many then
      match again reading (rounds rest) rest with
      | .error f => .error f
      | .ok (more, rest) => .ok (some (trace ++ more, rest))
    else .ok (some (trace, rest))

mutual

/-- Read a step one time. -/
def once (d : Oracle) (owner : Category) : Step → List Token → Outcome (Trace Phrase)
  | .token usage kinds, tokens =>
    match lead usage tokens with
    | [] => .ok none
    | t :: rest =>
      if t.isOneOf kinds then .ok (some ([(usage.label, .token t)], rest)) else .ok none
  | .node usage categories, tokens =>
    andThen (d.choose categories owner (lead usage tokens)) fun p rest =>
      .ok (some ([(usage.label, .node p)], rest))
  | .group usage steps, tokens => inOrder d owner steps (lead usage tokens)
  | .choice usage branches, tokens => firstOf d owner branches (lead usage tokens)
  | .block usage, tokens =>
    match lead usage tokens with
    | [] => .ok none
    | t :: rest =>
      if t.kind == .leftBrace then
        match d.statements owner (some .rightBrace) rest with
        | .error f => .error f
        | .ok (ps, rest) => .ok (some ([(usage.label, .block ps)], rest.tail))
      else .ok none

/-- Read steps in order. -/
def inOrder (d : Oracle) (owner : Category) : List Step → List Token → Outcome (Trace Phrase)
  | [], tokens => .ok (some ([], tokens))
  | step :: steps, tokens =>
    andThen (used step.usage d.rounds (fun tokens => once d owner step tokens) tokens)
      fun trace rest =>
        andThen (inOrder d owner steps rest) fun more rest => .ok (some (trace ++ more, rest))

/-- Read the first sequence of steps that can be read. -/
def firstOf (d : Oracle) (owner : Category) : List (List Step) → List Token → Outcome (Trace Phrase)
  | [], _ => .ok none
  | branch :: branches, tokens =>
    match inOrder d owner branch tokens with
    | .ok none => firstOf d owner branches tokens
    | found => found

end

/-- Read the items of a resource body up to the closing brace. -/
def items (d : Oracle) : Nat → List Token → Outcome (List Phrase)
  | 0, _ => .error .exhausted
  | n + 1, tokens =>
    match Lookahead.significant newlines tokens with
    | [] => .error .ended
    | t :: rest =>
      if t.kind == .rightBrace then .ok (some ([], rest))
      else if t.kind == .semicolon || t.kind == .comma then items d n rest
      else
        let categories :=
          if t.kind == .comment || t.kind == .blockComment then comments
          else if atPair (t :: rest) then [.pair]
          else [.title]
        andThen (d.choose categories .resource (t :: rest)) fun item rest =>
          andThen (items d n rest) fun more rest => .ok (some (item :: more, rest))

/-- Read what follows the head of a resource, and make its contents. -/
def resource (d : Oracle) (trace : Trace Phrase) (tokens : List Token) : Outcome (Form Phrase) :=
  let log : Captures Phrase := ⟨logOf trace⟩
  match resourceHead? log with
  | none => .ok none
  | some head =>
    let sigil := String.join ((log.tokens "sigil").map (·.text))
    let collector := log.node? "collector"
    match Lookahead.significant newlines tokens with
    | t :: rest =>
      if t.kind == .leftBrace then
        andThen (items d (d.rounds rest) rest) fun items rest =>
          .ok (some (.resource sigil head collector true items, rest))
      else if collector.isSome then .ok (some (.resource sigil head collector false [], tokens))
      else .ok none
    | [] =>
      if collector.isSome then .ok (some (.resource sigil head collector false [], tokens))
      else .ok none

/-- Read a phrase of a category. -/
def phrase (d : Oracle) (category : Category) (tokens : List Token) : Outcome Phrase :=
  let tokens := Lookahead.significant newlines tokens
  let line := (tokens.head?.map (·.line)).getD 0
  andThen (inOrder d category category.rule.steps tokens) fun trace rest =>
    if category == .resource then
      andThen (resource d trace rest) fun form rest => .ok (some (⟨line, form⟩, rest))
    else match Form.ofCaptures? category ⟨logOf trace⟩ with
      | none => .ok none
      | some form => .ok (some (⟨line, form⟩, rest))

/-- Whether a category is recognised, below a parent of some category. -/
def accepts (d : Oracle) (category parent : Category) (tokens : List Token) : Bool :=
  match category with
  | .call =>
    atPattern category.rule tokens || (parent.takesStatements && atPlainCall tokens)
  | .resource => atResource tokens
  | .selector => atSelector tokens
  | .caseOption =>
    parent == .caseBlock &&
      match inOrder d parent caseValues (Lookahead.significant newlines tokens) with
      | .ok (some _) => true
      | _ => false
  | .chain =>
    match d.choose chainMembers parent (Lookahead.significant newlines tokens) with
    | .ok (some (_, rest)) => Lookahead.startsWith edges newlines rest
    | _ => false
  | _ => category.rule.patterns.isEmpty || atPattern category.rule tokens

/-- Whether the levels do not suffice to say if a category is recognised.  A case option and a chain
are recognised by reading them, at least in part. -/
def runsOut (d : Oracle) (category parent : Category) (tokens : List Token) : Bool :=
  match category with
  | .caseOption =>
    parent == .caseBlock &&
      match inOrder d parent caseValues (Lookahead.significant newlines tokens) with
      | .error .exhausted => true
      | _ => false
  | .chain =>
    match d.choose chainMembers parent (Lookahead.significant newlines tokens) with
    | .error .exhausted => true
    | _ => false
  | _ => false

/-- Only a case option and a chain are tried. -/
theorem runsOut_of_ne {d : Oracle} {category parent : Category} {tokens : List Token}
    (hoption : category ≠ .caseOption) (hchain : category ≠ .chain) :
    runsOut d category parent tokens = false := by
  cases category with
  | caseOption => exact absurd rfl hoption
  | chain => exact absurd rfl hchain
  | _ => rfl

/-- Read a phrase of the first category that is recognised. -/
def chooseFrom (d : Oracle) : List Category → Category → List Token → Outcome Phrase
  | [], _, _ => .ok none
  | category :: rest, parent, tokens =>
    if runsOut d category parent tokens then .error .exhausted
    else if accepts d category parent tokens then phrase d category tokens
    else chooseFrom d rest parent tokens

/-- What is chosen is read by the first category, if that one is recognised, and otherwise by the
rest. -/
theorem chooseFrom_cons_eq_ok {d : Oracle} {category parent : Category}
    {categories : List Category} {tokens : List Token} {found : Option (Phrase × List Token)}
    (h : chooseFrom d (category :: categories) parent tokens = .ok found) :
    accepts d category parent tokens = true ∧ phrase d category tokens = .ok found ∨
      accepts d category parent tokens = false ∧
        chooseFrom d categories parent tokens = .ok found := by
  rw [chooseFrom] at h
  split at h
  · cases h
  · split at h
    case isTrue haccepts => exact .inl ⟨haccepts, h⟩
    case isFalse haccepts => exact .inr ⟨by simpa using haccepts, h⟩

/-- Read statements up to a closing kind, which is left where it is, or up to the end. -/
def statements (d : Oracle) (parent : Category) (closing : Option Kind) :
    Nat → List Token → Except Fault (List Phrase × List Token)
  | 0, _ => .error .exhausted
  | n + 1, tokens =>
    match Lookahead.significant [.newline, .semicolon] tokens with
    | [] => if closing.isSome then .error .ended else .ok ([], [])
    | t :: rest =>
      if some t.kind == closing then .ok ([], t :: rest)
      else match d.choose Grammar.statements parent (t :: rest) with
        | .error f => .error f
        | .ok none => .error .refused
        | .ok (some (p, rest')) =>
          if rest'.length = (t :: rest).length then .error .refused
          else match statements d parent closing n rest' with
            | .error f => .error f
            | .ok (ps, rest) => .ok (p :: ps, rest)

/-- Plain reading with a given number of levels. -/
def level : Nat → Oracle
  | 0 => ⟨fun _ _ _ => .error .exhausted, fun _ _ _ => .error .exhausted, fun _ => 0⟩
  | n + 1 =>
    ⟨fun categories parent tokens => chooseFrom (level n) categories parent tokens,
     fun parent closing tokens => statements (level n) parent closing n tokens,
     fun _ => n⟩

end TidyManifest.Plain
