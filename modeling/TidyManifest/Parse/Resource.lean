import TidyManifest.Parse.Recognise
import TidyManifest.Parse.Steps

/-!
# Reading a resource

After the head, the body of a resource mixes titles, pairs, comments and the separators `;` and
`,` in any order up to the closing brace.

A body with several titles declares several resources.  With `SplitMode.splice`, the second title
ends the resource: the tokens of a closing brace, a newline, the head and an opening brace are put
in front of that title, and what follows is read as the next statement.  This happens only to a
resource with a type, without a collector, outside a dependency chain, and never on trial.
-/

namespace TidyManifest

/-- How a resource with several titles becomes several blocks. -/
inductive SplitMode where
  /-- it is one node, and the layout writes one block for each title -/
  | render
  /-- it is read as one node for each title -/
  | splice
deriving DecidableEq

namespace Parse

/-- The head of a resource. -/
def resourceHead? {ι : Type} (log : Captures ι) : Option (Head ι) :=
  match log.node? "reference", log.token? "type" with
  | some id, _ => some (.reference id)
  | none, some t => some (.type t)
  | none, none => none

/-- The tokens that end a resource and open another one with the same head, on a given line. -/
def splitTokens {ι : Type} (log : Captures ι) (line : Nat) : List Token :=
  [⟨.rightBrace, "\x7d", line⟩, ⟨.newline, "\n", line⟩] ++ log.tokens "sigil" ++
    (log.token? "type").toList ++ [⟨.leftBrace, "\x7b", line⟩]

/-- Read the items of a resource body up to the closing brace.  `seenTitle` says whether a title
has been read, and `maySplit` whether a further one ends the resource.  Nothing is the result if
an item cannot be read. -/
def readItems (d : Descent) (id : NodeId) (log : Captures) (maySplit : Bool) :
    Nat → Bool → Reader (Option (List NodeId))
  | 0, _ => throw .exhausted
  | n + 1, seenTitle => do
    modify (·.skip Grammar.newlines)
    let s ← get
    let item (categories : List Category) (seen : Bool) : Reader (Option (List NodeId)) := do
      match ← d.choose categories id with
      | none => return none
      | some item =>
        let rest ← readItems d id log maySplit n seen
        return rest.map (item :: ·)
    match s.cursor.currentKind with
    | none => throw .unexpectedEnd
    | some kind =>
      if kind == .rightBrace then
        modify (·.advance)
        return some []
      else if kind == .semicolon || kind == .comma then
        modify (·.advance)
        readItems d id log maySplit n seenTitle
      else if kind == .comment || kind == .blockComment then
        item Grammar.comments seenTitle
      else if atPair s.ahead then
        item [.pair] seenTitle
      else if seenTitle && maySplit then
        match ← d.choose [.title] id with
        | none => return none
        | some _ =>
          modify (·.returnTo s.mark)
          modify fun s => { s with cursor := s.cursor.insert (splitTokens log s.line) }
          readItems d id log maySplit n seenTitle
      else
        item [.title] true

/-- Read what follows the head of a resource, and make its contents. -/
def readResource (mode : SplitMode) (d : Descent) (id : NodeId) (log : Captures) :
    Reader (Option Form) := do
  match resourceHead? log with
  | none => return none
  | some head =>
    let sigil := String.join ((log.tokens "sigil").map (·.text))
    let collector := log.node? "collector"
    let headEnd := (← get).cursor.position
    modify (·.skip Grammar.newlines)
    let s ← get
    if s.cursor.currentKind != some .leftBrace then
      if collector.isSome then
        modify fun s => { s with cursor := s.cursor.goTo headEnd }
        return some (.resource sigil head collector false [])
      else
        modify (·.recordFailure)
        return none
    else
      modify (·.advance)
      let inChain := (s.tree.node id).parent.any fun p => s.tree.category p == .chain
      let maySplit :=
        mode == .splice && head.hasType && !inChain && collector.isNone && s.trials == 0
      let items ← readItems d id log maySplit d.rounds false
      return items.map (.resource sigil head collector true)

end Parse

end TidyManifest
