import TidyManifest.Parse.Resource

/-!
# Parsing

A node is read by the first category, of those that may stand at its place, that is recognised
there.  There is no way back to a later category once one is recognised: if the node cannot be
read, nothing is.

Each level of the descent is built from the one below it.  The number of levels is bounded by the
number of tokens, with those that splitting resources can put in; `parse` takes enough of them.
-/

namespace TidyManifest

namespace Parse

open Grammar

/-- Whether a category is recognised at the cursor, for a node below `parent`. -/
def accepts (d : Descent) (category : Category) (parent : NodeId) : Reader Bool := do
  let s ← get
  match category with
  | .call =>
    return atPattern category.rule s.ahead ||
      ((s.tree.category parent).takesStatements && atPlainCall s.ahead)
  | .resource => return atResource s.ahead
  | .selector => return atSelector s.ahead
  | .caseOption =>
    if s.tree.category parent == .caseBlock then
      onTrial do return (← readSteps d parent caseValues {}).1
    else
      return false
  | .chain =>
    onTrial do
      let member ← d.choose chainMembers parent
      return member.isSome && Lookahead.startsWith edges newlines (← get).ahead
  | _ => return category.rule.patterns.isEmpty || atPattern category.rule s.ahead

/-- Read a node of a category.  A chain is set off by blank lines if a resource is one of its
members. -/
def readCategory (mode : SplitMode) (d : Descent) (category : Category) (parent : NodeId) :
    Reader (Option NodeId) := do
  let mark := (← get).mark
  modify (·.skip newlines)
  let id := (← get).tree.size
  let rule := category.rule
  modify fun s =>
    let entered := s.tree.addPending category parent s.line
    { s with tree := entered.setSpacing id rule.innerSpacing rule.outerSpacing }
  let (matched, log) ← readSteps d id rule.steps {}
  let form? ←
    if !matched then pure none
    else if category == .resource then readResource mode d id log
    else pure (Form.ofCaptures? category log)
  match form? with
  | none =>
    modify (·.returnTo mark)
    return none
  | some form =>
    modify fun s =>
      let tree := s.tree.complete id form
      if category == .chain then
        let outer := form.children.any fun member => tree.category member == .resource
        { s with tree := tree.setSpacing id rule.innerSpacing outer }
      else { s with tree }
    return some id

/-- Read a node of the first category that is recognised. -/
def chooseFrom (mode : SplitMode) (d : Descent) :
    List Category → NodeId → Reader (Option NodeId)
  | [], _ => return none
  | category :: rest, parent => do
    if ← accepts d category parent then readCategory mode d category parent
    else chooseFrom mode d rest parent

/-- Read statements up to a closing kind, which is left where it is, or up to the end of the
tokens. -/
def readStatements (d : Descent) (parent : NodeId) (closing : Option Kind) :
    Nat → Reader (List NodeId)
  | 0 => throw .exhausted
  | n + 1 => do
    modify (·.skip [.newline, .semicolon])
    let s ← get
    match s.cursor.currentKind with
    | none => if closing.isSome then throw .unexpectedEnd else return []
    | some kind =>
      if some kind == closing then
        return []
      else
        modify fun s => { s with furthest := none }
        match ← d.choose statements parent with
        | none => throw (← get).blame
        | some id =>
          let after ← get
          if after.cursor.position == s.cursor.position then throw (.stalled after.line)
          else return id :: (← readStatements d parent closing n)

/-- The descent with a given number of levels. -/
def descent (mode : SplitMode) : Nat → Descent
  | 0 => ⟨fun _ _ => throw .exhausted, fun _ _ => throw .exhausted, 0⟩
  | n + 1 =>
    ⟨fun categories parent => chooseFrom mode (descent mode n) categories parent,
     fun parent closing => readStatements (descent mode n) parent closing n,
     n⟩

/-- How many levels are enough for a list of tokens.  Every colon can split a resource once, which
puts in at most four tokens and a copy of the sigils. -/
def levels (tokens : List Token) : Nat :=
  let n := tokens.length
  let colons := tokens.countP fun t => t.kind == .colon
  16 * (n + colons * (n + 4) + 2)

end Parse

/-- The tree of a list of tokens. -/
def parse (mode : SplitMode) (tokens : List Token) : Except ParseError Tree :=
  match (Parse.descent mode (Parse.levels tokens)).statements Tree.root none (.start tokens) with
  | .ok statements s => .ok (s.tree.complete Tree.root (.manifest statements))
  | .error e _ => .error e

end TidyManifest
