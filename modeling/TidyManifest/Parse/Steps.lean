import TidyManifest.Parse.Captures
import TidyManifest.Parse.State

/-!
# Reading the steps of a rule

`readOnce` reads a step one time and `readSteps` reads the steps of a rule in order.  Both say
whether they could, and give the log with what was kept.  A step that fails leaves cursor, tree
and log as they were.

Steps that read nodes or statements go one level down.  What the next level can do is an argument
here, a `Descent`, so that a property of one level follows from the same property of the next.
-/

namespace TidyManifest.Parse

/-- What the next level of the descent can do. -/
structure Descent where
  /-- read a node of the first category that applies, below a parent -/
  choose : List Category → NodeId → Reader (Option NodeId)
  /-- read statements below a parent, up to a closing kind or the end of the tokens -/
  statements : NodeId → Option Kind → Reader (List NodeId)
  /-- how often a step may be repeated -/
  rounds : Nat

/-- Run a reading of a step: skip newlines unless the step has to stand on the same line, and take
everything back if the reading fails. -/
def attempt (usage : Usage) (reading : Captures → Reader (Bool × Captures)) (log : Captures) :
    Reader (Bool × Captures) := do
  let mark := (← get).mark
  unless usage.sameLine do modify (·.skip Grammar.newlines)
  let (matched, kept) ← reading log
  if matched then
    return (true, kept)
  else
    modify (·.returnTo mark)
    return (false, kept.take log.size)

/-- Read one token of the given kinds. -/
def readToken (usage : Usage) (kinds : List Kind) (log : Captures) :
    Reader (Bool × Captures) := do
  match (← get).cursor.current with
  | some t =>
    if t.isOneOf kinds then
      modify (·.advance)
      return (true, log.addIf usage.label (.token t))
    else
      modify (·.recordFailure)
      return (false, log)
  | none =>
    modify (·.recordFailure)
    return (false, log)

/-- Read one node of the given categories. -/
def readNode (d : Descent) (owner : NodeId) (usage : Usage) (categories : List Category)
    (log : Captures) : Reader (Bool × Captures) := do
  match ← d.choose categories owner with
  | some id => return (true, log.addIf usage.label (.node id))
  | none =>
    modify (·.recordFailure)
    return (false, log)

/-- Read statements in braces. -/
def readBlock (d : Descent) (owner : NodeId) (usage : Usage) (log : Captures) :
    Reader (Bool × Captures) := do
  if (← get).cursor.currentKind == some .leftBrace then
    modify (·.advance)
    let body ← d.statements owner (some .rightBrace)
    modify (·.advance)
    return (true, log.addIf usage.label (.block body))
  else
    modify (·.recordFailure)
    return (false, log)

/-- Read something again until it fails or the cursor stays where it is. -/
def repeatedly (reading : Captures → Reader (Bool × Captures)) : Nat → Captures → Reader Captures
  | 0, _ => throw .exhausted
  | n + 1, log => do
    let before := (← get).cursor.position
    let (matched, kept) ← reading log
    if matched && (← get).cursor.position != before then repeatedly reading n kept
    else return kept

/-- Use a step as its rule says: it may be left out, or read more than once. -/
def asUsed (usage : Usage) (rounds : Nat) (reading : Captures → Reader (Bool × Captures))
    (log : Captures) : Reader (Bool × Captures) := do
  let (matched, kept) ← reading log
  if !matched then
    return (usage.optional, kept)
  else if usage.many then
    return (true, ← repeatedly reading rounds kept)
  else
    return (true, kept)

mutual

/-- Read a step one time. -/
def readOnce (d : Descent) (owner : NodeId) : Step → Captures → Reader (Bool × Captures)
  | .token usage kinds, log => attempt usage (readToken usage kinds) log
  | .node usage categories, log => attempt usage (readNode d owner usage categories) log
  | .group usage steps, log => attempt usage (fun log => readSteps d owner steps log) log
  | .choice usage branches, log => attempt usage (fun log => readFirst d owner branches log) log
  | .block usage, log => attempt usage (readBlock d owner usage) log

/-- Read steps in order. -/
def readSteps (d : Descent) (owner : NodeId) : List Step → Captures → Reader (Bool × Captures)
  | [], log => return (true, log)
  | step :: rest, log => do
    let (matched, kept) ← asUsed step.usage d.rounds (fun log => readOnce d owner step log) log
    if matched then readSteps d owner rest kept else return (false, kept)

/-- Read the first sequence of steps that can be read. -/
def readFirst (d : Descent) (owner : NodeId) :
    List (List Step) → Captures → Reader (Bool × Captures)
  | [], log => return (false, log)
  | branch :: rest, log => do
    let mark := (← get).mark
    let (matched, kept) ← readSteps d owner branch log
    if matched then
      return (true, kept)
    else
      modify (·.returnTo mark)
      readFirst d owner rest (kept.take log.size)

end

end TidyManifest.Parse
