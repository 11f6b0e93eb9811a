import TidyManifest.Proofs.Plain.Basic

/-!
# What the steps of a rule can read

`Fits` says, of the steps of a rule, which sequences of tokens, nodes and blocks they can read.  It
is the regular language of the steps: it forgets which of several readings the parser prefers, and
newlines.  A sequence names each of its members as the step that reads it does.
-/

namespace TidyManifest.Plain

section

variable {ι : Type} (categoryOf : ι → Category)

/-- How a step can be used, if `fits` says what it reads at one time. -/
def FitsUsed (usage : Usage) (fits : Trace ι → Prop) (trace : Trace ι) : Prop :=
  usage.optional = true ∧ trace = [] ∨
    if usage.many = true then ∃ first more, trace = first ++ List.flatten more ∧ fits first ∧
      ∀ other ∈ more, fits other
    else fits trace

mutual

/-- What a step can read at one time. -/
def FitsOnce : Step → Trace ι → Prop
  | .token usage kinds, trace => ∃ t : Token, t.kind ∈ kinds ∧ trace = [(usage.label, .token t)]
  | .node usage categories, trace =>
    ∃ x, categoryOf x ∈ categories ∧ trace = [(usage.label, .node x)]
  | .group _ steps, trace => Fits steps trace
  | .choice _ branches, trace => FitsOne branches trace
  | .block usage, trace => ∃ xs, trace = [(usage.label, .block xs)]

/-- What steps can read in order. -/
def Fits : List Step → Trace ι → Prop
  | [], trace => trace = []
  | step :: steps, trace =>
    ∃ first more, trace = first ++ more ∧
      FitsUsed step.usage (fun trace => FitsOnce step trace) first ∧ Fits steps more

/-- What one of several sequences of steps can read. -/
def FitsOne : List (List Step) → Trace ι → Prop
  | [], _ => False
  | branch :: branches, trace => Fits branch trace ∨ FitsOne branches trace

end

end

end TidyManifest.Plain
