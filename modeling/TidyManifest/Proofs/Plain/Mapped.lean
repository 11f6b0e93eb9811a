import TidyManifest.Proofs.Phrase.Lines
import TidyManifest.Proofs.Plain.Basic

/-!
# Traces and logs with other tokens and references

The contents of a node are made from the log of its rule by looking things up under their names.
Nothing in this depends on what the references are, and of a token only the text of a comment is
looked at.  So a change of references and tokens that keeps texts can be made in the log or in the
contents that the log makes (`Form.ofCaptures?_map`).

References change from phrases to numbers when a tree is grown, and tokens lose their lines when
newlines are collapsed.
-/

namespace TidyManifest

section

variable {α β : Type} (g : Token → Token) (f : α → β)

namespace Capture

/-- The same capture with other tokens and references. -/
def map : Capture α → Capture β
  | .token t => .token (g t)
  | .node x => .node (f x)
  | .block xs => .block (xs.map f)

variable (value : Capture α)

@[simp] theorem token?_map : (value.map g f).token? = value.token?.map g := by
  cases value <;> rfl

@[simp] theorem node?_map : (value.map g f).node? = value.node?.map f := by
  cases value <;> rfl

@[simp] theorem block?_map : (value.map g f).block? = value.block?.map (List.map f) := by
  cases value <;> rfl

/-- The part of an expression changes as the capture does. -/
@[simp] theorem part?_map :
    (value.map g f).part? = value.part?.map fun part => (part.map f).mapToken g := by
  cases value <;> rfl

end Capture

namespace Captures

/-- The same log with other tokens and references. -/
def map (log : Captures α) : Captures β :=
  ⟨log.entries.map fun entry => (entry.1, entry.2.map g f)⟩

variable (log : Captures α) (label : String)

/-- What stands under a name changes entry by entry. -/
@[simp] theorem all_map : (log.map g f).all label = (log.all label).map (Capture.map g f) := by
  simp [map, all, List.filter_map, Function.comp_def]

/-- Names stay as they are. -/
@[simp] theorem has_map : (log.map g f).has label = log.has label := by
  simp [map, has, Function.comp_def]

/-- The first token under a name is the changed one. -/
@[simp] theorem token?_map : (log.map g f).token? label = (log.token? label).map g := by
  simp [token?, List.findSome?_map, Function.comp_def, List.map_findSome?]

/-- The first node under a name is the changed one. -/
@[simp] theorem node?_map : (log.map g f).node? label = (log.node? label).map f := by
  simp [node?, List.findSome?_map, Function.comp_def, List.map_findSome?]

/-- The first block under a name has the changed references. -/
@[simp] theorem block?_map :
    (log.map g f).block? label = (log.block? label).map (List.map f) := by
  simp [block?, List.findSome?_map, Function.comp_def, List.map_findSome?]

/-- The tokens under a name change one by one. -/
@[simp] theorem tokens_map : (log.map g f).tokens label = (log.tokens label).map g := by
  simp only [tokens, all_map, List.filterMap_map, List.map_filterMap, Function.comp_def,
    Capture.token?_map]

/-- The nodes under a name change one by one. -/
@[simp] theorem nodes_map : (log.map g f).nodes label = (log.nodes label).map f := by
  simp only [nodes, all_map, List.filterMap_map, List.map_filterMap, Function.comp_def,
    Capture.node?_map]

end Captures

variable {g} in
/-- The contents that a log makes with other tokens and references, if the texts stay. -/
theorem Form.ofCaptures?_map (hg : ∀ t, (g t).text = t.text) (category : Category)
    (log : Captures α) :
    ofCaptures? category (log.map g f) =
      (ofCaptures? category log).map fun form => (form.map f).mapTokens g := by
  cases category with
  | expression =>
    simp only [ofCaptures?, map, mapTokens, Captures.all_map, List.filterMap_map, List.map_filterMap,
      Option.map_some, Function.comp_def, Capture.part?_map, Option.map_map]
  | _ =>
    simp only [ofCaptures?, map, mapTokens, Captures.token?_map, Captures.tokens_map,
      Captures.node?_map, Captures.nodes_map, Captures.block?_map, Captures.has_map,
      Option.pure_def, Option.bind_eq_bind, Option.map_bind, Option.bind_map, Option.map_some,
      Option.map_none, Function.comp_def, hg]

/-- The head of a resource with other tokens and references. -/
theorem Parse.resourceHead?_map (log : Captures α) :
    resourceHead? (log.map g f) =
      (resourceHead? log).map fun head => (head.map f).mapToken g := by
  simp only [resourceHead?, Captures.node?_map, Captures.token?_map]
  cases log.node? "reference" <;> cases log.token? "type" <;> rfl

namespace Plain

/-- The same trace with other tokens and references. -/
def mapTrace (trace : Trace α) : Trace β :=
  trace.map fun entry => (entry.1, entry.2.map g f)

@[simp] theorem mapTrace_nil : mapTrace g f [] = [] := rfl

@[simp] theorem mapTrace_cons (entry : Option String × Capture α) (trace : Trace α) :
    mapTrace g f (entry :: trace) = (entry.1, entry.2.map g f) :: mapTrace g f trace := rfl

@[simp] theorem mapTrace_eq_nil {trace : Trace α} : mapTrace g f trace = [] ↔ trace = [] :=
  List.map_eq_nil_iff

@[simp] theorem mapTrace_append (first more : Trace α) :
    mapTrace g f (first ++ more) = mapTrace g f first ++ mapTrace g f more :=
  List.map_append

/-- The log of a trace changes as the trace does. -/
theorem logOf_mapTrace (trace : Trace α) :
    (⟨logOf (mapTrace g f trace)⟩ : Captures β) = Captures.map g f ⟨logOf trace⟩ := by
  simp only [logOf, mapTrace, Captures.map, List.filterMap_map, List.map_filterMap]
  congr 2
  funext entry
  cases h : entry.1 <;> simp [h]

end Plain

end

end TidyManifest
