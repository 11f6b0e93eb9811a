import TidyManifest.Json.Basic
import TidyManifest.Outline.Basic
import TidyManifest.Token.Basic

/-!
# Outlines and tokens as JSON documents
-/

namespace TidyManifest

namespace Outline

mutual

/-- An outline as a JSON value. -/
def toJson : Outline → Json
  | .mk category label line level attributes children =>
    .object
      [("node_type", .text category.label), ("label", .text label), ("line", .number line),
       ("level", .number level),
       ("attributes", .object (attributes.map fun (key, value) => (key, .text value))),
       ("children", .array (toJsonAll children))]

/-- Several outlines as JSON values. -/
def toJsonAll : List Outline → List Json
  | [] => []
  | outline :: rest => toJson outline :: toJsonAll rest

end

end Outline

/-- A token as a JSON value. -/
def Token.toJson (t : Token) : Json :=
  .object [("kind", .text t.kind.label), ("text", .text t.text), ("line", .number t.line)]

end TidyManifest
