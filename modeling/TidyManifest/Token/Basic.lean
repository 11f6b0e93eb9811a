import TidyManifest.Token.Kind
import TidyManifest.Text.Quoted

/-!
# Tokens

A token is a piece of source text with its kind and the line, counted from one, on which it
starts.
-/

namespace TidyManifest

/-- A classified piece of source text. -/
structure Token where
  kind : Kind
  text : String
  line : Nat
deriving DecidableEq, Inhabited

namespace Token

/-- Whether the token has one of the given kinds. -/
def isOneOf (t : Token) (kinds : List Kind) : Bool :=
  kinds.contains t.kind

/-- A token for a reader: kind, quoted text and line. -/
def describe (t : Token) : String :=
  t.kind.label ++ "(" ++ Text.quoted t.text ++ ")@" ++ toString t.line

end Token

end TidyManifest
