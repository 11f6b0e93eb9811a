import TidyManifest.Layout.Render
import TidyManifest.Parse.Basic
import TidyManifest.Settings.Load
import TidyManifest.Token.Lexer

/-!
# Formatting a source text

The whole way: tokens, tree, canonical text.
-/

namespace TidyManifest

/-- Why a source is not a manifest. -/
inductive SourceError where
  | lexical (error : LexError)
  | grammatical (error : ParseError)
deriving DecidableEq

/-- The error for a reader. -/
def SourceError.message : SourceError → String
  | lexical e => e.message
  | grammatical e => e.message

namespace Source

/-- The tree of a source. -/
def parse (source : String) (s : Settings) : Except SourceError Tree :=
  match Token.lex source with
  | .error e => .error (.lexical e)
  | .ok tokens =>
    match TidyManifest.parse s.splitMode tokens with
    | .error e => .error (.grammatical e)
    | .ok tree => .ok tree

/-- The canonical text of a source. -/
def format (source : String) (s : Settings) : Except SourceError String :=
  (parse source s).map fun tree => Layout.render tree s.layout

end Source

end TidyManifest
