/-!
# Lines of a text, and the excerpt around one of them

A line ends at a line feed, and a carriage return directly before that line feed belongs to the
line end.  A text that ends in a line feed has no empty last line, and the empty text has no line
at all.

`excerpt` shows a line among its neighbours: two lines before it, the line itself, marked, and
two lines after it, each with its number.
-/

namespace TidyManifest.Text

/-- Lines of `rest`, where `seen` holds the characters of the current line so far, last one
first. -/
def linesFrom (seen : List Char) : List Char → List String
  | [] => if seen.isEmpty then [] else [String.ofList seen.reverse]
  | '\n' :: rest =>
    let body := match seen with
      | '\r' :: more => more
      | _ => seen
    String.ofList body.reverse :: linesFrom [] rest
  | c :: rest => linesFrom (c :: seen) rest

/-- The lines of a text, without their line ends. -/
def lines (text : String) : List String :=
  linesFrom [] text.toList

/-- A number written with at least three characters, blanks first. -/
def lineNumber (n : Nat) : String :=
  let digits := toString n
  String.ofList (List.replicate (3 - digits.length) ' ') ++ digits

/-- One line of an excerpt.  `n` counts from zero; the text shows the number that counts from
one. -/
def excerptLine (marked : Nat) (n : Nat) (text : String) : String :=
  (if n == marked then ">>" else "  ") ++ " " ++ lineNumber (n + 1) ++ " | " ++ text ++ "\n"

/-- The lines around line `line`, which counts from one: at most two before it and two after it.
A line number past the end shows those of the lines before it that exist. -/
def excerpt (source : String) (line : Nat) : String :=
  let marked := line - 1
  let first := marked - 2
  let shown := ((lines source).take (marked + 3)).drop first
  String.join (shown.zipIdx.map fun (text, i) => excerptLine marked (first + i) text)

end TidyManifest.Text
