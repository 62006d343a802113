import ScalarLang.Diagnostic
import ScalarLang.Source.LineAt
import ScalarLang.Text.Blank

/-!
# Showing diagnostics in their source

A diagnostic is shown with its message, its tip, its file, and the line it is about with
a mark under the place. The line is shown without the blanks around it, and the mark is
moved by the spaces and tabs that the line starts with. A place outside of the source
has no line to show.
-/

namespace ScalarLang.Diagnostic

/-- Whether a character is a space or a tab. -/
def isIndent (c : Char) : Bool := c == ' ' || c == '\t'

/-- A text at the right end of a field that is filled up with a character. -/
def padLeft (width : Nat) (fill : Char) (text : String) : String :=
  String.ofList (List.replicate (width - text.length) fill) ++ text

/-- The line of a place, and a mark under the place. -/
def excerpt (place : Source.LinePlace) : String :=
  let number := toString place.number
  let bar := padLeft (number.length + 2) ' ' "|"
  let shown := place.text.dropWhile isIndent
  let mark := place.offset - (place.text.takeWhile isIndent).length + 1
  bar ++ "\n" ++
    number ++ " | " ++ String.ofList (Text.trim shown) ++ "\n" ++
    bar ++ " " ++ padLeft mark '-' "^" ++ "\n"

/-- A diagnostic with the line of the source that it is about. -/
def render (source : String) (d : Diagnostic) : String :=
  let tip := match d.cause.tip? with
    | some tip => " (" ++ tip ++ ")"
    | none => ""
  "Error: " ++ d.text ++ tip ++ "\n" ++
    "-> " ++ d.position.file ++ "\n" ++
    ((Source.lineAt source d.position.offset).elim "" excerpt)

end ScalarLang.Diagnostic
