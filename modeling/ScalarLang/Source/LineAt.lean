import ScalarLang.Source.Position
import ScalarLang.Text.Lines

/-!
# Finding the line of an offset

To show a diagnostic its line has to be found again from the byte offset alone. An
offset belongs to the line that holds the byte at it, a line feed counting to the line
it ends. The end of the text has no byte; it belongs to the last line, as the place
behind all of it, and in an empty text to none.
-/

namespace ScalarLang.Source

/-- A line of a text and a place in it. -/
structure LinePlace where
  /-- The number of the line, from one. -/
  number : Nat
  /-- The line, with the line feed that ends it. -/
  text : List Char
  /-- Bytes of the line before the place. -/
  offset : Nat

/-- Looks for an offset in lines of which the first has the given number
and starts at zero. -/
def lineIn (number : Nat) : List (List Char) → Nat → Option LinePlace
  | [], _ => none
  | [line], offset =>
    if offset ≤ byteSize line then some ⟨number, line, offset⟩ else none
  | line :: lines, offset =>
    if offset < byteSize line then some ⟨number, line, offset⟩
    else lineIn (number + 1) lines (offset - byteSize line)

/-- The line of a text in which a byte offset stands, if it stands in the text. -/
def lineAt (source : String) (offset : UInt32) : Option LinePlace :=
  lineIn 1 (Text.keepLines source.toList) offset.toNat

end ScalarLang.Source
