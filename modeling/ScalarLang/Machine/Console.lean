/-!
# The console

A program reads lines of bytes and writes text. Its input is a stream of bytes, of
which a line is taken up to and with the line feed, or up to the end; behind the end
lines are empty. A line has to be UTF-8, and one that is not is taken from the
stream nevertheless.

The output may be bounded. Text that does not fit fills the room there is, possibly up
to the middle of a character, and is a failure.
-/

namespace ScalarLang

/-- Why the console failed. -/
inductive ConsoleFailure where
  /-- The output has no room for all of a text. -/
  | full
  /-- A line of input is not UTF-8. -/
  | notText
deriving DecidableEq

/-- The wording of a failure. -/
def ConsoleFailure.message : ConsoleFailure → String
  | full => "output limit reached"
  | notText => "stream did not contain valid UTF-8"

/-- What a program reads from and writes to. -/
structure Console where
  /-- The bytes not read yet. -/
  input : List UInt8
  /-- The bytes written. -/
  output : ByteArray
  /-- How many more bytes can be written, if there is a bound. -/
  room : Option Nat

namespace Console

/-- A console with input and a bound on its output. -/
def ofInput (input : List UInt8) (room : Option Nat) : Console := ⟨input, .empty, room⟩

/-- The bytes of the first line, with the line feed that ends it. -/
def firstLine : List UInt8 → List UInt8
  | [] => []
  | b :: bs => if b = 10 then [b] else b :: firstLine bs

/-- The bytes behind the first line. -/
def behindLine : List UInt8 → List UInt8
  | [] => []
  | b :: bs => if b = 10 then bs else behindLine bs

/-- Takes a line from the input. -/
def readLine (c : Console) : Except ConsoleFailure String × Console :=
  let line := String.fromUTF8? ⟨(firstLine c.input).toArray⟩
  (line.elim (.error .notText) .ok, { c with input := behindLine c.input })

/-- Writes a text, or as much of it as there is room for. -/
def write (c : Console) (text : String) : Except ConsoleFailure Unit × Console :=
  let bytes := text.toUTF8
  match c.room with
  | none => (.ok (), { c with output := c.output ++ bytes })
  | some room =>
    if bytes.size ≤ room then
      (.ok (), { c with output := c.output ++ bytes, room := some (room - bytes.size) })
    else
      (.error .full,
        { c with output := c.output ++ bytes.extract 0 room, room := some 0 })

end Console

end ScalarLang
