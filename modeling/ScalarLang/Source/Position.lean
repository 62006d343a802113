/-!
# Places in a source text

A position is a byte offset together with the line and the column it stands in: lines
count from one, columns from zero and in characters. Only a line feed starts a line. A
position names its file, so that a diagnostic can be shown without its source at hand.

The three numbers have 32 bits, so that they tell a place only modulo `2 ^ 32`. Passing
a character moves them on from whatever they are (`Position.after`); as long as the text
is short enough for them, they count its bytes, lines and characters.

## Main results

* `Position.afterAll_append`: passing a text in two parts is passing it whole.
* `Position.afterAll_offset`: the offset grows by the bytes of the text passed.
-/

namespace ScalarLang

/-- The bytes that a text fills. -/
def Source.byteSize : List Char → Nat
  | [] => 0
  | c :: cs => c.utf8Size + byteSize cs

/-- A place in a source text. -/
structure Position where
  /-- Bytes before it. -/
  offset : UInt32
  /-- The line, from one. -/
  line : UInt32
  /-- Characters before it in its line. -/
  column : UInt32
  /-- The name of the file. -/
  file : String
deriving DecidableEq, Inhabited

/-- A range of a source text. -/
structure Span where
  start : Position
  stop : Position
deriving DecidableEq, Inhabited

/-- The empty range at a position. -/
def Span.at (p : Position) : Span := ⟨p, p⟩

namespace Position

/-- The place before the first character of a file. -/
def first (file : String) : Position := ⟨0, 1, 0, file⟩

/-- The place behind a character that stands at `p`. -/
def after (p : Position) (c : Char) : Position :=
  let offset := p.offset + UInt32.ofNat c.utf8Size
  if c = '\n' then { p with offset, line := p.line + 1, column := 0 }
  else { p with offset, column := p.column + 1 }

/-- The place behind a text that starts at `p`. -/
def afterAll (p : Position) (cs : List Char) : Position := cs.foldl after p

@[simp] theorem afterAll_nil (p : Position) : p.afterAll [] = p := rfl

@[simp] theorem afterAll_cons (p : Position) (c : Char) (cs : List Char) :
    p.afterAll (c :: cs) = (p.after c).afterAll cs := rfl

theorem afterAll_append (p : Position) (cs ds : List Char) :
    p.afterAll (cs ++ ds) = (p.afterAll cs).afterAll ds := by
  simp [afterAll, List.foldl_append]

@[simp] theorem after_offset (p : Position) (c : Char) :
    (p.after c).offset = p.offset + UInt32.ofNat c.utf8Size := by
  unfold after
  split <;> rfl

theorem afterAll_offset (p : Position) (cs : List Char) :
    (p.afterAll cs).offset = p.offset + UInt32.ofNat (Source.byteSize cs) := by
  induction cs generalizing p with
  | nil => exact (UInt32.add_zero _).symm
  | cons c cs ih =>
      rw [afterAll_cons, ih, after_offset, Source.byteSize, UInt32.ofNat_add,
        UInt32.add_assoc]

/-- How a position is named in messages. -/
def text (p : Position) : String := s!"Line {p.line}, Pos {p.column}"

end Position

end ScalarLang
