import ScalarLang.Source.Position

/-!
# Reading through a source text

A reader is a place in a text together with the text that follows. It moves forward by
whole characters, given as a number of bytes, and stops at the end of the text. It
counts the bytes that are behind in full; the position that it hands out has the last
32 bits of them.

## Main results

* `Reader.advance_append`: a reader that moves past a text has it behind, and its
  position is the one behind the text.
-/

namespace ScalarLang

/-- A place in a text and what follows it. -/
structure Reader where
  /-- Bytes that are behind. -/
  passed : Nat
  line : UInt32
  column : UInt32
  file : String
  rest : List Char

namespace Reader

/-- A reader before the first character. -/
def ofText (file : String) (text : String) : Reader := ⟨0, 1, 0, file, text.toList⟩

/-- The position that a reader hands out: of the bytes that are behind,
the last 32 bits. -/
def position (r : Reader) : Position :=
  ⟨UInt32.ofNat r.passed, r.line, r.column, r.file⟩

/-- Whether the whole text is behind. -/
def atEnd (r : Reader) : Bool := r.rest.isEmpty

/-- The reader with a character behind that it has not counted yet. -/
def count (r : Reader) (c : Char) : Reader :=
  let passed := r.passed + c.utf8Size
  if c = '\n' then { r with passed, line := r.line + 1, column := 0 }
  else { r with passed, column := r.column + 1 }

/-- The characters that fill the first `bytes` bytes of a text. -/
def takeBytes : Nat → List Char → List Char
  | 0, _ => []
  | _, [] => []
  | bytes, c :: cs => c :: takeBytes (bytes - c.utf8Size) cs

/-- The reader `bytes` bytes further on, or at the end of the text. -/
def advance (r : Reader) (bytes : Nat) : Reader :=
  let front := takeBytes bytes r.rest
  { front.foldl count r with rest := r.rest.drop front.length }

private theorem position_count (r : Reader) (c : Char) :
    (r.count c).position = r.position.after c := by
  unfold count Position.after position
  split
  all_goals rw [UInt32.ofNat_add]

private theorem position_foldl_count (r : Reader) (cs : List Char) :
    (cs.foldl count r).position = r.position.afterAll cs := by
  induction cs generalizing r with
  | nil => rfl
  | cons c cs ih => rw [List.foldl_cons, ih, position_count, Position.afterAll_cons]

private theorem takeBytes_append (cs rest : List Char) :
    takeBytes (Source.byteSize cs) (cs ++ rest) = cs := by
  induction cs with
  | nil => unfold Source.byteSize takeBytes; rfl
  | cons c cs ih =>
      obtain ⟨n, hn⟩ := Nat.exists_eq_succ_of_ne_zero (Nat.ne_of_gt c.utf8Size_pos)
      have hsize : Source.byteSize (c :: cs) = n + Source.byteSize cs + 1 := by
        rw [Source.byteSize, hn]
        omega
      have hleft : n + Source.byteSize cs + 1 - c.utf8Size = Source.byteSize cs := by
        omega
      rw [hsize, List.cons_append, takeBytes, hleft, ih]
      exact Nat.succ_ne_zero _

/-- Moving past a text leads to the position behind it. -/
theorem advance_append {r : Reader} {cs rest : List Char} (h : r.rest = cs ++ rest) :
    (r.advance (Source.byteSize cs)).position = r.position.afterAll cs ∧
      (r.advance (Source.byteSize cs)).rest = rest := by
  unfold advance
  rw [h, takeBytes_append]
  exact ⟨position_foldl_count r cs, List.drop_left⟩

end Reader

end ScalarLang
