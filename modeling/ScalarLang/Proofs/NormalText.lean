import ScalarLang.Proofs.CodeText

/-!
# The normal text of stack code

Reading is lenient: blanks and further words do not count, a number that does not read
is zero, a bool is false unless it is `true`, a string goes from the first quote to the
last, and a line that is no instruction does nothing. Many texts are therefore read as
the same code, and writing what was read picks one of them, the normal text of the code.

Nothing is lost on the way. A text has one line for each line feed and one more where
something stands behind the last (`length_keepLines`), and each of them is read as one
instruction. Whatever is read from a line, well-formed or not, is legible, and legible
code is read back from what it is written as (`readText_write`).

## Main results

* `exists_ofLine?_iff`: the instructions that are read from lines are the legible ones.
* `normalText_eq_iff`: texts with one normal text are read as the same code.
* `readText_normal`: the normal text of a text has its instructions in their places and
  is its own normal text.
-/

namespace ScalarLang

/-! ## How many lines a text has -/

namespace Text

/-- Whether something stands behind the last line feed of a text. -/
def endsOpen (cs : List Char) : Bool := cs.getLast?.any (· ≠ '\n')

private theorem keepLines_ne_nil {cs : List Char} (h : cs ≠ []) :
    keepLines cs ≠ [] := by
  intro hnil
  have hflatten := flatten_keepLines cs
  rw [hnil] at hflatten
  exact h hflatten.symm

/-- In front of lines a line feed is one line more, and any other character none. -/
theorem length_consLine (c : Char) {lines : List (List Char)} (h : lines ≠ []) :
    (consLine c lines).length = lines.length + if c = '\n' then 1 else 0 := by
  obtain ⟨line, rest, rfl⟩ := List.exists_cons_of_ne_nil h
  by_cases hc : c = '\n' <;> simp [consLine, hc]

private theorem endsOpen_cons (c : Char) {cs : List Char} (h : cs ≠ []) :
    endsOpen (c :: cs) = endsOpen cs := by
  obtain ⟨d, ds, rfl⟩ := List.exists_cons_of_ne_nil h
  rw [endsOpen, endsOpen, List.getLast?_cons_cons]

/-- A text has one line for each line feed, and one more where something stands
behind the last. -/
theorem length_keepLines (cs : List Char) :
    (keepLines cs).length = cs.count '\n' + (endsOpen cs).toNat := by
  induction cs with
  | nil => rfl
  | cons c cs ih =>
      show (consLine c (keepLines cs)).length = _
      have hcount : (c :: cs).count '\n' = cs.count '\n' + if c = '\n'
          then 1 else 0 := by
        simp [List.count_cons]
      by_cases hcs : cs = []
      · subst hcs
        by_cases hc : c = '\n' <;> simp [keepLines, consLine, endsOpen, hc]
      · rw [length_consLine c (keepLines_ne_nil hcs), ih, hcount, endsOpen_cons c hcs]
        omega

private theorem length_lines (cs : List Char) :
    (lines cs).length = cs.count '\n' + (endsOpen cs).toNat := by
  rw [lines, List.length_map, length_keepLines]

end Text

namespace Instr

/-! ## What reading can give -/

/-- The instructions that are read from lines are the legible ones. -/
theorem exists_ofLine?_iff (i : Instr) :
    (∃ line, ofLine? line = some i) ↔ i.Legible := by
  constructor
  · rintro ⟨line, hread⟩
    exact legible_of_ofLine? hread
  · intro h
    exact ⟨i.text.toList, ofLine?_text h⟩

private theorem length_readText (text : String) :
    (readText text).length = text.toList.count '\n' +
      (Text.endsOpen text.toList).toNat := by
  rw [readText, List.length_map, Text.length_lines]

/-! ## The normal text -/

/-- The normal text of a text: what is read from it, as it is written. -/
def normalText (text : String) : String := write (readText text)

/-- The normal text of a text is read as the text is. -/
theorem readText_normalText (text : String) :
    readText (normalText text) = readText text :=
  readText_write fun _ => legible_of_mem_readText

/-- Texts with one normal text are read as the same code. -/
theorem normalText_eq_iff {s t : String} :
    normalText s = normalText t ↔ readText s = readText t := by
  constructor
  · intro h
    rw [← readText_normalText s, h, readText_normalText t]
  · intro h
    exact congrArg write h

/-- A text has one instruction for each of its lines, and writing them gives a text that
has the same instructions in the same places and is written as it stands. The
instructions that can be read from a line are the legible ones, and what a line counts
as, whatever the line, is read back from the line that it is written on. -/
theorem readText_normal (text : String) :
    (readText text).length = text.toList.count '\n' +
      (Text.endsOpen text.toList).toNat ∧ readText (normalText text) = readText text ∧
      normalText (normalText text) = normalText text ∧
      (∀ i, (∃ line, ofLine? line = some i) ↔ i.Legible) ∧
      ∀ line, ofLine? ((ofLine? line).getD nop).text.toList =
        some ((ofLine? line).getD nop) := by
  have hread := readText_normalText text
  have hline (line : List Char) := ofLine?_text (legible_getD_ofLine? line)
  exact ⟨length_readText text, hread, normalText_eq_iff.mpr hread,
    exists_ofLine?_iff, hline⟩

example :
    normalText "push I 1x\r\n  jmp 7 8\npush S a\"b\\q\"c" =
      "push I 0\njmp 7\npush S \"b\\\\q\"\n" := by
  decide +kernel

end Instr

end ScalarLang
