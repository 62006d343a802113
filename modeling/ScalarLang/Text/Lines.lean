/-!
# The lines of a text

A text is cut into lines after every line feed; a text that ends in one has no
further, empty line behind it. `keepLines` leaves each line its line feed, so that the
lines put together are the text. `lines` drops it, and with it a carriage return that
stands right before it: a carriage return that no line feed follows is a character of
its line like any other.

## Main results

* `flatten_keepLines`: the lines put together are the text.
* `keepLines_append`: a text starts with its first line.
-/

namespace ScalarLang.Text

/-- One more character in front of lines: a line feed is a line by itself. -/
def consLine (c : Char) (lines : List (List Char)) : List (List Char) :=
  if c = '\n' then [c] :: lines
  else match lines with
    | [] => [[c]]
    | line :: rest => (c :: line) :: rest

/-- The lines of a text, each with the line feed that ends it. -/
def keepLines (cs : List Char) : List (List Char) := cs.foldr consLine []

private theorem flatten_consLine (c : Char) (lines : List (List Char)) :
    (consLine c lines).flatten = c :: lines.flatten := by
  unfold consLine
  split
  · rfl
  · cases lines <;> rfl

theorem flatten_keepLines (cs : List Char) : (keepLines cs).flatten = cs := by
  induction cs with
  | nil => rfl
  | cons c cs ih =>
      rw [keepLines, List.foldr_cons, flatten_consLine]; exact congrArg (c :: ·) ih

theorem keepLines_append {line : List Char} (h : '\n' ∉ line) (rest : List Char) :
    keepLines (line ++ '\n' :: rest) = (line ++ ['\n']) :: keepLines rest := by
  induction line with
  | nil => rfl
  | cons c line ih =>
      have hc : c ≠ '\n' := fun heq => h (by simp [heq])
      have hline := ih fun hmem => h (List.mem_cons_of_mem c hmem)
      show consLine c (keepLines (line ++ '\n' :: rest)) = _
      rw [hline, consLine, if_neg hc]
      rfl

theorem keepLines_of_not_mem {line : List Char} (h : '\n' ∉ line) (hne : line ≠ []) :
    keepLines line = [line] := by
  induction line with
  | nil => exact absurd rfl hne
  | cons c line ih =>
      have hc : c ≠ '\n' := fun heq => h (by simp [heq])
      show consLine c (keepLines line) = _
      unfold consLine
      rw [if_neg hc]
      cases line with
      | nil => rfl
      | cons d rest =>
          rw [ih (fun hmem => h (List.mem_cons_of_mem c hmem))
            (List.cons_ne_nil d rest)]

/-- A line without its ending: the line feed, and a carriage return right before it. -/
def dropEnding (line : List Char) : List Char :=
  match line.reverse with
  | '\n' :: '\r' :: rest => rest.reverse
  | '\n' :: rest => rest.reverse
  | _ => line

/-- The lines of a text without their endings. -/
def lines (cs : List Char) : List (List Char) := (keepLines cs).map dropEnding

end ScalarLang.Text
