import ScalarLang.Token.Basic
import ScalarLang.Text.Blank

/-!
# Splitting a text into lexemes

A source text is split into lexemes from left to right, each the longest of its class
at its place: a word, a number, a run of blanks, a string between quotes, a comment
up to the end of its line, or fixed text of which `==` and `!=` are tried before
their first characters. A character at which no lexeme starts is *stray* and makes a
piece by itself.

Splitting decides nothing else: no piece is dropped, so that the pieces put together are
the text (`flatten_split`), and the kinds, values and places of tokens are read off the
pieces afterwards.

A string runs from its quote to the next one. A backslash takes the character behind it
along, whatever it is, but neither may be a line feed: a quote without its partner in
the same line is stray.

## Main results

* `flatten_split`: nothing is lost.
* `exists_front_of_mem_splitAfter`: every piece is the front of what it is split off.
-/

namespace ScalarLang

/-- What a piece of source text is. -/
inductive PieceClass where
  /-- White space or a comment. -/
  | skipped
  /-- A lexeme of the grammar. -/
  | token (kind : TokenKind)
  /-- A character at which no lexeme starts. -/
  | stray
deriving DecidableEq

/-- A piece of source text with its class. -/
structure Piece where
  sort : PieceClass
  text : List Char
deriving DecidableEq

namespace Piece

/-! ## The classes of characters -/

/-- Whether a word may start with the character. -/
def isWordStart (c : Char) : Bool := c.isAlpha || c == '_'

/-- Whether a word may go on with the character. -/
def isWordPart (c : Char) : Bool := c.isAlphanum || c == '_'

/-! ## The pieces that vary in length -/

/-- A word: a reserved one has its own kind. -/
def word (text : List Char) : Piece :=
  ⟨.token ((TokenKind.reserved? (String.ofList text)).getD .identifier), text⟩

/-- What follows the digits of a number that has a fraction: the point and its
digits. -/
def fraction (cs : List Char) : List Char :=
  match cs with
  | '.' :: d :: rest =>
      if d.isDigit then '.' :: d :: rest.takeWhile Char.isDigit else []
  | _ => []

/-- A number that starts with a digit. -/
def number (c : Char) (cs : List Char) : Piece :=
  let whole := c :: cs.takeWhile Char.isDigit
  match fraction (cs.dropWhile Char.isDigit) with
  | [] => ⟨.token .integer, whole⟩
  | rest => ⟨.token .floatLiteral, whole ++ rest⟩

/-- The rest of a string behind its first quote, up to and with the other quote. -/
def quotedRest? : List Char → Option (List Char)
  | [] => none
  | '"' :: _ => some ['"']
  | '\n' :: _ => none
  | '\\' :: '\n' :: _ => none
  | '\\' :: c :: cs => (quotedRest? cs).map fun rest => '\\' :: c :: rest
  | c :: cs => (quotedRest? cs).map (c :: ·)

/-- A string, or its quote alone where the other quote is missing. -/
def quotedString (cs : List Char) : Piece :=
  match quotedRest? cs with
  | some rest => ⟨.token .string, '"' :: rest⟩
  | none => ⟨.stray, ['"']⟩

/-! ## The first piece -/

/-- A lexeme of one character. -/
def single (kind : TokenKind) (c : Char) : Piece := ⟨.token kind, [c]⟩

/-- The piece at the front of a text that starts with a fixed lexeme or
with none at all. -/
def fixed (c : Char) (cs : List Char) : Piece :=
  match c, cs with
  | '=', '=' :: _ => ⟨.token .equals, ['=', '=']⟩
  | '!', '=' :: _ => ⟨.token .notEquals, ['!', '=']⟩
  | '|', '|' :: _ => ⟨.token .or, ['|', '|']⟩
  | '&', '&' :: _ => ⟨.token .and, ['&', '&']⟩
  | '\x7b', _ => single .openCurly c
  | '\x7d', _ => single .closeCurly c
  | '(', _ => single .openParen c
  | ')', _ => single .closeParen c
  | '!', _ => single .not c
  | '=', _ => single .assignment c
  | '<', _ => single .less c
  | '>', _ => single .greater c
  | '.', _ => single .dot c
  | ';', _ => single .semicolon c
  | ',', _ => single .comma c
  | '+', _ => single .plus c
  | '-', _ => single .dash c
  | '/', _ => single .slash c
  | '*', _ => single .star c
  | '%', _ => single .percent c
  | _, _ => ⟨.stray, [c]⟩

/-- The piece at the front of the text `c :: cs`. -/
def front (c : Char) (cs : List Char) : Piece :=
  if isWordStart c then word (c :: cs.takeWhile isWordPart)
  else if c.isDigit then number c cs
  else if Text.isBlank c then ⟨.skipped, c :: cs.takeWhile Text.isBlank⟩
  else if c = '"' then quotedString cs
  else if c = '/' ∧ cs.head? = some '/' then ⟨.skipped, c :: cs.takeWhile (· ≠ '\n')⟩
  else fixed c cs

/-! ## All pieces -/

/-- The pieces of a text, after `skip` characters of it that belong to a
piece already found. -/
def splitAfter : Nat → List Char → List Piece
  | _, [] => []
  | 0, c :: cs =>
    let piece := front c cs
    piece :: splitAfter (piece.text.length - 1) cs
  | skip + 1, _ :: cs => splitAfter skip cs

/-- The pieces of a text. -/
def split (cs : List Char) : List Piece := splitAfter 0 cs

/-! ## Nothing is lost -/

private theorem fraction_isPrefix (cs : List Char) : fraction cs <+: cs := by
  unfold fraction
  split
  · split
    · simp [List.takeWhile_prefix]
    · exact List.nil_prefix
  · exact List.nil_prefix

private theorem number_isPrefix (c : Char) (cs : List Char) :
    (number c cs).text <+: c :: cs := by
  have split_eq : cs.takeWhile Char.isDigit ++ cs.dropWhile Char.isDigit = cs :=
    List.takeWhile_append_dropWhile
  unfold number
  split
  · simp [List.takeWhile_prefix]
  · obtain ⟨rest, h⟩ := fraction_isPrefix (cs.dropWhile Char.isDigit)
    exact ⟨rest, by simp [h, split_eq]⟩

private theorem quotedRest?_isPrefix {cs rest : List Char}
    (h : quotedRest? cs = some rest) :
    rest <+: cs := by
  fun_induction quotedRest? cs generalizing rest with
  | case1 => simp at h
  | case2 cs => simp only [Option.some.injEq] at h; subst h; simp
  | case3 => simp at h
  | case4 => simp at h
  | case5 c cs _ ih =>
    obtain ⟨inner, hi, rfl⟩ := Option.map_eq_some_iff.1 h
    simpa using ih hi
  | case6 c cs _ _ _ _ ih =>
    obtain ⟨inner, hi, rfl⟩ := Option.map_eq_some_iff.1 h
    simpa using ih hi

private theorem quotedString_isPrefix (cs : List Char) :
    (quotedString cs).text <+: '"' :: cs := by
  unfold quotedString
  split
  · next h => simpa using quotedRest?_isPrefix h
  · simp

private theorem fixed_isPrefix (c : Char) (cs : List Char) :
    (fixed c cs).text <+: c :: cs := by
  unfold fixed
  split <;> simp [single]

theorem front_isPrefix (c : Char) (cs : List Char) : (front c cs).text <+: c :: cs := by
  unfold front
  split
  · simp [word, List.takeWhile_prefix]
  split
  · exact number_isPrefix c cs
  split
  · simp [List.takeWhile_prefix]
  split
  · next h => subst h; exact quotedString_isPrefix cs
  split
  · simp [List.takeWhile_prefix]
  · exact fixed_isPrefix c cs

theorem front_text_ne_nil (c : Char) (cs : List Char) : (front c cs).text ≠ [] := by
  have number_ne : (number c cs).text ≠ [] := by unfold number; split <;> simp
  have string_ne : (quotedString cs).text ≠ [] := by unfold quotedString; split <;> simp
  have fixed_ne : (fixed c cs).text ≠ [] := by unfold fixed; split <;> simp [single]
  unfold front
  split
  · simp [word]
  split
  · exact number_ne
  split
  · simp
  split
  · exact string_ne
  split
  · simp
  · exact fixed_ne

private theorem flatten_splitAfter (skip : Nat) (cs : List Char) :
    ((splitAfter skip cs).map text).flatten = cs.drop skip := by
  induction cs generalizing skip with
  | nil => cases skip <;> rfl
  | cons c cs ih =>
    cases skip with
    | zero =>
      obtain ⟨rest, h⟩ := front_isPrefix c cs
      obtain ⟨d, ds, hd⟩ := List.exists_cons_of_ne_nil (front_text_ne_nil c cs)
      rw [hd, List.cons_append, List.cons.injEq] at h
      simp only [splitAfter, List.map_cons, List.flatten_cons, ih, hd, List.length_cons,
        Nat.add_sub_cancel, List.drop_zero]
      simp [← h.1, ← h.2]
    | succ skip => simpa [splitAfter] using ih skip

/-- The pieces put together are the text. -/
theorem flatten_split (cs : List Char) : ((split cs).map text).flatten = cs := by
  exact flatten_splitAfter 0 cs

/-- Every piece is the front of what it is split off. -/
theorem exists_front_of_mem_splitAfter {skip : Nat} {cs : List Char} {piece : Piece}
    (h : piece ∈ splitAfter skip cs) : ∃ d ds, piece = front d ds := by
  induction cs generalizing skip with
  | nil => cases skip <;> simp [splitAfter] at h
  | cons c cs ih =>
    cases skip with
    | zero =>
      rcases List.mem_cons.1 (by simpa [splitAfter] using h) with h | h
      · exact ⟨c, cs, h⟩
      · exact ih h
    | succ skip => exact ih (by simpa [splitAfter] using h)

end Piece

end ScalarLang
