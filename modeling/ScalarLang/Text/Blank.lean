/-!
# Blank characters, trimming and words

The characters with the Unicode property White_Space separate words, in a program text
as well as in code written as text. There are twenty-five of them, and core's
`Char.isWhitespace` knows only the four ASCII ones that occur in source files, so the
property has a definition of its own here.

Trimming and splitting off a word are defined on lists of characters, by `takeWhile` and
`dropWhile` of that one property: a word is a run of characters that are not blank.
-/

namespace ScalarLang.Text

/-! ## The property -/

/-- Whether a character has the Unicode property White_Space. -/
def isBlank (c : Char) : Bool :=
  let n := c.toNat
  (0x09 ≤ n && n ≤ 0x0D) || n == 0x20 || n == 0x85 || n == 0xA0 || n == 0x1680 ||
    (0x2000 ≤ n && n ≤ 0x200A) || n == 0x2028 || n == 0x2029 || n == 0x202F ||
    n == 0x205F || n == 0x3000

/-! ## Trimming -/

/-- The text without the blanks it starts with. -/
def trimStart (cs : List Char) : List Char := cs.dropWhile isBlank

/-- The text without the blanks it ends with. -/
def trimEnd (cs : List Char) : List Char := (cs.reverse.dropWhile isBlank).reverse

/-- The text without the blanks around it. -/
def trim (cs : List Char) : List Char := trimEnd (trimStart cs)

/-! ## Words -/

/-- A run of characters that are not blank, and the text after it without the
blanks in between. -/
def splitWord (cs : List Char) : List Char × List Char :=
  let start := trimStart cs
  (start.takeWhile (!isBlank ·), trimStart (start.dropWhile (!isBlank ·)))

end ScalarLang.Text
