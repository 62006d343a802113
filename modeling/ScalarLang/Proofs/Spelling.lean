import ScalarLang.Proofs.Lookahead
import ScalarLang.Proofs.Unparsing

/-!
# Lexemes that are written out are scanned back

A list of lexemes is written with something between any two of them: a blank, and then
blanks and comments as one likes (`Lexeme.Written`). A string is written between
quotes, with its quotes, backslashes and line feeds escaped; every other lexeme is
written as it is.

That the scanner finds the lexemes again is a matter of each lexeme by itself. Alone it
is the piece at its own front (`Lexeme.Proper.front`), and nothing that stands behind a
blank changes that.

## Main results

* `Token.scan_written`: lexemes that are written out are scanned back.
-/

namespace ScalarLang

open ScalarLang.Text

/-! ## How lexemes are written -/

/-- A character between quotes. -/
def escapedChar (c : Char) : List Char :=
  if c = '\n' then ['\\', 'n'] else if c = '"' ∨ c = '\\' then ['\\', c] else [c]

/-- A text between quotes. -/
def escaped (cs : List Char) : List Char := cs.flatMap escapedChar

/-- What is written for a lexeme. -/
def Lexeme.spelling (l : Lexeme) : List Char :=
  if l.1 = .string then '"' :: (escaped l.2.toList ++ ['"']) else l.2.toList

/-- Lexemes whose value is one of their kind. -/
inductive Lexeme.Proper : Lexeme → Prop
  | identifier {c : Char} {cs : List Char} (hc : Piece.isWordStart c = true)
      (hcs : ∀ d ∈ cs, Piece.isWordPart d = true)
      (hfree : TokenKind.reserved? (String.ofList (c :: cs)) = none) :
      Proper (.identifier, String.ofList (c :: cs))
  | integer {c : Char} {cs : List Char} (hdigits : ∀ d ∈ c :: cs, d.isDigit = true) :
      Proper (.integer, String.ofList (c :: cs))
  | floatLiteral {c d : Char} {cs ds : List Char}
      (hwhole : ∀ e ∈ c :: cs, e.isDigit = true)
      (hpart : ∀ e ∈ d :: ds, e.isDigit = true) :
      Proper (.floatLiteral, String.ofList (c :: cs ++ '.' :: d :: ds))
  | string (value : String) : Proper (.string, value)
  | fixed {k : TokenKind} (hk : k ∉
      [TokenKind.eof, .identifier, .integer, .floatLiteral, .string]) : Proper k.lexeme

/-- Blanks and comments, each comment with the line feed behind it. -/
inductive Filler : List Char → Prop
  | nil : Filler []
  | blank {c : Char} {cs : List Char} (hc : isBlank c = true) (hrest : Filler cs) :
      Filler (c :: cs)
  | comment {text cs : List Char} (hline : '\n' ∉ text) (hrest : Filler cs) :
      Filler ('/' :: '/' :: (text ++ '\n' :: cs))

/-- Whether lexemes are written like this: one after the other, with a blank and a
filler between any two. -/
inductive Lexeme.Written : List Lexeme → List Char → Prop
  | nil : Written [] []
  | single (l : Lexeme) : Written [l] l.spelling
  | cons {l next : Lexeme} {ls : List Lexeme} {c : Char} {filler text : List Char}
      (hc : isBlank c = true)
      (hfiller : Filler filler) (hrest : Written (next :: ls) text) :
      Written (l :: next :: ls) (l.spelling ++ (c :: (filler ++ text)))

theorem Filler.gap {filler : List Char} (h : Filler filler) (behind : List Char) :
    Gap behind filler := by
  induction h with
  | nil => exact .nil
  | blank hc _ ih => exact .blank hc ih
  | comment hline _ ih =>
      apply Gap.comment hline
      · intro c hc
        exact (Option.some.inj hc).symm
      · exact .blank (by decide) ih

/-! ## Strings -/

private theorem unescape_escaped (cs : List Char) :
    Piece.unescape (escaped cs) = cs := by
  induction cs with
  | nil => rfl
  | cons c cs ih =>
      show Piece.unescape (escapedChar c ++ escaped cs) = c :: cs
      unfold escapedChar
      by_cases hfeed : c = '\n'
      · rw [if_pos hfeed, hfeed]
        exact (Piece.unescape_escape rfl _).trans (congrArg _ ih)
      rw [if_neg hfeed]
      by_cases hspecial : c = '"' ∨ c = '\\'
      · have hescape : escape? c = some c := by
          rcases hspecial with rfl | rfl <;> rfl
        rw [if_pos hspecial]
        exact (Piece.unescape_escape hescape _).trans (congrArg _ ih)
      · have hslash : c ≠ '\\' := fun heq => hspecial (.inr heq)
        rw [if_neg hspecial]
        exact (Piece.unescape_plain hslash _).trans (congrArg _ ih)

/-- No quote among the escaped characters is the one that is looked for. -/
theorem quotedRest?_escaped (cs : List Char) :
    Piece.quotedRest? (escaped cs ++ ['"']) = some (escaped cs ++ ['"']) := by
  induction cs with
  | nil => rfl
  | cons c cs ih =>
      show Piece.quotedRest? (escapedChar c ++ escaped cs ++ ['"']) =
        some (escapedChar c ++ escaped cs ++ ['"'])
      rw [List.append_assoc]
      unfold escapedChar
      by_cases hfeed : c = '\n'
      · rw [if_pos hfeed]
        exact (Piece.quotedRest?_slash (by decide) _).trans (congrArg _ ih)
      rw [if_neg hfeed]
      by_cases hspecial : c = '"' ∨ c = '\\'
      · rw [if_pos hspecial]
        exact (Piece.quotedRest?_slash hfeed _).trans (congrArg _ ih)
      · have hquote : c ≠ '"' := fun heq => hspecial (.inl heq)
        have hslash : c ≠ '\\' := fun heq => hspecial (.inr heq)
        rw [if_neg hspecial]
        exact (Piece.quotedRest?_plain hquote hfeed hslash _).trans (congrArg _ ih)

/-! ## Each lexeme by itself -/

/-- The piece that a lexeme is written as. -/
def Lexeme.piece (l : Lexeme) : Piece := ⟨.token l.1, l.spelling⟩

/-- What is written for a lexeme has its value. -/
theorem Lexeme.value_spelling (l : Lexeme) : Piece.value l.1 l.spelling = l.2 := by
  unfold Piece.value spelling
  by_cases hstring : l.1 = .string
  · rw [if_pos hstring, if_pos hstring, List.tail_cons, List.dropLast_concat,
      unescape_escaped, String.ofList_toList]
  · rw [if_neg hstring, if_neg hstring, String.ofList_toList]

private theorem Lexeme.spelling_of_ne {k : TokenKind} (h : k ≠ .string)
    (cs : List Char) :
    Lexeme.spelling (k, String.ofList cs) = cs := by
  rw [spelling, if_neg h, String.toList_ofList]

namespace Piece

private theorem front_word {c : Char} {cs : List Char} (hc : isWordStart c = true)
    (hcs : ∀ d ∈ cs, isWordPart d = true) :
    front c cs = word (c :: cs) := by
  have htake : cs.takeWhile isWordPart = cs := List.takeWhile_eq_self_iff.mpr hcs
  rw [front, if_pos hc, htake]

private theorem isWordStart_digit {c : Char} (hc : c.isDigit = true) :
    isWordStart c = false := by
  have hdigit := Decimal.toNat_of_isDigit hc
  by_contra hword
  have hletter : 'A'.toNat ≤ c.toNat := by
    simp only [isWordStart, Char.isAlpha, Char.isUpper, Char.isLower, Bool.not_eq_false,
      Bool.or_eq_true, Bool.and_eq_true, decide_eq_true_eq, beq_iff_eq, ge_iff_le,
      UInt32.le_iff_toNat_le] at hword
    rcases hword with (⟨hlow, -⟩ | ⟨hlow, -⟩) | rfl
    · exact hlow
    · exact Nat.le_trans (by decide) hlow
    · decide
  have hlow : 65 ≤ c.toNat := hletter
  omega

theorem front_number {c : Char} (hc : c.isDigit = true) (cs : List Char) :
    front c cs = number c cs := by
  have hword : ¬ isWordStart c = true := Bool.eq_false_iff.mp (isWordStart_digit hc)
  rw [front, if_neg hword, if_pos hc]

end Piece

/-- A lexeme is the piece at its own front. -/
theorem Lexeme.Proper.front {l : Lexeme} (h : l.Proper) :
    ∃ c cs, l.spelling = c :: cs ∧ Piece.front c cs = l.piece := by
  cases h with
  | @identifier c cs hc hcs hfree =>
      have hspelling := spelling_of_ne (k := .identifier) (by decide) (c :: cs)
      refine ⟨c, cs, hspelling, ?_⟩
      rw [Piece.front_word hc hcs, Piece.word, hfree, Lexeme.piece, hspelling]
      rfl
  | @integer c cs hdigits =>
      have hspelling := spelling_of_ne (k := .integer) (by decide) (c :: cs)
      refine ⟨c, cs, hspelling, ?_⟩
      obtain ⟨hc, hcs⟩ := List.forall_mem_cons.mp hdigits
      have htake : cs.takeWhile Char.isDigit = cs := List.takeWhile_eq_self_iff.mpr hcs
      have hdrop : cs.dropWhile Char.isDigit = [] := List.dropWhile_eq_nil_iff.mpr hcs
      rw [Piece.front_number hc, Piece.number, htake, hdrop, Lexeme.piece, hspelling]
      rfl
  | @floatLiteral c d cs ds hwhole hpart =>
      have hspelling :=
        spelling_of_ne (k := .floatLiteral) (by decide) (c :: cs ++ '.' :: d :: ds)
      refine ⟨c, cs ++ '.' :: d :: ds, hspelling, ?_⟩
      obtain ⟨hc, hcs⟩ := List.forall_mem_cons.mp hwhole
      obtain ⟨hd, hds⟩ := List.forall_mem_cons.mp hpart
      have htake : (cs ++ '.' :: d :: ds).takeWhile Char.isDigit = cs := by
        rw [List.takeWhile_append_of_pos hcs, List.takeWhile_cons_of_neg (by decide),
          List.append_nil]
      have hdrop : (cs ++ '.' :: d :: ds).dropWhile Char.isDigit = '.' :: d :: ds := by
        rw [List.dropWhile_append_of_pos hcs, List.dropWhile_cons_of_neg (by decide)]
      have hdigits : ds.takeWhile Char.isDigit = ds :=
        List.takeWhile_eq_self_iff.mpr hds
      rw [Piece.front_number hc, Piece.number, htake, hdrop, Piece.fraction_dot,
        if_pos hd, hdigits, Lexeme.piece, hspelling]
  | string value =>
      refine ⟨'"', escaped value.toList ++ ['"'], rfl, ?_⟩
      rw [Piece.front_quote, Piece.quotedString, quotedRest?_escaped]
      rfl
  | @fixed k hk =>
      cases k
      all_goals first
        | exact absurd (by decide) hk
        | exact ⟨_, _, rfl, by decide +kernel⟩

/-! ## Lexemes in a row -/

namespace Piece

variable {p : Position} {rest : List Char}

/-- A lexeme that ends with the text or before a blank is the next piece. -/
theorem solid_spelling {l : Lexeme} (hl : l.Proper) (hrest : Fades [] rest) :
    solid p (l.spelling ++ rest) = (p, l.piece) ::
      solid (p.afterAll l.spelling) rest := by
  obtain ⟨c, cs, hspelling, hfront⟩ := hl.front
  have halone : front c (cs ++ []) = l.piece := by rwa [List.append_nil]
  have htext : l.piece.text = c :: cs := hspelling
  have hsort : l.piece.sort ≠ .skipped := by
    intro heq
    cases heq
  have hquote : l.piece ≠ ⟨.stray, ['"']⟩ := by
    intro heq
    cases congrArg Piece.sort heq
  have hbefore : front c (cs ++ rest) = l.piece := by
    rw [← halone] at htext hsort hquote
    rw [front_of_fades hrest htext hsort hquote, halone]
  have hsplit : (front c (cs ++ rest)).text ++ rest = c :: (cs ++ rest) := by
    rw [hbefore, htext]
    rfl
  rw [hspelling, List.cons_append, solid_front hsplit (by rwa [hbefore]),
    hbefore, htext]

/-- The pieces of lexemes that are written out are the lexemes. -/
theorem solid_written {ls : List Lexeme} {text : List Char} (h : Lexeme.Written ls text)
    (hls : ∀ l ∈ ls, l.Proper) (p : Position) :
    (solid p text).map Prod.snd = ls.map Lexeme.piece := by
  induction h generalizing p with
  | nil => rfl
  | single l =>
      rw [← List.append_nil l.spelling, solid_spelling (hls l List.mem_cons_self) .nil]
      rfl
  | @cons l next ls c filler text hc hfiller _ ih =>
      obtain ⟨hl, hrest⟩ := List.forall_mem_cons.mp hls
      rw [solid_spelling hl (.blank hc), solid_blank hc, solid_gap (hfiller.gap text),
        List.map_cons, List.map_cons, ih hrest]

/-- Lexemes that are pieces are the tokens, and nothing is reported. -/
theorem filterMap_pieces {found : List (Position × Piece)} {ls : List Lexeme}
    (h : found.map Prod.snd = ls.map Lexeme.piece) :
    found.filterMap report? = [] ∧ (found.filterMap token?).map Token.lexeme = ls := by
  induction found generalizing ls with
  | nil =>
      cases ls with
      | nil => exact ⟨rfl, rfl⟩
      | cons l ls => cases h
  | cons entry found ih =>
      cases ls with
      | nil => cases h
      | cons l ls =>
          obtain ⟨p, piece⟩ := entry
          obtain ⟨hpiece, hrest⟩ := List.cons.inj h
          obtain ⟨hreports, htokens⟩ := ih hrest
          cases hpiece
          constructor
          · exact hreports
          · show (l.1, value l.1 l.spelling) ::
              (found.filterMap token?).map Token.lexeme = l :: ls
            rw [Lexeme.value_spelling, htokens]

end Piece

namespace Token

/-- Lexemes that are written out are scanned back, with the end behind them. -/
theorem scan_written {ls : List Lexeme} {text : List Char} (h : Lexeme.Written ls text)
    (hls : ∀ l ∈ ls, l.Proper) (file : String) :
    ∃ tokens, scan file (String.ofList text) =
      .ok (tokens ++ [.eof ((Position.first file).afterAll text)]) ∧
      tokens.map Token.lexeme = ls := by
  obtain ⟨hreports, htokens⟩ :=
    Piece.filterMap_pieces (Piece.solid_written h hls (.first file))
  refine ⟨(Piece.solid (.first file) text).filterMap Piece.token?, ?_, htokens⟩
  rw [Piece.scan_eq_solid, String.toList_ofList, hreports]

/-- A comment with a quote behind a slash, a string of a quote behind a backslash, and a
word that starts like a reserved one. -/
theorem scan_written_around_quotes :
    ∃ tokens, scan "a" "/ //\"\n\t\"\\\\\\\"\" == = ifx 1.5" =
        .ok (tokens ++
          [.eof ((Position.first "a").afterAll
            "/ //\"\n\t\"\\\\\\\"\" == = ifx 1.5".toList)]) ∧
      tokens.map Token.lexeme =
        [TokenKind.slash.lexeme, (.string, "\\\""), TokenKind.equals.lexeme,
          TokenKind.assignment.lexeme,
          (.identifier, "ifx"), (.floatLiteral, "1.5")] := by
  have hblank : Text.isBlank ' ' = true := by decide
  have hcomment : Filler ('/' :: '/' :: (['"'] ++ '\n' :: ['\t'])) :=
    .comment (by decide) (.blank (by decide) .nil)
  have hwritten := Lexeme.Written.cons (l := TokenKind.slash.lexeme) hblank hcomment
    (.cons (l := (.string, "\\\"")) hblank .nil
    (.cons (l := TokenKind.equals.lexeme) hblank .nil
    (.cons (l := TokenKind.assignment.lexeme) hblank .nil
    (.cons (l := (.identifier, "ifx")) hblank .nil (.single (.floatLiteral, "1.5"))))))
  refine scan_written hwritten ?_ "a"
  simp only [List.forall_mem_cons, List.not_mem_nil, false_imp_iff,
    implies_true, and_true]
  have hword : ∀ d ∈ ['f', 'x'], Piece.isWordPart d = true := by simp [Piece.isWordPart]
  have hone : ∀ d ∈ ['1'], d.isDigit = true := by simp
  have hfive : ∀ d ∈ ['5'], d.isDigit = true := by simp
  refine ⟨.fixed (by decide), .string _, .fixed (by decide), .fixed (by decide), ?_,
    .floatLiteral hone hfive⟩
  exact .identifier (c := 'i') (by decide) hword rfl

end Token

end ScalarLang
