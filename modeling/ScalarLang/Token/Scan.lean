import ScalarLang.Source.Reader
import ScalarLang.Token.Lexeme
import ScalarLang.Diagnostic

/-!
# Tokens of a source text

The tokens of a text are its pieces of the grammar, each with its place, and behind them
the token for the end. A text with stray characters has no tokens; every stray character
is reported, in the order of the text.

A scanner takes the pieces off the text one by one: it hands out the position in front
of a piece, moves its reader past the piece, and hands out the position behind it. What
it collects can be told without its reader, as the reader stands behind the pieces that
are taken (`Token.scan_eq`): each piece is placed behind the pieces in front of it, and
is a token there, or is reported there, or is nothing.

The value of a string resolves the escapes `\n`, `\t`, `\r`, `\\` and `\"`. A backslash
before any other character stands for itself.

## Main results

* `Token.scan_eq`: what is scanned is read off the pieces of the text and their places.
* `Token.scan_eq_ok_iff`: a text has tokens if and only if none of its pieces is stray.
-/

namespace ScalarLang

/-! ## Values -/

namespace Piece

/-- What the escapes inside a string stand for. -/
def unescape : List Char → List Char
  | [] => []
  | '\\' :: 'n' :: cs => '\n' :: unescape cs
  | '\\' :: 't' :: cs => '\t' :: unescape cs
  | '\\' :: '\\' :: cs => '\\' :: unescape cs
  | '\\' :: 'r' :: cs => '\r' :: unescape cs
  | '\\' :: '"' :: cs => '"' :: unescape cs
  | c :: cs => c :: unescape cs

/-- The value of a lexeme of this kind and text. -/
def value (kind : TokenKind) (text : List Char) : String :=
  String.ofList (if kind = .string then unescape text.tail.dropLast else text)

end Piece

/-! ## Scanning -/

/-- What has been scanned of a text, and the reader that is behind it. -/
structure Scanner where
  reader : Reader
  tokens : Array Token
  reports : Array Diagnostic

namespace Scanner

/-- A scanner before the first character of a text. -/
def ofText (file source : String) : Scanner := ⟨.ofText file source, #[], #[]⟩

/-- Takes a piece off the text: keeps the token that it is, or reports
it if it is stray. -/
def take (s : Scanner) (piece : Piece) : Scanner :=
  let start := s.reader.position
  let next := s.reader.advance (Source.byteSize piece.text)
  match piece.sort with
  | .skipped => { s with reader := next }
  | .token kind =>
    let token := ⟨kind, Piece.value kind piece.text, ⟨start, next.position⟩⟩
    { s with reader := next, tokens := s.tokens.push token }
  | .stray =>
    let report := ⟨.unrecognisedToken (String.ofList piece.text), start⟩
    { s with reader := next, reports := s.reports.push report }

end Scanner

/-- The tokens of a source text, or a diagnostic for every stray character in it. -/
def Token.scan (file source : String) : Except (List Diagnostic) (List Token) :=
  let s := (Piece.split source.toList).foldl Scanner.take (.ofText file source)
  match s.reports.toList with
  | [] => .ok (s.tokens.push (eof s.reader.position)).toList
  | reports => .error reports

/-! ## Places -/

namespace Piece

/-- Pieces that follow each other from a position, each with the position it starts
at. -/
def placed : Position → List Piece → List (Position × Piece)
  | _, [] => []
  | p, piece :: pieces => (p, piece) :: placed (p.afterAll piece.text) pieces

/-- The token that a placed piece is, if it is one. -/
def token? : Position × Piece → Option Token
  | (p, ⟨.token kind, text⟩) => some ⟨kind, value kind text, ⟨p, p.afterAll text⟩⟩
  | _ => none

/-- The report of a placed piece that is stray. -/
def report? : Position × Piece → Option Diagnostic
  | (p, ⟨.stray, text⟩) => some ⟨.unrecognisedToken (String.ofList text), p⟩
  | _ => none

end Piece

/-- A scanner that takes pieces off the front of its text collects them
with their places. -/
theorem Scanner.foldl_take {s : Scanner} {pieces : List Piece} {back : List Char}
    (h : s.reader.rest = (pieces.map Piece.text).flatten ++ back) :
    (pieces.foldl take s).reader.position =
        s.reader.position.afterAll (pieces.map Piece.text).flatten ∧
      (pieces.foldl take s).tokens.toList =
        s.tokens.toList ++
          (Piece.placed s.reader.position pieces).filterMap Piece.token? ∧
      (pieces.foldl take s).reports.toList =
        s.reports.toList ++
          (Piece.placed s.reader.position pieces).filterMap Piece.report? := by
  induction pieces generalizing s with
  | nil => simp [Piece.placed]
  | cons piece pieces ih =>
      obtain ⟨sort, text⟩ := piece
      have hrest : s.reader.rest = text ++
          ((pieces.map Piece.text).flatten ++ back) := by
        rw [h, List.map_cons, List.flatten_cons, List.append_assoc]
      obtain ⟨hposition, hbehind⟩ := Reader.advance_append hrest
      have htail := ih (s := s.take ⟨sort, text⟩) (by cases sort <;> exact hbehind)
      have hnext : (s.take ⟨sort, text⟩).reader.position =
          s.reader.position.afterAll text := by
        cases sort <;> exact hposition
      rw [hnext, ← Position.afterAll_append] at htail
      rw [List.foldl_cons, Piece.placed, List.map_cons, List.flatten_cons]
      refine ⟨htail.1, htail.2.1.trans ?_, htail.2.2.trans ?_⟩
      all_goals
        cases sort <;>
          simp [take, List.filterMap_cons, Piece.token?, Piece.report?, hposition]

/-- What is scanned is read off the pieces of the text and their places. -/
theorem Token.scan_eq (file source : String) :
    scan file source =
      match (Piece.placed (.first file) (Piece.split source.toList)).filterMap
          Piece.report? with
      | [] => .ok ((Piece.placed (.first file) (Piece.split source.toList)).filterMap
          Piece.token? ++ [eof ((Position.first file).afterAll source.toList)])
      | reports => .error reports := by
  have hrest : (Scanner.ofText file source).reader.rest =
      ((Piece.split source.toList).map Piece.text).flatten ++ [] := by
    rw [Piece.flatten_split, List.append_nil]
    rfl
  obtain ⟨hposition, htokens, hreports⟩ := Scanner.foldl_take hrest
  rw [Piece.flatten_split] at hposition
  unfold scan
  dsimp only
  rw [hreports, Array.toList_push, htokens, hposition]
  rfl

private theorem Piece.filterMap_report?_eq_nil_iff (p : Position)
    (pieces : List Piece) :
    (placed p pieces).filterMap report? = [] ↔
    ∀ piece ∈ pieces, piece.sort ≠ .stray := by
  induction pieces generalizing p with
  | nil => simp [placed]
  | cons piece pieces ih =>
    obtain ⟨sort, text⟩ := piece
    cases sort with
    | stray => simp [placed, report?]
    | skipped => simpa [placed, List.filterMap_cons, report?] using ih (p.afterAll text)
    | token kind =>
        simpa [placed, List.filterMap_cons, report?] using ih (p.afterAll text)

theorem Token.scan_eq_ok_iff (file source : String) :
    (∃ tokens, scan file source = .ok tokens) ↔
      ∀ piece ∈ Piece.split source.toList, piece.sort ≠ .stray := by
  rw [← Piece.filterMap_report?_eq_nil_iff (.first file), scan_eq]
  split <;> simp_all

/-- The tokens of a text are those of its placed pieces, and the end. -/
theorem Token.eq_of_scan {file source : String} {tokens : List Token}
    (h : scan file source = .ok tokens) :
    tokens = (Piece.placed (.first file) (Piece.split source.toList)).filterMap
      Piece.token? ++ [eof ((Position.first file).afterAll source.toList)] := by
  rw [scan_eq] at h
  split at h <;> cases h
  rfl

/-- The reports on a text are those of its placed pieces. -/
theorem Token.eq_of_scan_error {file source : String} {reports : List Diagnostic}
    (h : scan file source = .error reports) :
    reports =
      (Piece.placed (.first file) (Piece.split source.toList)).filterMap
        Piece.report? := by
  rw [scan_eq] at h
  split at h <;> cases h
  rfl

theorem Piece.mem_of_mem_placed {p : Position} {pieces : List Piece}
    {placedPiece : Position × Piece} (h : placedPiece ∈ placed p pieces) :
    placedPiece.2 ∈ pieces := by
  induction pieces generalizing p with
  | nil => simp [placed] at h
  | cons piece pieces ih =>
    rcases List.mem_cons.mp h with rfl | h
    · exact List.mem_cons_self
    · exact List.mem_cons_of_mem _ (ih h)

/-- A token of a text is the one for the end, or it stands for the front
of a part of it. -/
theorem Token.eof_or_front_of_scan {file source : String} {tokens : List Token}
    (h : scan file source = .ok tokens) {t : Token} (ht : t ∈ tokens) :
    (∃ p, t = .eof p) ∨ ∃ p c cs, Piece.token? (p, Piece.front c cs) = some t := by
  rw [eq_of_scan h] at ht
  rcases List.mem_append.mp ht with ht | ht
  · obtain ⟨⟨p, piece⟩, hmem, htoken⟩ := List.mem_filterMap.mp ht
    have hpiece : piece ∈ Piece.split source.toList := Piece.mem_of_mem_placed hmem
    obtain ⟨c, cs, rfl⟩ := Piece.exists_front_of_mem_splitAfter hpiece
    exact .inr ⟨p, c, cs, htoken⟩
  · exact .inl ⟨_, List.mem_singleton.mp ht⟩

end ScalarLang
