import ScalarLang.Proofs.Persistence
import ScalarLang.Proofs.Precedence
import ScalarLang.Proofs.Recovery
import ScalarLang.Proofs.Spelling
import ScalarLang.Proofs.Wording

/-!
# Int literals from the text to the output

Digits pass through four readers and writers: the scanner, the parser, the text of the
code and the machine. What comes out is told by the number they denote alone, however
many zeros stand in front of it. A minus sign in front is an instruction of its own for
all numbers but one, 2147483648, which is an int only together with the sign; blanks and
comments between the two make no difference.

The least number that does not fit is where a text is rejected, and it is rejected for
the digits, for these are what is wrong, not the sign in front of them.

## Main results

* `compileSource_int`: the text that writes an int prints it, or is rejected for its
  digits if they do not fit.
-/

namespace ScalarLang

open ScalarLang.Parser
open ScalarLang.Rules hiding none

/-! ## The tokens -/

namespace Piece

variable {p : Position} {rest : List Char}

/-- Digits in front of a semicolon are one piece, however many they are. -/
theorem solid_digits {digits : List Char} (hne : digits ≠ [])
    (hdigits : ∀ d ∈ digits, d.isDigit = true) :
    solid p (digits ++ [';']) =
      [(p, ⟨.token .integer, digits⟩), (p.afterAll digits, single .semicolon ';')] := by
  obtain ⟨c, cs, rfl⟩ := List.exists_cons_of_ne_nil hne
  obtain ⟨hc, hcs⟩ := List.forall_mem_cons.mp hdigits
  have htake : (cs ++ [';']).takeWhile Char.isDigit = cs := by
    rw [List.takeWhile_append_of_pos hcs, List.takeWhile_cons_of_neg (by decide),
      List.append_nil]
  have hdrop : (cs ++ [';']).dropWhile Char.isDigit = [';'] := by
    rw [List.dropWhile_append_of_pos hcs, List.dropWhile_cons_of_neg (by decide)]
  have hfront : front c (cs ++ [';']) = ⟨.token .integer, c :: cs⟩ := by
    rw [front_number hc, number, htake, hdrop, fraction_of_ne (by decide)]
  have hsplit : (front c (cs ++ [';'])).text ++ [';'] = c :: (cs ++ [';']) := by
    rw [hfront]; rfl
  rw [List.cons_append,
    solid_front hsplit (by rw [hfront]; exact PieceClass.noConfusion), hfront]
  rfl

private theorem solid_minus (p : Position) (rest : List Char) :
    solid p ('-' :: rest) = (p, single .dash '-') :: solid (p.after '-') rest := by
  have hfront : front '-' rest = single .dash '-' := rfl
  have hsplit : (front '-' rest).text ++ rest = '-' :: rest := by rw [hfront]; rfl
  rw [solid_front hsplit (by rw [hfront]; exact PieceClass.noConfusion), hfront]
  rfl

private theorem solid_write (p : Position) (rest : List Char) :
    solid p ("write ".toList ++ rest) =
      (p, TokenKind.writeWord.lexeme.piece) ::
        solid (p.afterAll "write ".toList) rest := by
  have hspelling : "write ".toList ++ rest = TokenKind.writeWord.lexeme.spelling ++
      ' ' :: rest := rfl
  rw [hspelling, solid_spelling (.fixed (by decide)) (.blank (by decide)),
    solid_blank (by decide)]
  rfl

end Piece

/-- Digits behind a text without stray characters are scanned as that text, and as one
token of their own. -/
theorem Token.scan_digits {file : String} {front digits : List Char}
    {lead : List (Position × Piece)} {p : Position}
    (hlead : ∀ rest, Piece.solid (.first file) (front ++ rest) = lead ++
      Piece.solid p rest)
    (hreports : lead.filterMap Piece.report? = []) (hne : digits ≠ [])
    (hdigits : ∀ d ∈ digits, d.isDigit = true) :
    ∃ semi last, scan file (String.ofList (front ++ (digits ++ [';']))) =
        .ok (lead.filterMap Piece.token? ++
          [⟨.integer, String.ofList digits, ⟨p, p.afterAll digits⟩⟩, semi, last]) ∧
      semi.kind = .semicolon ∧ last.kind = .eof := by
  let behind := p.afterAll digits
  refine ⟨⟨.semicolon, ";", ⟨behind, behind.after ';'⟩⟩,
    .eof ((Position.first file).afterAll (front ++ (digits ++ [';']))), ?_, rfl, rfl⟩
  rw [Piece.scan_eq_solid, String.toList_ofList, hlead, Piece.solid_digits hne hdigits,
    List.filterMap_append, List.filterMap_append, hreports, List.append_assoc]
  rfl

/-! ## The tree -/

namespace Rules

variable {c next stop : Cursor} {d : Diagnostic} {e : Expr} {n : Nat} {power : Power}

theorem exprWithin_of_fail {rule : StartRule}
    (hfind : standard.starts.find? c.current.kind = some rule)
    (h : rule.parse (standard.exprWithin n) c = .fail d stop) :
    standard.exprWithin (n + 1) power c = .fail d stop := by
  rw [exprWithin]
  dsimp only
  rw [current_bind, hfind]
  exact bind_of_eq_fail h

/-- Digits that do not fit are given up. -/
theorem exprWithin_large {t : Token} {rest : List Token} (hkind : t.kind = .integer)
    (h : intOf? t.value = Option.none) (hc : c.tokens = t :: rest) :
    standard.exprWithin (n + 1) power c =
      .fail ⟨.numberParse t.value, t.span.start⟩ c := by
  obtain ⟨rfl, -⟩ := List.cons.inj hc
  have hprimary : primaryOf c.current = .error (.numberParse c.current.value) := by
    unfold primaryOf
    rw [hkind]
    dsimp only
    rw [h]
  have hfind : standard.starts.find? c.current.kind = some .primary := by
    rw [hkind]
    rfl
  apply exprWithin_of_fail hfind
  show readPrimary c = _
  rw [readPrimary, current_bind, hprimary]
  rfl

/-- Digits that do not fit with the sign in front of them either are given up behind
it. -/
theorem exprWithin_minus_large {sign t : Token} {rest : List Token}
    (hsign : sign.kind = .dash) (hkind : t.kind = .integer)
    (h : intOf? t.value = Option.none) (hopposite : oppositeOf? t.value = Option.none)
    (hc : c.tokens = sign :: t :: rest) :
    standard.exprWithin (n + 2) power c =
      .fail ⟨.numberParse t.value, t.span.start⟩ c.advance := by
  obtain ⟨rfl, hadvance⟩ := Cursor.advance_of_tokens_eq hc (List.cons_ne_nil t rest)
  obtain ⟨rfl, -⟩ := List.cons.inj hadvance
  apply exprWithin_of_fail (Expr.find?_starts_operator (.inl hsign))
  show readOperator _ c = _
  rw [readOperator, advance_bind, current_bind, if_pos ⟨hsign, hkind⟩, hopposite]
  exact bind_of_eq_fail (exprWithin_large hkind h hadvance)

private theorem stmt_of_write (h : c.current.kind = .writeWord) :
    ∃ n, c.ahead.length ≤ n ∧
      standard.stmt c = readWrite (standard.exprWithin (n + 2)) c := by
  refine ⟨2 * c.ahead.length + 5, by omega, ?_⟩
  show standard.stmtWithin (2 * c.ahead.length + 5 + 2 + 1) c = _
  rw [stmtWithin, current_bind, h]
  rfl

variable {expr : ExprParser}

/-- A statement that writes one value is read if the value is read up to a semicolon. -/
theorem readWrite_of_ok (h : expr .lowest c.advance = .ok e next)
    (hsemi : next.current.kind = .semicolon) :
    readWrite expr c = .ok (.write [e] ⟨c.current.span.start, next.advance.previousEnd⟩)
      next.advance := by
  have hvalues : commaSeparated (expr .lowest) c.advance = .ok [e] next := by
    have hcomma : next.current.kind ≠ .comma := by
      rw [hsemi]; exact TokenKind.noConfusion
    rw [commaSeparated, commaLoop, bind_of_eq_ok h, current_bind, if_neg hcomma]
    rfl
  rw [readWrite, advance_bind, bind_of_eq_ok hvalues,
    bind_of_eq_ok (expect_eq_ok hsemi)]
  rfl

/-- A statement that writes values is given up where the first one is. -/
theorem readWrite_of_fail (h : expr .lowest c.advance = .fail d stop) :
    readWrite expr c = .fail d stop := by
  have hvalues : commaSeparated (expr .lowest) c.advance = .fail d stop := by
    rw [commaSeparated, commaLoop]
    exact bind_of_eq_fail h
  rw [readWrite, advance_bind]
  exact bind_of_eq_fail hvalues

private theorem exists_stmt_write {word semi : Token} {ts back : List Token}
    (hword : word.kind = .writeWord) (hsemi : semi.kind = .semicolon)
    (h : Tier.assignment.Leads ts e) (hc : c.tokens = word :: (ts ++ semi :: back)) :
    ∃ span next, standard.stmt c = .ok (.write [e] span) next := by
  obtain ⟨hcurrent, hadvance⟩ := Cursor.advance_of_tokens_eq hc (by simp)
  obtain ⟨n, hn, hstmt⟩ := stmt_of_write (hcurrent ▸ hword)
  have hends : semi.kind.joinRank = 0 := by rw [hsemi]; rfl
  have hlowest : Tier.assignment.Within .lowest := fun k hk => hk
  have hlength : ts.length < n + 2 := by
    have hahead := congrArg List.length (List.cons.inj hc).2
    rw [List.length_append, List.length_cons] at hahead
    omega
  obtain ⟨next, hnext, hread⟩ :=
    h.reads hadvance (Nat.le_of_eq hends) hlowest (Nat.le_of_eq hends) hlength
  have hcurrent' : next.current.kind = .semicolon := by
    rw [(List.cons.inj hnext).1, hsemi]
  exact ⟨_, _, hstmt.trans (readWrite_of_ok hread hcurrent')⟩

private theorem exists_stmt_fail (hword : c.current.kind = .writeWord)
    (h : ∀ n, ∃ stop, standard.exprWithin (n + 2) .lowest c.advance = .fail d stop) :
    ∃ stop, standard.stmt c = .fail d stop := by
  obtain ⟨n, -, hstmt⟩ := stmt_of_write hword
  obtain ⟨stop, hread⟩ := h n
  exact ⟨stop, hstmt.trans (readWrite_of_fail hread)⟩

end Rules

private theorem Cursor.tokens_ofTokens_statement (file : String) (flat : List Token)
    (semi : Token) {last : Token} (hlast : last.kind = .eof) :
    (ofTokens file (flat ++ [semi, last])).tokens = flat ++ semi :: [last] := by
  rw [List.append_cons, tokens_ofTokens_of_last file _ hlast, ← List.append_cons]

/-- One flat statement in front of the end is the program, or it is what the program
is rejected for. -/
theorem Program.ofTokens_flat (file : String) {flat : List Token} {semi last : Token}
    (hflat : Token.Flat flat) (hsemi : semi.kind = .semicolon)
    (hlast : last.kind = .eof) :
    (∀ d stop, standard.stmt (.ofTokens file (flat ++ [semi, last])) = .fail d stop →
        ofTokens file (flat ++ [semi, last]) = .error [d]) ∧
      ∀ s next, standard.stmt (.ofTokens file (flat ++ [semi, last])) = .ok s next →
        ∃ p, ofTokens file (flat ++ [semi, last]) = .ok p ∧ p.body = [s] := by
  have htokens := Cursor.tokens_ofTokens_statement file flat semi hlast
  have hc := Cursor.terminated_ofTokens file (flat ++ [semi, last])
  have hkind : (Cursor.ofTokens file (flat ++ [semi, last])).current.kind ≠ .eof := by
    have hcurrent : (flat ++ semi :: [last]).head? =
        some (Cursor.ofTokens file (flat ++ [semi, last])).current :=
      congrArg List.head? htokens.symm
    exact fun heof => hflat.head hsemi _ hcurrent (by rw [heof]; decide)
  obtain ⟨made, hmade⟩ := exists_makes hc htokens hflat hsemi (Token.head_of_eof hlast)
  obtain ⟨stop, hstop, -, hreading⟩ :=
    hmade.readStatements_eq hsemi (List.cons_ne_nil _ _) hkind
  have heof : stop.current.kind = .eof := by rw [(List.cons.inj hstop).1, hlast]
  have hread : readTokens file (flat ++ [semi, last]) =
      Reading.behind made ⟨[], [], true, stop⟩ := by
    have hlength : (flat ++ [semi, last]).length = flat.length + 1 + 1 := by simp
    unfold readTokens
    rw [hlength, hreading, readStatements_eof heof]
  obtain ⟨d, rfl, hrejected, -⟩ | ⟨s, p, rfl, hp, hbody, -⟩ :=
    complaints_of_made file hread
  · obtain ⟨stop, hfail⟩ : ∃ stop,
        standard.stmt (.ofTokens file (flat ++ [semi, last])) = .fail d stop := by
      cases hmade with
      | error h => exact ⟨_, h⟩
    rw [hfail]
    constructor
    · intro d' stop' h
      cases h
      exact hrejected
    · intro s next h
      cases h
  · obtain ⟨next, hok⟩ : ∃ next,
        standard.stmt (.ofTokens file (flat ++ [semi, last])) = .ok s next := by
      cases hmade with
      | ok h => exact ⟨_, h⟩
    rw [hok]
    constructor
    · intro d stop h
      cases h
    · intro s' next' h
      cases h
      exact ⟨p, hp, hbody⟩

section

variable {file source : String} {word semi last : Token} {ts : List Token}

/-- A text that writes one value is compiled from its tree. -/
theorem compileSource_of_write
    (hscan : Token.scan file source = .ok (word :: ts ++ [semi, last]))
    (hword : word.kind = .writeWord) (hts : Token.Flat ts)
    (hsemi : semi.kind = .semicolon) (hlast : last.kind = .eof) {e : Expr}
    (h : Tier.assignment.Leads ts e) :
    ∃ (p : Program) (span : Span), p.body = [.write [e] span] ∧
      compileSource file source = p.compileChecked := by
  have hflat : Token.Flat (word :: ts) :=
    List.forall_mem_cons.mpr ⟨by rw [hword]; decide, hts⟩
  have htokens := Cursor.tokens_ofTokens_statement file (word :: ts) semi hlast
  obtain ⟨span, next, hstmt⟩ := exists_stmt_write hword hsemi h htokens
  obtain ⟨p, hp, hbody⟩ := (Program.ofTokens_flat file hflat hsemi hlast).2 _ _ hstmt
  exact ⟨p, span, hbody, by rw [compileSource_of_scan hscan, hp]⟩

/-- A text that writes a value is rejected for the report on the value. -/
theorem compileSource_of_write_fail
    (hscan : Token.scan file source = .ok (word :: ts ++ [semi, last]))
    (hword : word.kind = .writeWord) (hts : Token.Flat ts)
    (hsemi : semi.kind = .semicolon) (hlast : last.kind = .eof) {d : Diagnostic}
    (h : ∀ n c, c.tokens = ts ++ [semi, last] →
      ∃ stop, standard.exprWithin (n + 2) .lowest c = .fail d stop) :
    compileSource file source = .error ⟨.grammar, [d]⟩ := by
  have hflat : Token.Flat (word :: ts) :=
    List.forall_mem_cons.mpr ⟨by rw [hword]; decide, hts⟩
  have htokens := Cursor.tokens_ofTokens_statement file (word :: ts) semi hlast
  obtain ⟨hcurrent, hadvance⟩ := Cursor.advance_of_tokens_eq htokens (by simp)
  rw [← hcurrent] at hword
  obtain ⟨stop, hstmt⟩ := exists_stmt_fail hword fun n => h n _ hadvance
  rw [compileSource_of_scan hscan,
    (Program.ofTokens_flat file hflat hsemi hlast).1 _ _ hstmt]

end

/-! ## The code and its run -/

/-- Whether code that is read back from its text prints a line and comes to its end,
whatever the policy and the input are. -/
def Instr.PrintsLine (code : List Instr) (line : String) : Prop :=
  ∀ policy input, ∃ n m,
    Machine.runFor (Code.ofList (readText (write code))) policy n
      (.start (.ofInput input none)) = .ended m ∧
      m.console.output = (line ++ "\n").toUTF8

namespace Instr

private theorem printsLine_push (n : Int32) :
    PrintsLine [.push (.int n), .print 1] (toString n.toInt) := by
  intro policy input
  have hlegible : ∀ i ∈ [push (.int n), .print 1], i.Legible := by simp [Legible]
  rw [readText_write hlegible]
  refine ⟨3, _, rfl, ?_⟩
  show ByteArray.empty ++ (String.join [toString n.toInt] ++ "\n").toUTF8 = _
  simp [String.join]

private theorem printsLine_negate (n : Int32) :
    PrintsLine [.push (.int n), .negate .int, .print 1] (toString (-n).toInt) := by
  intro policy input
  have hlegible : ∀ i ∈ [push (.int n), .negate .int, .print 1], i.Legible := by
    simp [Legible, Ty.isNumeric]
  rw [readText_write hlegible]
  refine ⟨4, _, rfl, ?_⟩
  show ByteArray.empty ++ (String.join [toString (-n).toInt] ++ "\n").toUTF8 = _
  simp [String.join]

end Instr

namespace Program

variable {p : Program} {n : Int32} {s s' s'' : Span}

private theorem compileChecked_int (h : p.body = [.write [.int n s] s']) :
    p.compileChecked = .ok [.push (.int n), .print 1] := by
  obtain ⟨body, span⟩ := p
  cases h
  rfl

private theorem compileChecked_minus {sign : Token} (hsign : sign.kind = .dash)
    (h : p.body = [.write [.unary sign (.int n s) s'] s'']) :
    p.compileChecked = .ok [.push (.int n), .negate .int, .print 1] := by
  obtain ⟨body, span⟩ := p
  obtain ⟨kind, value, place⟩ := sign
  cases hsign
  cases h
  rfl

end Program

/-! ## From the text to the output -/

/-- What becomes of the text that writes an int: if its digits are within a bound it
prints a line, and if not, it is rejected for its digits. -/
structure WritesInt (file : String) (front digits : List Char) (bound : Nat)
    (line : String) : Prop where
  accepted_iff :
  (∃ code, compileSource file (String.ofList (front ++ (digits ++ [';']))) = .ok code) ↔
    Nat.ofDigitChars 10 digits 0 ≤ bound
  prints :
  ∀ code, compileSource file (String.ofList (front ++ (digits ++ [';']))) = .ok code →
    Instr.PrintsLine code line
  rejected :
  ∀ r, compileSource file (String.ofList (front ++ (digits ++ [';']))) = .error r →
    r = ⟨.grammar,
      [⟨.numberParse (String.ofList digits), (Position.first file).afterAll front⟩]⟩

namespace WritesInt

variable {file line : String} {front digits : List Char} {bound : Nat}
  {code : List Instr}

theorem of_ok (hfits : Nat.ofDigitChars 10 digits 0 ≤ bound)
    (h : compileSource file (String.ofList (front ++ (digits ++ [';']))) = .ok code)
    (hprints : Instr.PrintsLine code line) :
    WritesInt file front digits bound line := by
  constructor <;> rw [h]
  · exact ⟨fun _ => hfits, fun _ => ⟨code, rfl⟩⟩
  · intro code' heq
    cases heq
    exact hprints
  · intro r heq
    cases heq

theorem of_error (hlarge : ¬ Nat.ofDigitChars 10 digits 0 ≤ bound)
    (h : compileSource file (String.ofList (front ++ (digits ++ [';']))) =
      .error ⟨.grammar, [⟨.numberParse (String.ofList digits),
        (Position.first file).afterAll front⟩]⟩) :
    WritesInt file front digits bound line := by
  constructor <;> rw [h]
  · constructor
    · intro haccepted
      obtain ⟨code, hcode⟩ := haccepted
      cases hcode
    · exact fun hfits => absurd hfits hlarge
  · intro code heq
    cases heq
  · intro r heq
    cases heq
    rfl

end WritesInt

section

variable (file : String) {digits : List Char} (hne : digits ≠ [])
  (hdigits : ∀ d ∈ digits, d.isDigit = true)

include hne hdigits

private theorem Token.numeral_ofList {t : Token} (h : t.value = String.ofList digits) :
    t.Numeral ∧ t.number = Nat.ofDigitChars 10 digits 0 := by
  unfold Numeral number
  rw [h, String.toList_ofList]
  exact ⟨fun _ => ⟨hne, hdigits⟩, rfl⟩

/-- Digits without a sign. -/
theorem writesInt_plain :
    WritesInt file "write ".toList digits 2147483647
      (toString (Nat.ofDigitChars 10 digits 0)) := by
  let p := (Position.first file).afterAll "write ".toList
  let t : Token := ⟨.integer, String.ofList digits, ⟨p, p.afterAll digits⟩⟩
  have hlead : ∀ rest, Piece.solid (.first file) ("write ".toList ++ rest) =
      [(.first file, TokenKind.writeWord.lexeme.piece)] ++ Piece.solid p rest :=
        Piece.solid_write (.first file)
  obtain ⟨semi, last, hscan, hsemi, hlast⟩ := Token.scan_digits hlead rfl hne hdigits
  have hts : Token.Flat [t] :=
    Token.flat_singleton (show TokenKind.integer.Flat by decide)
  obtain ⟨hnumeral, hnumber⟩ : t.Numeral ∧ t.number = _ :=
    Token.numeral_ofList hne hdigits rfl
  by_cases hfits : Nat.ofDigitChars 10 digits 0 ≤ 2147483647
  · have hdenotes : t.Denotes (.int (.ofNat t.number) t.span) :=
      .int rfl (hnumber ▸ hfits)
    have hleads : Tier.assignment.Leads [t] (.int (.ofNat t.number) t.span) :=
      .single ((Token.primaryOf_eq_ok_iff hnumeral).mpr hdenotes)
    obtain ⟨program, span, hbody, hcompile⟩ :=
      compileSource_of_write hscan rfl hts hsemi hlast hleads
    rw [Program.compileChecked_int hbody] at hcompile
    have hvalue : toString (Int32.ofNat t.number).toInt =
        toString (Nat.ofDigitChars 10 digits 0) := by
      rw [hnumber, Int32.toInt_ofNat_of_lt (by omega)]
      rfl
    exact .of_ok hfits hcompile (hvalue ▸ Instr.printsLine_push (.ofNat t.number))
  · have hlarge : intOf? t.value = none := by
      rw [Token.intOf?_number hnumeral rfl, hnumber, if_neg hfits]
    apply WritesInt.of_error hfits
    exact compileSource_of_write_fail hscan rfl hts hsemi hlast fun n c hc =>
      ⟨c, exprWithin_large rfl hlarge hc⟩

/-- Digits behind a minus sign, with blanks and comments between the two. -/
theorem writesInt_minus {filler : List Char} (hfiller : Filler filler) :
    WritesInt file ("write -".toList ++ filler) digits 2147483648
      (toString (-(Nat.ofDigitChars 10 digits 0 : Int))) := by
  let start := (Position.first file).afterAll "write ".toList
  let p := (Position.first file).afterAll ("write -".toList ++ filler)
  let sign : Token := ⟨.dash, "-", ⟨start, start.after '-'⟩⟩
  let t : Token := ⟨.integer, String.ofList digits, ⟨p, p.afterAll digits⟩⟩
  have hlead : ∀ rest, Piece.solid (.first file) ("write -".toList ++ filler ++ rest) =
      [(.first file, TokenKind.writeWord.lexeme.piece),
        (start, Piece.single .dash '-')] ++ Piece.solid p rest := by
    intro rest
    show Piece.solid (.first file) ("write ".toList ++ '-' :: (filler ++ rest)) = _
    rw [Piece.solid_write, Piece.solid_minus, Piece.solid_gap
      (hfiller.gap rest), ← Position.afterAll_cons, ← Position.afterAll_append]
    rfl
  obtain ⟨semi, last, hscan, hsemi, hlast⟩ := Token.scan_digits hlead rfl hne hdigits
  have hts : Token.Flat [sign, t] := by
    have hsign : TokenKind.dash.Flat := by decide
    exact List.forall_mem_cons.mpr
      ⟨hsign, Token.flat_singleton (show TokenKind.integer.Flat by decide)⟩
  obtain ⟨hnumeral, hnumber⟩ : t.Numeral ∧ t.number = _ :=
    Token.numeral_ofList hne hdigits rfl
  have hopposite := Token.oppositeOf?_number hnumeral rfl
  rw [hnumber] at hopposite
  rcases Nat.lt_trichotomy (Nat.ofDigitChars 10 digits 0) 2147483648
    with hsmall | hleast | hlarge
  · -- The sign is an instruction.
    rw [if_neg (by omega)] at hopposite
    have hdenotes : t.Denotes (.int (.ofNat t.number) t.span) := .int rfl (by omega)
    have hoperand : Tier.prefixed.Leads [t] (.int (.ofNat t.number) t.span) :=
      .single ((Token.primaryOf_eq_ok_iff hnumeral).mpr hdenotes)
    have hfirst : ∀ u ∈ [t].head?, u.kind = .integer → oppositeOf? u.value = none := by
      intro u hu _
      cases hu
      exact hopposite
    have hleads : Tier.assignment.Leads [sign, t] _ :=
      hoperand.unary (.inl rfl) (List.cons_ne_nil t []) hfirst
    obtain ⟨program, span, hbody, hcompile⟩ :=
      compileSource_of_write hscan rfl hts hsemi hlast hleads
    rw [Program.compileChecked_minus rfl hbody] at hcompile
    have hvalue : (-Int32.ofNat t.number).toInt =
        -(Nat.ofDigitChars 10 digits 0 : Int) := by
      rw [hnumber, Int32.toInt_neg, Int32.toInt_ofNat_of_lt hsmall]
      exact Int.bmod_eq_of_le (by omega) (by omega)
    exact .of_ok (by omega) hcompile
      (hvalue ▸ Instr.printsLine_negate (.ofNat t.number))
  · -- The sign belongs to the literal.
    rw [if_pos hleast] at hopposite
    have hleads : Tier.assignment.Leads [sign, t] _ := .least rfl rfl hopposite
    obtain ⟨program, span, hbody, hcompile⟩ :=
      compileSource_of_write hscan rfl hts hsemi hlast hleads
    rw [Program.compileChecked_int hbody] at hcompile
    have hvalue : Int32.minValue.toInt = -(Nat.ofDigitChars 10 digits 0 : Int) := by
      rw [hleast]; rfl
    exact .of_ok (by omega) hcompile (hvalue ▸ Instr.printsLine_push .minValue)
  · rw [if_neg (by omega)] at hopposite
    have hint : intOf? t.value = none := by
      rw [Token.intOf?_number hnumeral rfl, if_neg (by omega)]
    apply WritesInt.of_error (by omega)
    apply compileSource_of_write_fail hscan rfl hts hsemi hlast
    intro n c hc
    have htokens : c.tokens = sign :: t :: [semi, last] := hc
    refine ⟨c.advance, ?_⟩
    rw [exprWithin_minus_large rfl rfl hint hopposite htokens]

/-- The text that writes an int prints it, whatever zeros it starts with, if its digits
fit; and if they do not, it is rejected for them and for nothing else. Behind a minus
sign one more number fits, and blanks and comments behind the sign make no
difference. -/
theorem compileSource_int :
    WritesInt file "write ".toList digits 2147483647
        (toString (Nat.ofDigitChars 10 digits 0)) ∧
      ∀ filler, Filler filler →
        WritesInt file ("write -".toList ++ filler) digits 2147483648
          (toString (-(Nat.ofDigitChars 10 digits 0 : Int))) :=
  ⟨writesInt_plain file hne hdigits,
    fun _ hfiller => writesInt_minus file hne hdigits hfiller⟩

end

/-- The number that is an int only behind a minus sign, with a zero in front of it and a
comment behind the sign. -/
theorem compileSource_int_past_greatest :
    compileSource "a" "write 02147483648;" =
        .error ⟨.grammar, [⟨.numberParse "02147483648", ⟨6, 1, 6, "a"⟩⟩]⟩ ∧
      ∃ code, compileSource "a" "write - // 1\n02147483648;" = .ok code ∧
        Instr.PrintsLine code "-2147483648" := by
  have hfiller : Filler (' ' :: '/' :: '/' :: ([' ', '1'] ++ ['\n'])) :=
    .blank (by decide) (.comment (by decide) .nil)
  have hdigits : ∀ d ∈ ['0', '2', '1', '4', '7', '4', '8', '3', '6', '4', '8'],
      d.isDigit = true := by simp
  obtain ⟨hplain, hminus⟩ := compileSource_int "a" (List.cons_ne_nil _ _) hdigits
  have hbehind := hminus _ hfiller
  constructor
  · cases hcase : compileSource "a" "write 02147483648;" with
    | ok code => exact absurd (hplain.accepted_iff.mp ⟨code, hcase⟩) (by decide)
    | error r => exact congrArg Except.error (hplain.rejected r hcase)
  · obtain ⟨code, hcode⟩ := hbehind.accepted_iff.mpr (by decide)
    exact ⟨code, hcode, hbehind.prints code hcode⟩

end ScalarLang
