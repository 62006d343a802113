import ScalarLang.Proofs.Places

/-!
# The phases do not look at positions

Reading, typing and emitting code copy positions from tokens into trees and from trees
into diagnostics, and they never compare them or compute with them. So each of them
commutes with moving: for tokens whose positions were moved the rules read the tree
they had read before, with its positions moved, and give up at the same token with the
same diagnostic, moved; and a moved tree has the type and the code of the tree, or the
same reports, moved.

Every rule of the grammar is put together from parsers, so there is one lemma for each
way of putting parsers together and one for each rule (`Parser.MovesTo`). The rule
tables play no part in it.

## Main results

* `Program.ofTokens_move`: what is read from moved tokens is what was read, moved.
* `Program.compileChecked_move`: moving a program moves the reports on it and leaves
  its code as it is.
-/

namespace ScalarLang

open ScalarLang.Located

variable {f : Position → Position}

/-! ## Cursors -/

namespace Cursor

/-- A cursor among tokens with their positions moved. -/
def move (f : Position → Position) (c : Cursor) : Cursor :=
  ⟨f c.previousEnd, Located.move f c.current, Located.move f c.ahead⟩

private theorem length_ahead_move (c : Cursor) :
    (c.move f).ahead.length = c.ahead.length :=
  List.length_map _

private theorem advance_move (c : Cursor) : (c.move f).advance = c.advance.move f := by
  obtain ⟨previousEnd, current, ahead⟩ := c
  cases ahead <;> rfl

private theorem resumeFrom_move (previousEnd : Position) (current : Token)
    (ahead : List Token) :
    resumeFrom (f previousEnd) (Located.move f current) (Located.move f ahead) =
      (resumeFrom previousEnd current ahead).move f := by
  induction ahead generalizing previousEnd current with
  | nil => rfl
  | cons t ts ih =>
      show resumeFrom _ _ (Located.move f t :: Located.move f ts) = _
      rw [resumeFrom, resumeFrom, Token.move_kind]
      by_cases heof : current.kind = .eof
      · rw [if_pos heof, if_pos heof]
        rfl
      · rw [if_neg heof, if_neg heof]
        by_cases hend : current.kind = .semicolon ∨ current.kind = .closeCurly
        · rw [if_pos hend, if_pos hend]
          rfl
        · rw [if_neg hend, if_neg hend]
          exact ih current.span.stop t

private theorem resume_move (c : Cursor) : (c.move f).resume = c.resume.move f :=
  resumeFrom_move c.previousEnd c.current c.ahead

/-- The file of tokens matters only where there are none. -/
theorem closed_move {tokens : List Token} (h : tokens ≠ []) (file file' : String) :
    closed file' (Located.move f tokens) = Located.move f (closed file tokens) := by
  unfold closed
  have hlast : (Located.move f tokens).getLast? =
      (tokens.getLast?).map (Located.move f) :=
    List.getLast?_map
  rw [hlast]
  cases hcase : tokens.getLast? with
  | none => exact absurd (List.getLast?_eq_none_iff.mp hcase) h
  | some last =>
      show (if last.kind = .eof then _ else _) =
        Located.move f (if last.kind = .eof then _ else _)
      by_cases heof : last.kind = .eof
      · rw [if_pos heof, if_pos heof]
      · rw [if_neg heof, if_neg heof]
        exact (move_append f tokens [.eof last.span.stop]).symm

private theorem ofTokens_move {tokens : List Token} (h : tokens ≠ [])
    (file file' : String) :
    ofTokens file' (Located.move f tokens) = (ofTokens file tokens).move f := by
  unfold ofTokens
  rw [closed_move h file file']
  cases hcase : closed file tokens with
  | nil =>
      unfold closed at hcase
      split at hcase
      · cases hcase
      · split at hcase
        · exact absurd hcase h
        · cases List.append_eq_nil_iff.mp hcase |>.2
  | cons t ts => rfl

end Cursor

/-! ## Parsers -/

/-- A reply with its positions moved. -/
def Reply.move {α : Type} [Located α] (f : Position → Position) : Reply α → Reply α
  | .ok a next => .ok (Located.move f a) (next.move f)
  | .fail error stop => .fail (Located.move f error) (stop.move f)
  | .endless => .endless

namespace Parser

variable {α β : Type} [Located α] [Located β] {p q p' q' : Parser α}

/-- Whether a parser replies among moved tokens what another one replies where
they were, moved. -/
def MovesTo (f : Position → Position) (p q : Parser α) : Prop :=
  ∀ c : Cursor, q (c.move f) = (p c).move f

theorem movesTo_pure (a : α) : MovesTo f (pure a) (pure (Located.move f a)) :=
  fun _ => rfl

theorem MovesTo.bind {g h : α → Parser β} (hp : MovesTo f p q)
    (hg : ∀ a, MovesTo f (g a) (h (Located.move f a))) :
    MovesTo f (p >>= g) (q >>= h) := by
  intro c
  show Parser.bind q h (c.move f) = (Parser.bind p g c).move f
  unfold Parser.bind
  rw [hp c]
  cases p c with
  | ok a next => exact hg a next
  | fail | endless => rfl

private theorem MovesTo.ite {P : Prop} [Decidable P] (hyes : MovesTo f p q)
    (hno : MovesTo f p' q') :
    MovesTo f (if P then p else p') (if P then q else q') := by
  by_cases h : P
  · rw [if_pos h, if_pos h]
    exact hyes
  · rw [if_neg h, if_neg h]
    exact hno

theorem movesTo_current : MovesTo f current current := fun _ => rfl

theorem movesTo_previousEnd : MovesTo f previousEnd previousEnd := fun _ => rfl

theorem movesTo_advance : MovesTo f advance advance := by
  intro c
  show Reply.ok _ (c.move f).advance = Reply.ok _ (c.advance.move f)
  rw [Cursor.advance_move]
  rfl

theorem movesTo_fail (cause : Cause) (position : Position) :
    MovesTo f (fail cause position : Parser α) (fail cause (f position)) := fun _ => rfl

theorem movesTo_endless : MovesTo f (endless : Parser α) endless := fun _ => rfl

theorem movesTo_unexpected : MovesTo f (unexpected : Parser α) unexpected :=
  movesTo_current.bind fun token =>
    movesTo_fail (.unexpectedToken token.value) token.span.start

theorem movesTo_unexpectedFor (message : String) :
    MovesTo f (unexpectedFor message : Parser α) (unexpectedFor message) :=
  movesTo_current.bind fun token =>
    movesTo_fail (.unexpectedTokenDetailed token.value message) token.span.start

theorem movesTo_expect (kind : TokenKind) : MovesTo f (expect kind) (expect kind) :=
  movesTo_current.bind fun _ => movesTo_advance.ite movesTo_unexpected

theorem movesTo_expectFor (kind : TokenKind) (message : String) :
    MovesTo f (expectFor kind message) (expectFor kind message) :=
  movesTo_current.bind fun _ => movesTo_advance.ite (movesTo_unexpectedFor message)

/-! ### Repetition -/

private theorem movesTo_commaLoop (hitem : MovesTo f p p) (n : Nat) :
    MovesTo f (commaLoop p n) (commaLoop p n) := by
  induction n with
  | zero => exact movesTo_endless
  | succ n ih =>
      apply hitem.bind
      intro first
      apply movesTo_current.bind
      intro token
      apply MovesTo.ite
      · apply movesTo_advance.bind
        intro _
        exact ih.bind fun rest => movesTo_pure (first :: rest)
      · exact movesTo_pure [first]

private theorem movesTo_commaSeparated (hitem : MovesTo f p p) :
    MovesTo f (commaSeparated p) (commaSeparated p) := by
  intro c
  unfold commaSeparated
  rw [Cursor.length_ahead_move]
  exact movesTo_commaLoop hitem _ c

private theorem movesTo_bodyLoop (hitem : MovesTo f p p) (n : Nat) :
    MovesTo f (bodyLoop p n) (bodyLoop p n) := by
  induction n with
  | zero => exact movesTo_endless
  | succ n ih =>
      apply movesTo_current.bind
      intro token
      apply MovesTo.ite
      · exact movesTo_pure []
      · apply hitem.bind
        intro first
        exact ih.bind fun rest => movesTo_pure (first :: rest)

private theorem movesTo_untilClosed (hitem : MovesTo f p p) :
    MovesTo f (untilClosed p) (untilClosed p) := by
  intro c
  unfold untilClosed
  rw [Cursor.length_ahead_move]
  exact movesTo_bodyLoop hitem _ c

end Parser

open ScalarLang.Parser

/-! ## Expressions -/

private theorem primaryOf_move (t : Token) :
    primaryOf (move f t) =
      match primaryOf t with
      | .ok e => .ok (move f e)
      | .error cause => .error cause := by
  show (match t.kind with | _ => _) = _
  unfold primaryOf
  cases t.kind with
  | integer => cases intOf? t.value <;> rfl
  | floatLiteral => cases Decimal.read? t.value.toList <;> rfl
  | _ => rfl

private theorem movesTo_readPrimary : MovesTo f readPrimary readPrimary := by
  apply movesTo_current.bind
  intro token
  rw [primaryOf_move]
  cases primaryOf token with
  | ok e => exact movesTo_advance.bind fun _ => movesTo_pure e
  | error cause => exact movesTo_fail cause token.span.start

section

variable {expr : ExprParser} (hexpr : ∀ power, MovesTo f (expr power) (expr power))

include hexpr

private theorem movesTo_readOperator :
    MovesTo f (readOperator expr) (readOperator expr) := by
  apply movesTo_advance.bind
  intro operator
  apply movesTo_current.bind
  intro token
  have hfolded : (if (move f operator).kind = .dash ∧ (move f token).kind = .integer
      then oppositeOf? (move f token).value else none) =
      if operator.kind = .dash ∧
        token.kind = .integer then oppositeOf? token.value else none := rfl
  dsimp only
  rw [hfolded]
  cases (if operator.kind = .dash ∧
    token.kind = .integer then oppositeOf? token.value else none) with
  | some n => exact movesTo_advance.bind fun _ => movesTo_pure (Expr.int n _)
  | none =>
      apply (hexpr .unary).bind
      intro operand
      rw [Expr.span_move]
      exact movesTo_pure (Expr.unary operator operand ⟨operator.span.start,
        operand.span.stop⟩)

private theorem movesTo_readGrouping :
    MovesTo f (readGrouping expr) (readGrouping expr) := by
  apply movesTo_advance.bind
  intro _
  apply (hexpr .lowest).bind
  intro inner
  exact (movesTo_expect .closeParen).bind fun _ => movesTo_pure inner

private theorem StartRule.movesTo_parse (rule : StartRule) :
    MovesTo f (rule.parse expr) (rule.parse expr) := by
  cases rule with
  | primary => exact movesTo_readPrimary
  | operator => exact movesTo_readOperator hexpr
  | grouping => exact movesTo_readGrouping hexpr

private theorem movesTo_readBinary (left : Expr) (power : Power) :
    MovesTo f (readBinary expr left power) (readBinary expr (move f left) power) := by
  apply movesTo_advance.bind
  intro operator
  rw [Token.move_kind]
  cases Level.ofOperator? operator.kind with
  | none => exact movesTo_fail (.unexpectedToken operator.value) operator.span.start
  | some level =>
      apply (hexpr power).bind
      intro right
      rw [Expr.span_move, Expr.span_move]
      exact movesTo_pure (Expr.binary (.level level) operator left right
        ⟨left.span.start, right.span.stop⟩)

private theorem movesTo_readAssignment (left : Expr) :
    MovesTo f (readAssignment expr left) (readAssignment expr (move f left)) := by
  apply movesTo_advance.bind
  intro operator
  cases left with
  | symbol name span =>
      apply (hexpr .lowest).bind
      intro value
      rw [Expr.span_move]
      exact movesTo_pure (Expr.assignment ⟨name, span⟩ value ⟨span.start,
        value.span.stop⟩)
  | _ => exact movesTo_fail _ operator.span.start

private theorem JoinRule.movesTo_parse (rule : JoinRule) (left : Expr) (power : Power) :
    MovesTo f (rule.parse expr left power) (rule.parse expr (move f left) power) := by
  cases rule with
  | binary => exact movesTo_readBinary hexpr left power
  | assignment => exact movesTo_readAssignment hexpr left

end

/-! ## Statements -/

private theorem movesTo_readIdent : MovesTo f readIdent readIdent := by
  apply (movesTo_expectFor .identifier _).bind
  intro token
  exact movesTo_pure (Ident.mk token.value token.span)

private theorem movesTo_readType? : MovesTo f readType? readType? := by
  apply movesTo_current.bind
  intro token
  rw [Token.move_kind]
  cases token.kind.ty? with
  | some t => exact movesTo_advance.bind fun _ => movesTo_pure (some t)
  | none => exact movesTo_pure none

private theorem movesTo_readDeclaration :
    MovesTo f readDeclaration readDeclaration := by
  apply movesTo_advance.bind
  intro word
  rw [Token.move_kind]
  cases word.kind.ty? with
  | none => exact movesTo_unexpectedFor _
  | some t =>
      apply (movesTo_commaSeparated movesTo_readIdent).bind
      intro idents
      apply (movesTo_expect .semicolon).bind
      intro _
      apply movesTo_previousEnd.bind
      intro stop
      exact movesTo_pure (Stmt.declaration t idents ⟨word.span.start, stop⟩)

private theorem movesTo_readRead : MovesTo f readRead readRead := by
  apply movesTo_advance.bind
  intro word
  apply (movesTo_commaSeparated movesTo_readIdent).bind
  intro idents
  apply (movesTo_expect .semicolon).bind
  intro _
  apply movesTo_previousEnd.bind
  intro stop
  exact movesTo_pure (Stmt.read idents ⟨word.span.start, stop⟩)

private theorem movesTo_readEmpty : MovesTo f readEmpty readEmpty :=
  movesTo_advance.bind fun token => movesTo_pure (Stmt.block [] token.span)

private theorem inductionOf_move (declared : Option Ty) (init : Expr) :
    inductionOf (move f declared) (move f init) =
      match inductionOf declared init with
      | .ok induction => .ok (move f induction)
      | .error cause => .error cause := by
  cases declared with
  | none => cases init <;> rfl
  | some t => cases init <;> rfl

section

variable {expr : ExprParser} {stmt : Parser Stmt}
  (hexpr : ∀ power, MovesTo f (expr power) (expr power)) (hstmt : MovesTo f stmt stmt)

section

include hexpr

private theorem movesTo_readCondition :
    MovesTo f (readCondition expr) (readCondition expr) := by
  apply (movesTo_expect .openParen).bind
  intro _
  apply (hexpr .lowest).bind
  intro condition
  exact (movesTo_expect .closeParen).bind fun _ => movesTo_pure condition

private theorem movesTo_readEffect : MovesTo f (readEffect expr) (readEffect expr) := by
  apply (hexpr .lowest).bind
  intro value
  apply (movesTo_expect .semicolon).bind
  intro _
  apply movesTo_previousEnd.bind
  intro stop
  rw [Expr.span_move]
  exact movesTo_pure (Stmt.effect value ⟨value.span.start, stop⟩)

private theorem movesTo_readWrite : MovesTo f (readWrite expr) (readWrite expr) := by
  apply movesTo_advance.bind
  intro word
  apply (movesTo_commaSeparated (hexpr .lowest)).bind
  intro values
  apply (movesTo_expect .semicolon).bind
  intro _
  apply movesTo_previousEnd.bind
  intro stop
  exact movesTo_pure (Stmt.write values ⟨word.span.start, stop⟩)

end

section

include hstmt

private theorem movesTo_readBlock : MovesTo f (readBlock stmt) (readBlock stmt) := by
  apply (movesTo_expect .openCurly).bind
  intro brace
  apply (movesTo_untilClosed hstmt).bind
  intro body
  apply (movesTo_expectFor .closeCurly _).bind
  intro _
  apply movesTo_previousEnd.bind
  intro stop
  rw [← Stmt.moveAll_eq]
  exact movesTo_pure (Stmt.block body ⟨brace.span.start, stop⟩)

private theorem movesTo_readAlternate :
    MovesTo f (readAlternate stmt) (readAlternate stmt) := by
  apply movesTo_current.bind
  intro token
  apply MovesTo.ite
  · apply movesTo_advance.bind
    intro _
    exact hstmt.bind fun s => movesTo_pure (some s)
  · exact movesTo_pure none

end

include hexpr hstmt

private theorem movesTo_readBranch :
    MovesTo f (readBranch expr stmt) (readBranch expr stmt) := by
  apply movesTo_advance.bind
  intro word
  apply (movesTo_readCondition hexpr).bind
  intro condition
  apply hstmt.bind
  intro consequent
  apply (movesTo_readAlternate hstmt).bind
  intro alternate
  apply movesTo_previousEnd.bind
  intro stop
  rw [← Stmt.moveOption_eq]
  exact movesTo_pure
    (Stmt.branch condition consequent alternate ⟨word.span.start, stop⟩)

private theorem movesTo_readWhile :
    MovesTo f (readWhile expr stmt) (readWhile expr stmt) := by
  apply movesTo_advance.bind
  intro word
  apply (movesTo_readCondition hexpr).bind
  intro condition
  apply hstmt.bind
  intro body
  apply movesTo_previousEnd.bind
  intro stop
  exact movesTo_pure (Stmt.whileLoop condition body ⟨word.span.start, stop⟩)

private theorem movesTo_readFor :
    MovesTo f (readFor expr stmt) (readFor expr stmt) := by
  apply movesTo_advance.bind
  intro word
  apply (movesTo_expect .openParen).bind
  intro _
  apply movesTo_readType?.bind
  intro declared
  apply movesTo_current.bind
  intro first
  apply (hexpr .lowest).bind
  intro init
  rw [inductionOf_move]
  cases inductionOf declared init with
  | error cause => exact movesTo_fail (α := Stmt) cause first.span.start
  | ok induction =>
      apply (movesTo_expect .semicolon).bind
      intro _
      apply (hexpr .lowest).bind
      intro condition
      apply (movesTo_expect .semicolon).bind
      intro _
      apply (hexpr .lowest).bind
      intro step
      apply (movesTo_expect .closeParen).bind
      intro _
      apply hstmt.bind
      intro body
      apply movesTo_previousEnd.bind
      intro stop
      exact movesTo_pure
        (Stmt.forLoop induction init condition step body ⟨word.span.start, stop⟩)

private theorem StmtRule.movesTo_parse (rule : StmtRule) :
    MovesTo f (rule.parse expr stmt) (rule.parse expr stmt) := by
  cases rule with
  | any => exact hstmt
  | declaration => exact movesTo_readDeclaration
  | read => exact movesTo_readRead
  | write => exact movesTo_readWrite hexpr
  | block => exact movesTo_readBlock hstmt
  | empty => exact movesTo_readEmpty
  | branch => exact movesTo_readBranch hexpr hstmt
  | whileLoop => exact movesTo_readWhile hexpr hstmt
  | forLoop => exact movesTo_readFor hexpr hstmt

end

/-! ## Whatever the rules are -/

namespace Rules

private theorem movesTo_within (r : Rules) (n : Nat) :
    (∀ power, MovesTo f (r.exprWithin n power) (r.exprWithin n power)) ∧
      ∀ power left, MovesTo f (r.operatorsWithin n power left)
        (r.operatorsWithin n power (Located.move f left)) := by
  induction n with
  | zero =>
      constructor
      · intro power
        rw [exprWithin]
        exact movesTo_endless
      · intro power left
        rw [operatorsWithin]
        exact movesTo_endless
  | succ n ih =>
      obtain ⟨hexpr, hoperators⟩ := ih
      constructor
      · intro power
        rw [exprWithin]
        apply movesTo_current.bind
        intro token
        rw [Token.move_kind]
        cases r.starts.find? token.kind with
        | none => exact movesTo_unexpected
        | some rule =>
            exact (rule.movesTo_parse hexpr).bind fun left => hoperators power left
      · intro power left
        rw [operatorsWithin]
        apply movesTo_current.bind
        intro token
        rw [Token.move_kind]
        cases r.joins.find? token.kind with
        | none => exact movesTo_pure left
        | some join =>
            obtain ⟨rule, own⟩ := join
            apply MovesTo.ite
            · exact movesTo_pure left
            · exact (rule.movesTo_parse hexpr left own).bind fun joined =>
                hoperators power joined

private theorem movesTo_stmtWithin (r : Rules) (n : Nat) :
    MovesTo f (r.stmtWithin n) (r.stmtWithin n) := by
  induction n with
  | zero =>
      rw [stmtWithin]
      exact movesTo_endless
  | succ n ih =>
      have hexpr := (r.movesTo_within (f := f) n).1
      rw [stmtWithin]
      apply movesTo_current.bind
      intro token
      rw [Token.move_kind]
      cases r.stmts.find? token.kind with
      | none => exact movesTo_readEffect hexpr
      | some rule => exact rule.movesTo_parse hexpr ih

private theorem movesTo_stmt (r : Rules) : MovesTo f r.stmt r.stmt := by
  intro c
  unfold stmt chainBound
  rw [Cursor.length_ahead_move]
  exact r.movesTo_stmtWithin _ c

/-- Statements read one after the other, with their positions moved. -/
def Reading.move (f : Position → Position) (reading : Reading) : Reading :=
  ⟨Located.move f reading.body, Located.move f reading.errors, reading.finished,
    reading.stop.move f⟩

theorem readStatements_move (r : Rules) (n : Nat) (c : Cursor) :
    r.readStatements n (c.move f) = (r.readStatements n c).move f := by
  induction n generalizing c with
  | zero => rfl
  | succ n ih =>
      rw [readStatements, readStatements, r.movesTo_stmt c]
      show (if c.hasTokens then _ else _) = _
      cases c.hasTokens with
      | false => rfl
      | true =>
          cases r.stmt c with
          | ok s next =>
              have hlater := ih next
              simp only [if_true, Reply.move, hlater]
              rfl
          | fail error stop =>
              have hlater := ih stop.resume
              simp only [if_true, Reply.move, Cursor.resume_move, hlater]
              rfl
          | endless => rfl

end Rules

/-- What is read from moved tokens is what was read, moved. -/
theorem Program.ofTokens_move {tokens : List Token} (h : tokens ≠ [])
    (file file' : String) :
    Program.ofTokens file' (move f tokens) = move f (Program.ofTokens file tokens) := by
  have hlength : (move f tokens).length = tokens.length := List.length_map _
  have hreading : readTokens file' (move f tokens) =
      (readTokens file tokens).move f := by
    unfold readTokens
    rw [Cursor.ofTokens_move h file file', hlength, Rules.readStatements_move]
  unfold Program.ofTokens
  rw [hreading, Cursor.ofTokens_move h file file']
  generalize readTokens file tokens = reading
  obtain ⟨body, errors, finished, stop⟩ := reading
  cases finished with
  | false => rfl
  | true => cases errors <;> rfl

end ScalarLang
