import ScalarLang.Grammar.Reply
import ScalarLang.Grammar.Rules
import ScalarLang.Decimal.Reader

/-!
# What the rules read

Every rule is a parser over the parsers for the expressions and statements inside it,
which are parameters here; the tables tie them together elsewhere. So what a rule takes
and in which order it complains can be read off its own definition.

An int literal has to fit 32 bits. The one literal that fits only with a minus sign in
front of it is read together with that sign, as a single literal.
-/

namespace ScalarLang

open ScalarLang.Parser

/-- A parser for expressions that hold together at least as tightly as
their context asks. -/
abbrev ExprParser := Power → Parser Expr

/-! ## Expressions -/

/-- The int that the digits of a token denote, if it fits. -/
def intOf? (value : String) : Option Int32 := Text.readInt32? value.toList

/-- The int that the digits of a token denote behind a minus sign, if it
fits only there. -/
def oppositeOf? (value : String) : Option Int32 :=
  if (intOf? value).isSome then none else Text.readInt32? ('-' :: value.toList)

/-- The literal or variable that a token is. -/
def primaryOf (t : Token) : Except Cause Expr :=
  match t.kind with
  | .integer =>
    match intOf? t.value with
    | some n => .ok (.int n t.span)
    | none => .error (.numberParse t.value)
  | .floatLiteral =>
    match Decimal.read? t.value.toList with
    | some x => .ok (.float x t.span)
    | none => .error (.numberParse t.value)
  | .trueWord => .ok (.bool true t.span)
  | .falseWord => .ok (.bool false t.span)
  | .identifier => .ok (.symbol t.value t.span)
  | .string => .ok (.string t.value t.span)
  | _ => .error (.unexpectedToken t.value)

/-- Reads a literal or a variable. -/
def readPrimary : Parser Expr := do
  let token ← current
  match primaryOf token with
  | .ok e =>
    let _ ← advance
    return e
  | .error cause => fail cause token.span.start

/-- Reads an operator and its operand. -/
def readOperator (expr : ExprParser) : Parser Expr := do
  let operator ← advance
  let token ← current
  let folded := if operator.kind = .dash ∧
    token.kind = .integer then oppositeOf? token.value
    else none
  match folded with
  | some n =>
    let _ ← advance
    return .int n ⟨operator.span.start, token.span.stop⟩
  | none =>
    let operand ← expr .unary
    return .unary operator operand ⟨operator.span.start, operand.span.stop⟩

/-- Reads an expression in parentheses, which leave no trace. -/
def readGrouping (expr : ExprParser) : Parser Expr := do
  let _ ← advance
  let inner ← expr .lowest
  let _ ← expect .closeParen
  return inner

/-- Reads an expression up to its first operator between operands. -/
def StartRule.parse (expr : ExprParser) : StartRule → Parser Expr
  | primary => readPrimary
  | operator => readOperator expr
  | grouping => readGrouping expr

/-- Reads an operator and its right operand. -/
def readBinary (expr : ExprParser) (left : Expr) (power : Power) : Parser Expr := do
  let operator ← advance
  match Level.ofOperator? operator.kind with
  | none => fail (.unexpectedToken operator.value) operator.span.start
  | some level =>
    let right ← expr power
    return .binary (.level level) operator left right ⟨left.span.start, right.span.stop⟩

/-- Reads the value for a variable; values associate to the right. -/
def readAssignment (expr : ExprParser) (left : Expr) : Parser Expr := do
  let operator ← advance
  match left with
  | .symbol name span =>
    let value ← expr .lowest
    return .assignment ⟨name, span⟩ value ⟨span.start, value.span.stop⟩
  | _ =>
    fail (.unexpectedTokenDetailed operator.value
      "left side of an assignment must be a variable")
      operator.span.start

/-- Reads on behind an expression. -/
def JoinRule.parse (expr : ExprParser) : JoinRule → Expr → Power → Parser Expr
  | binary, left, power => readBinary expr left power
  | assignment, left, _ => readAssignment expr left

/-! ## Statements -/

/-- Reads a variable where one has to stand. -/
def readIdent : Parser Ident := do
  let token ← expectFor .identifier "expected identifier"
  return ⟨token.value, token.span⟩

/-- Reads a condition in parentheses. -/
def readCondition (expr : ExprParser) : Parser Expr := do
  let _ ← expect .openParen
  let condition ← expr .lowest
  let _ ← expect .closeParen
  return condition

/-- Reads an expression and its semicolon. -/
def readEffect (expr : ExprParser) : Parser Stmt := do
  let value ← expr .lowest
  let _ ← expect .semicolon
  return .effect value ⟨value.span.start, ← previousEnd⟩

/-- Reads the declaration of variables. -/
def readDeclaration : Parser Stmt := do
  let word ← advance
  match word.kind.ty? with
  | none => unexpectedFor "expected a type"
  | some t =>
    let idents ← commaSeparated readIdent
    let _ ← expect .semicolon
    return .declaration t idents ⟨word.span.start, ← previousEnd⟩

/-- Reads a statement that reads variables. -/
def readRead : Parser Stmt := do
  let word ← advance
  let idents ← commaSeparated readIdent
  let _ ← expect .semicolon
  return .read idents ⟨word.span.start, ← previousEnd⟩

/-- Reads a statement that writes values. -/
def readWrite (expr : ExprParser) : Parser Stmt := do
  let word ← advance
  let values ← commaSeparated (expr .lowest)
  let _ ← expect .semicolon
  return .write values ⟨word.span.start, ← previousEnd⟩

/-- Reads statements in braces. -/
def readBlock (stmt : Parser Stmt) : Parser Stmt := do
  let brace ← expect .openCurly
  let body ← untilClosed stmt
  let _ ← expectFor .closeCurly "expected '\x7d' to close the block"
  return .block body ⟨brace.span.start, ← previousEnd⟩

/-- Reads one token as a block of no statements. -/
def readEmpty : Parser Stmt := do
  let token ← advance
  return .block [] token.span

/-- Reads the alternative of a choice, if there is one. -/
def readAlternate (stmt : Parser Stmt) : Parser (Option Stmt) := do
  let token ← current
  if token.kind = .elseWord then
    let _ ← advance
    return some (← stmt)
  else return none

/-- Reads a choice. An alternative belongs to the nearest choice before it. -/
def readBranch (expr : ExprParser) (stmt : Parser Stmt) : Parser Stmt := do
  let word ← advance
  let condition ← readCondition expr
  let consequent ← stmt
  let alternate ← readAlternate stmt
  return .branch condition consequent alternate ⟨word.span.start, ← previousEnd⟩

/-- Reads a loop with a condition. -/
def readWhile (expr : ExprParser) (stmt : Parser Stmt) : Parser Stmt := do
  let word ← advance
  let condition ← readCondition expr
  let body ← stmt
  return .whileLoop condition body ⟨word.span.start, ← previousEnd⟩

/-- The variable that a loop declares. With a type, its first expression
has to assign one. -/
def inductionOf (declared : Option Ty) (init : Expr) :
    Except Cause (Option Induction) :=
  match declared, init with
  | none, _ => .ok none
  | some t, .assignment target _ _ => .ok (some ⟨t, target⟩)
  | some t, _ =>
    .error (.unexpectedTokenDetailed t.name
      "a typed for loop must initialise its variable")

/-- Reads a type, if one stands here. -/
def readType? : Parser (Option Ty) := do
  let token ← current
  match token.kind.ty? with
  | some t =>
    let _ ← advance
    return some t
  | none => return none

/-- Reads a loop with a first expression, a condition and a step. -/
def readFor (expr : ExprParser) (stmt : Parser Stmt) : Parser Stmt := do
  let word ← advance
  let _ ← expect .openParen
  let declared ← readType?
  let first ← current
  let init ← expr .lowest
  match inductionOf declared init with
  | .error cause => fail cause first.span.start
  | .ok induction =>
    let _ ← expect .semicolon
    let condition ← expr .lowest
    let _ ← expect .semicolon
    let step ← expr .lowest
    let _ ← expect .closeParen
    let body ← stmt
    return .forLoop induction init condition step body ⟨word.span.start, ← previousEnd⟩

/-- Reads a statement by a rule. -/
def StmtRule.parse (expr : ExprParser) (stmt : Parser Stmt) : StmtRule → Parser Stmt
  | any => stmt
  | declaration => readDeclaration
  | read => readRead
  | write => readWrite expr
  | block => readBlock stmt
  | empty => readEmpty
  | branch => readBranch expr stmt
  | whileLoop => readWhile expr stmt
  | forLoop => readFor expr stmt

end ScalarLang
