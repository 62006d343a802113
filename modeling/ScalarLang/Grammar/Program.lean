import ScalarLang.Grammar.Handlers
import ScalarLang.Token.Scan

/-!
# Reading programs

The rule tables tie the rules together: what an expression or a statement inside a rule
is, is again looked up by its first token. Along a chain of rules within each other and
operators behind each other every link takes a token, save that a statement may be an
expression and one rule stands for any other. So the chains are no longer than twice the
tokens there are, and a chain that is longer never ends.

A program is read statement by statement. A statement that does not fit is reported
once, and reading resumes behind the next semicolon or closing brace, so that all
statements are heard. A program with reports is not a program.
-/

namespace ScalarLang

open ScalarLang.Parser

namespace Rules

/-! ## Expressions and statements -/

mutual

/-- Reads an expression along a chain of at most this length. -/
def exprWithin (r : Rules) : Nat → ExprParser
  | 0 => fun _ => endless
  | n + 1 => fun power => do
    let token ← current
    match r.starts.find? token.kind with
    | .none => unexpected
    | some rule =>
      let left ← rule.parse (r.exprWithin n)
      r.operatorsWithin n power left

/-- Reads on behind an expression while operators hold more tightly than the context. -/
def operatorsWithin (r : Rules) : Nat → Power → Expr → Parser Expr
  | 0 => fun _ _ => endless
  | n + 1 => fun power left => do
    let token ← current
    match r.joins.find? token.kind with
    | .none => return left
    | some (rule, own) =>
      if own.rank ≤ power.rank then return left
      else
        let joined ← rule.parse (r.exprWithin n) left own
        r.operatorsWithin n power joined

end

/-- Reads a statement along a chain of at most this length. -/
def stmtWithin (r : Rules) : Nat → Parser Stmt
  | 0 => endless
  | n + 1 => do
    let token ← current
    match r.stmts.find? token.kind with
    | some rule => rule.parse (r.exprWithin n) (r.stmtWithin n)
    | .none => readEffect (r.exprWithin n)

/-- A length that no chain exceeds which ends. -/
def chainBound (c : Cursor) : Nat := 2 * c.ahead.length + 8

/-- Reads an expression. -/
def expr (r : Rules) : ExprParser := fun power c => r.exprWithin (chainBound c) power c

/-- Reads a statement. -/
def stmt (r : Rules) : Parser Stmt := fun c => r.stmtWithin (chainBound c) c

/-! ## Programs -/

/-- Statements read one after the other, with the reports of those that did not fit. -/
structure Reading where
  body : List Stmt
  errors : List Diagnostic
  /-- Whether reading came to the end of the tokens. -/
  finished : Bool
  /-- Where reading ended. -/
  stop : Cursor

/-- Reads at most this many statements, resuming behind each one that does not fit. -/
def readStatements (r : Rules) : Nat → Cursor → Reading
  | 0, c => ⟨[], [], false, c⟩
  | n + 1, c =>
    if c.hasTokens then
      match r.stmt c with
      | .ok statement next =>
        let later := r.readStatements n next
        { later with body := statement :: later.body }
      | .fail error stop =>
        let later := r.readStatements n stop.resume
        { later with errors := error :: later.errors }
      | .endless => ⟨[], [], false, c⟩
    else ⟨[], [], true, c⟩

end Rules

namespace Program

/-- Reads all the tokens, statement by statement. -/
def readTokens (file : String) (tokens : List Token) : Rules.Reading :=
  Rules.standard.readStatements (tokens.length + 2) (.ofTokens file tokens)

/-- The program that tokens make, or a diagnostic for every statement that does not
fit. -/
def ofTokens (file : String) (tokens : List Token) : Except (List Diagnostic) Program :=
  let start := (Cursor.ofTokens file tokens).position
  let reading := readTokens file tokens
  if reading.finished && reading.errors.isEmpty then
    .ok ⟨reading.body, ⟨start, reading.stop.position⟩⟩
  else .error reading.errors

/-- The program of a source text, or all that is wrong with its lexemes or else
with its grammar. -/
def ofSource (file source : String) : Except (List Diagnostic) Program := do
  ofTokens file (← Token.scan file source)

end Program

end ScalarLang
