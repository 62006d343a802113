import ScalarLang.Tree.Expr

/-!
# Statement trees

A program is a list of statements. Blocks group statements and do nothing else:
variables are global to the program wherever they are declared, and a lone semicolon
is an empty block.
-/

namespace ScalarLang

/-- The variable that a loop declares, with its type. -/
structure Induction where
  ty : Ty
  target : Ident
deriving DecidableEq

/-- Statements. -/
inductive Stmt where
  /-- Statements in a row. -/
  | block (body : List Stmt) (span : Span)
  /-- Variables of a type. -/
  | declaration (ty : Ty) (idents : List Ident) (span : Span)
  /-- Variables that are read from the input, one from each line. -/
  | read (idents : List Ident) (span : Span)
  /-- Values that are written on one line. -/
  | write (values : List Expr) (span : Span)
  /-- A choice, with or without an alternative. -/
  | branch (condition : Expr) (consequent : Stmt)
      (alternate : Option Stmt) (span : Span)
  /-- A loop while a condition holds. -/
  | whileLoop (condition : Expr) (body : Stmt) (span : Span)
  /-- A loop that starts with one expression and goes on with another. -/
  | forLoop (induction : Option Induction) (init condition step : Expr)
      (body : Stmt) (span : Span)
  /-- An expression for its effect. -/
  | effect (value : Expr) (span : Span)

/-- Where a statement stands. -/
def Stmt.span : Stmt → Span
  | block _ s => s
  | declaration _ _ s => s
  | read _ s => s
  | write _ s => s
  | branch _ _ _ s => s
  | whileLoop _ _ s => s
  | forLoop _ _ _ _ _ s => s
  | effect _ s => s

/-- A whole program. -/
structure Program where
  body : List Stmt
  span : Span

end ScalarLang
