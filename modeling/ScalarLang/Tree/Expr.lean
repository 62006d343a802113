import ScalarLang.Token.Basic

/-!
# Expression trees

An expression is a literal, a variable, an assignment, an operator before an operand or
an operator between two. Every node knows the range of the source it was read from.

A node between two operands is labelled with the kind of expression it is meant
as. A tree that was read from text labels such a node with the precedence level of
its operator (`Level.ofOperator?`). A tree that was put together otherwise may
carry any label, and whoever walks trees goes by the label first and reports a
label that does not fit.
-/

namespace ScalarLang

/-- The precedence levels of the operators between two operands. -/
inductive Level where
  | logicOr
  | logicAnd
  | equality
  | comparison
  | addition
  | multiplication
deriving DecidableEq

namespace Level

/-- All levels, loosest first. -/
def all : List Level :=
  [logicOr, logicAnd, equality, comparison, addition, multiplication]

/-- The name of a level. -/
def name : Level → String
  | logicOr => "LogicOr"
  | logicAnd => "LogicAnd"
  | equality => "Equality"
  | comparison => "Comparison"
  | addition => "Addition"
  | multiplication => "Multiplication"

/-- The level of an operator between two operands, `none` for any other token. -/
def ofOperator? : TokenKind → Option Level
  | .or => some logicOr
  | .and => some logicAnd
  | .equals | .notEquals => some equality
  | .less | .greater => some comparison
  | .plus | .dash | .dot => some addition
  | .star | .slash | .percent => some multiplication
  | _ => none

end Level

/-- The kinds of expressions. -/
inductive ExprKind where
  | literal (t : Ty)
  | symbol
  | assignment
  | unary
  | level (l : Level)
deriving DecidableEq

namespace ExprKind

/-- All kinds. -/
def all : List ExprKind :=
  Ty.all.map literal ++ [symbol, assignment, unary] ++ Level.all.map level

/-- The name of a kind. -/
def name : ExprKind → String
  | literal .int => "Int"
  | literal .float => "Float"
  | literal .bool => "Bool"
  | literal .string => "String"
  | symbol => "Symbol"
  | assignment => "Assignment"
  | unary => "Unary"
  | level l => l.name

/-- The kind with a name. -/
def ofName? (name : String) : Option ExprKind := all.find? (·.name == name)

/-- The name of the nodes that expressions of a kind are made of. -/
def nodeName : ExprKind → String
  | literal .int => "IntExpr"
  | literal .float => "FloatExpr"
  | literal .bool => "BoolExpr"
  | literal .string => "StringExpr"
  | symbol => "SymbolExpr"
  | assignment => "AssignmentExpr"
  | unary => "PrefixExpr"
  | level _ => "BinaryExpr"

end ExprKind

/-- A name in a program and where it stands. -/
structure Ident where
  name : String
  span : Span
deriving DecidableEq

/-- Expressions. -/
inductive Expr where
  | int (value : Int32) (span : Span)
  | float (value : Float) (span : Span)
  | bool (value : Bool) (span : Span)
  | string (value : String) (span : Span)
  | symbol (name : String) (span : Span)
  | assignment (target : Ident) (value : Expr) (span : Span)
  | unary (operator : Token) (operand : Expr) (span : Span)
  | binary (label : ExprKind) (operator : Token) (left right : Expr) (span : Span)
deriving DecidableEq

namespace Expr

/-- Where an expression stands. -/
def span : Expr → Span
  | int _ s | float _ s | bool _ s | string _ s | symbol _ s => s
  | assignment _ _ s => s
  | unary _ _ s => s
  | binary _ _ _ _ s => s

/-- Where an expression starts. -/
def start (e : Expr) : Position := e.span.start

/-- The kind that an expression goes by. -/
def kind : Expr → ExprKind
  | int .. => .literal .int
  | float .. => .literal .float
  | bool .. => .literal .bool
  | string .. => .literal .string
  | symbol .. => .symbol
  | assignment .. => .assignment
  | unary .. => .unary
  | binary label .. => label

end Expr

end ScalarLang
