import ScalarLang.Tree.Stmt
import ScalarLang.Table

/-!
# Rule tables

How a token is read depends on its kind alone. Three tables say which rule starts an
expression with it, which rule joins it to the operand on its left and how tightly, and
which rule reads a statement that starts with it. A token without a statement rule
starts an expression statement.

The rules are few and have names; the tables that the language uses (`Rules.standard`)
are values like any others. A token that both starts and joins, like the minus sign, has
one entry in each of the two tables, and its power is that of joining.
-/

namespace ScalarLang

/-- How tightly an operator holds its operands. -/
inductive Power where
  | lowest
  | assignment
  | logicalOr
  | logicalAnd
  | equality
  | relational
  | additive
  | multiplicative
  | unary
  | primary
deriving DecidableEq

namespace Power

/-- All powers, loosest first. -/
def all : List Power :=
  [lowest, assignment, logicalOr, logicalAnd, equality, relational, additive,
    multiplicative, unary, primary]

/-- The place of a power among all. -/
def rank : Power → Nat
  | lowest => 0
  | assignment => 1
  | logicalOr => 2
  | logicalAnd => 3
  | equality => 4
  | relational => 5
  | additive => 6
  | multiplicative => 7
  | unary => 8
  | primary => 9

/-- The name of a power. -/
def name : Power → String
  | lowest => "Default"
  | assignment => "Assignment"
  | logicalOr => "LogicalOr"
  | logicalAnd => "LogicalAnd"
  | equality => "Equality"
  | relational => "Relational"
  | additive => "Additive"
  | multiplicative => "Multiplicative"
  | unary => "Unary"
  | primary => "Primary"

/-- The power with a name. -/
def ofName? (name : String) : Option Power := all.find? (·.name == name)

end Power

/-- The ways to start an expression. -/
inductive StartRule where
  /-- A literal or a variable. -/
  | primary
  /-- An operator before its operand. -/
  | operator
  /-- An expression in parentheses. -/
  | grouping
deriving DecidableEq

/-- The ways to go on behind an expression. -/
inductive JoinRule where
  /-- An operator between operands. -/
  | binary
  /-- A value for the variable on the left. -/
  | assignment
deriving DecidableEq

/-- The ways to read a statement. -/
inductive StmtRule where
  /-- Whatever statement the current token starts. -/
  | any
  | declaration
  | read
  | write
  | block
  | empty
  | branch
  | whileLoop
  | forLoop
deriving DecidableEq

/-- The rules for the kinds of tokens. -/
structure Rules where
  starts : Table TokenKind StartRule
  joins : Table TokenKind (JoinRule × Power)
  stmts : Table TokenKind StmtRule

namespace Rules

/-- No rules. -/
def none : Rules := ⟨.empty, .empty, .empty⟩

/-- The rules of the language. -/
def standard : Rules where
  starts := ⟨[(.integer, .primary), (.floatLiteral, .primary), (.string, .primary),
    (.trueWord, .primary), (.falseWord, .primary), (.identifier, .primary),
    (.dash, .operator), (.not, .operator), (.openParen, .grouping)]⟩
  joins := ⟨[(.assignment, (.assignment, .assignment)), (.or, (.binary, .logicalOr)),
    (.and, (.binary, .logicalAnd)), (.equals, (.binary, .equality)),
    (.notEquals, (.binary, .equality)), (.less, (.binary, .relational)),
    (.greater, (.binary, .relational)), (.plus, (.binary, .additive)),
    (.dash, (.binary, .additive)), (.dot, (.binary, .additive)),
    (.star, (.binary, .multiplicative)), (.slash, (.binary, .multiplicative)),
    (.percent, (.binary, .multiplicative))]⟩
  stmts :=
    ⟨[(.intType, .declaration), (.floatType, .declaration), (.boolType, .declaration),
    (.stringType, .declaration), (.readWord, .read), (.writeWord, .write),
    (.openCurly, .block),
    (.semicolon, .empty), (.ifWord, .branch), (.whileWord, .whileLoop),
    (.forWord, .forLoop)]⟩

end Rules

end ScalarLang
