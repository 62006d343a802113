import ScalarLang.Grammar.Program
import ScalarLang.Proofs.Numerals
import ScalarLang.Proofs.Places

/-!
# Trees as lexemes

A program is written as the lexemes that a text for it would have. An operator or an
assignment is put in parentheses only where the expression around it holds more tightly,
or as tightly and from the other side (`Expr.lexemes`). Statements need no more than
their own lexemes, braces included.

Not every tree can be written so that it is read again, and which ones can is a matter
of their shape (`Stmt.Readable`). A list of variables or of values is not empty. A loop
with a type declares the variable that its first expression assigns. A choice with an
alternative does not have one without in front of it: the alternative would go to that
one (`Stmt.endsOpen`). Of the expressions, those with a negative int other than the
smallest, a negative float or one that is no number, an operator in front that cannot
stand there and a level that is not that of the operator cannot be written.

## Main results

* `Decimal.read?_literal`: the literal for a float is read as the float.
-/

namespace ScalarLang

/-! ## Literals -/

namespace Decimal

/-- The digits for a float with a point among or behind them, and digits on
both sides of it. -/
def literal (x : Float) : String :=
  if magnitude x = 0 then "0.0"
  else
    let n := shortest (magnitude x)
    positional (significantDigits n.digits)
      ((Nat.toDigits 10 n.digits).length + n.exponent)

/-- The literal for a float is read as the float, unless that is negative or no
number. -/
theorem read?_literal {x : Float} (hsign : isNegative x = false)
    (hnan : x ≠ Float.nan) :
    read? (literal x).toList = some x := by
  have hx := ofMagnitude_magnitude x
  rw [hsign] at hx
  have hread : readMagnitude? (literal x).toList = some (magnitude x) := by
    unfold literal
    by_cases hzero : magnitude x = 0
    · rw [if_pos hzero, hzero]
      decide +kernel
    · have hle : magnitude x ≤ infinityBits := by
        apply Nat.le_of_not_lt
        intro hlt
        exact hnan (eq_nan_of_lt hlt)
      rw [if_neg hzero]
      have hdigits := readMagnitude?_positional_digits (shortest (magnitude x))
      rwa [scaled_shortest hle] at hdigits
  exact (read?_sign_append false hread).trans (congrArg some hx)

end Decimal

/-! ## Lexemes of one spelling -/

namespace TokenKind

/-- The spelling of the kinds that have one only. -/
def spelling : TokenKind → String
  | integer | floatLiteral | string | identifier => ""
  | eof => "EOF"
  | openCurly => "\x7b"
  | closeCurly => "\x7d"
  | openParen => "("
  | closeParen => ")"
  | assignment => "="
  | equals => "=="
  | not => "!"
  | notEquals => "!="
  | less => "<"
  | greater => ">"
  | or => "||"
  | and => "&&"
  | dot => "."
  | semicolon => ";"
  | comma => ","
  | plus => "+"
  | dash => "-"
  | slash => "/"
  | star => "*"
  | percent => "%"
  | intType => "int"
  | floatType => "float"
  | boolType => "bool"
  | stringType => "string"
  | trueWord => "true"
  | falseWord => "false"
  | readWord => "read"
  | writeWord => "write"
  | ifWord => "if"
  | elseWord => "else"
  | whileWord => "while"
  | forWord => "for"

/-- The lexeme of a kind with one spelling. -/
def lexeme (k : TokenKind) : Lexeme := (k, k.spelling)

end TokenKind

/-- The word that names a type. -/
def Ty.word : Ty → TokenKind
  | int => .intType
  | float => .floatType
  | bool => .boolType
  | string => .stringType

theorem Ty.ty?_word (t : Ty) : t.word.ty? = some t := by cases t <;> rfl

/-! ## Expressions -/

/-- The power of the operators of a level. -/
def Level.power : Level → Power
  | logicOr => .logicalOr
  | logicAnd => .logicalAnd
  | equality => .equality
  | comparison => .relational
  | addition => .additive
  | multiplication => .multiplicative

/-- How tightly expressions of a kind hold together. -/
def ExprKind.rank : ExprKind → Nat
  | level l => l.power.rank
  | assignment => Power.assignment.rank
  | literal _ | symbol | unary => Power.primary.rank

/-- Lexemes in parentheses, where these are needed. -/
def bracketed (needed : Bool) (ls : List Lexeme) : List Lexeme :=
  if needed then TokenKind.openParen.lexeme ::
    (ls ++ [TokenKind.closeParen.lexeme]) else ls

/-- The lexemes of an int: the sign of a negative one is a lexeme of its own. -/
def intLexemes (n : Int32) : List Lexeme :=
  if n.toInt < 0 then [TokenKind.dash.lexeme, (.integer, toString n.toInt.natAbs)]
  else [(.integer, Text.int32Text n)]

/-- The lexemes of an expression where nothing may stand that holds together less
tightly than this. -/
def Expr.lexemes : Expr → Nat → List Lexeme
  | int n _, _ => intLexemes n
  | float x _, _ => [(.floatLiteral, Decimal.literal x)]
  | bool b _, _ => [(if b then TokenKind.trueWord else TokenKind.falseWord).lexeme]
  | string s _, _ => [(.string, s)]
  | symbol name _, _ => [(.identifier, name)]
  | assignment target value _, least =>
    bracketed (Power.assignment.rank < least)
      ((.identifier, target.name) :: TokenKind.assignment.lexeme ::
        value.lexemes (Power.lowest.rank + 1))
  | unary operator operand _, _ =>
      operator.lexeme :: operand.lexemes (Power.unary.rank + 1)
  | binary label operator left right _, least =>
    bracketed (label.rank < least)
      (left.lexemes label.rank ++ operator.lexeme :: right.lexemes (label.rank + 1))

/-- Whether an expression can be written so that it is read again. -/
def Expr.Readable : Expr → Prop
  | int n _ => 0 ≤ n.toInt ∨ n = Int32.minValue
  | float x _ => Decimal.isNegative x = false ∧ x ≠ Float.nan
  | bool .. | string .. | symbol .. => True
  | assignment _ value _ => value.Readable
  | unary operator operand _ =>
      (operator.kind = .dash ∨ operator.kind = .not) ∧ operand.Readable
  | binary label operator left right _ =>
    (∃ l, label = .level l ∧ Level.ofOperator? operator.kind = some l) ∧
      left.Readable ∧ right.Readable

/-! ## Statements -/

/-- The lexemes of the elements of a list with commas between them. -/
def separated {α : Type} (lexemes : α → List Lexeme) : List α → List Lexeme
  | [] => []
  | [a] => lexemes a
  | a :: b :: rest =>
      lexemes a ++ TokenKind.comma.lexeme :: separated lexemes (b :: rest)

/-- The lexeme of a variable. -/
def Ident.lexemes (x : Ident) : List Lexeme := [(.identifier, x.name)]

/-- The lexemes of an expression in parentheses. -/
def Expr.inParens (e : Expr) : List Lexeme :=
  TokenKind.openParen.lexeme ::
    (e.lexemes (Power.lowest.rank + 1) ++ [TokenKind.closeParen.lexeme])

/-- The lexemes of the type that a loop declares its variable with. -/
def Induction.lexemes (i : Option Induction) : List Lexeme :=
  i.toList.map fun i => i.ty.word.lexeme

namespace Stmt

mutual

/-- The lexemes of a statement. -/
def lexemes : Stmt → List Lexeme
  | block body _ =>
      TokenKind.openCurly.lexeme :: (lexemesAll body ++ [TokenKind.closeCurly.lexeme])
  | declaration t idents _ =>
    t.word.lexeme :: (separated Ident.lexemes idents ++ [TokenKind.semicolon.lexeme])
  | read idents _ =>
    TokenKind.readWord.lexeme ::
      (separated Ident.lexemes idents ++ [TokenKind.semicolon.lexeme])
  | write values _ =>
    TokenKind.writeWord.lexeme ::
      (separated (·.lexemes (Power.lowest.rank + 1)) values ++
      [TokenKind.semicolon.lexeme])
  | branch condition consequent alternate _ =>
    TokenKind.ifWord.lexeme ::
      (condition.inParens ++ (consequent.lexemes ++ lexemesElse alternate))
  | whileLoop condition body _ =>
    TokenKind.whileWord.lexeme :: (condition.inParens ++ body.lexemes)
  | forLoop induction init condition step body _ =>
    TokenKind.forWord.lexeme :: TokenKind.openParen.lexeme ::
      (Induction.lexemes induction ++
      (init.lexemes (Power.lowest.rank + 1) ++ TokenKind.semicolon.lexeme ::
        (condition.lexemes (Power.lowest.rank + 1) ++ TokenKind.semicolon.lexeme ::
          (step.lexemes (Power.lowest.rank + 1) ++ TokenKind.closeParen.lexeme ::
            body.lexemes))))
  | effect e _ => e.lexemes (Power.lowest.rank + 1) ++ [TokenKind.semicolon.lexeme]

/-- The lexemes of the alternative of a choice, if there is one. -/
def lexemesElse : Option Stmt → List Lexeme
  | none => []
  | some s => TokenKind.elseWord.lexeme :: s.lexemes

/-- The lexemes of statements in a row. -/
def lexemesAll : List Stmt → List Lexeme
  | [] => []
  | s :: rest => s.lexemes ++ lexemesAll rest

end

mutual

/-- Whether a statement ends in a choice without an alternative, to which one
behind it would go. -/
def endsOpen : Stmt → Bool
  | branch _ _ alternate _ => endsOpenElse alternate
  | whileLoop _ body _ => body.endsOpen
  | forLoop _ _ _ _ body _ => body.endsOpen
  | _ => false

/-- Whether a choice with this alternative ends in a choice without one. -/
def endsOpenElse : Option Stmt → Bool
  | none => true
  | some s => s.endsOpen

end

mutual

/-- Whether a statement can be written so that it is read again. -/
def Readable : Stmt → Prop
  | block body _ => ReadableAll body
  | declaration _ idents _ => idents ≠ []
  | read idents _ => idents ≠ []
  | write values _ => values ≠ [] ∧ ∀ e ∈ values, e.Readable
  | branch condition consequent alternate _ =>
    condition.Readable ∧ consequent.Readable ∧ ReadableElse alternate ∧
      (alternate.isSome → consequent.endsOpen = false)
  | whileLoop condition body _ => condition.Readable ∧ body.Readable
  | forLoop induction init condition step body _ =>
    (∀ i ∈ induction, ∃ target value span, init = .assignment target value span ∧
      target.name = i.target.name) ∧
      init.Readable ∧ condition.Readable ∧ step.Readable ∧ body.Readable
  | effect e _ => e.Readable

/-- As `Stmt.Readable`, for the alternative of a choice. -/
def ReadableElse : Option Stmt → Prop
  | none => True
  | some s => s.Readable

/-- As `Stmt.Readable`, for statements in a row. -/
def ReadableAll : List Stmt → Prop
  | [] => True
  | s :: rest => s.Readable ∧ ReadableAll rest

end

end Stmt

/-- The lexemes of a program, with the one for the end of the text. -/
def Program.lexemes (p : Program) : List Lexeme :=
  Stmt.lexemesAll p.body ++ [TokenKind.eof.lexeme]

/-- Whether a program can be written so that it is read again. -/
def Program.Readable (p : Program) : Prop := Stmt.ReadableAll p.body

end ScalarLang
