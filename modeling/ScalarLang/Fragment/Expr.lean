import ScalarLang.Instr.Basic
import ScalarLang.Typing

/-!
# Code for expressions

The code for an expression leaves one value on the stack, of the type that goes with the
code. Code is only ever added at the end: the code for a node is that for its operands
in order, then its own, with the conversion of an `int` operand right behind that
operand. Conversions are due between an `int` and a `float`, except for the operators
that take no numbers or only ints.

Both operands of a connective are evaluated. The value of an assignment is loaded again
from the variable it was stored in.

Where code for a tree cannot be made, the code made up to there is kept beside the
report, so that what a session shows after a failure is known.
-/

namespace ScalarLang

/-- Code, and the type of the value it leaves or why there is no more of it. -/
structure Fragment where
  code : List Instr
  result : Except Diagnostic Ty

namespace Fragment

/-- No code, for a reason. -/
def failed (cause : Cause) (position : Position) : Fragment :=
  ⟨[], .error ⟨cause, position⟩⟩

/-- Code that pushes a value. -/
def push (v : Value) : Fragment := ⟨[.push v], .ok v.ty⟩

/-- Further code, in view of the type of the value left so far. -/
def andThen (f : Fragment) (more : Ty → List Instr × Except Diagnostic Ty) : Fragment :=
  match f.result with
  | .error d => ⟨f.code, .error d⟩
  | .ok t =>
    let (code, result) := more t
    ⟨f.code ++ code, result⟩

/-- Code for a variable, by its type. -/
def ofVariable (symbols : Env) (name : String) (position : Position)
    (use : Ty → Fragment) :
    Fragment :=
  match symbols.find? name with
  | none => failed (.notDeclared name) position
  | some t => use t

end Fragment

/-! ## Operators -/

/-- Whether an operator between operands converts an `int` next to a `float`. -/
def widens (operator : TokenKind) : Bool :=
  operator ≠ .dot && operator ≠ .percent && operator ≠ .and && operator ≠ .or

/-- The conversion of a value of the first type next to one of the second,
where one is due. -/
def widening (widen : Bool) (own other : Ty) : List Instr :=
  if widen && own = .int && other = .float then [.widen] else []

/-- The type that both operands have behind their conversions; it is told
by the left one. -/
def operandType (widen : Bool) (left right : Ty) : Ty :=
  if widen && left = .int && right = .float then .float else left

/-- The instructions for an operator on operands of a type, and the type of the
result. -/
def operation (operator : TokenKind) (t : Ty) : Option (List Instr × Ty) :=
  match operator with
  | .plus => some ([.arith .add t], t)
  | .dash => some ([.arith .sub t], t)
  | .star => some ([.arith .mul t], t)
  | .slash => some ([.arith .div t], t)
  | .percent => some ([.mod], .int)
  | .dot => some ([.concat], .string)
  | .less => some ([.order .less t], .bool)
  | .greater => some ([.order .greater t], .bool)
  | .equals => some ([.equal t], .bool)
  | .notEquals => some ([.equal t, .not], .bool)
  | .and => some ([.logic .and], .bool)
  | .or => some ([.logic .or], .bool)
  | _ => none

/-- The instruction for an operator before an operand of a type. -/
def unaryOperation (operator : TokenKind) (t : Ty) : Instr :=
  if operator = .not then .not else .negate t

/-- The code for an operator between operands. -/
def binaryCode (operator : Token) (left right : Fragment) : Fragment :=
  left.andThen fun l =>
    match right.result with
    | .error d => (right.code, .error d)
    | .ok r =>
      let widen := widens operator.kind
      let operands := widening widen l r ++ right.code ++ widening widen r l
      match operation operator.kind (operandType widen l r) with
      | some (code, t) => (operands ++ code, .ok t)
      | none =>
        (operands, .error ⟨.malformedTree "binary operator", operator.span.start⟩)

/-! ## Expressions -/

/-- The code for an expression, with the types of the variables in it. -/
def Expr.emit (symbols : Env) : Expr → Fragment
  | int n _ => .push (.int n)
  | float x _ => .push (.float x)
  | bool b _ => .push (.bool b)
  | string s _ => .push (.string s)
  | symbol name span =>
      .ofVariable symbols name span.start fun t => ⟨[.load name], .ok t⟩
  | assignment target value _ =>
    .ofVariable symbols target.name target.span.start fun t =>
      (value.emit symbols).andThen fun u =>
        (widening true u t ++ [.save target.name, .load target.name], .ok t)
  | unary operator operand _ =>
    (operand.emit symbols).andThen fun t => ([unaryOperation operator.kind t], .ok t)
  | binary (.level _) operator left right _ =>
    binaryCode operator (left.emit symbols) (right.emit symbols)
  | binary label _ _ _ span => .failed (.malformedTree label.nodeName) span.start

end ScalarLang
