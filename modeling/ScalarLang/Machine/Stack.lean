import ScalarLang.Instr.Basic

/-!
# The operand stack

Instructions take their operands from the top of a stack, the right one first. An
operand may be missing or of another type than the instruction takes; operands taken
before that are gone.

Most instructions take operands and push one value, and nothing else: what they push is
computed here, from the stack alone (`Instr.compute`).
-/

namespace ScalarLang

/-- Why operands do not serve an instruction. -/
inductive OperandFailure where
  /-- There are too few. -/
  | underflow
  /-- One has the wrong type. -/
  | mismatch (expected : String) (found : Ty)
  /-- An int is divided by zero. -/
  | zeroDivisor
deriving DecidableEq

/-- A way to take operands from a stack, of which it leaves the rest
also where it fails. -/
def Taking (α : Type) : Type := List Value → Except OperandFailure α × List Value

namespace Taking

variable {α β : Type}

/-- Takes nothing. -/
protected def pure (a : α) : Taking α := fun stack => (.ok a, stack)

/-- Takes more behind what was taken first. -/
protected def bind (m : Taking α) (f : α → Taking β) : Taking β := fun stack =>
  match m stack with
  | (.ok a, rest) => f a rest
  | (.error e, rest) => (.error e, rest)

instance : Monad Taking where
  pure := Taking.pure
  bind := Taking.bind

/-- Fails. -/
def fail (e : OperandFailure) : Taking α := fun stack => (.error e, stack)

/-- Takes the top value. -/
def any : Taking Value
  | [] => (.error .underflow, [])
  | v :: rest => (.ok v, rest)

/-- Takes the top value, which has to be of a type. -/
def typed (t : Ty) : Taking Value := do
  let v ← any
  if v.ty = t then return v else fail (.mismatch t.name v.ty)

/-- Takes the top value, which has to be a bool. -/
def bool : Taking Bool := do
  match ← any with
  | .bool b => return b
  | v => fail (.mismatch Ty.bool.name v.ty)

/-- Takes the right and then the left operand of a type, and gives the left one
first. -/
def pair (t : Ty) : Taking (Value × Value) := do
  let right ← typed t
  let left ← typed t
  return (left, right)

/-- Fails because of an operand that is no number. -/
def notNumeric (v : Value) : Taking α := fail (.mismatch "int or float" v.ty)

end Taking

/-! ## Operations -/

/-- Arithmetic on ints, which wraps; a quotient is cut towards zero. -/
def ArithOp.onInts : ArithOp → Int32 → Int32 → Option Int32
  | add, m, n => some (m + n)
  | sub, m, n => some (m - n)
  | mul, m, n => some (m * n)
  | div, m, n => if n = 0 then none else some (m / n)

/-- Arithmetic on floats. -/
def ArithOp.onFloats : ArithOp → Float → Float → Float
  | add, x, y => x + y
  | sub, x, y => x - y
  | mul, x, y => x * y
  | div, x, y => x / y

/-- The remainder of ints, with the sign of the dividend. -/
def intRemainder (m n : Int32) : Option Int32 := if n = 0 then none else some (m % n)

/-- The order of ints. -/
def OrderOp.onInts : OrderOp → Int32 → Int32 → Bool
  | greater, m, n => n < m
  | less, m, n => m < n

/-- The order of floats. -/
def OrderOp.onFloats : OrderOp → Float → Float → Bool
  | greater, x, y => y < x
  | less, x, y => x < y

/-- The connectives. -/
def LogicOp.apply : LogicOp → Bool → Bool → Bool
  | and, a, b => a && b
  | or, a, b => a || b

/-- The value of arithmetic on two operands. -/
def arithmetic (onInts : Int32 → Int32 → Option Int32)
    (onFloats : Float → Float → Float) :
    Value × Value → Taking Value
  | (.int m, .int n) =>
    match onInts m n with
    | some k => pure (.int k)
    | none => .fail .zeroDivisor
  | (.float x, .float y) => pure (.float (onFloats x y))
  | (left, _) => .notNumeric left

/-- The value of a comparison of two operands. -/
def comparison (op : OrderOp) : Value × Value → Taking Value
  | (.int m, .int n) => pure (.bool (op.onInts m n))
  | (.float x, .float y) => pure (.bool (op.onFloats x y))
  | (left, _) => .notNumeric left

/-- The opposite of a number. -/
def opposite : Value → Taking Value
  | .int n => pure (.int (-n))
  | .float x => pure (.float (-x))
  | v => .notNumeric v

/-- The float with the value of an int. -/
def widened : Value → Taking Value
  | .int n => pure (.float (Float.ofInt n.toInt))
  | v => .fail (.mismatch Ty.int.name v.ty)

namespace Instr

/-- The value that an instruction pushes for the operands it takes, if
that is all it does. -/
def compute : Instr → Option (Taking Value)
  | push v => some (pure v)
  | arith op t => some do arithmetic op.onInts op.onFloats (← .pair t)
  | mod => some do arithmetic intRemainder (fun x _ => x) (← .pair .int)
  | negate t => some do opposite (← .typed t)
  | concat => some do
    let right ← Taking.any
    let left ← Taking.any
    return .string (left.text ++ right.text)
  | logic op => some do
    let right ← Taking.bool
    let left ← Taking.bool
    return .bool (op.apply left right)
  | not => some do return .bool (!(← Taking.bool))
  | order op t => some do comparison op (← .pair t)
  | equal .bool => some do
    let right ← Taking.any
    let left ← Taking.any
    return .bool (left.same right)
  | equal t => some do
    let (left, right) ← Taking.pair t
    return .bool (left.same right)
  | widen => some do widened (← .typed .int)
  | _ => none

end Instr

end ScalarLang
