import ScalarLang.Value

/-!
# Stack code

Stack code is a list of instructions for a machine with an operand stack and a store of
variables. Arithmetic and comparison carry the type of their operands, which are of one
type: a conversion is an instruction of its own. Jumps name labels, and a label is an
instruction that does nothing.
-/

namespace ScalarLang

/-- The operations of arithmetic that work on ints as well as on floats. -/
inductive ArithOp where
  | add
  | sub
  | mul
  | div
deriving DecidableEq

/-- The comparisons by order. -/
inductive OrderOp where
  | greater
  | less
deriving DecidableEq

/-- The connectives. Both operands are always evaluated. -/
inductive LogicOp where
  | and
  | or
deriving DecidableEq

/-- The instructions of the machine. -/
inductive Instr where
  /-- Pushes a value. -/
  | push (v : Value)
  /-- Drops the top value, if there is one. -/
  | pop
  /-- Pushes the value of a variable. -/
  | load (name : String)
  /-- Pops a value into a variable. -/
  | save (name : String)
  /-- Pops two numbers of a type and pushes the result. -/
  | arith (op : ArithOp) (t : Ty)
  /-- Pops two ints and pushes the remainder. -/
  | mod
  /-- Pops a number of a type and pushes its opposite. -/
  | negate (t : Ty)
  /-- Pops two values and pushes their printed forms as one text. -/
  | concat
  /-- Pops two bools and pushes the result. -/
  | logic (op : LogicOp)
  /-- Pops a bool and pushes the other one. -/
  | not
  /-- Pops two numbers of a type and pushes how they compare. -/
  | order (op : OrderOp) (t : Ty)
  /-- Pops two values of a type and pushes whether they are equal; for `bool`,
  two of any type. -/
  | equal (t : Ty)
  /-- Pops an int and pushes the float with its value. -/
  | widen
  /-- Pops this many values and prints them on one line. -/
  | print (count : Nat)
  /-- Reads a line of input and pushes the value of a type that it holds. -/
  | read (t : Ty)
  /-- Goes on at a label. -/
  | jump (label : Nat)
  /-- Pops a bool and goes on at a label if it is false. -/
  | jumpUnless (label : Nat)
  /-- Marks a place. -/
  | label (label : Nat)
  /-- Does nothing. -/
  | nop
deriving DecidableEq

namespace Instr

/-- The label that an instruction may go on at. -/
def target? : Instr → Option Nat
  | jump target | jumpUnless target => some target
  | _ => none

/-- The variable that an instruction reads or writes. -/
def store? : Instr → Option String
  | load name | save name => some name
  | _ => none

/-- Whether two instructions do the same, values compared as a program compares them. -/
def same : Instr → Instr → Bool
  | push v, push w => v.same w
  | i, j => i = j

end Instr

end ScalarLang
