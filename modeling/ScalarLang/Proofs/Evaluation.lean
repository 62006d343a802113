import ScalarLang.Machine.Console
import ScalarLang.Typing
import ScalarLang.Value

/-!
# Evaluation by the tree

What a program means is told by its tree: an expression has a value, a statement does
something, and both work on the values of the variables and on the console. This is the
meaning that compiled code has to have, and it knows nothing of stack code.

Operands are evaluated from the left to the right, each one once, those of the
connectives too. An int next to a float, or assigned to a variable of type float, is
converted as soon as it is evaluated. An operator works on values of the type it was
resolved to and fails on others, looking at the right operand first; types are resolved
where the checker resolves them. A variable that was never set reads as the int zero,
whatever its type.

Loops may go on for ever. An evaluation is therefore given fuel, the number of times
that a loop may come to its test, and it stops at a test for which there is none left.
How a program ends is how its evaluation ends with enough fuel, and a program that never
ends runs out of any fuel.
-/

namespace ScalarLang

/-- Why an evaluation fails. -/
inductive Mishap where
  /-- An int is divided by zero. -/
  | zeroDivisor
  /-- An operand has the wrong type. -/
  | mismatch (expected : String) (found : Ty)
  /-- The console failed. -/
  | console (cause : ConsoleFailure)

/-- Why an evaluation stops. -/
inductive Halt where
  | failed (cause : Mishap)
  | outOfFuel

/-- What an evaluation works on. -/
structure State where
  store : Table String Value
  console : Console
  /-- The values that expression statements have left, the last one first. -/
  residue : List Value

/-- The state before a program. -/
def State.start (console : Console) : State := ⟨.empty, console, []⟩

/-- A way to evaluate something, which leaves a state also where it stops. -/
def Evaluator (α : Type) : Type := State → Except Halt α × State

namespace Evaluator

variable {α β γ : Type}

/-- A value without an evaluation. -/
protected def pure (a : α) : Evaluator α := fun s => (.ok a, s)

/-- Goes on behind a first evaluation. -/
protected def bind (ev : Evaluator α) (f : α → Evaluator β) : Evaluator β := fun s =>
  match ev s with
  | (.ok a, s) => f a s
  | (.error halt, s) => (.error halt, s)

instance : Monad Evaluator where
  pure := Evaluator.pure
  bind := Evaluator.bind

theorem pure_bind (a : α) (f : α → Evaluator β) : (pure a >>= f : Evaluator β) = f a :=
  rfl

theorem bind_apply (ev : Evaluator α) (f : α → Evaluator β) (s : State) :
    (ev >>= f) s = match ev s with
      | (.ok a, s) => f a s
      | (.error halt, s) => (.error halt, s) := rfl

theorem bind_pure (ev : Evaluator α) : (ev >>= pure : Evaluator α) = ev := by
  funext s
  rw [bind_apply]
  cases ev s with
  | mk result s' => cases result <;> rfl

theorem bind_assoc (ev : Evaluator α) (f : α → Evaluator β) (g : β → Evaluator γ) :
    (ev >>= f >>= g : Evaluator γ) = ev >>= fun a => f a >>= g := by
  funext s
  simp only [bind_apply]
  cases ev s with
  | mk result s' => cases result <;> rfl

/-- Fails, or gives a value. -/
def ofExcept (r : Except Mishap α) : Evaluator α := fun s => (r.mapError .failed, s)

/-- Stops for want of fuel. -/
def starve : Evaluator α := fun s => (.error .outOfFuel, s)

/-- The value of a variable. -/
def valueOf (name : String) : Evaluator Value := fun s =>
  (.ok ((s.store.find? name).getD (.int 0)), s)

/-- Sets a variable. -/
def assign (name : String) (v : Value) : Evaluator Unit := fun s =>
  (.ok (), { s with store := s.store.insert name v })

/-- Leaves a value for good. -/
def leave (v : Value) : Evaluator Unit :=
  fun s => (.ok (), { s with residue := v :: s.residue })

/-- Prints values in their order on one line. -/
def print (values : List Value) : Evaluator Unit := fun s =>
  match s.console.write (String.join (values.map Value.text) ++ "\n") with
  | (.ok (), console) => (.ok (), { s with console := console })
  | (.error cause, console) =>
      (.error (.failed (.console cause)), { s with console := console })

/-- Reads a value of a type from a line of input. -/
def read (t : Ty) : Evaluator Value := fun s =>
  match s.console.readLine with
  | (.ok line, console) => (.ok (.ofInput t line), { s with console := console })
  | (.error cause, console) =>
      (.error (.failed (.console cause)), { s with console := console })

/-- Goes on while a test holds, which is made at most this many times. -/
def repeatWhile (test : Evaluator Bool) (body : Evaluator Unit) : Nat → Evaluator Unit
  | 0 => starve
  | n + 1 => do
    if ← test then
      body
      repeatWhile test body n
    else pure ()

/-- The value of an assignment is the value that the variable has then. -/
theorem assign_bind_pure (name : String) (v : Value) :
    (assign name v >>= fun _ => pure v : Evaluator Value) = assign name v >>= fun _ =>
      valueOf name := by
  funext s
  simp only [bind_apply, assign, valueOf, Table.find?_insert, if_pos, Option.getD_some]
  rfl

end Evaluator

/-! ## Operators -/

/-- The type that the operands of an operator between numbers have behind
their conversions. -/
def Ty.common (left right : Ty) : Ty :=
  if left = .int ∧ right = .float then .float else left

namespace Value

/-- Asks for a value of a type. -/
def require (t : Ty) (v : Value) : Except Mishap Unit :=
  if v.ty = t then .ok () else .error (.mismatch t.name v.ty)

/-- Asks for a truth value. -/
def asBool : Value → Except Mishap Bool
  | bool b => .ok b
  | v => .error (.mismatch Ty.bool.name v.ty)

/-- A value of one type where one of another is due: an int becomes a float. -/
def convert (own due : Ty) (v : Value) : Except Mishap Value :=
  if own = .int ∧ due = .float then
    match v with
    | int n => .ok (float (Float.ofInt n.toInt))
    | v => .error (.mismatch Ty.int.name v.ty)
  else .ok v

/-- The value of an operator between two ints or two floats. -/
def numeric (onInts : Int32 → Int32 → Except Mishap Value)
    (onFloats : Float → Float → Value) :
    Value → Value → Except Mishap Value
  | int m, int n => onInts m n
  | float x, float y => .ok (onFloats x y)
  | left, _ => .error (.mismatch "int or float" left.ty)

/-- The remainder of two ints. -/
def remainder : Value → Value → Except Mishap Value
  | int m, int n => if n = 0 then .error .zeroDivisor else .ok (int (m % n))
  | left, _ => .error (.mismatch Ty.int.name left.ty)

/-- The value of an operator between two values of one type. -/
def combine (operator : TokenKind) (left right : Value) : Except Mishap Value :=
  match operator with
  | .plus =>
      numeric (fun m n => .ok (int (m + n))) (fun x y => float (x + y)) left right
  | .dash =>
      numeric (fun m n => .ok (int (m - n))) (fun x y => float (x - y)) left right
  | .star =>
      numeric (fun m n => .ok (int (m * n))) (fun x y => float (x * y)) left right
  | .slash =>
    numeric (fun m n => if n = 0 then .error .zeroDivisor else .ok (int (m / n)))
      (fun x y => float (x / y)) left right
  | .percent => remainder left right
  | .less =>
      numeric (fun m n => .ok (bool (m < n))) (fun x y => bool (x < y)) left right
  | .greater =>
      numeric (fun m n => .ok (bool (n < m))) (fun x y => bool (y < x)) left right
  | .equals => .ok (bool (left.same right))
  | _ => .ok (bool (!left.same right))

/-- The value of an operator between two values, with the type of operands it was
resolved to. Texts are joined as they are printed, so that any values will do. -/
def operate (operator : TokenKind) (t : Ty) (left right : Value) :
    Except Mishap Value :=
  match operator with
  | .dot => .ok (.string (left.text ++ right.text))
  | .and => do
    let b ← right.asBool
    let a ← left.asBool
    return .bool (a && b)
  | .or => do
    let b ← right.asBool
    let a ← left.asBool
    return .bool (a || b)
  | operator => do
    right.require t
    left.require t
    combine operator left right

/-- The opposite of a number. -/
def negated : Value → Except Mishap Value
  | int n => .ok (int (-n))
  | float x => .ok (float (-x))
  | v => .error (.mismatch "int or float" v.ty)

/-- The value of an operator before a value, with the type of operand it
was resolved to. -/
def operateUnary (operator : TokenKind) (t : Ty) (v : Value) : Except Mishap Value :=
  if operator = .not then do
    return .bool (!(← v.asBool))
  else do
    v.require t
    v.negated

end Value

/-! ## Expressions -/

open ScalarLang.Evaluator

/-- The type of a variable. -/
def Env.typeOf (env : Env) (name : String) : Ty := (env.find? name).getD .int

/-- The type of an expression. -/
def Expr.typeIn (env : Env) (e : Expr) : Ty := (e.infer env).ty.getD .int

/-- The value of an expression. -/
def Expr.eval (env : Env) : Expr → Evaluator Value
  | int n _ => pure (.int n)
  | float x _ => pure (.float x)
  | bool b _ => pure (.bool b)
  | string s _ => pure (.string s)
  | symbol name _ => valueOf name
  | assignment target value _ => do
    let v ← value.eval env
    let v ← ofExcept (v.convert (value.typeIn env) (env.typeOf target.name))
    assign target.name v
    return v
  | unary operator operand _ => do
    let v ← operand.eval env
    ofExcept (v.operateUnary operator.kind (operand.typeIn env))
  | binary _ operator left right _ => do
    let t := left.typeIn env
    let u := right.typeIn env
    let l ← left.eval env
    let l ← ofExcept (l.convert t u)
    let r ← right.eval env
    let r ← ofExcept (r.convert u t)
    ofExcept (l.operate operator.kind (t.common u) r)

/-- The values of expressions, in their order. -/
def Expr.evalAll (env : Env) : List Expr → Evaluator (List Value)
  | [] => pure []
  | e :: rest => do
    let v ← e.eval env
    let values ← Expr.evalAll env rest
    return v :: values

/-- Whether a condition holds. -/
def Expr.holds (env : Env) (condition : Expr) : Evaluator Bool := do
  let v ← condition.eval env
  ofExcept v.asBool

/-! ## Statements -/

/-- Sets variables to the default of their type. -/
def declareAll (t : Ty) : List Ident → Evaluator Unit
  | [] => pure ()
  | x :: xs => do
    assign x.name (.default t)
    declareAll t xs

/-- Reads variables, each from a line of its own. -/
def readAll (env : Env) : List Ident → Evaluator Unit
  | [] => pure ()
  | x :: xs => do
    let v ← Evaluator.read (env.typeOf x.name)
    assign x.name v
    readAll env xs

mutual

/-- Does what a statement says. -/
def Stmt.exec (fuel : Nat) (env : Env) : Stmt → Evaluator Unit
  | block body _ => Stmt.execAll fuel env body
  | declaration t idents _ => declareAll t idents
  | read idents _ => readAll env idents
  | write values _ => do
    let values ← Expr.evalAll env values
    Evaluator.print values
  | branch condition consequent alternate _ => do
    if ← condition.holds env then consequent.exec fuel env
    else Stmt.execOption fuel (consequent.check env).1 alternate
  | whileLoop condition body _ =>
    repeatWhile (condition.holds env) (body.exec fuel env) fuel
  | forLoop none init condition step body _ => do
    let _ ← init.eval env
    repeatWhile (condition.holds env)
      (do body.exec fuel env; let _ ← step.eval env) fuel
  | forLoop (some ⟨t, target⟩) init condition step body _ => do
    let env := (env.declare t target).1
    declareAll t [target]
    let _ ← init.eval env
    repeatWhile (condition.holds env)
      (do body.exec fuel env; let _ ← step.eval env) fuel
  | effect value _ => do
    let v ← value.eval env
    if value.kind = .assignment then pure () else leave v

/-- Does what a statement says that may be missing. -/
def Stmt.execOption (fuel : Nat) (env : Env) : Option Stmt → Evaluator Unit
  | none => pure ()
  | some s => s.exec fuel env

/-- Does what statements in a row say. -/
def Stmt.execAll (fuel : Nat) (env : Env) : List Stmt → Evaluator Unit
  | [] => pure ()
  | s :: rest => do
    s.exec fuel env
    Stmt.execAll fuel (s.check env).1 rest

end

/-- How the evaluation of a program ends with some fuel. -/
def Program.evaluate (p : Program) (fuel : Nat) (console : Console) :
    Except Halt Unit × State :=
  Stmt.execAll fuel .empty p.body (.start console)

end ScalarLang
