import ScalarLang.Fragment.Expr

/-!
# Code for statements

Statements are laid out one behind the other. Declarations set their variables to the
default of the type whenever they are executed. Choices and loops use labels, numbered
from zero in the order in which they are handed out: a construct takes both of its
labels before any inside it, except that a loop with a first expression takes them
behind that expression.

An emitter threads the types of the variables and the number of labels handed out, and
keeps both, and the code, where it fails.

## Main results

* `Emitter.bind_assoc`: emitters in a row can be regrouped.
-/

namespace ScalarLang

/-- What code already made has used. -/
structure Scope where
  /-- The types of the variables declared. -/
  symbols : Env
  /-- How many labels were handed out. -/
  labels : Nat

/-- Nothing used. -/
def Scope.empty : Scope := ⟨.empty, 0⟩

/-- Code, what it and all code before it have used, and a result or why there is
none. -/
structure Emission (α : Type) where
  code : List Instr
  scope : Scope
  result : Except Diagnostic α

/-- A way to make code behind other code. -/
def Emitter (α : Type) : Type := Scope → Emission α

namespace Emitter

variable {α β γ : Type}

/-- No code. -/
protected def pure (a : α) : Emitter α := fun s => ⟨[], s, .ok a⟩

/-- More code behind that of a first emitter. -/
protected def bind (m : Emitter α) (f : α → Emitter β) : Emitter β := fun s =>
  match m s with
  | ⟨code, scope, .ok a⟩ =>
    let next := f a scope
    ⟨code ++ next.code, next.scope, next.result⟩
  | ⟨code, scope, .error d⟩ => ⟨code, scope, .error d⟩

instance : Monad Emitter where
  pure := Emitter.pure
  bind := Emitter.bind

theorem pure_bind (a : α) (f : α → Emitter β) : (pure a >>= f : Emitter β) = f a := by
  funext s
  show Emitter.bind (Emitter.pure a) f s = f a s
  simp [Emitter.bind, Emitter.pure]

theorem bind_assoc (m : Emitter α) (f : α → Emitter β) (g : β → Emitter γ) :
    (m >>= f >>= g : Emitter γ) = m >>= fun a => f a >>= g := by
  funext s
  show Emitter.bind (Emitter.bind m f) g s =
    Emitter.bind m (fun a => Emitter.bind (f a) g) s
  unfold Emitter.bind
  cases m s with
  | mk code scope result =>
    cases result with
    | error d => rfl
    | ok a =>
      cases h : f a scope with
      | mk code' scope' result' => cases result' <;> simp [h]

/-- Adds instructions. -/
def emit (code : List Instr) : Emitter Unit := fun s => ⟨code, s, .ok ()⟩

/-- Hands out a label. -/
def freshLabel : Emitter Nat :=
  fun s => ⟨[], { s with labels := s.labels + 1 }, .ok s.labels⟩

/-- Adds the code for an expression. -/
def expr (e : Expr) : Emitter Ty := fun s =>
  let fragment := e.emit s.symbols
  ⟨fragment.code, s, fragment.result⟩

/-- The type of a variable. -/
def typeOf (target : Ident) : Emitter Ty := fun s =>
  match s.symbols.find? target.name with
  | some t => ⟨[], s, .ok t⟩
  | none => ⟨[], s, .error ⟨.notDeclared target.name, target.span.start⟩⟩

/-- Declares a variable and sets it to the default of its type. -/
def declare (t : Ty) (target : Ident) : Emitter Unit := fun s =>
  ⟨[.push (.default t), .save target.name],
    { s with symbols := s.symbols.insert target.name t }, .ok ()⟩

/-- Reads a variable. -/
def readInto (target : Ident) : Emitter Unit := do
  let t ← typeOf target
  emit [.read t, .save target.name]

/-- Adds the code for each element of a list. -/
def each (f : α → Emitter Unit) : List α → Emitter Unit
  | [] => pure ()
  | a :: rest => do
    f a
    each f rest

/-- Adds the code for an expression and drops its value. -/
def discarded (e : Expr) : Emitter Unit := do
  let _ ← expr e
  emit [.pop]

/-- Adds the code for an expression for its effect: only the value of an
assignment is dropped. -/
def effect (e : Expr) : Emitter Unit := do
  let _ ← expr e
  if e.kind = .assignment then emit [.pop]

end Emitter

open ScalarLang.Emitter

mutual

/-- The code for a statement. -/
def Stmt.emit : Stmt → Emitter Unit
  | block body _ => Stmt.emitAll body
  | declaration t idents _ => each (declare t) idents
  | read idents _ => each readInto idents
  | write values _ => do
    each (fun e => do let _ ← expr e) values
    Emitter.emit [.print values.length]
  | branch condition consequent alternate _ => do
    let otherwise ← freshLabel
    let done ← freshLabel
    let _ ← expr condition
    Emitter.emit [.jumpUnless otherwise]
    consequent.emit
    Emitter.emit [.jump done, .label otherwise]
    Stmt.emitOption alternate
    Emitter.emit [.label done]
  | whileLoop condition body _ => do
    let again ← freshLabel
    let done ← freshLabel
    Emitter.emit [.label again]
    let _ ← expr condition
    Emitter.emit [.jumpUnless done]
    body.emit
    Emitter.emit [.jump again, .label done]
  | forLoop induction init condition step body _ => do
    match induction with
    | some ⟨t, target⟩ => declare t target
    | none => pure ()
    discarded init
    let again ← freshLabel
    let done ← freshLabel
    Emitter.emit [.label again]
    let _ ← expr condition
    Emitter.emit [.jumpUnless done]
    body.emit
    discarded step
    Emitter.emit [.jump again, .label done]
  | effect value _ => Emitter.effect value

/-- The code for a statement that may be missing. -/
def Stmt.emitOption : Option Stmt → Emitter Unit
  | none => pure ()
  | some s => s.emit

/-- The code for statements in a row. -/
def Stmt.emitAll : List Stmt → Emitter Unit
  | [] => pure ()
  | s :: rest => do
    s.emit
    Stmt.emitAll rest

end

/-- The code for a program, which does not have to be well typed, or why there is
none. -/
def Program.compile (p : Program) : Except Diagnostic (List Instr) :=
  let emission := Stmt.emitAll p.body .empty
  emission.result.map fun _ => emission.code

end ScalarLang
