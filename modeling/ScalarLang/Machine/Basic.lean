import ScalarLang.Machine.Console
import ScalarLang.Machine.Stack
import ScalarLang.Instr.Text
import ScalarLang.Table

/-!
# The machine

The machine executes stack code from its first instruction on, each instruction and then
the one behind it, unless a jump goes on at a label. It ends behind the last
instruction. Labels are found before it starts; of several with one number the last
counts. What a jump to a label that is not there does is a matter of policy: it is a
fault, or it is ignored.

A variable that was never stored to reads as the int zero. `print` looks whether there
are enough values before it takes any.

A fault ends the run and leaves the machine as it is then: the operands taken are gone,
the store and the console keep what the instructions before have done.

## Main results

* `runFor_add`: running on is running longer.
-/

namespace ScalarLang

/-- What a jump to a missing label does. -/
structure Policy where
  /-- Whether it is a fault. -/
  strictLabels : Bool
deriving DecidableEq

/-! ## Code -/

/-- Stack code made ready to be executed. -/
structure Code where
  instrs : Array Instr
  /-- The position of each label. -/
  labels : Table Nat Nat

namespace Code

/-- The labels of stack code with their positions, the first of which is given. -/
def labelsFrom (position : Nat) : List Instr → List (Nat × Nat)
  | [] => []
  | .label n :: rest => (n, position) :: labelsFrom (position + 1) rest
  | _ :: rest => labelsFrom (position + 1) rest

/-- The position of each label of stack code; of several with one number,
that of the last. -/
def resolve (instrs : List Instr) : Table Nat Nat := .ofList (labelsFrom 0 instrs)

/-- Makes stack code ready. -/
def ofList (instrs : List Instr) : Code := ⟨instrs.toArray, resolve instrs⟩

end Code

/-! ## Faults -/

/-- Why a run ended early. -/
inductive Fault where
  /-- An instruction has operands that do not serve it. -/
  | operand (cause : OperandFailure) (instr : Instr) (ip : Nat)
  /-- A jump has no label to go to. -/
  | unresolvedLabel (label ip : Nat)
  /-- The console failed. -/
  | console (cause : ConsoleFailure)
deriving DecidableEq

namespace Fault

/-- The name of the kind of fault. -/
def name : Fault → String
  | operand .underflow .. => "StackUnderflow"
  | operand (.mismatch ..) .. => "TypeMismatch"
  | operand .zeroDivisor .. => "DivisionByZero"
  | unresolvedLabel .. => "UnresolvedLabel"
  | console _ => "Io"

/-- The position of the instruction at fault, if it is one. -/
def ip? : Fault → Option Nat
  | operand _ _ ip | unresolvedLabel _ ip => some ip
  | console _ => none

/-- The wording of a fault. -/
def message : Fault → String
  | operand cause instr ip =>
    let place := " executing `" ++ instr.text ++ "` at instruction " ++ toString ip
    match cause with
    | .underflow => "stack underflow" ++ place
    | .zeroDivisor => "division by zero" ++ place
    | .mismatch expected found =>
      "type mismatch" ++ place ++ ": expected " ++ expected ++ ", found " ++ found.name
  | unresolvedLabel label ip => s!"jump to unresolved label {label} at instruction {ip}"
  | console cause => "i/o error: " ++ cause.message

end Fault

/-! ## Steps -/

/-- The state of a run. -/
structure Machine where
  /-- The position of the next instruction. -/
  ip : Nat
  /-- The values on the stack, the top first. -/
  stack : List Value
  store : Table String Value
  console : Console

/-- Where a run stands. -/
inductive Status where
  /-- There are further instructions. -/
  | running (m : Machine)
  /-- The code is at its end. -/
  | ended (m : Machine)
  /-- An instruction failed. -/
  | faulted (m : Machine) (fault : Fault)

namespace Machine

/-- A machine before a run, with nothing but its console. -/
def start (console : Console) : Machine := ⟨0, [], .empty, console⟩

/-- The machine behind an instruction that changed the stack. -/
def next (m : Machine) (stack : List Value) : Machine :=
  { m with ip := m.ip + 1, stack := stack }

/-- Where a run stands when operands did not serve. -/
def operandFault (m : Machine) (instr : Instr) (cause : OperandFailure)
    (stack : List Value) :
    Status :=
  .faulted { m with stack := stack } (.operand cause instr m.ip)

/-- Goes on at a label, or as the policy says. -/
def jump (code : Code) (policy : Policy) (m : Machine) (label : Nat) : Status :=
  match code.labels.find? label with
  | some position => .running { m with ip := position }
  | none =>
    if policy.strictLabels then .faulted m (.unresolvedLabel label m.ip)
    else .running { m with ip := m.ip + 1 }

/-- Prints values, given in their order, behind which the stack is left. -/
def print (m : Machine) (values stack : List Value) : Status :=
  match m.console.write (String.join (values.map Value.text) ++ "\n") with
  | (.ok (), console) => .running ({ m with console := console }.next stack)
  | (.error cause, console) =>
    .faulted { m with console := console, stack := stack } (.console cause)

/-- Reads a value of a type. -/
def read (m : Machine) (t : Ty) : Status :=
  match m.console.readLine with
  | (.ok line, console) =>
    .running ({ m with console := console }.next (.ofInput t line :: m.stack))
  | (.error cause, console) => .faulted { m with console := console } (.console cause)

/-- Executes one instruction. -/
def execute (code : Code) (policy : Policy) (m : Machine) (instr : Instr) : Status :=
  match instr with
  | .pop => .running (m.next m.stack.tail)
  | .load name => .running (m.next ((m.store.find? name).getD (.int 0) :: m.stack))
  | .save name =>
    match Taking.any m.stack with
    | (.ok v, rest) => .running ({ m with store := m.store.insert name v }.next rest)
    | (.error cause, rest) => m.operandFault instr cause rest
  | .print count =>
    if m.stack.length < count then m.operandFault instr .underflow m.stack
    else m.print (m.stack.take count).reverse (m.stack.drop count)
  | .read t => m.read t
  | .jump label => jump code policy m label
  | .jumpUnless label =>
    match Taking.bool m.stack with
    | (.ok true, rest) => .running (m.next rest)
    | (.ok false, rest) => jump code policy { m with stack := rest } label
    | (.error cause, rest) => m.operandFault instr cause rest
  | .label _ | .nop => .running (m.next m.stack)
  | instr =>
    match instr.compute with
    | none => .running (m.next m.stack)
    | some taking =>
      match taking m.stack with
      | (.ok v, rest) => .running (m.next (v :: rest))
      | (.error cause, rest) => m.operandFault instr cause rest

/-- Executes the next instruction, if there is one. -/
def step (code : Code) (policy : Policy) (m : Machine) : Status :=
  match code.instrs[m.ip]? with
  | none => .ended m
  | some instr => execute code policy m instr

/-- Executes at most this many instructions. -/
def runFor (code : Code) (policy : Policy) : Nat → Machine → Status
  | 0, m => .running m
  | n + 1, m =>
    match step code policy m with
    | .running m => runFor code policy n m
    | status => status

theorem runFor_add (code : Code) (policy : Policy) (k n : Nat) (m : Machine) :
    runFor code policy (k + n) m =
      match runFor code policy k m with
      | .running m => runFor code policy n m
      | status => status := by
  induction k generalizing m with
  | zero => simp [runFor]
  | succ k ih =>
    rw [Nat.succ_add]
    simp only [runFor]
    cases step code policy m <;> simp [ih]

end Machine

end ScalarLang
