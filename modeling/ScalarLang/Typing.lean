import ScalarLang.Tree.Stmt
import ScalarLang.Table
import ScalarLang.Diagnostic

/-!
# Typing

There is one flat environment for a program. A declaration adds its variables to it in
source order, a use looks them up, and nothing ever leaves it. The only conversion is
from `int` to `float`, in assignments and between operands.

Typing an expression gives its type and what is wrong with it. A violation is reported
once: the expression it is in has no type (`none`), and an expression with a part that
has no type is not looked into any further. An assignment is the exception, as its type
is that of its target even where the value is at fault.

Reports come in the order in which a reader comes to the end of the
expressions they are about.
-/

namespace ScalarLang

/-- The types of the variables declared so far. -/
abbrev Env := Table String Ty

/-- A type, if there is one, and what is wrong. -/
structure Verdict where
  ty : Option Ty
  reports : List Diagnostic

namespace Verdict

/-- A type with nothing wrong. -/
def good (t : Ty) : Verdict := ⟨some t, []⟩

/-- No type, with one more thing wrong behind others. -/
def bad (earlier : List Diagnostic) (cause : Cause) (position : Position) : Verdict :=
  ⟨none, earlier ++ [⟨cause, position⟩]⟩

/-- The verdict of a rule on operands that have types. -/
def ofRule (earlier : List Diagnostic) (position : Position) : Except Cause Ty → Verdict
  | .ok t => ⟨some t, earlier⟩
  | .error cause => bad earlier cause position

end Verdict

/-! ## The rules -/

/-- Whether a variable takes a value. -/
def Ty.takes (target value : Ty) : Bool :=
  value = target || (target = .float && value = .int)

/-- The type of arithmetic between two numeric types. -/
def Ty.join (left right : Ty) : Ty :=
  if left = .float || right = .float then .float else .int

/-- The type of an operator before an operand. -/
def unaryType (operator : Token) (operand : Ty) : Except Cause Ty :=
  if (operator.kind = .dash ∧ operand.isNumeric) ∨
    (operator.kind = .not ∧ operand = .bool) then
    .ok operand
  else .error (.unaryMismatch operator.value operand.name)

/-- The type of an operator between two operands. -/
def binaryType (operator : Token) (left right : Ty) : Except Cause Ty :=
  let numeric := left.isNumeric && right.isNumeric
  let l := left.name
  let r := right.name
  match operator.kind with
  | .dot =>
    if left = .string ∧ right = .string then .ok .string
    else .error (.operatorMismatch operator.value l r)
  | .plus | .dash | .star | .slash =>
    if numeric then .ok (left.join right)
      else .error (.operatorMismatch operator.value l r)
  | .percent =>
    if left = .int ∧ right = .int then .ok .int else .error (.moduloMismatch l r)
  | .less | .greater =>
    if numeric then .ok .bool else .error (.comparisonMismatch operator.value l r)
  | .equals | .notEquals =>
    if left = right ∧ left ≠ .bool then .ok .bool
    else .error (.equalityMismatch operator.value l r)
  | .and | .or =>
    if left = .bool ∧ right = .bool then .ok .bool
    else .error (.logicalMismatch operator.value l r)
  | _ => .error (.operatorMismatch operator.value l r)

/-- The type of the assignment of a value to a variable. -/
def assignmentType (name : String) (target value : Ty) : Except Cause Ty :=
  if target.takes value then .ok target
  else .error (.assignmentMismatch name target.name value.name)

/-! ## Expressions -/

/-- The verdict on a use of a variable. -/
def Env.use (env : Env) (name : String) (position : Position) : Verdict :=
  match env.find? name with
  | some t => .good t
  | none => .bad [] (.notDeclared name) position

/-- The verdict on an expression. -/
def Expr.infer (env : Env) : Expr → Verdict
  | int .. => .good .int
  | float .. => .good .float
  | bool .. => .good .bool
  | string .. => .good .string
  | symbol name span => env.use name span.start
  | assignment target value span =>
    let v := value.infer env
    match env.find? target.name, v.ty with
    | none, _ => .bad v.reports (.notDeclared target.name) span.start
    | some t, none => ⟨some t, v.reports⟩
    | some t, some u => .ofRule v.reports span.start (assignmentType target.name t u)
  | unary operator operand span =>
    let v := operand.infer env
    match v.ty with
    | none => v
    | some t => .ofRule v.reports span.start (unaryType operator t)
  | binary (.level _) operator left right span =>
    let l := left.infer env
    let r := right.infer env
    match l.ty, r.ty with
    | some t, some u =>
        .ofRule (l.reports ++ r.reports) span.start (binaryType operator t u)
    | _, _ => ⟨none, l.reports ++ r.reports⟩
  | binary (.literal t) .. => .good t
  | binary label _ _ _ span => .bad [] (.malformedTree label.nodeName) span.start

/-! ## Statements -/

/-- The environment with a declaration, or a report of the one before it. -/
def Env.declare (env : Env) (t : Ty) (target : Ident) : Env × List Diagnostic :=
  if env.contains target.name then
    (env, [⟨.alreadyDeclared target.name, target.span.start⟩])
  else (env.insert target.name t, [])

/-- The environment with declarations in a row. -/
def Env.declareAll (env : Env) (t : Ty) : List Ident → Env × List Diagnostic
  | [] => (env, [])
  | target :: targets =>
    let (env, reports) := env.declare t target
    let (env, later) := env.declareAll t targets
    (env, reports ++ later)

/-- What is wrong with a condition of a construct. -/
def Expr.checkCondition (env : Env) (construct : String) (condition : Expr) :
    List Diagnostic :=
  let v := condition.infer env
  match v.ty with
  | none | some .bool => v.reports
  | some t => v.reports ++ [⟨.nonBooleanCondition construct t.name, condition.start⟩]

mutual

/-- The environment behind a statement and what is wrong with the statement. -/
def Stmt.check (env : Env) : Stmt → Env × List Diagnostic
  | block body _ => Stmt.checkAll env body
  | declaration t idents _ => env.declareAll t idents
  | read idents _ =>
      (env, idents.flatMap fun x => (env.use x.name x.span.start).reports)
  | write values _ => (env, values.flatMap fun e => (e.infer env).reports)
  | branch condition consequent alternate _ =>
    let reports := condition.checkCondition env "if"
    let (env, inner) := consequent.check env
    let (env, other) := Stmt.checkOption env alternate
    (env, reports ++ inner ++ other)
  | whileLoop condition body _ =>
    let reports := condition.checkCondition env "while"
    let (env, inner) := body.check env
    (env, reports ++ inner)
  | forLoop induction init condition step body _ =>
    let (env, declared) := match induction with
      | none => (env, [])
      | some ⟨t, target⟩ => env.declare t target
    let reports := declared ++ (init.infer env).reports ++
      condition.checkCondition env "for" ++ (step.infer env).reports
    let (env, inner) := body.check env
    (env, reports ++ inner)
  | effect value _ => (env, (value.infer env).reports)

/-- As `Stmt.check`, for a statement that may be missing. -/
def Stmt.checkOption (env : Env) : Option Stmt → Env × List Diagnostic
  | none => (env, [])
  | some s => s.check env

/-- As `Stmt.check`, for statements in a row. -/
def Stmt.checkAll (env : Env) : List Stmt → Env × List Diagnostic
  | [] => (env, [])
  | s :: rest =>
    let (env, reports) := s.check env
    let (env, later) := Stmt.checkAll env rest
    (env, reports ++ later)

end

/-- All that is wrong with the types of a program. -/
def Program.check (p : Program) : List Diagnostic := (Stmt.checkAll .empty p.body).2

end ScalarLang
