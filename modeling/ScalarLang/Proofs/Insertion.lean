import ScalarLang.Proofs.Judgement

/-!
# Conversions that are inserted

Whether a left operand has to be converted is known only when the right operand has a
type, and by then there is code for both of them. Code that is one buffer for a whole
program has to be changed in the middle then: the place behind the left operand is
remembered, and the conversion is inserted there (`Expr.write`). Operands do the same
inside, so that a place that was remembered might be out of date when it is used.

It never is. What an operand inserts stands behind the place where its own code starts,
and that is the place remembered for its left neighbour or lies behind it. So a buffer
only grows at its end, by the code that `Expr.emit` puts together from the parts in
order (`Drafting.Adds`).

## Main results

* `Expr.adds_write`: writing an expression adds the code for it at the end of the
  buffer, and nothing else.
* `Expr.write_appends`: what that code is at each operator between operands.
-/

namespace ScalarLang

/-! ## Drafts -/

/-- Code in the making, and what it has used. -/
structure Draft where
  code : List Instr
  scope : Scope

/-- A draft with more code at its end. -/
def Draft.append (d : Draft) (code : List Instr) : Draft :=
  { d with code := d.code ++ code }

@[simp] theorem Draft.append_nil (d : Draft) : d.append [] = d := by
  unfold Draft.append
  rw [List.append_nil]

@[simp] theorem Draft.append_append (d : Draft) (code rest : List Instr) :
    (d.append code).append rest = d.append (code ++ rest) := by
  unfold Draft.append
  rw [List.append_assoc]

/-- A way to go on with a draft, which is kept where there is no going on. -/
abbrev Drafting := ExceptT Diagnostic (StateM Draft)

namespace Drafting

/-- Adds an instruction at the end. -/
def add (i : Instr) : Drafting Unit := modify (·.append [i])

/-- Adds instructions at the end, one after the other. -/
def addAll : List Instr → Drafting Unit
  | [] => pure ()
  | i :: rest => do
    add i
    addAll rest

/-- The place behind all code so far. -/
def boundary : Drafting Nat := do return (← get).code.length

/-- Inserts an instruction in front of what stands at a place. -/
def insertAt (place : Nat) (i : Instr) : Drafting Unit :=
  modify fun d => { d with code := d.code.insertIdx place i }

/-- The type of a variable. -/
def typeOf (name : String) (position : Position) : Drafting Ty := do
  match (← get).scope.symbols.find? name with
  | some t => return t
  | none => throw ⟨.notDeclared name, position⟩

/-- Converts an `int` value for a `float` variable. -/
def widenFor (target value : Ty) : Drafting Unit :=
  if target = .float ∧ value = .int then add .widen else pure ()

/-- Converts the `int` of two operands next to a `float`, the left one at the place
behind it; the type is then that of both. -/
def convert (widen : Bool) (place : Nat) (left right : Ty) : Drafting Ty :=
  match widen, left, right with
  | true, .int, .float => do
    insertAt place .widen
    return .float
  | true, .float, .int => do
    add .widen
    return .float
  | _, _, _ => return left

/-- Writes two operands; a conversion of the left one has to be inserted. -/
def operands (widen : Bool) (left right : Drafting Ty) : Drafting Ty := do
  let l ← left
  let place ← boundary
  let r ← right
  convert widen place l r

/-- Writes the instructions for an operator between operands of a type. -/
def operate (operator : Token) (t : Ty) : Drafting Ty :=
  match operation operator.kind t with
  | some (own, result) => do
    addAll own
    return result
  | none => throw ⟨.malformedTree "binary operator", operator.span.start⟩

end Drafting

/-- Writes the code for an expression behind a draft, and tells the type of the
value that it leaves. -/
def Expr.write : Expr → Drafting Ty
  | int n _ => do
    Drafting.add (.push (.int n))
    return .int
  | float x _ => do
    Drafting.add (.push (.float x))
    return .float
  | bool b _ => do
    Drafting.add (.push (.bool b))
    return .bool
  | string s _ => do
    Drafting.add (.push (.string s))
    return .string
  | symbol name span => do
    let t ← Drafting.typeOf name span.start
    Drafting.add (.load name)
    return t
  | assignment target value _ => do
    let t ← Drafting.typeOf target.name target.span.start
    let u ← value.write
    Drafting.widenFor t u
    Drafting.add (.save target.name)
    Drafting.add (.load target.name)
    return t
  | unary operator operand _ => do
    let t ← operand.write
    Drafting.add (if operator.kind = .not then .not else .negate t)
    return t
  | binary (.level _) operator left right _ => do
    let t ← Drafting.operands (widens operator.kind) left.write right.write
    Drafting.operate operator t
  | binary label _ _ _ span => throw ⟨.malformedTree label.nodeName, span.start⟩

/-! ## What is added to a draft -/

namespace Drafting

variable {α β : Type} {symbols : Env} {code rest : List Instr} {a : α} {e : Diagnostic}

/-- What comes of going on with a draft. -/
def outcome (w : Drafting α) (d : Draft) : Except Diagnostic α × Draft := w.run.run d

/-- Whether going on with any draft that has these symbols adds this code at its end,
and nothing else. -/
def Adds (symbols : Env) (w : Drafting α) (code : List Instr)
    (result : Except Diagnostic α) : Prop :=
  ∀ d : Draft, d.scope.symbols = symbols → w.outcome d = (result, d.append code)

theorem outcome_bind (w : Drafting α) (g : α → Drafting β) (d : Draft) :
    (w >>= g).outcome d =
      match w.outcome d with
      | (.ok a, d') => (g a).outcome d'
      | (.error e, d') => (.error e, d') := by
  unfold outcome
  simp only [ExceptT.run_bind, StateT.run_bind]
  rcases h : StateT.run (ExceptT.run w) d with ⟨r, d'⟩
  cases r <;> rfl

theorem adds_pure : Adds symbols (pure a) [] (.ok a) := by
  intro d _
  rw [Draft.append_nil]
  rfl

private theorem adds_throw : Adds symbols (throw e : Drafting α) [] (.error e) := by
  intro d _
  rw [Draft.append_nil]
  rfl

private theorem adds_add {i : Instr} : Adds symbols (add i) [i] (.ok ()) :=
  fun _ _ => rfl

theorem Adds.bind {w : Drafting α} {g : α → Drafting β} {result : Except Diagnostic β}
    (hw : Adds symbols w code (.ok a)) (hg : Adds symbols (g a) rest result) :
    Adds symbols (w >>= g) (code ++ rest) result := by
  intro d hd
  rw [outcome_bind, hw d hd]
  dsimp only
  rw [hg (d.append code) hd, Draft.append_append]

/-- Nothing is added behind what gives up. -/
theorem Adds.bind_error {w : Drafting α} (hw : Adds symbols w code (.error e))
    (g : α → Drafting β) :
    Adds symbols (w >>= g) code (.error e) := by
  intro d hd
  rw [outcome_bind, hw d hd]

/-- The last of a row only tells a value. -/
theorem Adds.bind_pure {w : Drafting α} {b : β} (hw : Adds symbols w code (.ok a)) :
    Adds symbols (w >>= fun _ => pure b) code (.ok b) := by
  have hrow := hw.bind (g := fun _ => pure b) adds_pure
  rwa [List.append_nil] at hrow

private theorem adds_addAll (code : List Instr) :
    Adds symbols (addAll code) code (.ok ()) := by
  induction code with
  | nil => exact adds_pure
  | cons i rest ih => exact adds_add.bind ih

private theorem adds_typeOf {name : String} {t : Ty} (h : symbols.find? name = some t)
    (position : Position) :
    Adds symbols (typeOf name position) [] (.ok t) := by
  intro d hd
  show (get >>= fun d' : Draft => _ : Drafting Ty).outcome d = _
  rw [outcome_bind]
  show (match d.scope.symbols.find? name
    with | some t => _ | none => _ : Drafting Ty).outcome d = _
  rw [hd, h]
  exact adds_pure d hd

private theorem adds_typeOf_error {name : String} (h : symbols.find? name = none)
    (position : Position) :
    Adds symbols (typeOf name position) [] (.error ⟨.notDeclared name, position⟩) := by
  intro d hd
  show (get >>= fun d' : Draft => _ : Drafting Ty).outcome d = _
  rw [outcome_bind]
  show (match d.scope.symbols.find? name
    with | some t => _ | none => _ : Drafting Ty).outcome d = _
  rw [hd, h]
  exact adds_throw d hd

private theorem adds_widenFor (target value : Ty) :
    Adds symbols (widenFor target value) (widening true value target) (.ok ()) := by
  unfold widenFor widening
  by_cases h : target = .float ∧ value = .int
  · rw [if_pos h, h.1, h.2]
    exact adds_add
  · have hnot : ¬ (true && value = .int && target = .float) = true := by
      simp only [Bool.true_and, Bool.and_eq_true, decide_eq_true_eq]
      exact fun hcase => h hcase.symm
    rw [if_neg h, if_neg hnot]
    exact adds_pure

/-! ### Insertions -/

/-- Inserting behind a front part leaves it where it is. -/
theorem insertIdx_length_append (front back : List Instr) (i : Instr) :
    (front ++ back).insertIdx front.length i = front ++ i :: back := by
  induction front with
  | nil => rfl
  | cons j front ih =>
      show j :: (front ++ back).insertIdx front.length i = _
      rw [ih]
      rfl

/-- At the place where a draft ended, an insertion goes in front of what
was added since. -/
theorem outcome_insertAt (d : Draft) (code : List Instr) (i : Instr) :
    (insertAt d.code.length i).outcome (d.append code) =
      (.ok (), d.append (i :: code)) := by
  show (Except.ok (), Draft.mk ((d.code ++ code).insertIdx d.code.length i) d.scope) = _
  rw [insertIdx_length_append]
  rfl

/-- Behind the left operand of a draft and the code of the right one, a conversion at
the place where the draft ended stands between the operands. -/
theorem outcome_convert (widen : Bool) (d : Draft) (code : List Instr) (l r : Ty) :
    (convert widen d.code.length l r).outcome (d.append code) =
      (.ok (operandType widen l r),
        d.append (widening widen l r ++ code ++ widening widen r l)) := by
  have hkept (t : Ty) : (pure t : Drafting Ty).outcome (d.append code) =
      (.ok t, d.append ([] ++ code ++ [])) := by
    rw [List.append_nil]
    rfl
  cases widen with
  | false => exact hkept l
  | true =>
      cases l with
      | int =>
          cases r with
          | float =>
              show (insertAt d.code.length .widen >>= fun _ =>
                pure Ty.float).outcome _ = _
              rw [outcome_bind, outcome_insertAt]
              show _ = (Except.ok Ty.float, d.append (.widen :: code ++ []))
              rw [List.append_nil]
              rfl
          | int | bool | string => exact hkept .int
      | float =>
          cases r with
          | int =>
              show (Except.ok Ty.float, (d.append code).append [.widen]) = _
              rw [Draft.append_append]
              rfl
          | float | bool | string => exact hkept .float
      | bool | string => cases r <;> exact hkept _

variable {left right : Drafting Ty} {leftCode rightCode : List Instr} {l r : Ty}

private theorem adds_operands (widen : Bool)
    (hleft : Adds symbols left leftCode (.ok l))
    (hright : Adds symbols right rightCode (.ok r)) :
    Adds symbols (operands widen left right)
      (leftCode ++ (widening widen l r ++ rightCode ++ widening widen r l))
        (.ok (operandType widen l r)) := by
  apply hleft.bind
  intro d hd
  -- the place behind the left operand is where the draft ends to which the right
  -- operand is added
  show (right >>= fun r => convert widen d.code.length l r).outcome d = _
  rw [outcome_bind, hright d hd]
  exact outcome_convert widen d rightCode l r

private theorem adds_operands_error (widen : Bool)
    (hleft : Adds symbols left leftCode (.ok l))
    (hright : Adds symbols right rightCode (.error e)) :
    Adds symbols (operands widen left right) (leftCode ++ rightCode) (.error e) := by
  apply hleft.bind
  intro d hd
  show (right >>= fun r => convert widen d.code.length l r).outcome d = _
  rw [outcome_bind, hright d hd]

private theorem adds_operate {operator : Token} {t result : Ty} {own : List Instr}
    (h : operation operator.kind t = some (own, result)) :
    Adds symbols (operate operator t) own (.ok result) := by
  unfold operate
  rw [h]
  exact (adds_addAll own).bind_pure

private theorem adds_operate_error {operator : Token} {t : Ty}
    (h : operation operator.kind t = none) :
    Adds symbols (operate operator t) []
      (.error ⟨.malformedTree "binary operator", operator.span.start⟩) := by
  unfold operate
  rw [h]
  exact adds_throw

end Drafting

/-! ## What is added for an expression -/

namespace Expr

open ScalarLang.Drafting

variable {symbols : Env}

/-- Operands and the operator between them add the code that is put together from that
for the operands. -/
theorem adds_binary (operator : Token) {left right : Drafting Ty} {f g : Fragment}
    (hleft : Adds symbols left f.code f.result)
    (hright : Adds symbols right g.code g.result) :
    Adds symbols (operands (widens operator.kind) left right >>= operate operator)
      (binaryCode operator f g).code (binaryCode operator f g).result := by
  obtain ⟨leftCode, leftResult⟩ := f
  obtain ⟨rightCode, rightResult⟩ := g
  unfold binaryCode Fragment.andThen
  cases leftResult with
  | error d => exact (hleft.bind_error _).bind_error _
  | ok l =>
      cases rightResult with
      | error d =>
          exact (adds_operands_error (widens operator.kind) hleft hright).bind_error _
      | ok r =>
          have hoperands := adds_operands (widens operator.kind) hleft hright
          dsimp only
          cases hown :
            operation operator.kind (operandType (widens operator.kind) l r) with
          | none =>
              have hrow := hoperands.bind (adds_operate_error hown)
              rwa [List.append_nil] at hrow
          | some own =>
              have hrow := hoperands.bind (adds_operate hown)
              rwa [List.append_assoc] at hrow

/-- Writing an expression adds the code for it, as far as there is any. -/
theorem adds_write (symbols : Env) (e : Expr) :
    Adds symbols e.write (e.emit symbols).code (e.emit symbols).result := by
  induction e with
  | int | float | bool | string => exact adds_add.bind_pure
  | symbol name span =>
      unfold write emit Fragment.ofVariable
      cases h : symbols.find? name with
      | none => exact (adds_typeOf_error h _).bind_error _
      | some t => exact (adds_typeOf h _).bind adds_add.bind_pure
  | assignment target value span ih =>
      unfold write emit Fragment.ofVariable Fragment.andThen
      cases h : symbols.find? target.name with
      | none => exact (adds_typeOf_error h _).bind_error _
      | some t =>
          apply (adds_typeOf h _).bind
          cases hvalue : (value.emit symbols).result with
          | error d =>
              rw [hvalue] at ih
              exact ih.bind_error _
          | ok u =>
              rw [hvalue] at ih
              have hstored : Adds symbols (add (.save target.name) >>= fun _ =>
                  add (.load target.name) >>= fun _ => pure t) [.save target.name,
                    .load target.name]
                  (.ok t) := adds_add.bind adds_add.bind_pure
              exact ih.bind ((adds_widenFor t u).bind hstored)
  | unary operator operand span ih =>
      unfold write emit Fragment.andThen
      cases hoperand : (operand.emit symbols).result with
      | error d =>
          rw [hoperand] at ih
          exact ih.bind_error _
      | ok t =>
          rw [hoperand] at ih
          exact ih.bind adds_add.bind_pure
  | binary label operator left right span ihleft ihright =>
      cases label with
      | level l => exact adds_binary operator ihleft ihright
      | literal | symbol | assignment | unary => exact adds_throw

/-- An expression that has code has code for everything inside it. -/
theorem Emits.parts {e : Expr} {code : List Instr} {t : Ty}
    (h : Emits symbols e code t) :
    ∀ part ∈ e.parts, ∃ code u, Emits symbols part code u := by
  refine forall_mem_parts (P := fun e => ∃ code u,
    Emits symbols e code u) ?_ ?_ ?_ ⟨code, t, h⟩
  · rintro _ _ _ ⟨code, u, h⟩
    cases h with
    | literal hv => cases hv
    | assignment _ hvalue => exact ⟨_, _, hvalue⟩
  · rintro _ _ _ ⟨code, u, h⟩
    cases h with
    | literal hv => cases hv
    | unary hoperand => exact ⟨_, _, hoperand⟩
  · rintro _ _ _ _ _ ⟨code, u, h⟩
    cases h with
    | literal hv => cases hv
    | binary hleft hright _ => exact ⟨⟨_, _, hleft⟩, ⟨_, _, hright⟩⟩

/-- What has code is written as this code behind any draft. -/
theorem Emits.adds {e : Expr} {code : List Instr} {t : Ty}
    (h : Emits symbols e code t) :
    Adds symbols e.write code (.ok t) := by
  have hadds := adds_write symbols e
  rwa [h.emit_eq] at hadds

end Expr

/-! ## Where conversions stand -/

/-- The operators between operands that convert an `int` next to a `float`. -/
def TokenKind.mixing : List TokenKind :=
  [plus, dash, star, slash, less, greater, equals, notEquals]

/-- The conversion of an operand of the first type next to one of the second. -/
def conversion (operator : TokenKind) (own other : Ty) : List Instr :=
  if operator ∈ TokenKind.mixing ∧ own = .int ∧ other = .float then [.widen] else []

/-- The type that an operator between operands of these types is told: `float` behind a
conversion, and that of the left operand otherwise. -/
def toldType (operator : TokenKind) (left right : Ty) : Ty :=
  if conversion operator left right = [] ∧
    conversion operator right left = [] then left else .float

/-- The operators that convert are those that stand between operands and take
more than one type. -/
theorem widens_iff_of_operation {operator : TokenKind} {t : Ty}
    (h : (operation operator t).isSome) :
    widens operator = true ↔ operator ∈ TokenKind.mixing := by
  revert h
  cases operator <;> simp [operation, widens, TokenKind.mixing]

private theorem widening_eq_conversion {operator : TokenKind} {t : Ty}
    (h : (operation operator t).isSome) (own other : Ty) :
    widening (widens operator) own other = conversion operator own other := by
  unfold widening conversion
  simp only [Bool.and_eq_true, decide_eq_true_eq, widens_iff_of_operation h, and_assoc]

private theorem operandType_eq_toldType {operator : TokenKind} {t : Ty}
    (h : (operation operator t).isSome) (left right : Ty) :
    operandType (widens operator) left right = toldType operator left right := by
  unfold toldType
  rw [← widening_eq_conversion h, ← widening_eq_conversion h]
  cases widens operator <;> cases left <;> cases right <;> rfl

/-- An expression that is written behind any code leaves that code as it is and adds
code of its own, which depends on the expression and the types of the variables alone;
and so does every expression inside it. At an operator between operands that code is the
code of the left operand, its conversion where one is due, that of the right operand,
its conversion where one is due, and the instructions for the operator. -/
theorem Expr.write_appends {e : Expr} {before after : Draft} {t : Ty}
    (h : e.write.outcome before = (.ok t, after)) :
    after = before.append (e.emit before.scope.symbols).code ∧
      (∀ part ∈ e.parts, ∃ u, Drafting.Adds before.scope.symbols part.write
        (part.emit before.scope.symbols).code (.ok u)) ∧
      ∀ label operator left right span,
        binary label operator left right span ∈ e.parts →
        ∃ l r leftCode rightCode own result,
          Drafting.Adds before.scope.symbols left.write leftCode (.ok l) ∧
          Drafting.Adds before.scope.symbols right.write rightCode (.ok r) ∧
          operation operator.kind (toldType operator.kind l r) = some (own, result) ∧
          Drafting.Adds before.scope.symbols
            (binary label operator left right span).write
            (leftCode ++ conversion operator.kind l r ++ rightCode ++
              conversion operator.kind r l ++ own)
            (.ok result) := by
  have hwrite := adds_write before.scope.symbols e before rfl
  rw [h] at hwrite
  obtain ⟨hresult, rfl⟩ := Prod.mk.inj hwrite
  have hemits : Emits before.scope.symbols e (e.emit before.scope.symbols).code t := by
    apply emits_iff.mp
    rw [hresult]
  refine ⟨rfl, ?_, ?_⟩
  · intro part hpart
    obtain ⟨code, u, hemit⟩ := hemits.parts part hpart
    refine ⟨u, ?_⟩
    rw [hemit.emit_eq]
    exact hemit.adds
  · intro label operator left right span hpart
    obtain ⟨code, u, hemit⟩ := hemits.parts _ hpart
    have hadds := hemit.adds
    cases hemit with
    | literal hv => cases hv
    | @binary _ _ _ _ _ leftCode rightCode own l r _ hleft hright hown =>
        have hsome := Option.isSome_of_eq_some hown
        refine ⟨l, r, leftCode, rightCode, own, u, hleft.adds, hright.adds, ?_, ?_⟩
        · rwa [← operandType_eq_toldType hsome]
        · rw [← widening_eq_conversion hsome, ← widening_eq_conversion hsome]
          simpa only [List.append_assoc] using hadds

/-- A conversion is inserted behind the first operand of `i + i * f`, after one was
inserted inside the second. -/
theorem Expr.write_appends_around_insertion :
    ∃ (e : Expr) (before after : Draft), before.code = [.label 7] ∧
      e.write.outcome before = (.ok .float, after) ∧
      after = before.append (e.emit before.scope.symbols).code ∧
      after.code = [.label 7, .load "i", .widen, .load "i", .widen, .load "f",
        .arith .mul .float, .arith .add .float] := by
  let product : Expr :=
    .binary (.level .multiplication) ⟨.star, "*", default⟩ (.symbol "i" default)
    (.symbol "f" default) default
  let sum : Expr := .binary (.level .addition) ⟨.plus, "+",
    default⟩ (.symbol "i" default) product default
  let before : Draft := ⟨[.label 7], ⟨.ofList [("i", .int), ("f", .float)], 0⟩⟩
  have hwrite : sum.write.outcome before = (.ok .float, _) := rfl
  exact ⟨sum, before, _, rfl, hwrite, (write_appends hwrite).1, rfl⟩

end ScalarLang
