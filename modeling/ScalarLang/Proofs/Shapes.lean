import ScalarLang.Proofs.Run
import ScalarLang.Proofs.WellTyped

/-!
# The types on the stack

The code of a well-typed program can be typed once more, instruction by instruction:
from the types of the topmost values in front of an instruction follow those behind it
(`Instr.flow`). Nothing is assumed about the values at labels, so one pass over the code
types it however it is reached. A machine whose stack and store have these types goes on
with such types, and all that can fail are a division by zero and the console.

A variable that was never saved reads as an int, whatever its type. Therefore runs are
considered up to the first load of such a variable.

## Main results

* `Layout.exists_shapes`: the code of well-typed statements can be typed.
* `Machine.execute_typed`: a step from values of the right types leads to values of
  the right types.
-/

namespace ScalarLang

open ScalarLang.Instr

/-! ## Typing code -/

namespace Instr

/-- The types of the topmost values behind an instruction, if it takes values of
the types given. -/
def flow (Γ : Env) : Instr → List Ty → Option (List Ty)
  | push v, shape => some (v.ty :: shape)
  | pop, _ :: shape => some shape
  | load x, shape => (Γ.find? x).map (· :: shape)
  | save x, t :: shape => if Γ.find? x = some t then some shape else none
  | arith _ t, u :: v :: shape =>
    if u = t ∧ v = t ∧ t.isNumeric then some (t :: shape) else none
  | mod, .int :: .int :: shape => some (.int :: shape)
  | negate t, u :: shape => if u = t ∧ t.isNumeric then some (t :: shape) else none
  | concat, _ :: _ :: shape => some (.string :: shape)
  | logic _, .bool :: .bool :: shape => some (.bool :: shape)
  | not, .bool :: shape => some (.bool :: shape)
  | order _ t, u :: v :: shape =>
    if u = t ∧ v = t ∧ t.isNumeric then some (.bool :: shape) else none
  | equal t, u :: v :: shape => if u = t ∧ v = t then some (.bool :: shape) else none
  | widen, .int :: shape => some (.float :: shape)
  | print count, shape => if count ≤ shape.length then some (shape.drop count) else none
  | read t, shape => some (t :: shape)
  | jumpUnless _, .bool :: _ => some []
  | jump _, _ | label _, _ => some []
  | nop, shape => some shape
  | _, _ => none

end Instr

/-- The types of the topmost values behind code. -/
def shapes (Γ : Env) (shape : List Ty) (code : List Instr) : Option (List Ty) :=
  code.foldlM (fun shape i => i.flow Γ shape) shape

section

variable {Γ : Env}

@[simp] theorem shapes_nil (shape : List Ty) : shapes Γ shape [] = some shape := rfl

@[simp] theorem shapes_cons (shape : List Ty) (i : Instr) (rest : List Instr) :
    shapes Γ shape (i :: rest) = (i.flow Γ shape).bind fun s => shapes Γ s rest := rfl

theorem shapes_append (shape : List Ty) (front back : List Instr) :
    shapes Γ shape (front ++ back) = (shapes Γ shape front).bind fun s =>
      shapes Γ s back :=
  List.foldlM_append

/-- A conversion that is due where a value meets one of another type makes
their types one. -/
theorem shapes_widening (widen : Bool) (t u : Ty) (shape : List Ty) :
    shapes Γ (t :: shape) (widening widen t u) =
      some (operandType widen t u :: shape) := by
  unfold widening operandType
  split
  · rename_i h
    obtain ⟨⟨-, rfl⟩, -⟩ : (widen = true ∧ t = .int) ∧ u = .float := by simpa using h
    rfl
  · rfl

/-- A value that a variable takes has the type of the variable behind its conversion. -/
theorem operandType_of_takes {t u : Ty} (h : t.takes u = true) :
    operandType true u t = t := by
  cases t <;> cases u <;> simp_all [Ty.takes, operandType]

private theorem shapes_operation {operator : TokenKind} {t u result result' : Ty}
    {own : List Instr} (hrule : Expr.BinaryRule operator t u result)
    (hown : operation operator (operandType (widens operator) t u) =
      some (own, result'))
    (shape : List Ty) :
    shapes Γ (operandType (widens operator) t u ::
      operandType (widens operator) t u :: shape) own =
      some (result' :: shape) := by
  cases hrule with
  | arithmetic hop ht hu =>
      have hnumeric : (operandType (widens operator) t u).isNumeric := by
        unfold operandType
        split
        · rfl
        · exact ht
      rcases hop with rfl | rfl | rfl | rfl <;> simp only [operation] at hown <;>
        obtain ⟨rfl, rfl⟩ := Prod.mk.inj (Option.some.inj hown) <;>
          simp [flow, hnumeric]
  | comparison hop ht hu =>
      have hnumeric : (operandType (widens operator) t u).isNumeric := by
        unfold operandType
        split
        · rfl
        · exact ht
      rcases hop with rfl | rfl <;> simp only [operation] at hown <;>
        obtain ⟨rfl, rfl⟩ := Prod.mk.inj (Option.some.inj hown) <;>
          simp [flow, hnumeric]
  | modulo | concat =>
      simp only [operation] at hown
      obtain ⟨rfl, rfl⟩ := Prod.mk.inj (Option.some.inj hown)
      rfl
  | equality hop | connective hop =>
      rcases hop with rfl | rfl <;> simp only [operation] at hown <;>
        obtain ⟨rfl, rfl⟩ := Prod.mk.inj (Option.some.inj hown) <;>
          simp [flow, operandType, widens]

/-- The code for a well-typed expression leaves a value of its type. -/
theorem Expr.Emits.shapes_eq {symbols : Env} {e : Expr} {code : List Instr} {t : Ty}
    (h : Emits symbols e code t) (ht : HasType symbols e t) (hsub : symbols.Sub Γ)
    (shape : List Ty) : shapes Γ shape code = some (t :: shape) := by
  induction h generalizing shape with
  | literal => rfl
  | symbol hx => simp [flow, hsub _ _ hx]
  | @assignment target value span code t u hx hvalue ih =>
      cases ht with
      | literal hv => simp [literal?] at hv
      | assignment hx' hvalue' htakes =>
          obtain rfl := hvalue.type_eq hvalue'
          rw [shapes_append, ih hvalue', Option.bind_some, shapes_append,
            shapes_widening, operandType_of_takes htakes]
          simp [flow, hsub _ _ hx]
  | @unary operator operand span code t hoperand ih =>
      cases ht with
      | literal hv => simp [literal?] at hv
      | unary hoperand' hrule =>
          obtain rfl := hoperand.type_eq hoperand'
          obtain ⟨hrule, -⟩ := of_ite_eq_ok hrule
          rw [shapes_append, ih hoperand', Option.bind_some]
          rcases hrule with ⟨hop, hnumeric⟩ | ⟨hop, rfl⟩
          · simp [unaryOperation, hop, flow, hnumeric]
          · simp [unaryOperation, hop, flow]
  | binary hleft hright hown ihleft ihright =>
      cases ht with
      | literal hv => simp [literal?] at hv
      | binary hleft' hright' hrule =>
          obtain rfl := hleft.type_eq hleft'
          obtain rfl := hright.type_eq hright'
          have hrule' := binaryRule_of_binaryType hrule
          rw [shapes_append, ihleft hleft', Option.bind_some, shapes_append,
            shapes_append, shapes_append, shapes_widening, Option.bind_some,
            ihright hright', Option.bind_some, shapes_widening,
            hrule'.operandType_comm, Option.bind_some, shapes_operation hrule' hown]

private theorem Expr.EmitsAll.exists_shapes {symbols : Env} {values : List Expr}
    {code : List Instr} (h : EmitsAll symbols values code)
    (hvalues : ∀ e ∈ values, ∃ t, HasType symbols e t) (hsub : symbols.Sub Γ)
    (shape : List Ty) :
    ∃ ts, ts.length = values.length ∧ shapes Γ shape code = some (ts ++ shape) := by
  induction h generalizing shape with
  | nil => exact ⟨[], rfl, rfl⟩
  | @cons e rest front back t he _ ih =>
      obtain ⟨u, hu⟩ := hvalues e List.mem_cons_self
      obtain rfl := he.type_eq hu
      obtain ⟨ts, hlength, hts⟩ :=
        ih (fun e he => hvalues e (List.mem_cons_of_mem _ he)) (u :: shape)
      refine ⟨ts ++ [u], by simp [hlength], ?_⟩
      rw [shapes_append, he.shapes_eq hu hsub, Option.bind_some, hts]
      simp

/-- The code of well-typed statements can be typed. -/
theorem Layout.exists_shapes {σ τ : Scope} {ss : List Stmt} {code : List Instr}
    (h : Layout σ ss code τ) (hwt : Stmt.WellTyped σ.symbols ss τ.symbols)
    (hsub : τ.symbols.Sub Γ) (shape : List Ty) :
    ∃ shape', shapes Γ shape code = some shape' := by
  induction h generalizing shape with
  | nil => exact ⟨shape, rfl⟩
  | cons hlayout _ ihs ihrest =>
      cases hwt with
      | cons hs hrest =>
          obtain rfl := hlayout.symbols_eq hs
          obtain ⟨s₁, h₁⟩ := ihs hs (hrest.sub.trans hsub) shape
          obtain ⟨s₂, h₂⟩ := ihrest hrest hsub s₁
          exact ⟨s₂, by rw [shapes_append, h₁, Option.bind_some, h₂]⟩
  | block _ ih =>
      cases hwt with
      | block hbody => exact ih hbody hsub shape
  | declareNone | readNone => exact ⟨shape, rfl⟩
  | @declare σ τ t x xs span code _ ih =>
      cases hwt with
      | declare hx hxs =>
          have hΓ : Γ.find? x.name = some t :=
            hsub _ _ (hxs.sub _ _ (by rw [Table.find?_insert, if_pos rfl]))
          obtain ⟨s₁, h₁⟩ := ih hxs hsub shape
          exact ⟨s₁, by simpa [flow, hΓ] using h₁⟩
  | read ht hxs ih =>
      obtain ⟨rfl, -⟩ := hxs.read_eq
      obtain ⟨s₁, h₁⟩ := ih .read hsub shape
      exact ⟨s₁, by simpa [flow, hsub _ _ ht] using h₁⟩
  | write hvalues =>
      cases hwt with
      | write hts =>
          obtain ⟨ts, hlength, h₁⟩ := hvalues.exists_shapes hts hsub shape
          exact ⟨shape, by simp [shapes_append, h₁, flow, ← hlength]⟩
  | branch htest hconsequent _ iha ihb =>
      cases hwt with
      | branch htest' ha hb =>
          obtain rfl := hconsequent.symbols_eq ha
          obtain rfl := htest.type_eq htest'
          obtain ⟨s₁, h₁⟩ := iha ha (hb.sub.trans hsub) []
          obtain ⟨s₂, h₂⟩ := ihb hb hsub []
          have htests := htest.shapes_eq htest' ((ha.sub.trans hb.sub).trans hsub) shape
          exact ⟨[], by simp [branchCode, shapes_append, htests, h₁, h₂, flow]⟩
  | whileLoop htest _ ih =>
      cases hwt with
      | whileLoop htest' hbody =>
          obtain rfl := htest.type_eq htest'
          obtain ⟨s₁, h₁⟩ := ih hbody hsub []
          have htests := htest.shapes_eq htest' (hbody.sub.trans hsub) []
          exact ⟨[], by simp [loopCode, shapes_append, htests, h₁, flow]⟩
  | forLoop hfront hinit htest hbody hstep ihfront ihbody =>
      cases hwt with
      | forLoop hfront' hinit' htest' hstep' hbody' =>
          obtain rfl := hfront.symbols_eq hfront'
          obtain rfl := hinit.type_eq hinit'
          obtain rfl := htest.type_eq htest'
          have hweak := hstep'.weaken hbody'.sub
          obtain rfl := hstep.type_eq hweak
          have hsub' := hbody'.sub.trans hsub
          obtain ⟨s₁, h₁⟩ := ihfront hfront' hsub' shape
          obtain ⟨s₂, h₂⟩ := ihbody hbody' hsub []
          have h₃ := hinit.shapes_eq hinit' hsub' s₁
          have h₄ := htest.shapes_eq htest' hsub' []
          have h₅ := hstep.shapes_eq hweak hsub s₂
          exact ⟨[], by simp [loopCode, shapes_append, h₁, h₂, h₃, h₄, h₅, flow]⟩
  | assign _ he =>
      cases hwt with
      | effect ht =>
          obtain rfl := he.type_eq ht
          exact ⟨shape, by simp [shapes_append, he.shapes_eq ht hsub, flow]⟩
  | leave _ he =>
      cases hwt with
      | effect ht =>
          obtain rfl := he.type_eq ht
          exact ⟨_, he.shapes_eq ht hsub shape⟩

end

/-! ## Typed machines -/

/-- A fault that a well-typed program can come to: a division of ints by zero, or
one of the console. -/
inductive Fault.Tolerable : Fault → Prop where
  | division {ip : Nat} : Tolerable (.operand .zeroDivisor (.arith .div .int) ip)
  | modulo {ip : Nat} : Tolerable (.operand .zeroDivisor .mod ip)
  | console {cause : ConsoleFailure} : Tolerable (.console cause)

/-- Whether each variable with a value has one of its type. -/
def StoreTyped (Γ : Env) (store : Table String Value) : Prop :=
  ∀ x v, store.find? x = some v → Γ.find? x = some v.ty

private theorem StoreTyped.insert {Γ : Env} {store : Table String Value}
    (h : StoreTyped Γ store) {x : String} {v : Value} (hx : Γ.find? x = some v.ty) :
    StoreTyped Γ (store.insert x v) := by
  intro y w hy
  rw [Table.find?_insert] at hy
  split at hy
  · rename_i hxy
    obtain rfl := Option.some.inj hy
    rwa [← hxy]
  · exact h y w hy

private theorem Value.eq_int {v : Value} (h : v.ty = .int) : ∃ n, v = .int n := by
  cases v <;> simp_all [Value.ty]

private theorem Value.eq_float {v : Value} (h : v.ty = .float) : ∃ x, v = .float x := by
  cases v <;> simp_all [Value.ty]

private theorem Value.eq_bool {v : Value} (h : v.ty = .bool) : ∃ b, v = .bool b := by
  cases v <;> simp_all [Value.ty]

namespace Taking

/-- Whether a taking gives a value of a type where values of the types due are on top of
the stack, and leaves what is below them; or it divides by zero. -/
def Yields (m : Taking Value) (due : List Ty) (t : Ty) (divides : Prop) : Prop :=
  ∀ top below : List Value, top.map Value.ty = due →
    (∃ v, m (top ++ below) = (.ok v, below) ∧ v.ty = t) ∨
      divides ∧ ∃ rest, m (top ++ below) = (.error .zeroDivisor, rest)

namespace Yields

variable {m : Taking Value} {due : List Ty} {t u : Ty}
  {divides divides' : Prop} {a b v : Value}

private theorem imp (h : m.Yields due t divides) (hd : divides → divides') :
    m.Yields due t divides' :=
  fun top below htop => (h top below htop).imp id fun ⟨hdivides, hrest⟩ =>
    ⟨hd hdivides, hrest⟩

theorem pure (v : Value) : Yields (Pure.pure v) [] v.ty divides := by
  intro top below htop
  obtain rfl := List.map_eq_nil_iff.mp htop
  exact .inl ⟨v, rfl, rfl⟩

private theorem zeroDivisor (h : divides) : Yields (fail .zeroDivisor) [] t divides :=
  fun _ _ _ => .inr ⟨h, _, rfl⟩

private theorem any {f : Value → Taking Value} (h : ∀ v, (f v).Yields due u divides) :
    (Taking.any >>= f).Yields (t :: due) u divides := by
  intro top below htop
  obtain ⟨v, rest, rfl, -, hrest⟩ := List.map_eq_cons_iff.mp htop
  exact h v rest below hrest

private theorem typed {f : Value → Taking Value}
    (h : ∀ v, v.ty = t → (f v).Yields due u divides) :
    (Taking.typed t >>= f).Yields (t :: due) u divides := by
  intro top below htop
  obtain ⟨v, rest, rfl, hv, hrest⟩ := List.map_eq_cons_iff.mp htop
  rw [List.cons_append, bind_apply, typed_cons, if_pos hv]
  exact h v hv rest below hrest

private theorem pair {f : Value × Value → Taking Value}
    (h : ∀ a b, a.ty = t → b.ty = t → (f (a, b)).Yields due u divides) :
    (Taking.pair t >>= f).Yields (t :: t :: due) u divides := by
  intro top below htop
  obtain ⟨b, top, rfl, hb, htop⟩ := List.map_eq_cons_iff.mp htop
  obtain ⟨a, rest, rfl, ha, hrest⟩ := List.map_eq_cons_iff.mp htop
  rw [List.cons_append, List.cons_append, bind_apply, pair_cons_cons,
    if_pos hb, if_pos ha]
  exact h a b ha hb rest below hrest

private theorem bool {f : Bool → Taking Value} (h : ∀ x, (f x).Yields due u divides) :
    (Taking.bool >>= f).Yields (.bool :: due) u divides := by
  intro top below htop
  obtain ⟨v, rest, rfl, hv, hrest⟩ := List.map_eq_cons_iff.mp htop
  obtain ⟨x, rfl⟩ := Value.eq_bool hv
  exact h x rest below hrest

private theorem arithmetic (op : ArithOp) (ha : a.ty = t) (hb : b.ty = t)
    (ht : t.isNumeric = true) :
    Yields (ScalarLang.arithmetic op.onInts op.onFloats (a, b)) [] t (op = .div ∧
      t = .int) := by
  cases t with
  | bool | string => cases ht
  | float =>
      obtain ⟨x, rfl⟩ := Value.eq_float ha
      obtain ⟨y, rfl⟩ := Value.eq_float hb
      exact pure (.float (op.onFloats x y))
  | int =>
      obtain ⟨m, rfl⟩ := Value.eq_int ha
      obtain ⟨n, rfl⟩ := Value.eq_int hb
      rw [ScalarLang.arithmetic]
      cases hk : op.onInts m n with
      | some k => exact pure (.int k)
      | none =>
          cases op with
          | add | sub | mul => cases hk
          | div => exact zeroDivisor ⟨rfl, rfl⟩

private theorem remainder (ha : a.ty = .int) (hb : b.ty = .int) :
    Yields (ScalarLang.arithmetic intRemainder (fun x _ => x) (a, b)) [] .int True := by
  obtain ⟨m, rfl⟩ := Value.eq_int ha
  obtain ⟨n, rfl⟩ := Value.eq_int hb
  rw [ScalarLang.arithmetic]
  cases intRemainder m n with
  | some k => exact pure (.int k)
  | none => exact zeroDivisor trivial

private theorem comparison (op : OrderOp) (ha : a.ty = t) (hb : b.ty = t)
    (ht : t.isNumeric = true) :
    Yields (ScalarLang.comparison op (a, b)) [] .bool divides := by
  cases t with
  | bool | string => cases ht
  | float =>
      obtain ⟨x, rfl⟩ := Value.eq_float ha
      obtain ⟨y, rfl⟩ := Value.eq_float hb
      exact pure (.bool (op.onFloats x y))
  | int =>
      obtain ⟨m, rfl⟩ := Value.eq_int ha
      obtain ⟨n, rfl⟩ := Value.eq_int hb
      exact pure (.bool (op.onInts m n))

private theorem opposite (hv : v.ty = t) (ht : t.isNumeric = true) :
    Yields (ScalarLang.opposite v) [] t divides := by
  cases t with
  | bool | string => cases ht
  | float =>
      obtain ⟨x, rfl⟩ := Value.eq_float hv
      exact pure (.float (-x))
  | int =>
      obtain ⟨n, rfl⟩ := Value.eq_int hv
      exact pure (.int (-n))

private theorem widened (hv : v.ty = .int) :
    Yields (ScalarLang.widened v) [] .float divides := by
  obtain ⟨n, rfl⟩ := Value.eq_int hv
  exact pure (.float (Float.ofInt n.toInt))

end Yields

end Taking

open Taking in
/-- An instruction that computes a value takes values of the types at the front and puts
the type of its value in their place. -/
theorem Instr.flow_compute {Γ : Env} {i : Instr} {taking : Taking Value}
    {shape shape' : List Ty} (hi : i.compute = some taking)
    (hflow : i.flow Γ shape = some shape') :
    ∃ due t rest, shape = due ++ rest ∧ shape' = t :: rest ∧
      taking.Yields due t (i = .arith .div .int ∨ i = .mod) := by
  cases i with
  | push v =>
      obtain rfl := Option.some.inj hi
      obtain rfl := Option.some.inj hflow
      exact ⟨[], v.ty, shape, rfl, rfl, .pure v⟩
  | arith op t =>
      obtain rfl := Option.some.inj hi
      obtain _ | ⟨u, _ | ⟨v, rest⟩⟩ := shape
      · cases hflow
      · cases hflow
      · obtain ⟨⟨rfl, rfl, ht⟩, rfl⟩ : (u = t ∧ v = t ∧ t.isNumeric) ∧
            t :: rest = shape' := by
          simpa [flow] using hflow
        refine ⟨[v, v], v, rest, rfl, rfl, .pair fun a b ha hb => ?_⟩
        refine (Yields.arithmetic op ha hb ht).imp ?_
        rintro ⟨rfl, rfl⟩
        exact .inl rfl
  | mod =>
      obtain rfl := Option.some.inj hi
      obtain _ | ⟨u, _ | ⟨v, rest⟩⟩ := shape
      · cases hflow
      · cases u <;> cases hflow
      · cases u <;> cases v <;> cases hflow
        refine ⟨[.int, .int], .int, rest, rfl, rfl, .pair fun a b ha hb => ?_⟩
        exact (Yields.remainder ha hb).imp fun _ => .inr rfl
  | negate t =>
      obtain rfl := Option.some.inj hi
      obtain _ | ⟨u, rest⟩ := shape
      · cases hflow
      · obtain ⟨⟨rfl, ht⟩, rfl⟩ : (u = t ∧ t.isNumeric) ∧ t :: rest = shape' := by
          simpa [flow] using hflow
        exact ⟨[u], u, rest, rfl, rfl, .typed fun v hv => .opposite hv ht⟩
  | concat =>
      obtain rfl := Option.some.inj hi
      obtain _ | ⟨u, _ | ⟨v, rest⟩⟩ := shape
      · cases hflow
      · cases hflow
      · cases hflow
        exact ⟨[u, v], .string, rest, rfl, rfl,
          .any fun _ => .any fun _ => .pure (.string _)⟩
  | logic op =>
      obtain rfl := Option.some.inj hi
      obtain _ | ⟨u, _ | ⟨v, rest⟩⟩ := shape
      · cases hflow
      · cases u <;> cases hflow
      · cases u <;> cases v <;> cases hflow
        exact ⟨[.bool, .bool], .bool, rest, rfl, rfl,
          .bool fun _ => .bool fun _ => .pure (.bool _)⟩
  | not =>
      obtain rfl := Option.some.inj hi
      obtain _ | ⟨u, rest⟩ := shape
      · cases hflow
      · cases u <;> cases hflow
        exact ⟨[.bool], .bool, rest, rfl, rfl, .bool fun _ => .pure (.bool _)⟩
  | order op t =>
      obtain rfl := Option.some.inj hi
      obtain _ | ⟨u, _ | ⟨v, rest⟩⟩ := shape
      · cases hflow
      · cases hflow
      · obtain ⟨⟨rfl, rfl, ht⟩, rfl⟩ : (u = t ∧ v = t ∧ t.isNumeric) ∧
            .bool :: rest = shape' := by
          simpa [flow] using hflow
        exact ⟨[v, v], .bool, rest, rfl, rfl,
          .pair fun a b ha hb => .comparison op ha hb ht⟩
  | equal t =>
      obtain _ | ⟨u, _ | ⟨v, rest⟩⟩ := shape
      · cases hflow
      · cases hflow
      · obtain ⟨⟨rfl, rfl⟩, rfl⟩ : (u = t ∧ v = t) ∧ .bool :: rest = shape' := by
          simpa [flow] using hflow
        refine ⟨[v, v], .bool, rest, rfl, rfl, ?_⟩
        cases v with
        | bool =>
            obtain rfl := Option.some.inj hi
            exact .any fun _ => .any fun _ => .pure (.bool _)
        | int | float | string =>
            obtain rfl := Option.some.inj hi
            exact .pair fun _ _ _ _ => .pure (.bool _)
  | widen =>
      obtain rfl := Option.some.inj hi
      obtain _ | ⟨u, rest⟩ := shape
      · cases hflow
      · cases u <;> cases hflow
        exact ⟨[.int], .float, rest, rfl, rfl, .typed fun _ hv => .widened hv⟩
  | pop | load | save | print | read | jump | jumpUnless | label | nop => cases hi

namespace Machine

variable {code : Code} {policy : Policy} {m : Machine} {Γ : Env} {i : Instr}

/-- A step from values of the right types leads to values of the right types, or to a
fault that a well-typed program can come to. -/
theorem execute_typed {top below : List Value} {shape' : List Ty}
    (hstack : m.stack = top ++ below)
    (hflow : i.flow Γ (top.map Value.ty) = some shape') (hstore : StoreTyped Γ m.store)
    (hload : ∀ x, i = .load x → (m.store.find? x).isSome)
    (htarget : ∀ n, i.target? = some n → (code.labels.find? n).isSome) :
    (execute code policy m i).Leads
      (fun m' => StoreTyped Γ m'.store ∧ ∃ top' below', m'.stack = top' ++ below' ∧
        top'.map Value.ty = shape')
      (fun _ fault => fault.Tolerable) := by
  cases i using Instr.compute_cases with
  | compute i taking hcompute =>
      obtain ⟨due, t, rest, hshape, rfl, hyields⟩ := Instr.flow_compute hcompute hflow
      obtain ⟨taken, top', rfl, htaken, htop'⟩ := List.map_eq_append_iff.mp hshape
      rw [execute_of_compute hcompute, hstack, List.append_assoc]
      rcases hyields taken (top' ++ below) htaken with ⟨v, h, hty⟩ | ⟨hi, rest', h⟩
      · rw [h]
        exact ⟨hstore, v :: top', below, rfl, by simp [hty, htop']⟩
      · rw [h]
        rcases hi with rfl | rfl
        · exact .division
        · exact .modulo
  | pop =>
      cases top with
      | nil => simp [flow] at hflow
      | cons v rest =>
          obtain rfl := Option.some.inj hflow
          exact ⟨hstore, rest, below, by simp [next, hstack], rfl⟩
  | load x =>
      obtain ⟨v, hv⟩ := Option.isSome_iff_exists.mp (hload x rfl)
      have hshape : v.ty :: top.map Value.ty = shape' := by
        simpa [flow, hstore x v hv] using hflow
      exact ⟨hstore, v :: top, below, by simp [next, hstack, hv], hshape⟩
  | save x =>
      cases top with
      | nil => simp [flow] at hflow
      | cons v rest =>
          obtain ⟨hx, rfl⟩ : Γ.find? x = some v.ty ∧ rest.map Value.ty = shape' := by
            simpa [flow] using hflow
          simp only [execute, hstack, List.cons_append, Taking.any_cons]
          exact ⟨hstore.insert hx, rest, below, rfl, rfl⟩
  | print count =>
      obtain ⟨hcount, rfl⟩ : count ≤ top.length ∧
          (top.map Value.ty).drop count = shape' := by
        simpa [flow] using hflow
      have henough : ¬ m.stack.length < count := by
        simp only [hstack, List.length_append]
        omega
      rw [execute, if_neg henough]
      refine (print_leads ..).imp (fun m' h => ?_) ?_
      · refine ⟨h.2.2 ▸ hstore, top.drop count, below, ?_, List.map_drop⟩
        rw [h.2.1, hstack, List.drop_append_of_le_length hcount]
      · rintro _ _ ⟨cause, rfl⟩
        exact .console
  | read t =>
      obtain rfl := Option.some.inj hflow
      refine (read_leads t).imp (fun m' h => ?_) ?_
      · obtain ⟨v, hty, hv⟩ := h.2.1
        exact ⟨h.2.2 ▸ hstore, v :: top, below, by simp [hv, hstack], by simp [hty]⟩
      · rintro _ _ ⟨cause, rfl⟩
        exact .console
  | jump n =>
      obtain rfl := Option.some.inj hflow
      obtain ⟨position, hposition⟩ := Option.isSome_iff_exists.mp (htarget n rfl)
      simp only [execute, jump, hposition]
      exact ⟨hstore, [], m.stack, rfl, rfl⟩
  | jumpUnless n =>
      obtain ⟨position, hposition⟩ := Option.isSome_iff_exists.mp (htarget n rfl)
      obtain _ | ⟨v, rest⟩ := top
      · simp [flow] at hflow
      · cases v with
        | int | float | string => simp [flow, Value.ty] at hflow
        | bool b =>
            obtain rfl := Option.some.inj hflow
            rw [execute_jumpUnless_cons hstack]
            cases b with
            | true => exact ⟨hstore, [], rest ++ below, rfl, rfl⟩
            | false =>
                simp only [jump, hposition]
                exact ⟨hstore, [], rest ++ below, rfl, rfl⟩
  | label n =>
      obtain rfl := Option.some.inj hflow
      exact ⟨hstore, [], m.stack, rfl, rfl⟩
  | nop =>
      obtain rfl := Option.some.inj hflow
      exact ⟨hstore, top, below, hstack, rfl⟩

end Machine

/-! ## Runs of typed code -/

/-- Code that can be typed, and whose jumps have places to go to. -/
structure Flows (Γ : Env) (code : List Instr) : Prop where
  wellLabelled : WellLabelled code
  typed : ∃ shape, shapes Γ [] code = some shape

/-- Whether the values of a machine have the types that code gives them. At a label
nothing is known of the stack. -/
structure Machine.Typed (Γ : Env) (code : List Instr) (m : Machine) : Prop where
  store : StoreTyped Γ m.store
  stack : (∃ n, code[m.ip]? = some (.label n)) ∨
    ∃ top below, m.stack = top ++ below ∧
      shapes Γ [] (code.take m.ip) = some (top.map Value.ty)

namespace Flows

open Machine

variable {Γ : Env} {code : List Instr} {policy : Policy} {m m' : Machine}
  {console : Console} {n : Nat}

theorem exists_shape (h : Flows Γ code) (k : Nat) :
    ∃ shape, shapes Γ [] (code.take k) = some shape := by
  obtain ⟨shape, hall⟩ := h.typed
  rw [← List.take_append_drop k code, shapes_append] at hall
  cases hk : shapes Γ [] (code.take k) with
  | none => simp [hk] at hall
  | some s => exact ⟨s, rfl⟩

theorem flow_eq (h : Flows Γ code) {k : Nat} {i : Instr} (hi : code[k]? = some i)
    {shape : List Ty} (hshape : shapes Γ [] (code.take k) = some shape) :
    ∃ shape', i.flow Γ shape = some shape' ∧
      shapes Γ [] (code.take (k + 1)) = some shape' := by
  obtain ⟨shape', hnext⟩ := h.exists_shape (k + 1)
  refine ⟨shape', ?_, hnext⟩
  rw [List.take_add_one, hi, shapes_append, hshape] at hnext
  simpa using hnext

private theorem isSome_target (h : Flows Γ code) {k : Nat} {i : Instr}
    (hi : code[k]? = some i) (n : Nat) (hn : i.target? = some n) :
    ((Code.ofList code).labels.find? n).isSome := by
  obtain ⟨j, -, hfind⟩ := h.wellLabelled.find?_target hi hn
  simp [hfind]

/-- A step of a typed machine leads to a typed machine or to a fault that a well-typed
program can come to. -/
theorem execute_leads (policy : Policy) (h : Flows Γ code) (hm : m.Typed Γ code)
    {i : Instr} (hi : code[m.ip]? = some i)
    (hload : ∀ x, i = .load x → (m.store.find? x).isSome) :
    (execute (Code.ofList code) policy m i).Leads (fun m' => m'.Typed Γ code)
      (fun _ fault => fault.Tolerable) := by
  have hstep : ∃ top below shape', m.stack = top ++ below ∧
      i.flow Γ (top.map Value.ty) = some shape' ∧
      shapes Γ [] (code.take (m.ip + 1)) = some shape' := by
    rcases hm.stack with ⟨n, hn⟩ | ⟨top, below, hstack, hshape⟩
    · obtain rfl : i = .label n := by simpa [hi] using hn
      obtain ⟨shape, hshape⟩ := h.exists_shape m.ip
      obtain ⟨shape', hflow, hnext⟩ := h.flow_eq hi hshape
      obtain rfl : [] = shape' := by simpa [flow] using hflow
      exact ⟨[], m.stack, [], rfl, rfl, hnext⟩
    · obtain ⟨shape', hflow, hnext⟩ := h.flow_eq hi hshape
      exact ⟨top, below, shape', hstack, hflow, hnext⟩
  obtain ⟨top, below, shape', hstack, hflow, hnext⟩ := hstep
  refine ((execute_typed hstack hflow hm.store hload (h.isSome_target hi)).and
    execute_frame).imp ?_
    fun _ _ hfault => hfault.1
  rintro m' ⟨⟨hstore, top', below', hstack', htop'⟩, hip, -⟩
  refine ⟨hstore, ?_⟩
  rcases hip with hip | ⟨n, hn, hip⟩
  · exact .inr ⟨top', below', hstack', by rw [hip, hnext, htop']⟩
  · obtain ⟨j, hj, hfind⟩ := h.wellLabelled.find?_target hi hn
    obtain rfl : j = m'.ip := by simpa [hfind] using hip
    exact .inl ⟨n, hj⟩

/-- A run is typed as long as it loads only what it has saved. -/
theorem runFor (h : Flows Γ code)
    (hrun : Machine.runFor (Code.ofList code) policy n (.start console) = .running m)
    (hloads : ∀ k < n, ∀ x, Executes (Code.ofList code) policy (.start console) k (.load
      x) → ∃ j < k, Executes (Code.ofList code) policy (.start console) j (.save x)) :
    m.Typed Γ code := by
  refine runFor_induction (P := fun k m => k ≤ n →
    m.Typed Γ code) (fun _ => ?_) ?_ hrun (Nat.le_refl n)
  · have hempty : StoreTyped Γ (start console).store := by
      intro x v hv
      simp [start, Table.find?_empty] at hv
    exact ⟨hempty, .inr ⟨[], [], rfl, by simp [start]⟩⟩
  · intro k m₁ m₂ hrun₁ ih hstep hk
    obtain ⟨i, hi, hexecute⟩ := instr_of_step_running hstep
    have hi' := hi
    rw [Code.instrs_ofList_getElem?] at hi'
    have hload (x : String) (hx : i = .load x) : (m₁.store.find? x).isSome := by
      rw [hx] at hi
      exact (store_isSome_iff hrun₁ x).mpr (hloads k (by omega) x ⟨m₁, hrun₁, hi⟩)
    exact (h.execute_leads policy (ih (by omega)) hi' hload).of_running hexecute

end Flows

/-- The code of a well-typed program can be typed. -/
theorem Program.flows {p : Program} {code : List Instr} (hcheck : p.check = [])
    (hcompile : p.compile = .ok code) : Flows p.types code := by
  obtain ⟨τ, hlayout⟩ := p.layout_of_compile hcompile
  have hwt := hlayout.wellTyped hcheck
  have hΓ : p.types = τ.symbols := hwt.checkAll_fst
  rw [hΓ]
  exact ⟨hlayout.wellLabelled, hlayout.exists_shapes hwt (.refl _) []⟩

/-- As long as a run of a compiled program has loaded only variables that it had
saved, each variable with a value has one of the type that the program declares it
with, and the next instruction does not fail but for a division of ints by zero or
for the console. -/
theorem run_typed {file source : String} {code : List Instr}
    (h : compileSource file source = .ok code) (policy : Policy) (console : Console) :
    ∃ p, Program.ofSource file source = .ok p ∧ ∀ n m,
      Machine.runFor (Code.ofList code) policy n (.start console) = .running m →
      (∀ k < n, ∀ x,
        Machine.Executes (Code.ofList code) policy (.start console) k (.load x) →
        ∃ j < k,
          Machine.Executes (Code.ofList code) policy (.start console) j (.save x)) →
      (∀ x v, m.store.find? x = some v → p.types.find? x = some v.ty) ∧
      ∀ m' fault, Machine.step (Code.ofList code) policy m = .faulted m' fault →
        fault.Tolerable := by
  obtain ⟨p, hsource, hcheck, hcompile⟩ := exists_of_compileSource h
  refine ⟨p, hsource, fun n m hrun hloads => ?_⟩
  have hflows := p.flows hcheck hcompile
  have htyped := hflows.runFor hrun hloads
  refine ⟨htyped.store, fun m' fault hfault => ?_⟩
  unfold Machine.step at hfault
  split at hfault
  · cases hfault
  · rename_i i hi
    rw [Code.instrs_ofList_getElem?] at hi
    have hleads := hflows.execute_leads policy htyped hi ?_
    · rw [hfault] at hleads
      exact hleads
    · rintro x rfl
      cases hfault

/-- A division by zero, behind a load of what was saved. -/
theorem run_typed_at_division :
    ∃ code m m' fault, compileSource "t" "int x; write 1 / x;" = .ok code ∧
      Machine.runFor (Code.ofList code) ⟨true⟩ 4 (.start ⟨[], .empty, none⟩) =
        .running m ∧
      Machine.step (Code.ofList code) ⟨true⟩ m = .faulted m' fault ∧
      fault.Tolerable := by
  have hcompile : compileSource "t" "int x; write 1 / x;" = .ok [.push (.int 0),
      .save "x", .push (.int 1), .load "x", .arith .div .int, .print 1] := rfl
  have hrun : Machine.runFor (Code.ofList [.push (.int 0), .save "x", .push (.int 1),
      .load "x", .arith .div .int, .print 1]) ⟨true⟩ 4 (.start ⟨[], .empty, none⟩) =
      .running ⟨4, [.int 0, .int 1], Table.empty.insert "x" (.int 0),
        ⟨[], .empty, none⟩⟩ := rfl
  obtain ⟨p, -, hall⟩ := run_typed hcompile ⟨true⟩ ⟨[], .empty, none⟩
  refine ⟨_, _, _, _, hcompile, hrun, rfl,
    (hall 4 _ hrun fun k hk x hload => ?_).2 _ _ rfl⟩
  obtain ⟨m', hm', hi⟩ := hload
  obtain rfl | rfl | rfl | rfl : k = 0 ∨ k = 1 ∨ k = 2 ∨ k = 3 := by omega
  · obtain rfl := Status.running.inj hm'
    cases hi
  · obtain rfl := Status.running.inj hm'
    cases hi
  · obtain rfl := Status.running.inj hm'
    cases hi
  · obtain rfl := Status.running.inj hm'
    cases hi
    exact ⟨1, by omega, _, rfl, rfl⟩

end ScalarLang
