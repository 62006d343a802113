import ScalarLang.Fragment.Expr
import ScalarLang.Proofs.Simulation
import ScalarLang.Proofs.WellTyped

/-!
# Operators and their instructions

The instructions for an operator take their operands off the stack and look at their
types one after the other; an evaluation has the operands at hand and does the same.
So the rules of `Gives` follow the way in which takings are composed, and each
operator is a case of them.

An operator between operands of two types converts the operands for the type that it was
resolved to. Where the checker has no reports, an instruction is there for a conversion
exactly if the evaluation converts (`Expr.BinaryRule.widening_eq`).

## Main results

* `simulates_operate`, `simulates_operateUnary`: the code for an operator does what
  the operator does.
* `simulates_convert`: the code for a conversion does what the conversion does.
-/

namespace ScalarLang

open Evaluator

/-! ## Takings -/

namespace Gives

variable {r : Except Mishap Value} {t : Ty} {a b v : Value} {below rest : List Value}

theorem ok : Gives (.ok v) below ((pure v : Taking Value) below) := ⟨rfl, rfl⟩

private theorem typed {f : Value → Taking Value}
    (h : v.ty = t → Gives r below (f v below)) :
    Gives (do v.require t; r) below ((Taking.typed t >>= f) (v :: below)) := by
  rw [Taking.bind_apply, Taking.typed_cons, Value.require]
  by_cases ht : v.ty = t
  · rw [if_pos ht, if_pos ht]
    exact h ht
  · rw [if_neg ht, if_neg ht]
    exact ⟨⟨_, rfl, rfl⟩, List.suffix_refl below⟩

private theorem pair {f : Value × Value → Taking Value}
    (h : a.ty = t → b.ty = t → Gives r below (f (a, b) below)) :
    Gives (do b.require t; a.require t; r) below
      ((Taking.pair t >>= f) (b :: a :: below)) := by
  rw [Taking.bind_apply, Taking.pair_cons_cons, Value.require, Value.require]
  by_cases hb : b.ty = t
  · rw [if_pos hb, if_pos hb]
    by_cases ha : a.ty = t
    · rw [if_pos ha, if_pos ha]
      exact h ha hb
    · rw [if_neg ha, if_neg ha]
      exact ⟨⟨_, rfl, rfl⟩, List.suffix_refl below⟩
  · rw [if_neg hb, if_neg hb]
    exact ⟨⟨_, rfl, rfl⟩, List.suffix_cons a below⟩

private theorem bool {f : Bool → Taking Value} {g : Bool → Except Mishap Value}
    (hrest : below <:+ rest) (h : ∀ x, Gives (g x) below (f x rest)) :
    Gives (v.asBool >>= g) below ((Taking.bool >>= f) (v :: rest)) := by
  rw [Taking.bind_apply, Taking.bool_cons]
  cases v with
  | bool x => exact h x
  | int | float | string => exact ⟨⟨_, rfl, rfl⟩, hrest⟩

private theorem arithmetic {onInts : Int32 → Int32 → Option Int32}
    {onFloats : Float → Float → Float} {f : Int32 → Int32 → Except Mishap Value}
    (hf : ∀ m n, f m n = (onInts m n).elim (.error .zeroDivisor) fun k =>
      .ok (.int k)) :
    Gives (Value.numeric f (fun x y => .float (onFloats x y)) a b) below
      (ScalarLang.arithmetic onInts onFloats (a, b) below) := by
  match a, b with
  | .int m, .int n =>
      rw [Value.numeric, hf, ScalarLang.arithmetic]
      cases onInts m n with
      | none => exact ⟨⟨_, rfl, rfl⟩, List.suffix_refl below⟩
      | some k => exact ok
  | .float x, .float y => exact ok
  | .int _, .float _ | .int _, .bool _ | .int _, .string _ | .float _,
      .int _ | .float _, .bool _
  | .float _, .string _ | .bool _, _ | .string _, _ =>
      exact ⟨⟨_, rfl, rfl⟩, List.suffix_refl below⟩

private theorem remainder (ha : a.ty = .int) (hb : b.ty = .int) :
    Gives (Value.remainder a b) below
      (ScalarLang.arithmetic intRemainder (fun x _ => x) (a, b) below) := by
  match a, b with
  | .int m, .int n =>
      rw [Value.remainder, ScalarLang.arithmetic, intRemainder]
      by_cases hn : n = 0
      · rw [if_pos hn, if_pos hn]
        exact ⟨⟨_, rfl, rfl⟩, List.suffix_refl below⟩
      · rw [if_neg hn, if_neg hn]
        exact ok
  | .int _, .float _ | .int _, .bool _ | .int _, .string _ => cases hb
  | .float _, _ | .bool _, _ | .string _, _ => cases ha

private theorem comparison {op : OrderOp} :
    Gives (Value.numeric (fun m n => .ok (.bool (op.onInts m n)))
      (fun x y => .bool (op.onFloats x y)) a b) below
        (ScalarLang.comparison op (a, b) below) := by
  match a, b with
  | .int _, .int _ | .float _, .float _ => exact ok
  | .int _, .float _ | .int _, .bool _ | .int _, .string _ | .float _,
      .int _ | .float _, .bool _
  | .float _, .string _ | .bool _, _ | .string _, _ =>
      exact ⟨⟨_, rfl, rfl⟩, List.suffix_refl below⟩

private theorem opposite : Gives v.negated below (ScalarLang.opposite v below) := by
  cases v with
  | int | float => exact ok
  | bool | string => exact ⟨⟨_, rfl, rfl⟩, List.suffix_refl below⟩

end Gives

/-! ## Operators -/

section

variable {code : Code} {policy : Policy} {fuel k : Nat} {ops : List Value}
  {operator : TokenKind} {t u result : Ty} {v left right : Value}

/-- The code for an operator before an operand does what the operator does. -/
theorem simulates_operateUnary
    (hi : code.instrs[k]? = some (unaryOperation operator t)) :
    Simulates code policy fuel k (v :: ops)
      (ofExcept (v.operateUnary operator t)) (k + 1)
      fun w => w :: ops := by
  rw [Value.operateUnary]
  rw [unaryOperation] at hi
  by_cases hop : operator = .not
  · rw [if_pos hop] at hi ⊢
    exact simulates_ofExcept [v] hi rfl fun below =>
      .bool (List.suffix_refl below) fun _ => .ok
  · rw [if_neg hop] at hi ⊢
    exact simulates_ofExcept [v] hi rfl fun below => .typed fun _ => .opposite

/-- The code for a conversion does what the conversion does. -/
theorem simulates_convert (hcode : code.Holds k (widening true t u)) :
    Simulates code policy fuel k (v :: ops) (ofExcept (v.convert t u))
      (k + (widening true t u).length) fun w => w :: ops := by
  by_cases h : t = .int ∧ u = .float
  · obtain ⟨rfl, rfl⟩ := h
    refine simulates_ofExcept [v] (Code.holds_cons.mp hcode).1 rfl fun below => ?_
    cases v with
    | int n => exact Gives.ok
    | float | bool | string => exact ⟨⟨_, rfl, rfl⟩, List.suffix_refl below⟩
  · have hnone : widening true t u = [] := by simpa [widening] using h
    have hconvert : v.convert t u = .ok v := if_neg h
    rw [hnone, hconvert]
    exact Simulates.pure (fun w => w :: ops) v

namespace Expr.BinaryRule

/-- A conversion has an instruction exactly where it is due by the types of
the operands alone. -/
theorem widening_eq (h : BinaryRule operator t u result) :
    widening (widens operator) t u = widening true t u ∧
      widening (widens operator) u t = widening true u t := by
  cases h with
  | arithmetic hop | comparison hop | equality hop =>
      have hwidens : widens operator = true := by
        rcases hop with rfl | rfl | rfl | rfl <;> rfl
      rw [hwidens]
      exact ⟨rfl, rfl⟩
  | modulo | concat => exact ⟨rfl, rfl⟩
  | connective hop => rcases hop with rfl | rfl <;> exact ⟨rfl, rfl⟩

private theorem operandType_eq (h : BinaryRule operator t u result) :
    operandType (widens operator) t u = t.common u := by
  cases h with
  | arithmetic hop | comparison hop | equality hop =>
      have hwidens : widens operator = true := by
        rcases hop with rfl | rfl | rfl | rfl <;> rfl
      simp [hwidens, operandType, Ty.common]
  | modulo | concat => rfl
  | connective hop => rcases hop with rfl | rfl <;> rfl

end Expr.BinaryRule

private theorem simulates_equal (ht : t ≠ .bool)
    (hi : code.instrs[k]? = some (.equal t)) :
    Simulates code policy fuel k (right :: left :: ops)
      (ofExcept (left.operate .equals t right)) (k + 1) fun w => w :: ops := by
  cases t with
  | bool => exact absurd rfl ht
  | int | float | string =>
      exact simulates_ofExcept [right, left] hi rfl fun below => .pair fun _ _ => .ok

/-- Values differ if they are not equal. -/
theorem ofExcept_notEquals (t : Ty) (left right : Value) :
    (ofExcept (left.operate .equals t right) >>= fun v =>
      ofExcept (v.operateUnary .not .bool)) =
      ofExcept (left.operate .notEquals t right) := by
  funext s
  simp only [Value.operate, Value.require]
  by_cases hright : right.ty = t
  · by_cases hleft : left.ty = t
    · rw [if_pos hright, if_pos hleft]
      rfl
    · rw [if_pos hright, if_neg hleft]
      rfl
  · rw [if_neg hright]
    rfl

/-- The code for an operator between operands does what the operator does. -/
theorem simulates_operate (hrule : Expr.BinaryRule operator t u result)
    {own : List Instr} {w : Ty}
    (hown : operation operator (operandType (widens operator) t u) = some (own, w))
    (hcode : code.Holds k own) :
    Simulates code policy fuel k (right :: left :: ops)
      (ofExcept (left.operate operator (t.common u) right)) (k + own.length) fun w =>
        w :: ops := by
  rw [hrule.operandType_eq] at hown
  cases hrule with
  | arithmetic hop =>
      rcases hop with rfl | rfl | rfl | rfl <;> cases hown <;>
        refine simulates_ofExcept [right,
          left] (Code.holds_cons.mp hcode).1 rfl fun _ =>
          .pair fun _ _ => .arithmetic fun m n => ?_
      · rfl
      · rfl
      · rfl
      · by_cases hn : n = 0 <;> simp [ArithOp.onInts, hn]
  | modulo =>
      cases hown
      exact simulates_ofExcept [right, left] (Code.holds_cons.mp hcode).1 rfl fun _ =>
        .pair fun hleft hright => .remainder hleft hright
  | concat =>
      cases hown
      exact simulates_ofExcept [right, left] (Code.holds_cons.mp hcode).1 rfl fun _ =>
        .ok
  | comparison hop =>
      rcases hop with rfl | rfl <;> cases hown <;>
        exact simulates_ofExcept [right, left] (Code.holds_cons.mp hcode).1 rfl fun _ =>
          .pair fun _ _ => .comparison
  | equality hop ht =>
      have hcommon : t.common t = t := by cases t <;> rfl
      rw [hcommon] at hown ⊢
      rcases hop with rfl | rfl <;> cases hown
      · exact simulates_equal ht (Code.holds_cons.mp hcode).1
      · obtain ⟨hequal, hrest⟩ := Code.holds_cons.mp hcode
        have hnot := (Code.holds_cons.mp hrest).1
        rw [← ofExcept_notEquals]
        exact (simulates_equal ht hequal).bind fun _ => simulates_operateUnary hnot
  | connective hop =>
      rcases hop with rfl | rfl <;> cases hown <;>
        exact simulates_ofExcept [right,
          left] (Code.holds_cons.mp hcode).1 rfl fun below =>
          .bool (List.suffix_cons left below) fun _ =>
            .bool (List.suffix_refl below) fun _ => .ok

end

end ScalarLang
