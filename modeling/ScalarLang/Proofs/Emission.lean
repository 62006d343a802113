import ScalarLang.Fragment.Stmt

/-!
# Emission that comes to its end

An emitter threads the symbols and the labels and may give up half-way. What is proved
about code only concerns code that was made to its end, and there an emitter in a row is
one behind the other. This module says once what the code for an expression can be
(`Expr.Emits`, one rule for each kind of node) and what a complete emission in a row is
made of, so that nothing later unfolds an emitter.

## Main results

* `Expr.emits_iff`: the code for an expression is what the rules of `Expr.Emits` say.
* `Emitter.bind_eq_ok_iff`: emission in a row is complete if its parts are.
-/

namespace ScalarLang

/-! ## Expressions -/

/-- The value of a literal. -/
def Expr.literal? : Expr → Option Value
  | int n _ => some (.int n)
  | float x _ => some (.float x)
  | bool b _ => some (.bool b)
  | string s _ => some (.string s)
  | _ => none

/-- The code that an expression has, and the type of the value it leaves. -/
inductive Expr.Emits (symbols : Env) : Expr → List Instr → Ty → Prop where
  | literal {e : Expr} {v : Value} (hv : e.literal? = some v) :
      Emits symbols e [.push v] v.ty
  | symbol {name : String} {span : Span} {t : Ty} (ht : symbols.find? name = some t) :
      Emits symbols (.symbol name span) [.load name] t
  | assignment {target : Ident} {value : Expr} {span : Span}
      {code : List Instr} {t u : Ty}
      (ht : symbols.find? target.name = some t) (hvalue : Emits symbols value code u) :
      Emits symbols (.assignment target value span)
        (code ++ (widening true u t ++ [.save target.name, .load target.name])) t
  | unary {operator : Token} {operand : Expr} {span : Span} {code : List Instr} {t : Ty}
      (hoperand : Emits symbols operand code t) :
      Emits symbols (.unary operator operand span)
        (code ++ [unaryOperation operator.kind t]) t
  | binary {l : Level} {operator : Token} {left right : Expr} {span : Span}
      {leftCode rightCode own : List Instr} {t u result : Ty}
      (hleft : Emits symbols left leftCode t) (hright : Emits symbols right rightCode u)
      (hown : operation operator.kind (operandType (widens operator.kind) t u) =
        some (own, result)) :
      Emits symbols (.binary (.level l) operator left right span)
        (leftCode ++ (widening (widens operator.kind) t u ++ rightCode ++
          widening (widens operator.kind) u t ++ own)) result

namespace Fragment

/-- Code that goes on was complete before and is complete behind. -/
theorem andThen_eq_ok_iff {f : Fragment} {more : Ty → List Instr × Except Diagnostic Ty}
    {code : List Instr} {t : Ty} :
    f.andThen more = ⟨code, .ok t⟩ ↔
      ∃ u rest, f.result = .ok u ∧ more u = (rest, .ok t) ∧ code = f.code ++ rest := by
  obtain ⟨front, result⟩ := f
  cases result with
  | error d => simp [andThen]
  | ok u =>
      constructor
      · intro h
        simp only [andThen, mk.injEq] at h
        exact ⟨u, _, rfl, Prod.ext rfl h.2, h.1.symm⟩
      · rintro ⟨v, rest, hv, hmore, rfl⟩
        obtain rfl : u = v := by simpa using hv
        simp [andThen, hmore]

private theorem ofVariable_eq_ok_iff {symbols : Env} {name : String}
    {position : Position} {use : Ty → Fragment} {code : List Instr} {t : Ty} :
    ofVariable symbols name position use = ⟨code, .ok t⟩ ↔
      ∃ u, symbols.find? name = some u ∧ use u = ⟨code, .ok t⟩ := by
  cases h : symbols.find? name <;> simp [ofVariable, failed, h]

end Fragment

/-- The code for an operator between operands needs the code for both of them. -/
theorem binaryCode_eq_ok_iff {operator : Token} {left right : Fragment}
    {code : List Instr} {result : Ty} :
    binaryCode operator left right = ⟨code, .ok result⟩ ↔
      ∃ t u own, left.result = .ok t ∧ right.result = .ok u ∧
        operation operator.kind (operandType (widens operator.kind) t u) =
          some (own, result) ∧
        code = left.code ++ (widening (widens operator.kind) t u ++ right.code ++
          widening (widens operator.kind) u t ++ own) := by
  simp only [binaryCode, Fragment.andThen_eq_ok_iff]
  constructor
  · rintro ⟨t, rest, hleft, hmore, rfl⟩
    cases hright : right.result with
    | error d => simp [hright] at hmore
    | ok u =>
        cases hown :
          operation operator.kind (operandType (widens operator.kind) t u) with
        | none => simp [hright, hown] at hmore
        | some own =>
            simp only [hright, hown, Prod.mk.injEq, Except.ok.injEq] at hmore
            obtain ⟨rfl, rfl⟩ := hmore
            exact ⟨t, u, own.1, hleft, rfl, hown, rfl⟩
  · rintro ⟨t, u, own, hleft, hright, hown, rfl⟩
    exact ⟨t, _, hleft, by simp [hright, hown], rfl⟩

/-- The code for an expression is complete in exactly the ways that the rules say. -/
theorem Expr.emits_iff {symbols : Env} {e : Expr} {code : List Instr} {t : Ty} :
    e.emit symbols = ⟨code, .ok t⟩ ↔ Emits symbols e code t := by
  constructor
  · intro h
    induction e generalizing code t with
    | int | float | bool | string =>
        obtain ⟨rfl, rfl⟩ : _ = code ∧ _ = t := by simpa [emit, Fragment.push] using h
        exact .literal rfl
    | symbol name span =>
        obtain ⟨u, hu, huse⟩ := Fragment.ofVariable_eq_ok_iff.mp h
        obtain ⟨rfl, rfl⟩ : _ = code ∧ u = t := by simpa using huse
        exact .symbol hu
    | assignment target value span ih =>
        obtain ⟨u, hu, huse⟩ := Fragment.ofVariable_eq_ok_iff.mp h
        obtain ⟨v, rest, hvalue, hmore, rfl⟩ := Fragment.andThen_eq_ok_iff.mp huse
        obtain ⟨rfl, rfl⟩ : _ = rest ∧ u = t := by simpa using hmore
        exact .assignment hu (ih (by rw [← hvalue]))
    | unary operator operand span ih =>
        obtain ⟨u, rest, hoperand, hmore, rfl⟩ := Fragment.andThen_eq_ok_iff.mp h
        obtain ⟨rfl, rfl⟩ : _ = rest ∧ u = t := by simpa using hmore
        exact .unary (ih (by rw [← hoperand]))
    | binary label operator left right span ihleft ihright =>
        cases label with
        | level l =>
            obtain ⟨u, v, own, hleft, hright, hown, rfl⟩ := binaryCode_eq_ok_iff.mp h
            exact .binary (ihleft (by rw [← hleft])) (ihright (by rw [← hright])) hown
        | literal | symbol | assignment | unary => simp [emit, Fragment.failed] at h
  · intro h
    induction h with
    | @literal e v hv => cases e <;> simp_all [literal?, emit, Fragment.push]
    | symbol ht => simp [emit, Fragment.ofVariable, ht]
    | assignment ht _ ih => simp [emit, Fragment.ofVariable, Fragment.andThen, ht, ih]
    | unary _ ih => simp [emit, Fragment.andThen, ih]
    | binary _ _ hown ihleft ihright =>
        exact binaryCode_eq_ok_iff.mpr
          ⟨_, _, _, by rw [ihleft], by rw [ihright], hown, by
          rw [ihleft, ihright]⟩

theorem Expr.Emits.emit_eq {symbols : Env} {e : Expr} {code : List Instr} {t : Ty}
    (h : Emits symbols e code t) : e.emit symbols = ⟨code, .ok t⟩ :=
  Expr.emits_iff.mpr h

/-! ## Emitters in a row -/

namespace Emitter

variable {α β : Type}

/-- Emission in a row is complete if each part is, the second in the scope
behind the first. -/
theorem bind_eq_ok_iff {m : Emitter α} {f : α → Emitter β} {σ σ' : Scope}
    {code : List Instr} {b : β} :
    (m >>= f) σ = ⟨code, σ', .ok b⟩ ↔
      ∃ front τ a back, m σ = ⟨front, τ, .ok a⟩ ∧ f a τ = ⟨back, σ', .ok b⟩ ∧
        code = front ++ back := by
  show Emitter.bind m f σ = _ ↔ _
  cases hm : m σ with
  | mk front τ result =>
      cases result with
      | error d => simp [Emitter.bind, hm]
      | ok a =>
          simp only [Emitter.bind, hm, Emission.mk.injEq, Except.ok.injEq]
          constructor
          · rintro ⟨rfl, rfl, hresult⟩
            refine ⟨front, τ, a, (f a τ).code, ⟨rfl, rfl, rfl⟩, ?_, rfl⟩
            rw [← hresult]
          · rintro ⟨_, _, _, back, ⟨rfl, rfl, rfl⟩, hf, rfl⟩
            simp [hf]

theorem pure_eq_ok_iff {a b : α} {σ σ' : Scope} {code : List Instr} :
    (pure a : Emitter α) σ = ⟨code, σ', .ok b⟩ ↔ code = [] ∧ σ' = σ ∧ a = b := by
  show Emitter.pure a σ = _ ↔ _
  simp [Emitter.pure, eq_comm]

theorem emit_eq_ok_iff {own code : List Instr} {σ σ' : Scope} {u : Unit} :
    Emitter.emit own σ = ⟨code, σ', .ok u⟩ ↔ code = own ∧ σ' = σ := by
  simp [Emitter.emit, eq_comm]

private theorem freshLabel_eq_ok_iff {σ σ' : Scope} {code : List Instr} {n : Nat} :
    freshLabel σ = ⟨code, σ', .ok n⟩ ↔
      code = [] ∧ σ' = { σ with labels := σ.labels + 1 } ∧ n = σ.labels := by
  simp [freshLabel, eq_comm]

private theorem expr_eq_ok_iff {e : Expr} {σ σ' : Scope} {code : List Instr} {t : Ty} :
    expr e σ = ⟨code, σ', .ok t⟩ ↔ Expr.Emits σ.symbols e code t ∧ σ' = σ := by
  rw [← Expr.emits_iff]
  cases he : e.emit σ.symbols
  simp only [expr, he, Emission.mk.injEq, Fragment.mk.injEq]
  exact ⟨fun ⟨hc, hs, hr⟩ => ⟨⟨hc, hr⟩, hs.symm⟩,
    fun ⟨⟨hc, hr⟩, hs⟩ => ⟨hc, hs.symm, hr⟩⟩

theorem typeOf_eq_ok_iff {x : Ident} {σ σ' : Scope} {code : List Instr} {t : Ty} :
    typeOf x σ = ⟨code, σ', .ok t⟩ ↔ code = [] ∧ σ' = σ ∧
    σ.symbols.find? x.name = some t := by
  cases h : σ.symbols.find? x.name <;> simp [typeOf, h, eq_comm]

section

variable {σ τ : Scope} {code : List Instr} {b : β}

theorem pure_bind_eq_ok_iff {a : α} {f : α → Emitter β} :
    (pure a >>= f) σ = ⟨code, τ, .ok b⟩ ↔ f a σ = ⟨code, τ, .ok b⟩ := by rw [pure_bind]

theorem emit_bind_eq_ok_iff {f : Unit → Emitter β} {own : List Instr} :
    (Emitter.emit own >>= f) σ = ⟨code, τ, .ok b⟩ ↔
      ∃ back, f () σ = ⟨back, τ, .ok b⟩ ∧ code = own ++ back := by
  simp only [bind_eq_ok_iff, emit_eq_ok_iff]
  constructor
  · rintro ⟨_, _, ⟨⟩, back, ⟨rfl, rfl⟩, hf, rfl⟩
    exact ⟨back, hf, rfl⟩
  · rintro ⟨back, hf, rfl⟩
    exact ⟨own, σ, (), back, ⟨rfl, rfl⟩, hf, rfl⟩

theorem freshLabel_bind_eq_ok_iff {f : Nat → Emitter β} :
    (freshLabel >>= f) σ = ⟨code, τ, .ok b⟩ ↔
      f σ.labels { σ with labels := σ.labels + 1 } = ⟨code, τ, .ok b⟩ := by
  simp only [bind_eq_ok_iff, freshLabel_eq_ok_iff]
  constructor
  · rintro ⟨_, _, _, back, ⟨rfl, rfl, rfl⟩, hf, rfl⟩
    exact hf
  · intro hf
    exact ⟨[], _, _, code, ⟨rfl, rfl, rfl⟩, hf, rfl⟩

theorem expr_bind_eq_ok_iff {f : Ty → Emitter β} {e : Expr} :
    (expr e >>= f) σ = ⟨code, τ, .ok b⟩ ↔
      ∃ t front back, Expr.Emits σ.symbols e front t ∧ f t σ = ⟨back, τ, .ok b⟩ ∧
        code = front ++ back := by
  simp only [bind_eq_ok_iff, expr_eq_ok_iff]
  constructor
  · rintro ⟨front, _, t, back, ⟨he, rfl⟩, hf, rfl⟩
    exact ⟨t, front, back, he, hf, rfl⟩
  · rintro ⟨t, front, back, he, hf, rfl⟩
    exact ⟨front, σ, t, back, ⟨he, rfl⟩, hf, rfl⟩

theorem discarded_bind_eq_ok_iff {f : Unit → Emitter β} {e : Expr} :
    (discarded e >>= f) σ = ⟨code, τ, .ok b⟩ ↔
      ∃ t front back, Expr.Emits σ.symbols e front t ∧ f () σ = ⟨back, τ, .ok b⟩ ∧
        code = front ++ .pop :: back := by
  rw [discarded, Emitter.bind_assoc]
  simp only [expr_bind_eq_ok_iff, emit_bind_eq_ok_iff]
  constructor
  · rintro ⟨t, front, _, he, ⟨back, hf, rfl⟩, rfl⟩
    exact ⟨t, front, back, he, hf, rfl⟩
  · rintro ⟨t, front, back, he, hf, rfl⟩
    exact ⟨t, front, _, he, ⟨back, hf, rfl⟩, rfl⟩

end

end Emitter

end ScalarLang
