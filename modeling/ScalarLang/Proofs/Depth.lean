import ScalarLang.Proofs.Labels
import ScalarLang.Proofs.Operands

/-!
# How deep the operands stand

At every place of compiled code the number of operands on the stack is known: the values
that were pushed for an instruction still to come. What lies below them is nobody's
operand: it was on the stack before, or an expression statement left it there.

The number is counted along the code (`Instr.level`), with a mark at each instruction
behind which an expression statement leaves its value (`Stmt.marksAll`): from there on
the value is no operand. Where code can be jumped to or from there are no operands, so
one pass over the code from its first instruction to its last finds the number for every
place, however it is reached.

## Main results

* `Expr.Emits.levels_unmarked`: the code for an expression adds one operand.
* `Layout.levels_markedAll`: the code for statements starts and ends without operands.
-/

namespace ScalarLang

open ScalarLang.Instr

/-! ## Counting -/

namespace Instr

/-- The number of operands behind an instruction, if there are enough for it. At labels
and jumps there must be none behind it, and a mark leaves the one operand there is. -/
def level (i : Instr) (marked : Bool) (depth : Nat) : Option Nat :=
  let left := depth - i.pops + i.pushes
  if depth < i.pops then none
  else if i.target?.isSome || i.label?.isSome then if left = 0 ∧
  !marked then some 0 else none
  else if marked then if left = 1 then some 0 else none
  else some left

end Instr

/-- The number of operands behind marked code. -/
def levels (depth : Nat) (code : List (Instr × Bool)) : Option Nat :=
  code.foldlM (fun depth own => own.1.level own.2 depth) depth

@[simp] theorem levels_nil (d : Nat) : levels d [] = some d := rfl

@[simp] theorem levels_cons (d : Nat) (own : Instr × Bool)
    (rest : List (Instr × Bool)) :
    levels d (own :: rest) = (own.1.level own.2 d).bind fun e => levels e rest := rfl

theorem levels_append (d : Nat) (front back : List (Instr × Bool)) :
    levels d (front ++ back) = (levels d front).bind fun e => levels e back :=
  List.foldlM_append

/-- Code without a mark. -/
def unmarked (code : List Instr) : List (Instr × Bool) := code.map fun i => (i, false)

@[simp] theorem unmarked_nil : unmarked [] = [] := rfl

@[simp] theorem unmarked_cons (i : Instr) (rest : List Instr) :
    unmarked (i :: rest) = (i, false) :: unmarked rest := rfl

@[simp] theorem unmarked_append (front back : List Instr) :
    unmarked (front ++ back) = unmarked front ++ unmarked back := List.map_append

/-! ## Expressions -/

private theorem levels_widening (widen : Bool) (t u : Ty) (d : Nat) :
    levels (d + 1) (unmarked (widening widen t u)) = some (d + 1) := by
  unfold widening
  split <;> simp [level, pops, pushes, target?, label?]

private theorem levels_operation {operator : TokenKind} {t result : Ty}
    {own : List Instr} (h : operation operator t = some (own, result)) (d : Nat) :
    levels (d + 2) (unmarked own) = some (d + 1) := by
  have htwo : ¬ d + 2 < 2 := by omega
  cases operator <;> simp [operation] at h <;> obtain ⟨rfl, -⟩ := h <;>
    simp [level, pops, pushes, target?, label?, htwo]

private theorem levels_unaryOperation (operator : TokenKind) (t : Ty) (d : Nat) :
    levels (d + 1) (unmarked [unaryOperation operator t]) = some (d + 1) := by
  unfold unaryOperation
  split <;> simp [level, pops, pushes, target?, label?]

/-- The code for an expression adds one operand. -/
theorem Expr.Emits.levels_unmarked {symbols : Env} {e : Expr} {code : List Instr}
    {t : Ty} (h : Emits symbols e code t) (d : Nat) :
    levels d (unmarked code) = some (d + 1) := by
  induction h generalizing d with
  | literal | symbol => simp [level, pops, pushes, target?, label?]
  | assignment _ _ ih =>
      simp only [unmarked_append, levels_append, ih, Option.bind_some, levels_widening]
      simp [level, pops, pushes, target?, label?]
  | unary _ ih =>
      rw [unmarked_append, levels_append, ih, Option.bind_some, levels_unaryOperation]
  | binary _ _ hown ihleft ihright =>
      simp only [unmarked_append, levels_append, ihleft, ihright, Option.bind_some,
        levels_widening, levels_operation hown]

/-- The code for expressions in a row adds one operand for each. -/
theorem Expr.EmitsAll.levels_unmarked {symbols : Env} {values : List Expr}
    {code : List Instr} (h : EmitsAll symbols values code) (d : Nat) :
    levels d (unmarked code) = some (d + values.length) := by
  induction h generalizing d with
  | nil => rfl
  | cons he _ ih =>
      rw [unmarked_append, levels_append, he.levels_unmarked, Option.bind_some, ih,
        List.length_cons]
      congr 1
      omega

/-! ## Statements -/

/-- Marks for code that has none. -/
def silent (code : List Instr) : List Bool := code.map fun _ => false

mutual

/-- For each instruction of the code for a statement, whether an expression statement
has left its value behind it. -/
def Stmt.marks : Stmt → Scope → List Bool
  | .block body _, σ => Stmt.marksAll body σ
  | .declaration t idents span, σ =>
      silent ((Stmt.declaration t idents span).emit σ).code
  | .read idents span, σ => silent ((Stmt.read idents span).emit σ).code
  | .write values span, σ => silent ((Stmt.write values span).emit σ).code
  | .branch condition consequent alternate _, σ =>
    silent (condition.emit σ.symbols).code ++ false :: (consequent.marks σ.inside ++
      false :: false ::
        (Stmt.marksOption alternate (consequent.emit σ.inside).scope ++ [false]))
  | .whileLoop condition body _, σ =>
    false :: (silent (condition.emit σ.symbols).code ++ false :: (body.marks σ.inside ++
      [false, false]))
  | .forLoop induction init condition step body _, σ =>
    let front := Stmt.emitAll (Induction.declarations induction) σ
    let symbols := front.scope.symbols
    silent front.code ++ (silent (init.emit symbols).code ++ false :: false ::
      (silent (condition.emit symbols).code ++ false ::
        (body.marks front.scope.inside ++
        (silent (step.emit (body.emit front.scope.inside).scope.symbols).code ++
          [false, false, false]))))
  | .effect e span, σ =>
    if e.kind = .assignment then silent ((Stmt.effect e span).emit σ).code
    else silent (e.emit σ.symbols).code.dropLast ++ [true]

/-- The marks for a statement that may be missing. -/
def Stmt.marksOption : Option Stmt → Scope → List Bool
  | none, _ => []
  | some s, σ => s.marks σ

/-- The marks for statements in a row. -/
def Stmt.marksAll : List Stmt → Scope → List Bool
  | [], _ => []
  | s :: rest, σ => s.marks σ ++ Stmt.marksAll rest (s.emit σ).scope

end

@[simp] theorem zip_silent (code : List Instr) :
    code.zip (silent code) = unmarked code := by
  induction code with
  | nil => rfl
  | cons i rest ih => simpa [silent] using ih

@[simp] theorem length_silent (code : List Instr) :
    (silent code).length = code.length :=
  List.length_map _

/-- Where an operand may be left, a mark leaves it. -/
theorem Instr.level_marked {i : Instr} {d : Nat} (h : i.level false d = some 1) :
    i.level true d = some 0 := by
  simp only [level] at h ⊢
  split at h
  · simp at h
  · split at h <;> simp_all

/-- A mark behind the last instruction of code that adds one operand
leaves that operand. -/
theorem levels_marked_last {code : List Instr} (h : levels 0 (unmarked code) = some 1) :
    levels 0 (code.zip (silent code.dropLast ++ [true])) = some 0 := by
  rcases List.eq_nil_or_concat code with rfl | ⟨front, last, rfl⟩
  · simp at h
  · rw [List.concat_eq_append] at h ⊢
    rw [List.dropLast_concat, List.zip_append (length_silent front).symm, zip_silent,
      levels_append]
    rw [unmarked_append, levels_append] at h
    cases hfront : levels 0 (unmarked front) with
    | none => simp [hfront] at h
    | some d =>
        have hlast : last.level false d = some 1 := by simpa [hfront] using h
        simp [Instr.level_marked hlast]

@[simp] theorem Stmt.marksAll_singleton (s : Stmt) (σ : Scope) :
    Stmt.marksAll [s] σ = s.marks σ := by
  simp [Stmt.marksAll]

@[simp] theorem Stmt.marksAll_toList (s : Option Stmt) (σ : Scope) :
    Stmt.marksAll s.toList σ = Stmt.marksOption s σ := by
  cases s <;> simp [Stmt.marksAll, Stmt.marksOption]

theorem Layout.marksAll_declarations {σ τ : Scope} {i : Option Induction}
    {code : List Instr} (h : Layout σ (Induction.declarations i) code τ) :
    Stmt.marksAll (Induction.declarations i) σ = silent code := by
  cases i with
  | none =>
      cases h with
      | nil => rfl
  | some i =>
      rw [Induction.declarations] at h ⊢
      rw [Stmt.marksAll_singleton, Stmt.marks, h.emit_eq]

/-- There is one mark for each instruction. -/
theorem Layout.length_marks {σ τ : Scope} {ss : List Stmt} {code : List Instr}
    (h : Layout σ ss code τ) : (Stmt.marksAll ss σ).length = code.length := by
  induction h with
  | nil => rfl
  | cons hs _ ihs ihrest =>
      rw [Stmt.marksAll_singleton] at ihs
      rw [Stmt.marksAll, hs.emit_eq]
      simp [ihs, ihrest]
  | block _ ih => simpa [Stmt.marks] using ih
  | declareNone | readNone => rfl
  | declare hxs _ =>
      rw [Stmt.marksAll_singleton, Stmt.marks, (Layout.declare hxs).emit_eq,
        length_silent]
  | read ht hxs _ =>
      rw [Stmt.marksAll_singleton, Stmt.marks, (Layout.read ht hxs).emit_eq,
        length_silent]
  | write hvalues =>
      rw [Stmt.marksAll_singleton, Stmt.marks, (Layout.write hvalues).emit_eq,
        length_silent]
  | branch htest hconsequent _ iha ihb =>
      rw [Stmt.marksAll_singleton] at iha
      rw [Stmt.marksAll_toList] at ihb
      rw [Stmt.marksAll_singleton, Stmt.marks, hconsequent.emit_eq,
        htest.emit_eq, branchCode]
      simp [iha, ihb]
  | whileLoop htest _ ih =>
      rw [Stmt.marksAll_singleton] at ih
      rw [Stmt.marksAll_singleton, Stmt.marks, htest.emit_eq, loopCode]
      simp [ih]
  | forLoop hfront hinit htest hbody hstep _ ih =>
      rw [Stmt.marksAll_singleton] at ih
      rw [Stmt.marksAll_singleton, Stmt.marks, hfront.emitAll_eq, hinit.emit_eq,
        htest.emit_eq, hbody.emit_eq, hstep.emit_eq, loopCode]
      simp [ih]
  | assign hkind he =>
      rw [Stmt.marksAll_singleton, Stmt.marks, if_pos hkind,
        (Layout.assign hkind he).emit_eq, length_silent]
  | @leave σ e span code t hkind he =>
      have hlevels := he.levels_unmarked 0
      rw [Stmt.marksAll_singleton, Stmt.marks, if_neg hkind, he.emit_eq]
      rcases List.eq_nil_or_concat code with rfl | ⟨front, last, rfl⟩
      · simp at hlevels
      · simp

/-! ## Marked code piece by piece -/

/-- The code for statements with its marks. -/
def Stmt.markedAll (ss : List Stmt) (σ : Scope) : List (Instr × Bool) :=
  (Stmt.emitAll ss σ).code.zip (Stmt.marksAll ss σ)

namespace Layout

section

variable {σ τ υ : Scope} {code : List Instr}

theorem markedAll_eq {ss : List Stmt} (h : Layout σ ss code τ) :
    Stmt.markedAll ss σ = code.zip (Stmt.marksAll ss σ) := by
      rw [Stmt.markedAll, h.emitAll_eq]

theorem markedAll_of_silent {s : Stmt} (h : Layout σ [s] code τ)
    (hmarks : s.marks σ = silent (s.emit σ).code) :
    Stmt.markedAll [s] σ = unmarked code := by
  rw [h.markedAll_eq, Stmt.marksAll_singleton, hmarks, h.emit_eq, zip_silent]

theorem markedAll_cons {s : Stmt} {rest : List Stmt} (h : Layout σ (s :: rest) code τ) :
    Stmt.markedAll (s :: rest) σ =
      Stmt.markedAll [s] σ ++ Stmt.markedAll rest (s.emit σ).scope := by
  obtain ⟨front, υ, back, hs, hrest, rfl⟩ := layout_cons_iff.mp h
  rw [h.markedAll_eq, hs.markedAll_eq, hs.emit_eq, hrest.markedAll_eq, Stmt.marksAll,
    hs.emit_eq, Stmt.marksAll_singleton, List.zip_append]
  rw [← hs.length_marks, Stmt.marksAll_singleton]

theorem markedAll_block {body : List Stmt} {span : Span} (h : Layout σ body code τ) :
    Stmt.markedAll [.block body span] σ = Stmt.markedAll body σ := by
  have hall : Layout σ [.block body span] code τ := .block h
  rw [h.markedAll_eq, hall.markedAll_eq, Stmt.marksAll_singleton, Stmt.marks]

theorem markedAll_branch {condition : Expr} {consequent : Stmt}
    {alternate : Option Stmt} {span : Span} {test a b : List Instr} {t : Ty}
    (htest : Expr.Emits σ.symbols condition test t)
    (hconsequent : Layout σ.inside [consequent] a τ)
    (halternate : Layout τ alternate.toList b υ) :
    Stmt.markedAll [.branch condition consequent alternate span] σ =
      unmarked (test ++ [.jumpUnless σ.labels]) ++
        (Stmt.markedAll [consequent] σ.inside ++
        (unmarked [.jump (σ.labels + 1), .label σ.labels] ++
          (Stmt.markedAll alternate.toList τ ++
          unmarked [.label (σ.labels + 1)]))) := by
  have ha := hconsequent.length_marks
  have hb := halternate.length_marks
  rw [(Layout.branch htest hconsequent halternate).markedAll_eq,
    hconsequent.markedAll_eq, halternate.markedAll_eq]
  rw [Stmt.marksAll_singleton] at ha ⊢
  rw [Stmt.marksAll_toList] at hb ⊢
  rw [Stmt.marksAll_singleton, Stmt.marks, hconsequent.emit_eq, htest.emit_eq,
    branchCode, List.zip_append (length_silent _).symm, List.zip_cons_cons,
    List.zip_append ha.symm, List.zip_cons_cons, List.zip_cons_cons,
    List.zip_append hb.symm]
  simp

theorem markedAll_whileLoop {condition : Expr} {body : Stmt} {span : Span}
    {test : List Instr} {t : Ty} (htest : Expr.Emits σ.symbols condition test t)
    (hbody : Layout σ.inside [body] code τ) :
    Stmt.markedAll [.whileLoop condition body span] σ =
      unmarked (.label σ.labels :: (test ++ [.jumpUnless (σ.labels + 1)])) ++
        (Stmt.markedAll [body] σ.inside ++
          unmarked [.jump σ.labels, .label (σ.labels + 1)]) := by
  have hlength := hbody.length_marks
  rw [(Layout.whileLoop htest hbody).markedAll_eq, hbody.markedAll_eq]
  rw [Stmt.marksAll_singleton] at hlength ⊢
  rw [Stmt.marksAll_singleton, Stmt.marks, htest.emit_eq, loopCode, List.zip_cons_cons,
    List.zip_append (length_silent _).symm, List.zip_cons_cons,
    List.zip_append hlength.symm]
  simp

theorem markedAll_forLoop {induction : Option Induction} {init condition step : Expr}
    {body : Stmt} {span : Span} {front first test last : List Instr} {t u v : Ty}
    (hfront : Layout σ (Induction.declarations induction) front τ)
    (hinit : Expr.Emits τ.symbols init first t)
    (htest : Expr.Emits τ.symbols condition test u)
    (hbody : Layout τ.inside [body] code υ) (hstep : Expr.Emits υ.symbols step last v) :
    Stmt.markedAll [.forLoop induction init condition step body span] σ =
      unmarked (front ++ (first ++ .pop :: .label τ.labels :: (test ++
        [.jumpUnless (τ.labels + 1)]))) ++ (Stmt.markedAll [body] τ.inside ++
          unmarked (last ++ [.pop, .jump τ.labels, .label (τ.labels + 1)])) := by
  have hlength := hbody.length_marks
  rw [(Layout.forLoop hfront hinit htest hbody hstep).markedAll_eq, hbody.markedAll_eq]
  rw [Stmt.marksAll_singleton] at hlength ⊢
  rw [Stmt.marksAll_singleton, Stmt.marks, hfront.emitAll_eq, hinit.emit_eq,
    htest.emit_eq, hbody.emit_eq, hstep.emit_eq, loopCode,
    List.zip_append (length_silent _).symm, List.zip_append (length_silent _).symm,
    List.zip_cons_cons, List.zip_cons_cons, List.zip_append (length_silent _).symm,
    List.zip_cons_cons, List.append_assoc, List.zip_append hlength.symm,
    List.append_assoc, List.zip_append (length_silent _).symm]
  simp

end

/-- The code for statements starts and ends without operands. -/
theorem levels_markedAll {σ τ : Scope} {ss : List Stmt} {code : List Instr}
    (h : Layout σ ss code τ) : levels 0 (Stmt.markedAll ss σ) = some 0 := by
  induction h with
  | nil => rfl
  | cons hs hrest ihs ihrest =>
      rw [(Layout.cons hs hrest).markedAll_cons, levels_append, ihs, hs.emit_eq]
      exact ihrest
  | block hbody ih => rwa [markedAll_block hbody]
  | declareNone | readNone => rfl
  | declare hxs ih =>
      rw [markedAll_of_silent hxs (by rw [Stmt.marks])] at ih
      rw [markedAll_of_silent (.declare hxs) (by rw [Stmt.marks])]
      simp [level, pops, pushes, target?, label?, ih]
  | read ht hxs ih =>
      rw [markedAll_of_silent hxs (by rw [Stmt.marks])] at ih
      rw [markedAll_of_silent (.read ht hxs) (by rw [Stmt.marks])]
      simp [level, pops, pushes, target?, label?, ih]
  | write hvalues =>
      rw [markedAll_of_silent (.write hvalues) (by rw [Stmt.marks]), unmarked_append,
        levels_append, hvalues.levels_unmarked]
      simp [level, pops, pushes, target?, label?]
  | branch htest hconsequent halternate iha ihb =>
      rw [markedAll_branch htest hconsequent halternate]
      simp [levels_append, htest.levels_unmarked, iha, ihb, level, pops, pushes,
        target?, label?]
  | whileLoop htest hbody ih =>
      rw [markedAll_whileLoop htest hbody]
      simp [levels_append, htest.levels_unmarked, ih, level, pops, pushes,
        target?, label?]
  | forLoop hfront hinit htest hbody hstep ihfront ihbody =>
      rw [hfront.markedAll_eq, hfront.marksAll_declarations, zip_silent] at ihfront
      rw [markedAll_forLoop hfront hinit htest hbody hstep]
      simp [levels_append, ihfront, hinit.levels_unmarked, htest.levels_unmarked,
        ihbody, hstep.levels_unmarked, level, pops, pushes, target?, label?]
  | assign hkind he =>
      rw [markedAll_of_silent (.assign hkind he) (by rw [Stmt.marks, if_pos hkind]),
        unmarked_append, levels_append, he.levels_unmarked]
      simp [level, pops, pushes, target?, label?]
  | leave hkind he =>
      rw [(Layout.leave hkind he).markedAll_eq, Stmt.marksAll_singleton, Stmt.marks,
        if_neg hkind, he.emit_eq]
      exact levels_marked_last (he.levels_unmarked 0)

end Layout

end ScalarLang
