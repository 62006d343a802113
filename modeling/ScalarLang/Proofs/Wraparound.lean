import ScalarLang.Proofs.Correctness

/-!
# Arithmetic wraps once

The arithmetic of ints wraps after each operation. For sums, differences, products and
opposites this is as good as calculating without bounds and wrapping in the end, since
taking the remainder by 2³² is compatible with each of them (`Int32.ofInt_add` and its
like). So an expression made of these operations, whatever its size and shape, has the
one int for its value that is congruent to its value over the integers
(`Expr.unbounded`); there is nothing on the way that could fail.

## Main results

* `Expr.Polynomial.eval_eq`: evaluation gives the unbounded value, wrapped once.
* `Expr.Polynomial.run_wraps`: and so does running the code of the expression.
-/

namespace ScalarLang

open Machine Evaluator

/-- Whether an operator between operands adds, subtracts or multiplies. -/
def TokenKind.OfRing (k : TokenKind) : Prop := k = plus ∨ k = dash ∨ k = star

namespace Expr

/-! ## The expressions and their values -/

/-- Whether an expression is built from int literals and variables with sums,
differences, products and opposites. -/
inductive Polynomial : Expr → Prop
  | int {n : Int32} {span : Span} : Polynomial (.int n span)
  | symbol {name : String} {span : Span} : Polynomial (.symbol name span)
  | opposite {operator : Token} {operand : Expr} {span : Span}
      (hoperator : operator.kind = .dash)
      (hoperand : Polynomial operand) : Polynomial (.unary operator operand span)
  | binary {l : Level} {operator : Token} {left right : Expr} {span : Span}
      (hoperator : operator.kind.OfRing)
      (hleft : Polynomial left) (hright : Polynomial right) :
      Polynomial (.binary (.level l) operator left right span)

/-- The variables that occur in an expression. -/
def names : Expr → List String
  | symbol name _ => [name]
  | assignment target value _ => target.name :: value.names
  | unary _ operand _ => operand.names
  | binary _ _ left right _ => left.names ++ right.names
  | _ => []

/-- The value of such an expression over the integers, which have no bounds. -/
def unbounded (ints : String → Int32) : Expr → Int
  | int n _ => n.toInt
  | symbol name _ => (ints name).toInt
  | unary _ operand _ => -operand.unbounded ints
  | binary _ operator left right _ =>
    match operator.kind with
    | .plus => left.unbounded ints + right.unbounded ints
    | .dash => left.unbounded ints - right.unbounded ints
    | .star => left.unbounded ints * right.unbounded ints
    | _ => 0
  | _ => 0

/-- The value of an operator between ints is that over the integers, wrapped. -/
theorem operate_eq {operator : Token} (hoperator : operator.kind.OfRing)
    (ints : String → Int32) (label : ExprKind) (left right : Expr) (span : Span) :
    (Value.int (.ofInt (left.unbounded ints))).operate operator.kind .int
      (.int (.ofInt (right.unbounded ints))) =
      .ok (.int (.ofInt ((binary label operator left right span).unbounded ints))) := by
  rcases hoperator with hkind | hkind | hkind
  · rw [unbounded, hkind, Int32.ofInt_add]
    rfl
  · rw [unbounded, hkind, Int32.ofInt_sub]
    rfl
  · rw [unbounded, hkind, Int32.ofInt_mul]
    rfl

namespace Polynomial

variable {e : Expr} {symbols : Env} {ints : String → Int32} {s : State}

/-! ## Types and code -/

private theorem hasType (h : e.Polynomial)
    (hsymbols : ∀ x ∈ e.names, symbols.find? x = some .int) :
    HasType symbols e .int := by
  induction h with
  | @int n span => exact .literal (v := .int n) rfl
  | @symbol name span => exact .symbol (hsymbols name (List.mem_singleton_self name))
  | @opposite operator operand span hoperator _ ih =>
      have hrule : unaryType operator .int = .ok .int := if_pos (.inl ⟨hoperator, rfl⟩)
      exact .unary (ih hsymbols) hrule
  | @binary l operator left right span hoperator _ _ ihleft ihright =>
      have hrule : binaryType operator .int .int = .ok .int := by
        unfold binaryType
        rcases hoperator with hkind | hkind | hkind <;> rw [hkind] <;> rfl
      have hnames := List.forall_mem_append.mp hsymbols
      exact .binary (ihleft hnames.1) (ihright hnames.2) hrule

private theorem exists_emits (h : e.Polynomial)
    (hsymbols : ∀ x ∈ e.names, symbols.find? x = some .int) :
    ∃ c, Emits symbols e c .int := by
  induction h with
  | @int n span => exact ⟨[.push (.int n)], .literal (v := .int n) rfl⟩
  | @symbol name span =>
      exact ⟨[.load name], .symbol (hsymbols name (List.mem_singleton_self name))⟩
  | @opposite operator operand span _ _ ih =>
      obtain ⟨c, hc⟩ := ih hsymbols
      exact ⟨_, .unary hc⟩
  | @binary l operator left right span hoperator _ _ ihleft ihright =>
      have hnames := List.forall_mem_append.mp hsymbols
      obtain ⟨leftCode, hleft⟩ := ihleft hnames.1
      obtain ⟨rightCode, hright⟩ := ihright hnames.2
      have hoperation : ∃ own,
          operation operator.kind (operandType (widens operator.kind) .int .int) =
          some (own, .int) := by
        rcases hoperator with hkind | hkind | hkind <;> rw [hkind] <;> exact ⟨_, rfl⟩
      obtain ⟨own, hown⟩ := hoperation
      exact ⟨_, .binary hleft hright hown⟩

/-! ## Evaluation -/

/-- Evaluation gives the value over the integers, wrapped once, and changes nothing. -/
theorem eval_eq (h : e.Polynomial)
    (hsymbols : ∀ x ∈ e.names, symbols.find? x = some .int)
    (hstore : ∀ x ∈ e.names, s.store.find? x = some (.int (ints x))) :
    e.eval symbols s = (.ok (.int (.ofInt (e.unbounded ints))), s) := by
  induction h with
  | @int n span =>
      rw [unbounded, Int32.ofInt_toInt]
      rfl
  | @symbol name span =>
      rw [eval, valueOf, hstore name (List.mem_singleton_self name), unbounded,
        Int32.ofInt_toInt]
      rfl
  | @opposite operator operand span hoperator hoperand ih =>
      have hty := (hoperand.hasType hsymbols).typeIn_eq
      rw [eval, bind_apply, ih hsymbols hstore, hty, unbounded,
        Int32.ofInt_neg, hoperator]
      rfl
  | @binary l operator left right span hoperator hleft hright ihleft ihright =>
      have hnames := List.forall_mem_append.mp hsymbols
      have hvalues := List.forall_mem_append.mp hstore
      have hlefty := (hleft.hasType hnames.1).typeIn_eq
      have hrighty := (hright.hasType hnames.2).typeIn_eq
      -- Neither operand is converted, as both are ints.
      have hoperands :
          (Expr.binary (.level l) operator left right span).eval symbols s =
            ofExcept ((Value.int (.ofInt (left.unbounded ints))).operate operator.kind
              .int (.int (.ofInt (right.unbounded ints)))) s := by
        rw [eval, hlefty, hrighty, bind_apply, ihleft hnames.1 hvalues.1]
        show ((right.eval symbols >>= fun r =>
          ofExcept (r.convert .int .int) >>= fun r =>
          ofExcept ((Value.int (.ofInt (left.unbounded ints))).operate operator.kind
            .int r)) s) = _
        rw [bind_apply, ihright hnames.2 hvalues.2]
        rfl
      rw [hoperands, operate_eq hoperator ints (.level l) left right span]
      rfl

end Polynomial

/-! ## Running the code -/

/-- The remainder of an int that was wrapped is that of the integer. -/
theorem toInt_ofInt_emod (k : Int) :
    (Int32.ofInt k).toInt % 4294967296 = k % 4294967296 := by
  rw [Int32.toInt_ofInt]
  exact Int.bmod_emod

/-- The code of an expression made of sums, differences, products and opposites of ints,
standing anywhere in other code and executed with any ints in its variables, leaves the
one int that is congruent modulo 2³² to the value of the expression over the integers,
and changes nothing else. -/
theorem Polynomial.run_wraps {e : Expr} (h : e.Polynomial) {symbols : Env}
    (hsymbols : ∀ x ∈ e.names, symbols.find? x = some .int) :
    ∃ c, e.emit symbols = ⟨c, .ok .int⟩ ∧
      ∀ (code : Code) (policy : Policy) (m : Machine) (ints : String → Int32),
        code.Holds m.ip c → (∀ x ∈ e.names, m.store.find? x = some (.int (ints x))) →
          ∃ n : Int32, -2147483648 ≤ n.toInt ∧ n.toInt < 2147483648 ∧
            n.toInt % 4294967296 = e.unbounded ints % 4294967296 ∧
            ∃ steps, runFor code policy steps m = .running
              { m with ip := m.ip + c.length, stack := .int n :: m.stack } := by
  obtain ⟨c, hc⟩ := h.exists_emits hsymbols
  refine ⟨c, hc.emit_eq, ?_⟩
  intro code policy m ints hcode hstore
  let n := Int32.ofInt (e.unbounded ints)
  refine ⟨n, n.minValue_le_toInt, n.toInt_lt, toInt_ofInt_emod _, ?_⟩
  -- All that is on the stack before counts as left for good.
  let s : State := ⟨m.store, m.console, m.stack⟩
  have hsimulates :
      Simulates code policy 0 m.ip [] (e.eval symbols) (m.ip + c.length) fun v => [v] :=
    hc.simulates (h.hasType hsymbols) (.refl symbols) hcode
  have hruns := hsimulates s
  have heval : e.eval symbols s = (.ok (.int n), s) := h.eval_eq hsymbols hstore
  rw [heval] at hruns
  exact hruns

/-- A product beyond 2⁶², and one of the least int, wrap to a sum that wraps again. -/
theorem run_wraps_past_products :
    ∃ tokens e s s', Token.scan "t" "a * a + -2147483648 * 3;" = .ok tokens ∧
      Program.ofTokens "t" tokens = .ok ⟨[.effect e s], s'⟩ ∧ e.Polynomial ∧
      e.unbounded (fun _ => 2147483647) = 4611686007689969665 ∧
      ∃ c, e.emit (Table.empty.insert "a" .int) = ⟨c, .ok .int⟩ ∧
        ∃ steps, runFor (.ofList c) ⟨true⟩ steps
            ⟨0, [], Table.empty.insert "a" (.int 2147483647), .ofInput [] none⟩ =
          .running ⟨c.length, [.int (-2147483647)],
            Table.empty.insert "a" (.int 2147483647), .ofInput [] none⟩ := by
  obtain ⟨tokens, hscan⟩ :
      ∃ tokens, Token.scan "t" "a * a + -2147483648 * 3;" = .ok tokens := ⟨_, rfl⟩
  obtain ⟨e, s, s', hread, hpolynomial, hnames, hvalue⟩ : ∃ e s s',
      Program.ofTokens "t" tokens = .ok ⟨[.effect e s], s'⟩ ∧ e.Polynomial ∧
      e.names = ["a", "a"] ∧
        e.unbounded (fun _ => 2147483647) = 4611686007689969665 := by
    cases hscan
    refine ⟨_, _, _, rfl, ?_, rfl, rfl⟩
    exact .binary (.inl rfl) (.binary (.inr (.inr rfl)) .symbol .symbol)
      (.binary (.inr (.inr rfl)) .int .int)
  have hall {ν : Type} (v : ν) :
      ∀ x ∈ e.names, (Table.empty.insert "a" v).find? x = some v := by
    rw [hnames]
    simp [Table.find?_insert]
  obtain ⟨c, hc, hruns⟩ := hpolynomial.run_wraps (hall Ty.int)
  obtain ⟨n, hlow, hhigh, hcongr, steps, hrun⟩ := hruns (.ofList c) ⟨true⟩
    ⟨0, [], Table.empty.insert "a" (.int 2147483647),
      .ofInput [] none⟩ (fun _ => 2147483647) (Code.holds_ofList c)
    (hall (Value.int 2147483647))
  have hn : n = -2147483647 := by
    apply Int32.toInt_inj.mp
    rw [hvalue] at hcongr
    show n.toInt = -2147483647
    omega
  refine ⟨tokens, e, s, s', hscan, hread, hpolynomial, hvalue, c, hc, steps, ?_⟩
  rw [hrun, hn, Nat.zero_add]

end Expr

end ScalarLang
