import ScalarLang.Proofs.Layout

/-!
# Programs without reports

The checker walks a program to find what is wrong with it. Where it finds nothing, the
program follows typing rules: one for each kind of expression (`Expr.HasType`) and one
for each kind of statement (`Stmt.WellTyped`, about statements in a row, as `Layout`
is). The code for expressions is made with types of its own, and these are the same; and
the environment behind statements is the one that their code leaves.

## Main results

* `Expr.Emits.hasType`: an expression that has code and no reports has the type that
  goes with the code.
* `Layout.wellTyped`: statements that have code and no reports are well typed.
-/

namespace ScalarLang

/-- Whether all variables of an environment have the same types in another. -/
def Env.Sub (env env' : Env) : Prop :=
  ∀ x t, env.find? x = some t → env'.find? x = some t

namespace Env.Sub

theorem refl (env : Env) : env.Sub env := fun _ _ h => h

theorem trans {env env' env'' : Env} (h : env.Sub env') (h' : env'.Sub env'') :
    env.Sub env'' :=
  fun x t hx => h' x t (h x t hx)

private theorem insert {env : Env} {x : String} (h : env.find? x = none) (t : Ty) :
    env.Sub (env.insert x t) := by
  intro y u hy
  rw [Table.find?_insert]
  by_cases hxy : x = y
  · subst hxy
    simp [h] at hy
  · rwa [if_neg hxy]

end Env.Sub

/-! ## Expressions -/

/-- The type of an expression without reports. -/
inductive Expr.HasType (env : Env) : Expr → Ty → Prop where
  | literal {e : Expr} {v : Value} (hv : e.literal? = some v) : HasType env e v.ty
  | symbol {name : String} {span : Span} {t : Ty} (ht : env.find? name = some t) :
      HasType env (.symbol name span) t
  | assignment {target : Ident} {value : Expr} {span : Span} {t u : Ty}
      (ht : env.find? target.name = some t) (hvalue : HasType env value u)
      (htakes : t.takes u = true) : HasType env (.assignment target value span) t
  | unary {operator : Token} {operand : Expr} {span : Span} {t result : Ty}
      (hoperand : HasType env operand t) (hrule : unaryType operator t = .ok result) :
      HasType env (.unary operator operand span) result
  | binary {l : Level} {operator : Token} {left right : Expr} {span : Span}
      {t u result : Ty}
      (hleft : HasType env left t) (hright : HasType env right u)
      (hrule : binaryType operator t u = .ok result) :
      HasType env (.binary (.level l) operator left right span) result

namespace Expr

variable {env env' : Env} {e : Expr} {t : Ty}

theorem HasType.weaken (h : HasType env e t) (hsub : env.Sub env') :
    HasType env' e t := by
  induction h with
  | literal hv => exact .literal hv
  | symbol ht => exact .symbol (hsub _ _ ht)
  | assignment ht _ htakes ih => exact .assignment (hsub _ _ ht) ih htakes
  | unary _ hrule ih => exact .unary ih hrule
  | binary _ _ hrule ihleft ihright => exact .binary ihleft ihright hrule

/-- The checker finds the type of an expression that has one. -/
theorem HasType.infer_eq (h : HasType env e t) : e.infer env = .good t := by
  induction h with
  | @literal e v hv => cases e <;> simp [literal?] at hv <;> subst hv <;> rfl
  | symbol ht => simp [infer, Env.use, ht]
  | assignment ht _ htakes ih =>
      simp [infer, ht, ih, Verdict.good, assignmentType, htakes, Verdict.ofRule]
  | unary _ hrule ih => simp [infer, ih, Verdict.good, hrule, Verdict.ofRule]
  | binary _ _ hrule ihleft ihright =>
      simp [infer, ihleft, ihright, Verdict.good, hrule, Verdict.ofRule]

theorem of_ofRule {earlier : List Diagnostic} {position : Position}
    {rule : Except Cause Ty} (h : (Verdict.ofRule earlier position rule).reports = []) :
    earlier = [] ∧ ∃ t, rule = .ok t := by
  cases rule with
  | ok t => exact ⟨h, t, rfl⟩
  | error cause => simp [Verdict.ofRule, Verdict.bad] at h

/-- The ways in which an operator between operands of two types has a type. -/
inductive BinaryRule : TokenKind → Ty → Ty → Ty → Prop where
  | arithmetic {operator : TokenKind} {t u : Ty}
      (hop : operator = .plus ∨ operator = .dash ∨ operator = .star ∨ operator = .slash)
      (ht : t.isNumeric = true) (hu : u.isNumeric = true) :
      BinaryRule operator t u (t.join u)
  | modulo : BinaryRule .percent .int .int .int
  | concat : BinaryRule .dot .string .string .string
  | comparison {operator : TokenKind} {t u : Ty}
      (hop : operator = .less ∨ operator = .greater)
      (ht : t.isNumeric = true) (hu : u.isNumeric = true) :
      BinaryRule operator t u .bool
  | equality {operator : TokenKind} {t : Ty}
      (hop : operator = .equals ∨ operator = .notEquals)
      (ht : t ≠ .bool) : BinaryRule operator t t .bool
  | connective {operator : TokenKind} (hop : operator = .and ∨ operator = .or) :
      BinaryRule operator .bool .bool .bool

theorem of_ite_eq_ok {c : Prop} [Decidable c] {t result : Ty} {cause : Cause}
    (h : (if c then Except.ok t else .error cause) = .ok result) : c ∧ t = result := by
  split at h
  · exact ⟨‹c›, Except.ok.inj h⟩
  · cases h

theorem binaryRule_of_binaryType {operator : Token} {t u result : Ty}
    (h : binaryType operator t u = .ok result) :
    BinaryRule operator.kind t u result := by
  unfold binaryType at h
  cases hkind : operator.kind <;> simp only [hkind] at h
  case plus | dash | star | slash =>
    obtain ⟨hnumeric, rfl⟩ := of_ite_eq_ok h
    rw [Bool.and_eq_true] at hnumeric
    exact .arithmetic (by simp) hnumeric.1 hnumeric.2
  case less | greater =>
    obtain ⟨hnumeric, rfl⟩ := of_ite_eq_ok h
    rw [Bool.and_eq_true] at hnumeric
    exact .comparison (by simp) hnumeric.1 hnumeric.2
  case percent =>
    obtain ⟨⟨rfl, rfl⟩, rfl⟩ := of_ite_eq_ok h
    exact .modulo
  case dot =>
    obtain ⟨⟨rfl, rfl⟩, rfl⟩ := of_ite_eq_ok h
    exact .concat
  case equals | notEquals =>
    obtain ⟨⟨rfl, ht⟩, rfl⟩ := of_ite_eq_ok h
    exact .equality (by simp) ht
  case and | or =>
    obtain ⟨⟨rfl, rfl⟩, rfl⟩ := of_ite_eq_ok h
    exact .connective (by simp)
  all_goals cases h

namespace BinaryRule

variable {operator : TokenKind} {t u result : Ty}

/-- Both operands have one type behind their conversions. -/
theorem operandType_comm (h : BinaryRule operator t u result) :
    operandType (widens operator) u t = operandType (widens operator) t u := by
  cases h with
  | arithmetic hop ht hu | comparison hop ht hu =>
      have hwidens : widens operator = true := by
        rcases hop with rfl | rfl | rfl | rfl <;> rfl
      cases t <;> cases u <;> simp_all [Ty.isNumeric, operandType]
  | modulo | concat | equality => rfl
  | connective => rfl

/-- The checker and the code agree on the type of an operator between operands. -/
theorem eq_of_operation (h : BinaryRule operator t u result) {own : List Instr}
    {result' : Ty}
    (hown : operation operator (operandType (widens operator) t u) =
      some (own, result')) :
    result' = result := by
  cases h with
  | arithmetic hop ht hu =>
      have hwidens : widens operator = true := by
        rcases hop with rfl | rfl | rfl | rfl <;> rfl
      have hresult : result' = operandType true t u := by
        rcases hop with rfl | rfl | rfl | rfl <;> simp_all [operation]
      rw [hresult]
      cases t <;> cases u <;> simp_all [Ty.isNumeric, operandType, Ty.join]
  | modulo | concat => simp_all [operation]
  | comparison hop | equality hop | connective hop =>
      rcases hop with rfl | rfl <;> simp_all [operation]

end BinaryRule

/-- An expression that has code and no reports has the type that goes with the code. -/
theorem Emits.hasType {symbols : Env} {code : List Instr} (h : Emits symbols e code t)
    (hsub : env.Sub symbols) (hreports : (e.infer env).reports = []) :
    HasType env e t := by
  have hfound : ∀ {x u v}, env.find? x = some u → symbols.find? x = some v → u = v :=
    fun hu hv => Option.some.inj ((hsub _ _ hu).symm.trans hv)
  induction h with
  | literal hv => exact .literal hv
  | @symbol name span t ht =>
      cases hx : env.find? name with
      | none => simp [infer, Env.use, hx, Verdict.bad] at hreports
      | some u =>
          obtain rfl := hfound hx ht
          exact .symbol hx
  | @assignment target value span code t u ht _ ih =>
      cases hx : env.find? target.name with
      | none => simp [infer, hx, Verdict.bad] at hreports
      | some v =>
          obtain rfl := hfound hx ht
          have hvalue : (value.infer env).reports = [] := by
            cases hty : (value.infer env).ty with
            | none => simpa [infer, hx, hty] using hreports
            | some w => exact (of_ofRule (by simpa [infer, hx, hty] using hreports)).1
          have hu := ih hvalue
          simp only [infer, hx, hu.infer_eq, Verdict.good] at hreports
          obtain ⟨-, w, hrule⟩ := of_ofRule hreports
          exact .assignment hx hu (of_ite_eq_ok hrule).1
  | @unary operator operand span code t _ ih =>
      have hoperand : (operand.infer env).reports = [] := by
        cases hty : (operand.infer env).ty with
        | none => simpa [infer, hty] using hreports
        | some w => exact (of_ofRule (by simpa [infer, hty] using hreports)).1
      have ht := ih hoperand
      simp only [infer, ht.infer_eq, Verdict.good] at hreports
      obtain ⟨-, w, hrule⟩ := of_ofRule hreports
      obtain ⟨-, rfl⟩ := of_ite_eq_ok hrule
      exact .unary ht hrule
  | @binary l operator left right span leftCode rightCode own t u result _ _ hown
      ihleft ihright =>
      have hboth : (left.infer env).reports = [] ∧ (right.infer env).reports = [] := by
        rw [← List.append_eq_nil_iff]
        cases ht : (left.infer env).ty with
        | none => simpa [infer, ht] using hreports
        | some v =>
            cases hu : (right.infer env).ty with
            | none => simpa [infer, ht, hu] using hreports
            | some w => exact (of_ofRule (by simpa [infer, ht, hu] using hreports)).1
      have ht := ihleft hboth.1
      have hu := ihright hboth.2
      simp only [infer, ht.infer_eq, hu.infer_eq, Verdict.good] at hreports
      obtain ⟨-, w, hrule⟩ := of_ofRule hreports
      obtain rfl := (binaryRule_of_binaryType hrule).eq_of_operation hown
      exact .binary ht hu hrule

/-- The type of an expression is the one that goes with its code. -/
theorem Emits.type_eq {symbols : Env} {code : List Instr} {u : Ty}
    (h : Emits symbols e code t) (hu : HasType symbols e u) : u = t := by
  have hinfer := hu.infer_eq
  have ht := (h.hasType (.refl _) (by rw [hinfer]; rfl)).infer_eq
  rw [hinfer] at ht
  exact Option.some.inj (congrArg Verdict.ty ht)

end Expr

/-! ## Statements -/

/-- The typing of statements in a row: the environment in front of them
and the one behind. -/
inductive Stmt.WellTyped : Env → List Stmt → Env → Prop where
  | nil {env : Env} : WellTyped env [] env
  | cons {env env' env'' : Env} {s next : Stmt} {rest : List Stmt}
      (hs : WellTyped env [s] env')
      (hrest : WellTyped env' (next :: rest) env'') :
      WellTyped env (s :: next :: rest) env''
  | block {env env' : Env} {body : List Stmt} {span : Span}
      (hbody : WellTyped env body env') :
      WellTyped env [.block body span] env'
  | declareNone {env : Env} {t : Ty} {span : Span} :
      WellTyped env [.declaration t [] span] env
  | declare {env env' : Env} {t : Ty} {x : Ident} {xs : List Ident} {span : Span}
      (hx : env.find? x.name = none)
      (hxs : WellTyped (env.insert x.name t) [.declaration t xs span] env') :
      WellTyped env [.declaration t (x :: xs) span] env'
  | read {env : Env} {xs : List Ident} {span : Span} : WellTyped env [.read xs span] env
  | write {env : Env} {values : List Expr} {span : Span}
      (hvalues : ∀ e ∈ values, ∃ t, e.HasType env t) :
      WellTyped env [.write values span] env
  | branch {env env' env'' : Env} {condition : Expr} {consequent : Stmt}
      {alternate : Option Stmt}
      {span : Span} (htest : condition.HasType env .bool)
      (hconsequent : WellTyped env [consequent] env')
      (halternate : WellTyped env' alternate.toList env'') :
      WellTyped env [.branch condition consequent alternate span] env''
  | whileLoop {env env' : Env} {condition : Expr} {body : Stmt} {span : Span}
      (htest : condition.HasType env .bool) (hbody : WellTyped env [body] env') :
      WellTyped env [.whileLoop condition body span] env'
  | forLoop {env env' env'' : Env} {induction : Option Induction}
      {init condition step : Expr}
      {body : Stmt} {span : Span} {t u : Ty}
      (hinduction : WellTyped env (Induction.declarations induction) env')
      (hinit : init.HasType env' t) (htest : condition.HasType env' .bool)
      (hstep : step.HasType env' u) (hbody : WellTyped env' [body] env'') :
      WellTyped env [.forLoop induction init condition step body span] env''
  | effect {env : Env} {e : Expr} {span : Span} {t : Ty} (he : e.HasType env t) :
      WellTyped env [.effect e span] env

namespace Stmt.WellTyped

variable {env env' : Env} {ss : List Stmt}

/-- Variables keep their types. -/
theorem sub (h : Stmt.WellTyped env ss env') : env.Sub env' := by
  induction h with
  | nil | declareNone | read | write | effect => exact .refl _
  | cons _ _ ihs ihrest => exact ihs.trans ihrest
  | block _ ih | whileLoop _ _ ih => exact ih
  | declare hx _ ih => exact (Env.Sub.insert hx _).trans ih
  | branch _ _ _ iha ihb => exact iha.trans ihb
  | forLoop _ _ _ _ _ ihfront ihbody => exact ihfront.trans ihbody

end Stmt.WellTyped

namespace Stmt

variable {env env' : Env}

theorem checkAll_singleton (env : Env) (s : Stmt) : checkAll env [s] = s.check env := by
  simp [checkAll]

theorem checkAll_toList (env : Env) (s : Option Stmt) :
    checkAll env s.toList = checkOption env s := by
  cases s <;> simp [checkAll, checkOption]

theorem checkAll_cons (env : Env) (s : Stmt) (rest : List Stmt) :
    checkAll env (s :: rest) = ((checkAll (s.check env).1 rest).1,
      (s.check env).2 ++ (checkAll (s.check env).1 rest).2) := rfl

theorem checkAll_declarations (env : Env) (i : Option Induction) :
    checkAll env (Induction.declarations i) =
      match i with
      | none => (env, [])
      | some ⟨t, target⟩ => env.declare t target := by
  cases i with
  | none => rfl
  | some i => simp [Induction.declarations, checkAll, check, Env.declareAll]

theorem check_branch (env : Env) (condition : Expr) (consequent : Stmt)
    (alternate : Option Stmt) (span : Span) :
    check env (.branch condition consequent alternate span) =
      ((checkOption (check env consequent).1 alternate).1,
        condition.checkCondition env "if" ++ (check env consequent).2 ++
          (checkOption (check env consequent).1 alternate).2) := by
  rw [check]

/-- The variable of a loop is checked like any other declaration. -/
theorem check_forLoop (env : Env) (induction : Option Induction)
    (init condition step : Expr) (body : Stmt) (span : Span) :
    check env (.forLoop induction init condition step body span) =
      ((check (checkAll env (Induction.declarations induction)).1 body).1,
        (checkAll env (Induction.declarations induction)).2 ++
          (init.infer (checkAll env (Induction.declarations induction)).1).reports ++
          condition.checkCondition
            (checkAll env (Induction.declarations induction)).1 "for" ++
          (step.infer (checkAll env (Induction.declarations induction)).1).reports ++
          (check (checkAll env (Induction.declarations induction)).1 body).2) := by
  rw [checkAll_declarations]
  cases induction with
  | none => rfl
  | some i => rfl

/-- The checker leaves the environment that is behind statements by the rules. -/
theorem WellTyped.checkAll_fst {ss : List Stmt} (h : WellTyped env ss env') :
    (checkAll env ss).1 = env' := by
  induction h with
  | nil | declareNone => rfl
  | cons _ _ ihs ihrest =>
      rw [checkAll_singleton] at ihs
      rw [checkAll_cons, ihs]
      exact ihrest
  | block _ ih =>
      rw [checkAll_singleton, check]
      exact ih
  | @declare env env' t x xs span hx _ ih =>
      rw [checkAll_singleton, check] at ih ⊢
      simpa [Env.declareAll, Env.declare, Table.contains, hx] using ih
  | read | write | effect => rw [checkAll_singleton, check]
  | branch _ _ _ iha ihb =>
      rw [checkAll_singleton] at iha
      rw [checkAll_toList] at ihb
      rw [checkAll_singleton, check_branch, iha]
      exact ihb
  | whileLoop _ _ ih =>
      rw [checkAll_singleton] at ih ⊢
      rw [check]
      exact ih
  | forLoop _ _ _ _ _ ihfront ihbody =>
      rw [checkAll_singleton] at ihbody ⊢
      rw [check_forLoop, ihfront]
      exact ihbody

end Stmt

private theorem Expr.Emits.hasType_of_checkCondition {env symbols : Env} {e : Expr}
    {code : List Instr} {t : Ty} {construct : String} (h : Emits symbols e code t)
    (hsub : env.Sub symbols) (hreports : e.checkCondition env construct = []) :
    HasType env e .bool := by
  have hnone : (e.infer env).reports = [] := by
    simp only [checkCondition] at hreports
    split at hreports
    · exact hreports
    · exact hreports
    · exact (List.append_eq_nil_iff.mp hreports).1
  have ht := h.hasType hsub hnone
  cases t with
  | bool => exact ht
  | int | float | string =>
      simp [checkCondition, ht.infer_eq, Verdict.good] at hreports

private theorem Expr.EmitsAll.hasType {symbols : Env} {values : List Expr}
    {code : List Instr} (h : EmitsAll symbols values code)
    (hreports : (values.flatMap fun e => (e.infer symbols).reports) = []) :
    ∀ e ∈ values, ∃ t, HasType symbols e t := by
  induction h with
  | nil => simp
  | @cons e rest front back t he _ ih =>
      rw [List.flatMap_cons, List.append_eq_nil_iff] at hreports
      intro e' he'
      rcases List.mem_cons.mp he' with rfl | he'
      · exact ⟨t, he.hasType (.refl _) hreports.1⟩
      · exact ih hreports.2 e' he'

/-- Statements that have code and no reports are well typed. -/
theorem Layout.wellTyped {σ τ : Scope} {ss : List Stmt} {code : List Instr}
    (h : Layout σ ss code τ) (hreports : (Stmt.checkAll σ.symbols ss).2 = []) :
    Stmt.WellTyped σ.symbols ss τ.symbols := by
  induction h with
  | nil => exact .nil
  | cons hs hrest ihs ihrest =>
      rw [Stmt.checkAll_cons, List.append_eq_nil_iff, ← Stmt.checkAll_singleton]
        at hreports
      have hfront := ihs hreports.1
      rw [hfront.checkAll_fst] at hreports
      exact .cons hfront (ihrest hreports.2)
  | block _ ih =>
      rw [Stmt.checkAll_singleton, Stmt.check] at hreports
      exact .block (ih hreports)
  | declareNone => exact .declareNone
  | @declare σ τ t x xs span code hxs ih =>
      rw [Stmt.checkAll_singleton, Stmt.check] at hreports ih
      cases hx : σ.symbols.find? x.name with
      | none =>
          refine .declare hx (ih ?_)
          simpa [Env.declareAll, Env.declare, Table.contains, hx, Scope.declare]
            using hreports
      | some u => simp [Env.declareAll, Env.declare, Table.contains, hx] at hreports
  | readNone => exact .read
  | read _ hxs _ =>
      obtain ⟨rfl, -⟩ := hxs.read_eq
      exact .read
  | write hvalues =>
      rw [Stmt.checkAll_singleton, Stmt.check] at hreports
      exact .write (hvalues.hasType hreports)
  | branch htest hconsequent halternate iha ihb =>
      rw [Stmt.checkAll_singleton] at iha
      rw [Stmt.checkAll_toList] at ihb
      rw [Stmt.checkAll_singleton, Stmt.check_branch, List.append_eq_nil_iff,
        List.append_eq_nil_iff] at hreports
      have ha := iha hreports.1.2
      have henv := ha.checkAll_fst
      rw [Stmt.checkAll_singleton] at henv
      have hb := ihb (henv ▸ hreports.2)
      exact .branch (htest.hasType_of_checkCondition (.refl _) hreports.1.1) ha hb
  | whileLoop htest hbody ih =>
      rw [Stmt.checkAll_singleton] at ih hreports
      rw [Stmt.check, List.append_eq_nil_iff] at hreports
      exact .whileLoop (htest.hasType_of_checkCondition (.refl _) hreports.1)
        (ih hreports.2)
  | forLoop hfront hinit htest hbody hstep ihfront ihbody =>
      rw [Stmt.checkAll_singleton] at ihbody hreports
      simp only [Stmt.check_forLoop, List.append_eq_nil_iff] at hreports
      obtain ⟨⟨⟨⟨h₁, h₂⟩, h₃⟩, h₄⟩, h₅⟩ := hreports
      have hbefore := ihfront h₁
      rw [hbefore.checkAll_fst] at h₂ h₃ h₄ h₅
      have hinner := ihbody h₅
      exact .forLoop hbefore (hinit.hasType (.refl _) h₂)
        (htest.hasType_of_checkCondition (.refl _) h₃)
        (hstep.hasType hinner.sub h₄) hinner
  | assign hkind he | leave hkind he =>
      rw [Stmt.checkAll_singleton, Stmt.check] at hreports
      exact .effect (he.hasType (.refl _) hreports)

/-- The environment behind statements by the typing rules is the one that
their code leaves. -/
theorem Layout.symbols_eq {σ τ : Scope} {ss : List Stmt} {code : List Instr} {env : Env}
    (h : Layout σ ss code τ) (hwt : Stmt.WellTyped σ.symbols ss env) :
    env = τ.symbols := by
  induction h generalizing env with
  | nil | declareNone | readNone | write | assign | leave => cases hwt; rfl
  | cons _ _ ihs ihrest =>
      cases hwt with
      | cons hs hrest =>
          obtain rfl := ihs hs
          exact ihrest hrest
  | block _ ih =>
      cases hwt with
      | block hbody => exact ih hbody
  | declare _ ih =>
      cases hwt with
      | declare _ hxs => exact ih hxs
  | read _ hxs _ =>
      obtain ⟨rfl, -⟩ := hxs.read_eq
      cases hwt with
      | read => rfl
  | branch _ _ _ iha ihb =>
      cases hwt with
      | branch _ ha hb =>
          obtain rfl := iha ha
          exact ihb hb
  | whileLoop _ _ ih =>
      cases hwt with
      | whileLoop _ hbody => exact ih hbody
  | forLoop _ _ _ _ _ ihfront ihbody =>
      cases hwt with
      | forLoop hfront _ _ _ hbody =>
          obtain rfl := ihfront hfront
          exact ihbody hbody

/-- The types that a program declares its variables with. -/
def Program.types (p : Program) : Env := (Stmt.checkAll .empty p.body).1

end ScalarLang
