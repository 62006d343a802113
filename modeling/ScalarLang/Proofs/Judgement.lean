import ScalarLang.Proofs.Parsing
import ScalarLang.Proofs.WellTyped

/-!
# The type system as a judgement

The rules of typing can be said without saying how they are checked: `Expr.Derives env e
t` and `Stmt.Derives env s env'` have one rule for each construct and mention no
verdict, no report and no order in which things are looked at. The environment is
threaded through the statements; a declaration is possible only of a variable that is
not in it yet, a use only of one that is.

The checker decides this judgement. For expressions there are three facts: an expression
that has a type by the rules gets it from the checker, an expression without reports has
a type by the rules, and so no expression has two. Where an operand has no type the
checker keeps silent about what is around it, so that the second fact needs the first
one for the operands: no reports on an operand mean that it has a type. Statements are
taken one construct after the other, in the same form for all: the checker leaves an
environment and no reports exactly where the judgement leads to that environment.

The checker goes by the labels of trees, which the rules do not know, so all this is
about the trees that a text can have.

## Main results

* `Expr.infer_eq_good_iff`: the checker finds the type that the rules give.
* `Stmt.checkAll_eq_iff`: statements have no reports if and only if they
  follow the rules.
* `Program.check_decides`: the checker decides the judgement for programs.
-/

namespace ScalarLang

/-! ## The rules -/

/-- Whether a value of the first type can stand where one of the second is due. -/
inductive Ty.Converts : Ty → Ty → Prop where
  | refl {t : Ty} : Converts t t
  | widen : Converts .int .float

/-- The types that an operator between operands takes, and the type of its result.
Numbers are brought to the type of one of them. -/
inductive Ty.Combines : TokenKind → Ty → Ty → Ty → Prop where
  | arithmetic {operator : TokenKind} {t u result : Ty}
      (hop : operator = .plus ∨ operator = .dash ∨ operator = .star ∨ operator = .slash)
      (hresult : result = t ∨ result = u) (hnumeric : result = .int ∨ result = .float)
      (ht : t.Converts result) (hu : u.Converts result) : Combines operator t u result
  | remainder : Combines .percent .int .int .int
  | concat : Combines .dot .string .string .string
  | comparison {operator : TokenKind} {t u common : Ty}
      (hop : operator = .less ∨ operator = .greater)
      (hnumeric : common = .int ∨ common = .float) (ht : t.Converts common)
      (hu : u.Converts common) :
      Combines operator t u .bool
  | equality {operator : TokenKind} {t : Ty}
      (hop : operator = .equals ∨ operator = .notEquals)
      (ht : t ≠ .bool) : Combines operator t t .bool
  | connective {operator : TokenKind} (hop : operator = .and ∨ operator = .or) :
      Combines operator .bool .bool .bool

/-- The typing of expressions. -/
inductive Expr.Derives (env : Env) : Expr → Ty → Prop where
  | int {n : Int32} {span : Span} : Derives env (.int n span) .int
  | float {x : Float} {span : Span} : Derives env (.float x span) .float
  | bool {b : Bool} {span : Span} : Derives env (.bool b span) .bool
  | string {s : String} {span : Span} : Derives env (.string s span) .string
  | symbol {name : String} {span : Span} {t : Ty} (ht : env.find? name = some t) :
      Derives env (.symbol name span) t
  | assignment {target : Ident} {value : Expr} {span : Span} {t u : Ty}
      (ht : env.find? target.name = some t) (hvalue : Derives env value u)
      (hconverts : u.Converts t) :
      Derives env (.assignment target value span) t
  | opposite {operator : Token} {operand : Expr} {span : Span} {t : Ty}
      (hop : operator.kind = .dash)
      (hoperand : Derives env operand t) (hnumeric : t = .int ∨ t = .float) :
      Derives env (.unary operator operand span) t
  | not {operator : Token} {operand : Expr} {span : Span} (hop : operator.kind = .not)
      (hoperand : Derives env operand .bool) :
      Derives env (.unary operator operand span) .bool
  | binary {label : ExprKind} {operator : Token} {left right : Expr} {span : Span}
      {t u result : Ty}
      (hleft : Derives env left t) (hright : Derives env right u)
      (hcombines : Ty.Combines operator.kind t u result) :
      Derives env (.binary label operator left right span) result

/-- The declaration of variables, each of them for the first time. -/
inductive Env.Declares (t : Ty) : Env → List Ident → Env → Prop where
  | nil {env : Env} : Declares t env [] env
  | cons {env env' : Env} {x : Ident} {xs : List Ident} (hx : env.find? x.name = none)
      (hxs : Declares t (env.insert x.name t) xs env') : Declares t env (x :: xs) env'

mutual

/-- The typing of a statement: the environment in front of it and the one behind. -/
inductive Stmt.Derives : Env → Stmt → Env → Prop where
  | block {env env' : Env} {body : List Stmt} {span : Span}
      (hbody : Stmt.DerivesAll env body env') :
      Stmt.Derives env (.block body span) env'
  | declaration {env env' : Env} {t : Ty} {idents : List Ident} {span : Span}
      (hidents : Env.Declares t env idents env') :
      Stmt.Derives env (.declaration t idents span) env'
  | read {env : Env} {idents : List Ident} {span : Span}
      (hidents : ∀ x ∈ idents, ∃ t, env.find? x.name = some t) :
      Stmt.Derives env (.read idents span) env
  | write {env : Env} {values : List Expr} {span : Span}
      (hvalues : ∀ e ∈ values, ∃ t, e.Derives env t) :
      Stmt.Derives env (.write values span) env
  | branch {env env' env'' : Env} {condition : Expr} {consequent : Stmt}
      {alternate : Option Stmt}
      {span : Span} (htest : condition.Derives env .bool)
      (hconsequent : Stmt.Derives env consequent env')
      (halternate : Stmt.DerivesAll env' alternate.toList env'') :
      Stmt.Derives env (.branch condition consequent alternate span) env''
  | whileLoop {env env' : Env} {condition : Expr} {body : Stmt} {span : Span}
      (htest : condition.Derives env .bool) (hbody : Stmt.Derives env body env') :
      Stmt.Derives env (.whileLoop condition body span) env'
  | forLoop {env env' env'' : Env} {induction : Option Induction}
      {init condition step : Expr}
      {body : Stmt} {span : Span} {t u : Ty}
      (hinduction : Stmt.DerivesAll env (Induction.declarations induction) env')
      (hinit : init.Derives env' t) (htest : condition.Derives env' .bool)
      (hstep : step.Derives env' u) (hbody : Stmt.Derives env' body env'') :
      Stmt.Derives env (.forLoop induction init condition step body span) env''
  | effect {env : Env} {e : Expr} {span : Span} {t : Ty} (he : e.Derives env t) :
      Stmt.Derives env (.effect e span) env

/-- The typing of statements in a row. -/
inductive Stmt.DerivesAll : Env → List Stmt → Env → Prop where
  | nil {env : Env} : Stmt.DerivesAll env [] env
  | cons {env env' env'' : Env} {s : Stmt} {rest : List Stmt}
      (hs : Stmt.Derives env s env')
      (hrest : Stmt.DerivesAll env' rest env'') : Stmt.DerivesAll env (s :: rest) env''

end

/-! ## Operators -/

theorem Ty.converts_iff {t u : Ty} : u.Converts t ↔ t.takes u = true := by
  constructor
  · intro h
    cases h <;> simp [takes]
  · intro h
    cases t <;> cases u <;> first | exact .refl | exact .widen | cases h

private theorem Ty.isNumeric_iff {t : Ty} :
    t.isNumeric = true ↔ t = .int ∨ t = .float := by
  cases t <;> simp [isNumeric]

/-- Two numbers meet in the type of one of them. -/
theorem Ty.converts_join {t u : Ty} (ht : t.isNumeric = true)
    (hu : u.isNumeric = true) :
    t.Converts (t.join u) ∧ u.Converts (t.join u) ∧ (t.join u = t ∨ t.join u = u) ∧
      (t.join u = .int ∨ t.join u = .float) := by
  cases t <;> cases u <;> simp_all [isNumeric, join, converts_iff, takes]

private theorem Ty.Combines.of_binaryRule {operator : TokenKind} {t u result : Ty}
    (h : Expr.BinaryRule operator t u result) : Combines operator t u result := by
  cases h with
  | arithmetic hop ht hu =>
      obtain ⟨hleft, hright, hresult, hnumeric⟩ := Ty.converts_join ht hu
      exact .arithmetic hop hresult hnumeric hleft hright
  | modulo => exact .remainder
  | concat => exact .concat
  | comparison hop ht hu =>
      obtain ⟨hleft, hright, -, hnumeric⟩ := Ty.converts_join ht hu
      exact .comparison hop hnumeric hleft hright
  | equality hop ht => exact .equality hop ht
  | connective hop => exact .connective hop

theorem Ty.Combines.binaryType_eq {operator : Token} {t u result : Ty}
    (h : Combines operator.kind t u result) : binaryType operator t u = .ok result := by
  obtain ⟨kind, value, span⟩ := operator
  cases h with
  | arithmetic hop hresult hnumeric ht hu =>
      rcases hop with rfl | rfl | rfl | rfl <;>
        rcases hnumeric with rfl | rfl <;> cases ht <;>
        cases hu <;> simp_all [binaryType, isNumeric, join]
  | remainder | concat => simp [binaryType]
  | comparison hop hnumeric ht hu =>
      rcases hop with rfl | rfl <;> rcases hnumeric with rfl | rfl <;>
        cases ht <;> cases hu <;>
        simp [binaryType, isNumeric]
  | equality hop ht => rcases hop with rfl | rfl <;> simp [binaryType, ht]
  | connective hop => rcases hop with rfl | rfl <;> simp [binaryType]

/-- The checker's rule for an operator between operands is the one of the judgement. -/
theorem binaryType_eq_ok_iff {operator : Token} {t u result : Ty} :
    binaryType operator t u = .ok result ↔ Ty.Combines operator.kind t u result :=
  ⟨fun h => .of_binaryRule (Expr.binaryRule_of_binaryType h), Ty.Combines.binaryType_eq⟩

theorem unaryType_eq_ok_iff {operator : Token} {t result : Ty} :
    unaryType operator t = .ok result ↔
      (operator.kind = .dash ∧ (t = .int ∨ t = .float) ∨
        operator.kind = .not ∧ t = .bool) ∧ result = t := by
  rw [← Ty.isNumeric_iff]
  unfold unaryType
  constructor
  · intro h
    obtain ⟨hrule, rfl⟩ := Expr.of_ite_eq_ok h
    exact ⟨hrule, rfl⟩
  · rintro ⟨hrule, rfl⟩
    exact if_pos hrule

private theorem assignmentType_eq_ok_iff {name : String} {t u result : Ty} :
    assignmentType name t u = .ok result ↔ u.Converts t ∧ result = t := by
  rw [Ty.converts_iff]
  unfold assignmentType
  constructor
  · intro h
    obtain ⟨htakes, rfl⟩ := Expr.of_ite_eq_ok h
    exact ⟨htakes, rfl⟩
  · rintro ⟨htakes, rfl⟩
    exact if_pos htakes

/-! ## Expressions -/

namespace Expr

variable {L : Lexicon} {env : Env} {e : Expr} {t u : Ty}

/-- What the checker's own rules give follows by the judgement. -/
theorem HasType.derives (h : HasType env e t) : Derives env e t := by
  induction h with
  | @literal e v hv => cases e <;> simp [literal?] at hv <;> subst hv <;> constructor
  | symbol ht => exact .symbol ht
  | assignment ht _ htakes ih => exact .assignment ht ih (Ty.converts_iff.mpr htakes)
  | unary _ hrule ih =>
      obtain ⟨hkind, rfl⟩ := unaryType_eq_ok_iff.mp hrule
      rcases hkind with ⟨hop, hnumeric⟩ | ⟨hop, rfl⟩
      · exact .opposite hop ih hnumeric
      · exact .not hop ih
  | binary _ _ hrule ihleft ihright =>
      exact .binary ihleft ihright (binaryType_eq_ok_iff.mp hrule)

/-- On the trees that a text can have the judgement gives nothing else. -/
theorem Derives.hasType (h : Derives env e t) (hg : e.Grammatical L) :
    HasType env e t := by
  induction h with
  | int => exact .literal (v := .int _) rfl
  | float => exact .literal (v := .float _) rfl
  | bool => exact .literal (v := .bool _) rfl
  | string => exact .literal (v := .string _) rfl
  | symbol ht => exact .symbol ht
  | assignment ht _ hconverts ih =>
      cases hg with
      | assignment _ hvalue =>
          exact .assignment ht (ih hvalue) (Ty.converts_iff.mp hconverts)
  | opposite hop _ hnumeric ih =>
      cases hg with
      | unary hoperand =>
          exact .unary (ih hoperand)
            (unaryType_eq_ok_iff.mpr ⟨.inl ⟨hop, hnumeric⟩, rfl⟩)
  | not hop _ ih =>
      cases hg with
      | unary hoperand =>
          exact .unary (ih hoperand) (unaryType_eq_ok_iff.mpr ⟨.inr ⟨hop, rfl⟩, rfl⟩)
  | binary _ _ hcombines ihleft ihright =>
      cases hg with
      | binary _ hleft hright =>
          exact .binary (ihleft hleft) (ihright hright)
            (binaryType_eq_ok_iff.mpr hcombines)

/-! ### Reports on operands are reports on the whole -/

private theorem reports_value {target : Ident} {value : Expr} {span : Span}
    (h : ((assignment target value span).infer env).reports = []) :
    (value.infer env).reports = [] := by
  cases hx : env.find? target.name with
  | none => simp [infer, hx, Verdict.bad] at h
  | some t =>
      cases hty : (value.infer env).ty with
      | none => simpa [infer, hx, hty] using h
      | some u => exact (of_ofRule (by simpa [infer, hx, hty] using h)).1

private theorem reports_operand {operator : Token} {operand : Expr} {span : Span}
    (h : ((unary operator operand span).infer env).reports = []) :
    (operand.infer env).reports = [] := by
  cases hty : (operand.infer env).ty with
  | none => simpa [infer, hty] using h
  | some u => exact (of_ofRule (by simpa [infer, hty] using h)).1

private theorem reports_operands {l : Level} {operator : Token} {left right : Expr}
    {span : Span}
    (h : ((binary (.level l) operator left right span).infer env).reports = []) :
    (left.infer env).reports = [] ∧ (right.infer env).reports = [] := by
  rw [← List.append_eq_nil_iff]
  cases ht : (left.infer env).ty with
  | none => simpa [infer, ht] using h
  | some t =>
      cases hu : (right.infer env).ty with
      | none => simpa [infer, ht, hu] using h
      | some u => exact (of_ofRule (by simpa [infer, ht, hu] using h)).1

/-- An expression without reports has a type. -/
theorem exists_hasType (hg : e.Grammatical L) (h : (e.infer env).reports = []) :
    ∃ t, HasType env e t := by
  induction hg with
  | int => exact ⟨_, .literal (v := .int _) rfl⟩
  | float => exact ⟨_, .literal (v := .float _) rfl⟩
  | bool => exact ⟨_, .literal (v := .bool _) rfl⟩
  | string => exact ⟨_, .literal (v := .string _) rfl⟩
  | @symbol name span _ =>
      cases hx : env.find? name with
      | none => simp [infer, Env.use, hx, Verdict.bad] at h
      | some t => exact ⟨t, .symbol hx⟩
  | @assignment target value span _ _ ih =>
      obtain ⟨u, hu⟩ := ih (reports_value h)
      cases hx : env.find? target.name with
      | none => simp [infer, hx, Verdict.bad] at h
      | some t =>
          simp only [infer, hx, hu.infer_eq, Verdict.good] at h
          obtain ⟨-, result, hrule⟩ := of_ofRule h
          obtain ⟨hconverts, -⟩ := assignmentType_eq_ok_iff.mp hrule
          exact ⟨t, .assignment hx hu (Ty.converts_iff.mp hconverts)⟩
  | unary _ ih =>
      obtain ⟨u, hu⟩ := ih (reports_operand h)
      simp only [infer, hu.infer_eq, Verdict.good] at h
      obtain ⟨-, result, hrule⟩ := of_ofRule h
      exact ⟨result, .unary hu hrule⟩
  | binary _ _ _ ihleft ihright =>
      obtain ⟨t, ht⟩ := ihleft (reports_operands h).1
      obtain ⟨u, hu⟩ := ihright (reports_operands h).2
      simp only [infer, ht.infer_eq, hu.infer_eq, Verdict.good] at h
      obtain ⟨-, result, hrule⟩ := of_ofRule h
      exact ⟨result, .binary ht hu hrule⟩

/-! ### The checker decides the judgement -/

theorem Derives.infer_eq (h : Derives env e t) (hg : e.Grammatical L) :
    e.infer env = .good t :=
  (h.hasType hg).infer_eq

/-- An expression is typed without reports if and only if it has a type by the rules. -/
theorem reports_eq_nil_iff (hg : e.Grammatical L) :
    (e.infer env).reports = [] ↔ ∃ t, Derives env e t := by
  constructor
  · intro h
    obtain ⟨t, ht⟩ := exists_hasType hg h
    exact ⟨t, ht.derives⟩
  · rintro ⟨t, ht⟩
    rw [ht.infer_eq hg]
    rfl

/-- The checker finds the type that the rules give. -/
theorem infer_eq_good_iff (hg : e.Grammatical L) :
    e.infer env = .good t ↔ Derives env e t := by
  constructor
  · intro h
    obtain ⟨u, hu⟩ := exists_hasType hg (by rw [h]; rfl)
    rw [hu.infer_eq] at h
    obtain rfl : u = t := Option.some.inj (congrArg Verdict.ty h)
    exact hu.derives
  · intro h
    exact h.infer_eq hg

private theorem Derives.unique (hg : e.Grammatical L) (h : Derives env e t)
    (h' : Derives env e u) :
    t = u := by
  have heq := (h.infer_eq hg).symm.trans (h'.infer_eq hg)
  exact Option.some.inj (congrArg Verdict.ty heq)

private theorem checkCondition_eq_nil_iff {construct : String} (hg : e.Grammatical L) :
    e.checkCondition env construct = [] ↔ Derives env e .bool := by
  constructor
  · intro h
    have hreports : (e.infer env).reports = [] := by
      simp only [checkCondition] at h
      split at h
      · exact h
      · exact h
      · exact (List.append_eq_nil_iff.mp h).1
    obtain ⟨t, ht⟩ := (reports_eq_nil_iff hg).mp hreports
    cases t with
    | bool => exact ht
    | int | float | string => simp [checkCondition, ht.infer_eq hg, Verdict.good] at h
  · intro h
    simp [checkCondition, h.infer_eq hg, Verdict.good]

end Expr

/-! ## Statements -/

theorem Env.declareAll_eq_iff {env env' : Env} {t : Ty} {idents : List Ident} :
    env.declareAll t idents = (env', []) ↔ Env.Declares t env idents env' := by
  induction idents generalizing env with
  | nil =>
      constructor
      · intro h
        cases h
        exact .nil
      · intro h
        cases h
        rfl
  | cons x xs ih =>
      cases hx : env.find? x.name with
      | none =>
          have hstep : env.declareAll t (x :: xs) =
              Env.declareAll (env.insert x.name t) t xs := by
            simp [declareAll, declare, Table.contains, hx]
          rw [hstep, ih]
          constructor
          · intro h
            exact .cons hx h
          · intro h
            cases h with
            | cons _ hxs => exact hxs
      | some u =>
          constructor
          · intro h
            simp [declareAll, declare, Table.contains, hx] at h
          · intro h
            cases h with
            | cons hnone _ => rw [hx] at hnone; cases hnone

namespace Stmt

variable {L : Lexicon} {env env' : Env} {s : Stmt} {ss : List Stmt}

/-! ### The rules read backwards -/

theorem derivesAll_singleton : DerivesAll env [s] env' ↔ Derives env s env' := by
  constructor
  · intro h
    cases h with
    | cons hs hrest =>
        cases hrest
        exact hs
  · intro h
    exact .cons h .nil

private theorem derivesAll_cons_iff {rest : List Stmt} :
    DerivesAll env (s :: rest) env' ↔ ∃ inner, Derives env s inner ∧
    DerivesAll inner rest env' := by
  constructor
  · intro h
    cases h with
    | cons hs hrest => exact ⟨_, hs, hrest⟩
  · rintro ⟨inner, hs, hrest⟩
    exact .cons hs hrest

private theorem derives_block_iff {body : List Stmt} {span : Span} :
    Derives env (.block body span) env' ↔ DerivesAll env body env' := by
  constructor
  · intro h
    cases h with
    | block hbody => exact hbody
  · intro hbody
    exact .block hbody

theorem derives_declaration_iff {t : Ty} {idents : List Ident} {span : Span} :
    Derives env (.declaration t idents span) env' ↔ Env.Declares t env idents env' := by
  constructor
  · intro h
    cases h with
    | declaration hidents => exact hidents
  · intro hidents
    exact .declaration hidents

private theorem derives_read_iff {idents : List Ident} {span : Span} :
    Derives env (.read idents span) env' ↔
      env = env' ∧ ∀ x ∈ idents, ∃ t, env.find? x.name = some t := by
  constructor
  · intro h
    cases h with
    | read hidents => exact ⟨rfl, hidents⟩
  · rintro ⟨rfl, hidents⟩
    exact .read hidents

private theorem derives_write_iff {values : List Expr} {span : Span} :
    Derives env (.write values span) env' ↔ env = env' ∧
    ∀ e ∈ values, ∃ t, e.Derives env t := by
  constructor
  · intro h
    cases h with
    | write hvalues => exact ⟨rfl, hvalues⟩
  · rintro ⟨rfl, hvalues⟩
    exact .write hvalues

private theorem derives_branch_iff {condition : Expr} {consequent : Stmt}
    {alternate : Option Stmt} {span : Span} :
    Derives env (.branch condition consequent alternate span) env' ↔
      condition.Derives env .bool ∧
        ∃ inner, Derives env consequent inner ∧
          DerivesAll inner alternate.toList env' := by
  constructor
  · intro h
    cases h with
    | branch htest hconsequent halternate => exact ⟨htest, _, hconsequent, halternate⟩
  · rintro ⟨htest, inner, hconsequent, halternate⟩
    exact .branch htest hconsequent halternate

private theorem derives_whileLoop_iff {condition : Expr} {body : Stmt} {span : Span} :
    Derives env (.whileLoop condition body span) env' ↔
      condition.Derives env .bool ∧ Derives env body env' := by
  constructor
  · intro h
    cases h with
    | whileLoop htest hbody => exact ⟨htest, hbody⟩
  · rintro ⟨htest, hbody⟩
    exact .whileLoop htest hbody

private theorem derives_forLoop_iff {induction : Option Induction}
    {init condition step : Expr} {body : Stmt} {span : Span} :
    Derives env (.forLoop induction init condition step body span) env' ↔
      ∃ inner, DerivesAll env (Induction.declarations induction) inner ∧
        (∃ t, init.Derives inner t) ∧ condition.Derives inner .bool ∧
        (∃ t, step.Derives inner t) ∧ Derives inner body env' := by
  constructor
  · intro h
    cases h with
    | forLoop hfront hinit htest hstep hbody =>
        exact ⟨_, hfront, ⟨_, hinit⟩, htest, ⟨_, hstep⟩, hbody⟩
  · rintro ⟨inner, hfront, ⟨t, hinit⟩, htest, ⟨u, hstep⟩, hbody⟩
    exact .forLoop hfront hinit htest hstep hbody

private theorem derives_effect_iff {e : Expr} {span : Span} :
    Derives env (.effect e span) env' ↔ env = env' ∧ ∃ t, e.Derives env t := by
  constructor
  · intro h
    cases h with
    | effect he => exact ⟨rfl, _, he⟩
  · rintro ⟨rfl, t, he⟩
    exact .effect he

/-! ### Walks without reports -/

private theorem checkAll_cons_eq_iff {rest : List Stmt} :
    checkAll env (s :: rest) = (env', []) ↔
      ∃ inner, s.check env = (inner, []) ∧ checkAll inner rest = (env', []) := by
  rw [checkAll_cons, Prod.mk.injEq, List.append_eq_nil_iff]
  constructor
  · rintro ⟨rfl, hs, hrest⟩
    exact ⟨_, Prod.ext rfl hs, Prod.ext rfl hrest⟩
  · rintro ⟨inner, hs, hrest⟩
    rw [hs]
    exact ⟨congrArg Prod.fst hrest, rfl, congrArg Prod.snd hrest⟩

private theorem check_read_eq_iff {idents : List Ident} {span : Span} :
    check env (.read idents span) = (env', []) ↔
      env = env' ∧ ∀ x ∈ idents, ∃ t, env.find? x.name = some t := by
  have huse (x : Ident) : (env.use x.name x.span.start).reports = [] ↔
      ∃ t, env.find? x.name = some t := by
    cases hx : env.find? x.name <;> simp [Env.use, hx, Verdict.good, Verdict.bad]
  simp only [check, Prod.mk.injEq, List.flatMap_eq_nil_iff, huse]

private theorem check_write_eq_iff {values : List Expr} {span : Span} :
    check env (.write values span) = (env', []) ↔
      env = env' ∧ ∀ e ∈ values, (e.infer env).reports = [] := by
  simp only [check, Prod.mk.injEq, List.flatMap_eq_nil_iff]

private theorem check_branch_eq_iff {condition : Expr} {consequent : Stmt}
    {alternate : Option Stmt} {span : Span} :
    check env (.branch condition consequent alternate span) = (env', []) ↔
      condition.checkCondition env "if" = [] ∧
        ∃ inner, check env consequent = (inner, []) ∧
          checkAll inner alternate.toList = (env', []) := by
  rw [check_branch, ← checkAll_toList, Prod.mk.injEq, List.append_eq_nil_iff,
    List.append_eq_nil_iff]
  constructor
  · rintro ⟨rfl, ⟨htest, hconsequent⟩, halternate⟩
    exact ⟨htest, _, Prod.ext rfl hconsequent, Prod.ext rfl halternate⟩
  · rintro ⟨htest, inner, hconsequent, halternate⟩
    rw [hconsequent]
    exact ⟨congrArg Prod.fst halternate, ⟨htest, rfl⟩, congrArg Prod.snd halternate⟩

private theorem check_whileLoop_eq_iff {condition : Expr} {body : Stmt} {span : Span} :
    check env (.whileLoop condition body span) = (env', []) ↔
      condition.checkCondition env "while" = [] ∧ check env body = (env', []) := by
  rw [check, Prod.mk.injEq, List.append_eq_nil_iff]
  constructor
  · rintro ⟨rfl, htest, hbody⟩
    exact ⟨htest, Prod.ext rfl hbody⟩
  · rintro ⟨htest, hbody⟩
    exact ⟨congrArg Prod.fst hbody, htest, congrArg Prod.snd hbody⟩

private theorem check_forLoop_eq_iff {induction : Option Induction}
    {init condition step : Expr} {body : Stmt} {span : Span} :
    check env (.forLoop induction init condition step body span) = (env', []) ↔
      ∃ inner, checkAll env (Induction.declarations induction) = (inner, []) ∧
        (init.infer inner).reports = [] ∧ condition.checkCondition inner "for" = [] ∧
        (step.infer inner).reports = [] ∧ check inner body = (env', []) := by
  simp only [check_forLoop, Prod.mk.injEq, List.append_eq_nil_iff]
  constructor
  · rintro ⟨rfl, ⟨⟨⟨hfront, hinit⟩, htest⟩, hstep⟩, hbody⟩
    exact ⟨_, Prod.ext rfl hfront, hinit, htest, hstep, Prod.ext rfl hbody⟩
  · rintro ⟨inner, hfront, hinit, htest, hstep, hbody⟩
    rw [hfront]
    exact ⟨congrArg Prod.fst hbody, ⟨⟨⟨rfl, hinit⟩, htest⟩, hstep⟩,
      congrArg Prod.snd hbody⟩

private theorem check_effect_eq_iff {e : Expr} {span : Span} :
    check env (.effect e span) = (env', []) ↔ env = env' ∧
    (e.infer env).reports = [] := by
  rw [check, Prod.mk.injEq]

/-! ### The checker decides the judgement -/

theorem checkAll_declarations_eq_iff {induction : Option Induction} :
    checkAll env (Induction.declarations induction) = (env', []) ↔
      DerivesAll env (Induction.declarations induction) env' := by
  cases induction with
  | none =>
      constructor
      · intro h
        cases h
        exact .nil
      · intro h
        cases h
        rfl
  | some i =>
      rw [Induction.declarations, checkAll_singleton, derivesAll_singleton, check,
        Env.declareAll_eq_iff, derives_declaration_iff]

/-- Statements leave an environment and no reports if and only if the rules lead to
this environment. -/
theorem checkAll_eq_iff (hg : Grammatical L ss) :
    checkAll env ss = (env', []) ↔ DerivesAll env ss env' := by
  induction hg generalizing env env' with
  | nil =>
      constructor
      · intro h
        cases h
        exact .nil
      · intro h
        cases h
        rfl
  | cons _ _ ihs ihrest =>
      simp only [checkAll_singleton, derivesAll_singleton] at ihs
      simp only [checkAll_cons_eq_iff, derivesAll_cons_iff, ihs, ihrest]
  | block _ ih =>
      rw [checkAll_singleton, derivesAll_singleton, check, ih, derives_block_iff]
  | declaration _ =>
      rw [checkAll_singleton, derivesAll_singleton, check, Env.declareAll_eq_iff,
        derives_declaration_iff]
  | read _ =>
      rw [checkAll_singleton, derivesAll_singleton, check_read_eq_iff, derives_read_iff]
  | write hvalues =>
      rw [checkAll_singleton, derivesAll_singleton, check_write_eq_iff,
        derives_write_iff]
      exact and_congr_right fun _ => forall₂_congr fun e he =>
        Expr.reports_eq_nil_iff (hvalues e he)
  | branch htest _ _ ihconsequent ihalternate =>
      simp only [checkAll_singleton, derivesAll_singleton] at ihconsequent
      rw [checkAll_singleton, derivesAll_singleton, check_branch_eq_iff,
        derives_branch_iff, Expr.checkCondition_eq_nil_iff htest]
      simp only [ihconsequent, ihalternate]
  | whileLoop htest _ ih =>
      simp only [checkAll_singleton, derivesAll_singleton] at ih
      rw [checkAll_singleton, derivesAll_singleton, check_whileLoop_eq_iff,
        derives_whileLoop_iff, Expr.checkCondition_eq_nil_iff htest, ih]
  | forLoop _ hinit htest hstep _ ih =>
      simp only [checkAll_singleton, derivesAll_singleton] at ih
      rw [checkAll_singleton, derivesAll_singleton, check_forLoop_eq_iff,
        derives_forLoop_iff]
      simp only [checkAll_declarations_eq_iff, Expr.reports_eq_nil_iff hinit,
        Expr.checkCondition_eq_nil_iff htest, Expr.reports_eq_nil_iff hstep, ih]
  | effect he =>
      rw [checkAll_singleton, derivesAll_singleton, check_effect_eq_iff,
        derives_effect_iff, Expr.reports_eq_nil_iff he]

end Stmt

/-! ## Every expression -/

namespace Expr

/-- An expression and all expressions inside it, operands before the operator. -/
def parts : Expr → List Expr
  | assignment target value span => value.parts ++ [assignment target value span]
  | unary operator operand span => operand.parts ++ [unary operator operand span]
  | binary label operator left right span =>
    left.parts ++ right.parts ++ [binary label operator left right span]
  | e => [e]

/-- An expression and all expressions inside it, each with the environment it
is looked at in. -/
def visits (env : Env) (e : Expr) : List (Env × Expr) := e.parts.map (env, ·)

variable {L : Lexicon} {env : Env} {e part : Expr} {t : Ty}

private theorem mem_visits {v : Env × Expr} :
    v ∈ e.visits env ↔ v.1 = env ∧ v.2 ∈ e.parts := by
  simp only [visits, List.mem_map]
  constructor
  · rintro ⟨part, hpart, rfl⟩
    exact ⟨rfl, hpart⟩
  · rintro ⟨rfl, hpart⟩
    exact ⟨v.2, hpart, rfl⟩

/-- What holds of operands where it holds of what they are operands of holds of
everything inside. -/
theorem forall_mem_parts {P : Expr → Prop}
    (hassignment : ∀ {target value span}, P (.assignment target value span) → P value)
    (hunary : ∀ {operator operand span}, P (.unary operator operand span) → P operand)
    (hbinary : ∀ {label operator left right span},
      P (.binary label operator left right span) → P left ∧ P right)
    (he : P e) : ∀ part ∈ e.parts, P part := by
  induction e with
  | int | float | bool | string | symbol => simpa [parts] using he
  | assignment target value span ih =>
      exact List.forall_mem_append.mpr ⟨ih (hassignment he), by simpa using he⟩
  | unary operator operand span ih =>
      exact List.forall_mem_append.mpr ⟨ih (hunary he), by simpa using he⟩
  | binary label operator left right span ihleft ihright =>
      have hoperands := hbinary he
      have hinner :=
        List.forall_mem_append.mpr ⟨ihleft hoperands.1, ihright hoperands.2⟩
      exact List.forall_mem_append.mpr ⟨hinner, by simpa using he⟩

theorem Grammatical.parts (h : e.Grammatical L) :
    ∀ part ∈ e.parts, part.Grammatical L := by
  refine forall_mem_parts (fun h => ?_) (fun h => ?_) (fun h => ?_) h
  · cases h with
    | assignment _ hvalue => exact hvalue
  · cases h with
    | unary hoperand => exact hoperand
  · cases h with
    | binary _ hleft hright => exact ⟨hleft, hright⟩

/-- In the derivation of an expression every expression inside it has a type. -/
theorem Derives.parts (h : Derives env e t) :
    ∀ part ∈ e.parts, ∃ u, Derives env part u := by
  refine forall_mem_parts (P := fun e => ∃ u, Derives env e u) ?_ ?_ ?_ ⟨t, h⟩
  · rintro _ _ _ ⟨u, h⟩
    cases h with
    | assignment _ hvalue _ => exact ⟨_, hvalue⟩
  · rintro _ _ _ ⟨u, h⟩
    cases h with
    | opposite _ hoperand _ | not _ hoperand => exact ⟨_, hoperand⟩
  · rintro _ _ _ _ _ ⟨u, h⟩
    cases h with
    | binary hleft hright _ => exact ⟨⟨_, hleft⟩, ⟨_, hright⟩⟩

end Expr

mutual

/-- The expressions that the checker looks at in a statement, each in the
environment it has there. -/
def Stmt.checked (env : Env) : Stmt → List (Env × Expr)
  | block body _ => Stmt.checkedAll env body
  | declaration .. => []
  | read .. => []
  | write values _ => values.flatMap (Expr.visits env)
  | branch condition consequent alternate _ =>
    condition.visits env ++ consequent.checked env ++
      Stmt.checkedOption (consequent.check env).1 alternate
  | whileLoop condition body _ => condition.visits env ++ body.checked env
  | forLoop induction init condition step body _ =>
    let env := (Stmt.checkAll env (Induction.declarations induction)).1
    init.visits env ++ condition.visits env ++ step.visits env ++ body.checked env
  | effect value _ => value.visits env

/-- As `Stmt.checked`, for a statement that may be missing. -/
def Stmt.checkedOption (env : Env) : Option Stmt → List (Env × Expr)
  | none => []
  | some s => s.checked env

/-- As `Stmt.checked`, for statements in a row. -/
def Stmt.checkedAll (env : Env) : List Stmt → List (Env × Expr)
  | [] => []
  | s :: rest => s.checked env ++ Stmt.checkedAll (s.check env).1 rest

end

namespace Stmt

variable {L : Lexicon} {env env' : Env} {ss : List Stmt}

theorem checkedAll_singleton (env : Env) (s : Stmt) :
    checkedAll env [s] = s.checked env := by
  simp [checkedAll]

theorem checkedAll_toList (env : Env) (s : Option Stmt) :
    checkedAll env s.toList = checkedOption env s := by
  cases s <;> simp [checkedAll, checkedOption]

/-- Whether an expression of a text has, where it is looked at, a type by the rules that
the checker finds. -/
def Typed (L : Lexicon) (v : Env × Expr) : Prop :=
  v.2.Grammatical L ∧ ∃ t, v.2.Derives v.1 t ∧ v.2.infer v.1 = .good t

private theorem typed_visits {e : Expr} {t : Ty} (hg : e.Grammatical L)
    (h : e.Derives env t) :
    ∀ v ∈ e.visits env, Typed L v := by
  rintro ⟨inner, part⟩ hv
  obtain ⟨rfl, hpart⟩ := Expr.mem_visits.mp hv
  obtain ⟨u, hu⟩ := h.parts part hpart
  exact ⟨hg.parts part hpart, u, hu, hu.infer_eq (hg.parts part hpart)⟩

/-- In statements that follow the rules the checker finds the type of every
expression. -/
theorem typed_checkedAll (hg : Grammatical L ss) (h : DerivesAll env ss env') :
    ∀ v ∈ checkedAll env ss, Typed L v := by
  induction hg generalizing env env' with
  | nil => simp [checkedAll]
  | cons hgs _ ihs ihrest =>
      cases h with
      | cons hs hrest =>
          have hfront := derivesAll_singleton.mpr hs
          have hinner := ihs hfront
          rw [checkedAll_singleton] at hinner
          rw [checkedAll, ← checkAll_singleton, (checkAll_eq_iff hgs).mpr hfront]
          exact List.forall_mem_append.mpr ⟨hinner, ihrest hrest⟩
  | block _ ih =>
      rw [derivesAll_singleton] at h
      rw [checkedAll_singleton, checked]
      cases h with
      | block hbody => exact ih hbody
  | declaration | read => simp [checkedAll_singleton, checked]
  | write hvalues =>
      rw [derivesAll_singleton] at h
      rw [checkedAll_singleton, checked]
      cases h with
      | write htypes =>
          refine List.forall_mem_flatMap.mpr fun e he => ?_
          obtain ⟨t, ht⟩ := htypes e he
          exact typed_visits (hvalues e he) ht
  | branch htest hgc _ ihconsequent ihalternate =>
      rw [derivesAll_singleton] at h
      cases h with
      | branch hcondition hconsequent halternate =>
          have hfront := derivesAll_singleton.mpr hconsequent
          have hinner := ihconsequent hfront
          have houter := ihalternate halternate
          rw [checkedAll_singleton] at hinner
          rw [checkedAll_toList] at houter
          rw [checkedAll_singleton, checked, ← checkAll_singleton,
            (checkAll_eq_iff hgc).mpr hfront]
          refine List.forall_mem_append.mpr ⟨?_, houter⟩
          exact List.forall_mem_append.mpr ⟨typed_visits htest hcondition, hinner⟩
  | whileLoop htest _ ih =>
      rw [derivesAll_singleton] at h
      cases h with
      | whileLoop hcondition hbody =>
          have hinner := ih (derivesAll_singleton.mpr hbody)
          rw [checkedAll_singleton] at hinner
          rw [checkedAll_singleton, checked]
          exact List.forall_mem_append.mpr ⟨typed_visits htest hcondition, hinner⟩
  | forLoop _ hginit htest hgstep _ ih =>
      rw [derivesAll_singleton] at h
      cases h with
      | forLoop hfront hinit hcondition hstep hbody =>
          have hinner := ih (derivesAll_singleton.mpr hbody)
          rw [checkedAll_singleton] at hinner
          rw [checkedAll_singleton, checked, checkAll_declarations_eq_iff.mpr hfront]
          refine List.forall_mem_append.mpr
            ⟨List.forall_mem_append.mpr ⟨?_, ?_⟩, hinner⟩
          · exact List.forall_mem_append.mpr
              ⟨typed_visits hginit hinit, typed_visits htest hcondition⟩
          · exact typed_visits hgstep hstep
  | effect he =>
      rw [derivesAll_singleton] at h
      rw [checkedAll_singleton, checked]
      cases h with
      | effect ht => exact typed_visits he ht

end Stmt

/-- The checker decides the judgement for the programs that tokens make. A program has
no reports if and only if it can be derived, and then the checker leaves the environment
of the derivation and finds, for every expression where it looks at it, the one type
that the expression has by the rules. -/
theorem Program.check_decides {file : String} {tokens : List Token} {p : Program}
    (h : Program.ofTokens file tokens = .ok p) :
    (p.check = [] ↔ ∃ env, Stmt.DerivesAll .empty p.body env) ∧
      ∀ env, Stmt.DerivesAll .empty p.body env →
        (Stmt.checkAll .empty p.body).1 = env ∧
          ∀ v ∈ Stmt.checkedAll .empty p.body,
            ∃ t, v.2.infer v.1 = .good t ∧ ∀ u, v.2.Derives v.1 u ↔ u = t := by
  have hg := Program.grammatical_full h
  refine ⟨⟨fun hcheck => ?_, ?_⟩, fun env henv => ⟨?_, fun v hv => ?_⟩⟩
  · exact ⟨_, (Stmt.checkAll_eq_iff hg).mp (Prod.ext rfl hcheck)⟩
  · rintro ⟨env, henv⟩
    exact congrArg Prod.snd ((Stmt.checkAll_eq_iff hg).mpr henv)
  · exact congrArg Prod.fst ((Stmt.checkAll_eq_iff hg).mpr henv)
  · obtain ⟨hgv, t, ht, hinfer⟩ := Stmt.typed_checkedAll hg henv v hv
    refine ⟨t, hinfer, fun u => ⟨fun hu => hu.unique hgv ht, ?_⟩⟩
    rintro rfl
    exact ht

/-- A program whose derivation converts an int. -/
theorem Program.check_decides_at_widening :
    ∃ tokens p env, Token.scan "t" "float x; if (x < 1) x = 2;" = .ok tokens ∧
      Program.ofTokens "t" tokens = .ok p ∧ Stmt.DerivesAll .empty p.body env ∧
      env = Table.empty.insert "x" .float := by
  obtain ⟨tokens, hscan⟩ :
      ∃ tokens, Token.scan "t" "float x; if (x < 1) x = 2;" = .ok tokens :=
    ⟨_, rfl⟩
  obtain ⟨p, hp, hcheck, henv⟩ : ∃ p, Program.ofTokens "t" tokens = .ok p ∧
      p.check = [] ∧
      (Stmt.checkAll .empty p.body).1 = Table.empty.insert "x" .float := by
    cases hscan
    exact ⟨_, rfl, rfl, rfl⟩
  obtain ⟨hiff, hall⟩ := Program.check_decides hp
  obtain ⟨env, hderives⟩ := hiff.mp hcheck
  exact ⟨tokens, p, env, hscan, hp, hderives, (hall env hderives).1.symm.trans henv⟩

end ScalarLang
