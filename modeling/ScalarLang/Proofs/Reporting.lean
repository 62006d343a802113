import ScalarLang.Grammar.Program
import ScalarLang.Typing

/-!
# Reports do not cascade

Where something inside an expression is reported the expression has no type, and what
is around it keeps silent. So what is reported about an expression is what is
reported about its operands and at most one report of its own (`Expr.Judged`), and
there is one of its own only where all operands have types, which means that nothing
is reported about them.

Assignments are the exception. The type of an assignment is that of its target, whether
or not something is wrong with the value, so that what is around the assignment may be
reported besides; and a target that is not declared is reported whatever the value is.
What holds of all expressions is that one without a type has a report inside.

## Main results

* `Expr.judged_infer`: what a verdict is made of.
* `Expr.reports_once`: on the way from an expression down to a leaf, at most
  one report is made.
-/

namespace ScalarLang

namespace Expr

/-! ## Operands -/

/-- The expressions that the verdict on an expression is made from. A node between
operands whose label is no level, which no text has, is not looked into. -/
def beneath : Expr → List Expr
  | assignment _ value _ => [value]
  | unary _ operand _ => [operand]
  | binary (.level _) _ left right _ => [left, right]
  | _ => []

/-- What is reported about the operands of an expression, in order. -/
def innerReports (env : Env) (e : Expr) : List Diagnostic :=
  e.beneath.flatMap fun x => (x.infer env).reports

/-- What the check of an expression adds to the reports on its operands. -/
def ownReports (env : Env) (e : Expr) : List Diagnostic :=
  (e.infer env).reports.drop (e.innerReports env).length

/-- Whether there is no assignment in an expression. -/
def AssignmentFree : Expr → Prop
  | assignment .. => False
  | unary _ operand _ => operand.AssignmentFree
  | binary _ _ left right _ => left.AssignmentFree ∧ right.AssignmentFree
  | _ => True

/-- Whether an expression is another one or stands anywhere inside it. -/
inductive Within (part : Expr) : Expr → Prop
  | self : Within part part
  | operand {x e : Expr} (hx : x ∈ e.beneath) (h : Within part x) : Within part e

/-- The ways from an expression down to a leaf. -/
inductive Path : Expr → List Expr → Prop
  | leaf {e : Expr} (h : e.beneath = []) : Path e [e]
  | step {x e : Expr} {rest : List Expr} (hx : x ∈ e.beneath) (h : Path x rest) :
      Path e (e :: rest)

/-- What holds of an expression where it holds of its operands holds of all
expressions. -/
theorem operand_induction {P : Expr → Prop} (h : ∀ e, (∀ x ∈ e.beneath, P x) → P e)
    (e : Expr) : P e := by
  induction e with
  | int | float | bool | string | symbol => exact h _ (List.forall_mem_nil _)
  | assignment target value span ih => exact h _ (List.forall_mem_singleton.mpr ih)
  | unary operator operand span ih => exact h _ (List.forall_mem_singleton.mpr ih)
  | binary label operator left right span ihleft ihright =>
      cases label with
      | level l =>
          exact h _ (List.forall_mem_cons.mpr ⟨ihleft,
            List.forall_mem_singleton.mpr ihright⟩)
      | literal | symbol | assignment | unary => exact h _ (List.forall_mem_nil _)

section

variable {env : Env} {e x part : Expr} {path : List Expr}

private theorem AssignmentFree.operand (h : e.AssignmentFree) :
    ∀ x ∈ e.beneath, x.AssignmentFree := by
  cases e with
  | int | float | bool | string | symbol => exact List.forall_mem_nil _
  | assignment => exact h.elim
  | unary => exact List.forall_mem_singleton.mpr h
  | binary label =>
      cases label with
      | level l =>
          exact List.forall_mem_cons.mpr ⟨h.1, List.forall_mem_singleton.mpr h.2⟩
      | literal | symbol | assignment | unary => exact List.forall_mem_nil _

private theorem AssignmentFree.within (h : e.AssignmentFree) (hpart : part.Within e) :
    part.AssignmentFree := by
  induction hpart with
  | self => exact h
  | operand hx _ ih => exact ih (h.operand _ hx)

private theorem Path.within (h : e.Path path) : ∀ part ∈ path, part.Within e := by
  induction h with
  | leaf => exact List.forall_mem_singleton.mpr .self
  | step hx _ ih =>
      exact List.forall_mem_cons.mpr ⟨.self,
        fun part hpart => .operand hx (ih part hpart)⟩

/-! ## What a verdict is made of -/

/-- The verdicts that there can be on an expression, in view of those on its
operands. -/
inductive Judged (env : Env) (e : Expr) : Verdict → Prop
  /-- The expression has a type, and so do its operands unless it is an assignment. -/
  | typed {t : Ty} (h : e.AssignmentFree → ∀ x ∈ e.beneath, (x.infer env).ty ≠ none) :
      Judged env e ⟨some t, e.innerReports env⟩
  /-- The operands have types, but they do not fit. -/
  | reported {d : Diagnostic}
      (h : e.AssignmentFree → ∀ x ∈ e.beneath, (x.infer env).ty ≠ none) :
      Judged env e ⟨none, e.innerReports env ++ [d]⟩
  /-- An operand has no type. -/
  | silent {x : Expr} (hx : x ∈ e.beneath) (hnone : (x.infer env).ty = none) :
      Judged env e ⟨none, e.innerReports env⟩

/-- The verdict of a rule is one on operands that have types. -/
theorem judged_ofRule {position : Position} (rule : Except Cause Ty)
    (h : e.AssignmentFree → ∀ x ∈ e.beneath, (x.infer env).ty ≠ none) :
    Judged env e (.ofRule (e.innerReports env) position rule) := by
  cases rule with
  | ok t => exact .typed h
  | error cause => exact .reported h

private theorem innerReports_of_nil (h : e.beneath = []) : e.innerReports env = [] := by
  rw [innerReports, h]
  rfl

theorem innerReports_of_singleton (h : e.beneath = [x]) :
    e.innerReports env = (x.infer env).reports := by
  rw [innerReports, h]
  exact List.flatMap_singleton _ x

private theorem innerReports_assignment (env : Env) (target : Ident) (value : Expr)
    (span : Span) :
    (assignment target value span).innerReports env = (value.infer env).reports :=
  innerReports_of_singleton rfl

private theorem innerReports_of_pair {y : Expr} (h : e.beneath = [x, y]) :
    e.innerReports env = (x.infer env).reports ++ (y.infer env).reports := by
  rw [innerReports, h, List.flatMap_cons, List.flatMap_singleton]

/-- A rule without operands gives a type or reports. -/
theorem judged_leaf (h : e.beneath = []) (position : Position)
    (rule : Except Cause Ty) :
    Judged env e (.ofRule [] position rule) := by
  rw [← innerReports_of_nil h]
  apply judged_ofRule
  intro _
  rw [h]
  exact List.forall_mem_nil _

private theorem judged_assignment (env : Env) (target : Ident) (value : Expr)
    (span : Span) :
    Judged env (assignment target value span)
      ((assignment target value span).infer env) := by
  rw [infer, ← innerReports_assignment env target value span]
  cases env.find? target.name with
  | none => exact .reported False.elim
  | some t =>
      cases (value.infer env).ty with
      | none => exact .typed False.elim
      | some u => exact judged_ofRule _ False.elim

private theorem judged_unary (env : Env) (operator : Token) (operand : Expr)
    (span : Span) :
    Judged env (unary operator operand span)
      ((unary operator operand span).infer env) := by
  have hinner : (unary operator operand span).innerReports env =
      (operand.infer env).reports :=
    innerReports_of_singleton rfl
  have hmem : operand ∈ (unary operator operand span).beneath :=
    List.mem_singleton_self _
  rw [infer]
  cases hoperand : (operand.infer env).ty with
  | none =>
      have hverdict : operand.infer env = ⟨none, (operand.infer env).reports⟩ := by
        rw [← hoperand]
      rw [hverdict, ← hinner]
      exact .silent hmem hoperand
  | some t =>
      have htyped : ∀ x ∈ [operand], (x.infer env).ty ≠ none := by simp [hoperand]
      rw [← hinner]
      exact judged_ofRule _ fun _ => htyped

private theorem judged_binary (env : Env) (l : Level) (operator : Token)
    (left right : Expr) (span : Span) :
    Judged env (binary (.level l) operator left right span)
      ((binary (.level l) operator left right span).infer env) := by
  have hinner : (binary (.level l) operator left right span).innerReports env =
      (left.infer env).reports ++ (right.infer env).reports := innerReports_of_pair rfl
  have hmem : left ∈ (binary (.level l) operator left right span).beneath :=
    List.mem_cons_self
  have hmem' : right ∈ (binary (.level l) operator left right span).beneath :=
    List.mem_cons_of_mem left (List.mem_singleton_self right)
  rw [infer, ← hinner]
  cases hleft : (left.infer env).ty with
  | none => exact .silent hmem hleft
  | some t =>
      cases hright : (right.infer env).ty with
      | none => exact .silent hmem' hright
      | some u =>
          have htyped : ∀ x ∈ [left, right], (x.infer env).ty ≠ none := by
            simp [hleft, hright]
          exact judged_ofRule _ fun _ => htyped

theorem judged_infer (env : Env) (e : Expr) : Judged env e (e.infer env) := by
  cases e with
  | int | float | bool | string => exact judged_leaf rfl (Position.first "") (.ok _)
  | symbol name span =>
      rw [infer, Env.use]
      cases env.find? name with
      | none => exact judged_leaf rfl span.start (.error (.notDeclared name))
      | some t => exact judged_leaf rfl span.start (.ok t)
  | assignment target value span => exact judged_assignment env target value span
  | unary operator operand span => exact judged_unary env operator operand span
  | binary label operator left right span =>
      cases label with
      | level l => exact judged_binary env l operator left right span
      | literal t => exact judged_leaf rfl span.start (.ok t)
      | symbol | assignment | unary => exact judged_leaf rfl span.start (.error _)

/-! ## Reports on the way down -/

private theorem exists_reports_eq (env : Env) (e : Expr) :
    ∃ own : List Diagnostic, (e.infer env).reports = e.innerReports env ++ own ∧
      own.length ≤ 1 := by
  have h := judged_infer env e
  generalize e.infer env = v at h ⊢
  cases h with
  | typed | silent => exact ⟨[], (List.append_nil _).symm, Nat.zero_le 1⟩
  | @reported d => exact ⟨[d], rfl, Nat.le_refl 1⟩

private theorem ownReports_eq {own : List Diagnostic}
    (h : (e.infer env).reports = e.innerReports env ++ own) :
    e.ownReports env = own := by
  rw [ownReports, h, List.drop_left]

private theorem reports_eq (env : Env) (e : Expr) :
    (e.infer env).reports = e.innerReports env ++ e.ownReports env := by
  obtain ⟨own, hreports, -⟩ := exists_reports_eq env e
  rw [hreports, ownReports_eq hreports]

private theorem length_ownReports_le (env : Env) (e : Expr) :
    (e.ownReports env).length ≤ 1 := by
  obtain ⟨own, hreports, hlength⟩ := exists_reports_eq env e
  rw [ownReports_eq hreports]
  exact hlength

private theorem innerReports_subset (hx : x ∈ e.beneath) :
    (x.infer env).reports ⊆ e.innerReports env :=
  fun _ hd => List.mem_flatMap.mpr ⟨x, hx, hd⟩

/-- What is reported inside an expression is reported about the expression. -/
theorem Within.reports_subset (h : part.Within e) :
    (part.infer env).reports ⊆ (e.infer env).reports := by
  induction h with
  | self => exact List.Subset.refl _
  | @operand x e hx _ ih =>
      have hinner : e.innerReports env ⊆ (e.infer env).reports := by
        rw [reports_eq]
        exact List.subset_append_left _ _
      exact List.Subset.trans ih (List.Subset.trans (innerReports_subset hx) hinner)

/-- Nothing is reported of its own about any part of an expression about which
nothing is reported. -/
theorem Within.ownReports_eq_nil (h : part.Within e)
    (hnone : (e.infer env).reports = []) :
    part.ownReports env = [] := by
  have hpart : (part.infer env).reports = [] := by
    have hsubset : (part.infer env).reports ⊆ [] := hnone ▸ h.reports_subset
    exact List.subset_nil.mp hsubset
  rw [reports_eq] at hpart
  exact (List.append_eq_nil_iff.mp hpart).2

/-- An expression without a type has a report inside. -/
theorem reports_ne_nil_of_ty (env : Env) (e : Expr) :
    (e.infer env).ty = none → (e.infer env).reports ≠ [] := by
  induction e using operand_induction with
  | h e ih =>
      have hjudged := judged_infer env e
      generalize e.infer env = v at hjudged ⊢
      cases hjudged with
      | typed => exact fun hty => absurd hty (Option.some_ne_none _)
      | reported => exact fun _ => List.concat_ne_nil _ _
      | @silent x hx hnone =>
          intro _ hnil
          have hsubset : (x.infer env).reports ⊆ [] := hnil ▸ innerReports_subset hx
          exact ih x hx hnone (List.subset_nil.mp hsubset)

/-- Without assignments, nothing is reported about an expression that has a type. -/
theorem AssignmentFree.reports_eq_nil (h : e.AssignmentFree)
    (hty : (e.infer env).ty ≠ none) :
    (e.infer env).reports = [] := by
  induction e using operand_induction with
  | h e ih =>
      have hjudged := judged_infer env e
      generalize e.infer env = v at hjudged hty ⊢
      cases hjudged with
      | typed htyped =>
          exact List.flatMap_eq_nil_iff.mpr fun x hx =>
            ih x hx (h.operand x hx) (htyped h x hx)
      | reported | silent => exact absurd rfl hty

/-- Without assignments, where there is a report on an expression itself there are none
on its operands. -/
theorem AssignmentFree.operand_reports_eq_nil (h : e.AssignmentFree)
    (hown : e.ownReports env ≠ []) :
    ∀ x ∈ e.beneath, (x.infer env).reports = [] := by
  have hjudged := judged_infer env e
  unfold ownReports at hown
  generalize e.infer env = v at hjudged hown
  cases hjudged with
  | reported htyped => exact fun x hx => (h.operand x hx).reports_eq_nil (htyped h x hx)
  | typed | silent => simp at hown

/-- Without assignments, at most one report is made on the way down to a leaf. -/
theorem AssignmentFree.length_flatMap_le (h : e.AssignmentFree) (hpath : e.Path path) :
    (path.flatMap (ownReports env)).length ≤ 1 := by
  induction hpath with
  | @leaf e =>
      rw [List.flatMap_singleton]
      exact length_ownReports_le env e
  | @step x e rest hx hrest ih =>
      rw [List.flatMap_cons]
      by_cases hown : e.ownReports env = []
      · rw [hown, List.nil_append]
        exact ih (h.operand x hx)
      · have hnone := h.operand_reports_eq_nil hown x hx
        have hbelow : rest.flatMap (ownReports env) = [] :=
          List.flatMap_eq_nil_iff.mpr fun part hpart =>
            (hrest.within part hpart).ownReports_eq_nil hnone
        rw [hbelow, List.append_nil]
        exact length_ownReports_le env e

/-! ## Assignments to declared variables -/

section

variable {target : Ident} {value : Expr} {span : Span} {t : Ty}

/-- A value that is reported already is not held against the variable. -/
theorem ownReports_assignment (ht : env.find? target.name = some t)
    (hvalue : (value.infer env).ty = none) :
    (assignment target value span).ownReports env = [] := by
  apply ownReports_eq
  rw [innerReports_assignment, infer, ht, hvalue, List.append_nil]

/-- If an assignment has no report of its own, its type is that of the variable. -/
theorem ty_of_ownReports_eq_nil (ht : env.find? target.name = some t)
    (hown : (assignment target value span).ownReports env = []) :
    ((assignment target value span).infer env).ty = some t := by
  rw [ownReports, innerReports_assignment, infer, ht] at hown
  rw [infer, ht]
  cases hvalue : (value.infer env).ty with
  | none => rfl
  | some u =>
      rw [hvalue] at hown
      dsimp only at hown ⊢
      by_cases htakes : t.takes u = true
      · have hrule : assignmentType target.name t u = .ok t := if_pos htakes
        rw [hrule]
        rfl
      · have hrule : assignmentType target.name t u = .error _ := if_neg htakes
        rw [hrule] at hown
        simp [Verdict.ofRule, Verdict.bad] at hown

end

/-- Reports do not cascade. What is reported about an expression is reported about its
operands, save for one report at most. If there is no assignment in the expression, then
none of the expressions in it with a report of its own stands inside another one, on no
way from the expression to a leaf there are two reports, and the type is missing just
where something is reported. In any expression, a missing type means that something is
reported, and an assignment to a declared variable has the type of the variable unless
it is at fault itself, which it is not for a value without a type. -/
theorem reports_once (env : Env) (e : Expr) :
    (e.infer env).reports = e.innerReports env ++ e.ownReports env ∧
    (e.ownReports env).length ≤ 1 ∧
      (e.AssignmentFree →
        (∀ node x part : Expr, node.Within e → x ∈ node.beneath → part.Within x →
          node.ownReports env ≠ [] → part.ownReports env = []) ∧
        (∀ path, e.Path path → (path.flatMap (ownReports env)).length ≤ 1) ∧
        ((e.infer env).ty = none ↔ (e.infer env).reports ≠ [])) ∧
      ((e.infer env).ty = none → (e.infer env).reports ≠ []) ∧
      ∀ target value span t, e = assignment target value span →
        env.find? target.name = some t →
        ((value.infer env).ty = none → e.ownReports env = []) ∧
          (e.ownReports env = [] → (e.infer env).ty = some t) := by
  refine ⟨reports_eq env e, length_ownReports_le env e, ?_,
    reports_ne_nil_of_ty env e, ?_⟩
  · intro hfree
    refine ⟨?_, fun path hpath => hfree.length_flatMap_le hpath,
      reports_ne_nil_of_ty env e, ?_⟩
    · intro node x part hnode hx hpart hown
      have hnone := (hfree.within hnode).operand_reports_eq_nil hown x hx
      exact hpart.ownReports_eq_nil hnone
    · intro hreports
      exact Decidable.byContradiction fun hty => hreports (hfree.reports_eq_nil hty)
  · intro target value span t he ht
    rw [he]
    exact ⟨ownReports_assignment ht, ty_of_ownReports_eq_nil ht⟩

end

/-- An undeclared target is reported above a value that is reported itself. -/
example (s : Span) :
    ((assignment ⟨"y", s⟩ (symbol "x" s) s).infer .empty).reports.length = 2 := rfl

/-- A sum that is at fault, below an operator and a connective that have nothing to
add. -/
theorem reports_once_below_connective :
    ∃ tokens e s s', Token.scan "t" "write !(1 + true) && b;" = .ok tokens ∧
      Program.ofTokens "t" tokens = .ok ⟨[.write [e] s], s'⟩ ∧ e.AssignmentFree ∧
      (e.infer (Table.empty.insert "b" .bool)).reports.map
        (fun d => (d.cause, d.position.column)) =
        [(.operatorMismatch "+" "int" "bool", 8)] ∧
      (∀ path, e.Path path →
        (path.flatMap (ownReports (Table.empty.insert "b" .bool))).length ≤ 1) ∧
      (e.infer (Table.empty.insert "b" .bool)).ty = none := by
  obtain ⟨tokens, hscan⟩ :
      ∃ tokens, Token.scan "t" "write !(1 + true) && b;" = .ok tokens := ⟨_, rfl⟩
  obtain ⟨e, s, s', hread, hfree, hreports⟩ : ∃ e s s',
      Program.ofTokens "t" tokens = .ok ⟨[.write [e] s], s'⟩ ∧ e.AssignmentFree ∧
        (e.infer (Table.empty.insert "b" .bool)).reports.map
          (fun d => (d.cause, d.position.column)) =
          [(.operatorMismatch "+" "int" "bool", 8)] := by
    cases hscan
    exact ⟨_, _, _, rfl, ⟨⟨trivial, trivial⟩, trivial⟩, by decide +kernel⟩
  obtain ⟨-, -, honce, -⟩ := reports_once (Table.empty.insert "b" .bool) e
  obtain ⟨-, hpaths, hiff⟩ := honce hfree
  refine ⟨tokens, e, s, s', hscan, hread, hfree, hreports, hpaths, hiff.mpr ?_⟩
  intro hnil
  rw [hnil] at hreports
  cases hreports

end Expr

end ScalarLang
