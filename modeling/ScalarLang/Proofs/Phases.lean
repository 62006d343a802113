import Mathlib.Data.List.Forall2
import ScalarLang.Proofs.Judgement

/-!
# The checker and the code agree

Checking and making code are walks over the same tree with tables and rules of their
own. Both can find the tree itself at fault. They never do so on the trees that a text
can have, whatever the types in it are (`Program.blameless_check`,
`Program.blameless_compile`).

Where the checker has no reports the program follows the typing rules, and from its
derivation code can be made for each construct in turn
(`Stmt.DerivesAll.exists_layout`). The two walks differ in one place: the checker looks
at the step of a loop before the body, the code for it stands behind the body, where
more variables may be declared. Variables are never declared twice, so what the step
means is not changed by them (`Env.Sub`).

## Main results

* `Expr.Derives.exists_emits`: an expression that has a type by the rules has code that
  leaves this type.
* `Stmt.DerivesAll.exists_layout`: statements that follow the rules have code.
* `phases_agree`: the phases agree on every program.
-/

namespace ScalarLang

/-! ## Reports that blame the tree -/

/-- Whether a report is about the program and not about the form of its tree. -/
def Diagnostic.Blameless (d : Diagnostic) : Prop :=
  ∀ expected, d.cause ≠ .malformedTree expected

section

variable {L : Lexicon} {env : Env}

private theorem blameless_ofRule {earlier : List Diagnostic} {position : Position}
    {rule : Except Cause Ty} (hearlier : ∀ d ∈ earlier, d.Blameless)
    (hrule : ∀ cause, rule = .error cause →
      ∀ expected, cause ≠ .malformedTree expected) :
    ∀ d ∈ (Verdict.ofRule earlier position rule).reports, d.Blameless := by
  cases rule with
  | ok t => exact hearlier
  | error cause =>
      refine List.forall_mem_append.mpr ⟨hearlier, fun d hd => ?_⟩
      rw [List.mem_singleton.mp hd]
      exact hrule cause rfl

private theorem assignmentType_ne_malformedTree {name expected : String} {t u : Ty}
    {cause : Cause} (h : assignmentType name t u = .error cause) :
    cause ≠ .malformedTree expected := by
  unfold assignmentType at h
  split at h <;> cases h
  exact Cause.noConfusion

private theorem unaryType_ne_malformedTree {operator : Token} {expected : String}
    {t : Ty} {cause : Cause} (h : unaryType operator t = .error cause) :
    cause ≠ .malformedTree expected := by
  unfold unaryType at h
  split at h <;> cases h
  exact Cause.noConfusion

private theorem binaryType_ne_malformedTree {operator : Token} {expected : String}
    {t u : Ty} {cause : Cause} (h : binaryType operator t u = .error cause) :
    cause ≠ .malformedTree expected := by
  unfold binaryType at h
  dsimp only at h
  split at h
  all_goals
    first
      | (split at h <;> cases h; exact Cause.noConfusion)
      | (cases h; exact Cause.noConfusion)

private theorem blameless_notDeclared {name : String} {position : Position} :
    Diagnostic.Blameless ⟨.notDeclared name, position⟩ := fun _ => Cause.noConfusion

private theorem Env.blameless_use {name : String} {position : Position} :
    ∀ d ∈ (env.use name position).reports, d.Blameless := by
  cases hx : env.find? name with
  | none => simpa [use, hx, Verdict.bad] using blameless_notDeclared
  | some t => simp [use, hx, Verdict.good]

/-- The checker never finds an expression of a text malformed. -/
theorem Expr.blameless_infer {e : Expr} (hg : e.Grammatical L) :
    ∀ d ∈ (e.infer env).reports, d.Blameless := by
  induction hg with
  | int | float | bool | string => simp [infer, Verdict.good]
  | symbol => exact Env.blameless_use
  | @assignment target value span _ _ ih =>
      cases hx : env.find? target.name with
      | none =>
          simp only [infer, hx, Verdict.bad]
          exact List.forall_mem_append.mpr ⟨ih, by simpa using blameless_notDeclared⟩
      | some t =>
          cases hty : (value.infer env).ty with
          | none =>
              simp only [infer, hx, hty]
              exact ih
          | some u =>
              simp only [infer, hx, hty]
              exact blameless_ofRule ih fun _ h _ => assignmentType_ne_malformedTree h
  | @unary operator operand span _ ih =>
      cases hty : (operand.infer env).ty with
      | none =>
          simp only [infer, hty]
          exact ih
      | some t =>
          simp only [infer, hty]
          exact blameless_ofRule ih fun _ h _ => unaryType_ne_malformedTree h
  | @binary l operator left right span _ _ _ ihleft ihright =>
      have hboth := List.forall_mem_append.mpr ⟨ihleft, ihright⟩
      cases ht : (left.infer env).ty with
      | none =>
          simp only [infer, ht]
          exact hboth
      | some t =>
          cases hu : (right.infer env).ty with
          | none =>
              simp only [infer, ht, hu]
              exact hboth
          | some u =>
              simp only [infer, ht, hu]
              exact blameless_ofRule hboth fun _ h _ => binaryType_ne_malformedTree h

private theorem Expr.blameless_checkCondition {e : Expr} {construct : String}
    (hg : e.Grammatical L) :
    ∀ d ∈ e.checkCondition env construct, d.Blameless := by
  have hinfer : ∀ d ∈ (e.infer env).reports, d.Blameless := Expr.blameless_infer hg
  unfold checkCondition
  dsimp only
  split
  · exact hinfer
  · exact hinfer
  · refine List.forall_mem_append.mpr ⟨hinfer, fun d hd => ?_⟩
    rw [List.mem_singleton.mp hd]
    exact fun _ => Cause.noConfusion

private theorem Env.blameless_declare {t : Ty} {x : Ident} :
    ∀ d ∈ (env.declare t x).2, d.Blameless := by
  unfold declare
  split
  · intro d hd
    rw [List.mem_singleton.mp hd]
    exact fun _ => Cause.noConfusion
  · simp

private theorem Env.blameless_declareAll {t : Ty} {idents : List Ident} :
    ∀ d ∈ (env.declareAll t idents).2, d.Blameless := by
  induction idents generalizing env with
  | nil => simp [declareAll]
  | cons x xs ih => exact List.forall_mem_append.mpr ⟨Env.blameless_declare, ih⟩

/-- The checker never finds statements of a text malformed. -/
theorem Stmt.blameless_checkAll {ss : List Stmt} (hg : Grammatical L ss) :
    ∀ d ∈ (checkAll env ss).2, d.Blameless := by
  induction hg generalizing env with
  | nil => simp [checkAll]
  | cons _ _ ihs ihrest =>
      simp only [checkAll_singleton] at ihs
      rw [checkAll_cons]
      exact List.forall_mem_append.mpr ⟨ihs, ihrest⟩
  | block _ ih =>
      rw [checkAll_singleton, check]
      exact ih
  | declaration =>
      rw [checkAll_singleton, check]
      exact Env.blameless_declareAll
  | read =>
      rw [checkAll_singleton, check]
      exact List.forall_mem_flatMap.mpr fun _ _ => Env.blameless_use
  | write hvalues =>
      rw [checkAll_singleton, check]
      exact List.forall_mem_flatMap.mpr fun e he => Expr.blameless_infer (hvalues e he)
  | branch htest _ _ ihconsequent ihalternate =>
      simp only [checkAll_singleton] at ihconsequent
      simp only [checkAll_toList] at ihalternate
      rw [checkAll_singleton, check_branch]
      refine List.forall_mem_append.mpr ⟨?_, ihalternate⟩
      exact List.forall_mem_append.mpr
        ⟨Expr.blameless_checkCondition htest, ihconsequent⟩
  | whileLoop htest _ ih =>
      simp only [checkAll_singleton] at ih
      rw [checkAll_singleton, check]
      exact List.forall_mem_append.mpr ⟨Expr.blameless_checkCondition htest, ih⟩
  | @forLoop induction _ _ _ _ _ _ hinit htest hstep _ ih =>
      simp only [checkAll_singleton] at ih
      rw [checkAll_singleton, check_forLoop]
      have hfront : ∀ d ∈ (checkAll env (Induction.declarations induction)).2,
          d.Blameless := by
        cases induction with
        | none => simp [Induction.declarations, checkAll]
        | some i =>
            rw [Induction.declarations, checkAll_singleton, check]
            exact Env.blameless_declareAll
      simp only [List.forall_mem_append]
      exact ⟨⟨⟨⟨hfront, Expr.blameless_infer hinit⟩,
        Expr.blameless_checkCondition htest⟩, Expr.blameless_infer hstep⟩, ih⟩
  | effect he =>
      rw [checkAll_singleton, check]
      exact Expr.blameless_infer he

end

/-! ### Code -/

theorem blameless_of_ok {α : Type} {result : Except Diagnostic α} {a : α}
    (h : result = .ok a) :
    ∀ d, result = .error d → d.Blameless := by
  rintro d rfl
  cases h

section

variable {L : Lexicon} {symbols : Env}

private theorem Fragment.blameless_andThen {f : Fragment}
    {more : Ty → List Instr × Except Diagnostic Ty}
    (hf : ∀ d, f.result = .error d → d.Blameless)
    (hmore : ∀ t d, (more t).2 = .error d → d.Blameless) :
    ∀ d, (f.andThen more).result = .error d → d.Blameless := by
  intro d hd
  unfold andThen at hd
  cases hresult : f.result with
  | error d' =>
      rw [hresult] at hd
      cases hd
      exact hf d hresult
  | ok t =>
      rw [hresult] at hd
      exact hmore t d hd

private theorem Fragment.blameless_ofVariable {name : String} {position : Position}
    {use : Ty → Fragment} (huse : ∀ t d, (use t).result = .error d → d.Blameless) :
    ∀ d, (ofVariable symbols name position use).result = .error d → d.Blameless := by
  intro d hd
  unfold ofVariable at hd
  split at hd
  · cases hd
    exact blameless_notDeclared
  · exact huse _ d hd

/-- Every operator of a level has instructions. -/
theorem isSome_operation {operator : TokenKind} {l : Level}
    (h : Level.ofOperator? operator = some l) (t : Ty) :
    (operation operator t).isSome = true := by
  cases operator <;> first | rfl | cases h

/-- Code is never given up because an expression of a text was malformed. -/
theorem Expr.blameless_emit {e : Expr} (hg : e.Grammatical L) :
    ∀ d, (e.emit symbols).result = .error d → d.Blameless := by
  induction hg with
  | int | float | bool | string => simp [emit, Fragment.push]
  | symbol => exact Fragment.blameless_ofVariable fun _ => blameless_of_ok rfl
  | assignment _ _ ih =>
      refine Fragment.blameless_ofVariable fun _ => ?_
      exact Fragment.blameless_andThen ih fun _ => blameless_of_ok rfl
  | unary _ ih => exact Fragment.blameless_andThen ih fun _ => blameless_of_ok rfl
  | @binary l operator left right span hlevel _ _ ihleft ihright =>
      refine Fragment.blameless_andThen ihleft fun t d hd => ?_
      cases hright : (right.emit symbols).result with
      | error d' =>
          simp only [hright] at hd
          cases hd
          exact ihright d hright
      | ok u =>
          obtain ⟨own, hown⟩ := Option.isSome_iff_exists.mp
            (isSome_operation hlevel (operandType (widens operator.kind) t u))
          simp only [hright, hown] at hd
          cases hd

end

namespace Emitter

variable {α β : Type}

/-- Whether an emitter, where it gives up, has a report that blames the program. -/
def Blameless (m : Emitter α) : Prop := ∀ σ d, (m σ).result = .error d → d.Blameless

theorem blameless_pure {a : α} : Blameless (pure a : Emitter α) :=
  fun _ => blameless_of_ok rfl

theorem Blameless.bind {m : Emitter α} {f : α → Emitter β} (hm : m.Blameless)
    (hf : ∀ a, (f a).Blameless) : (m >>= f).Blameless := by
  intro σ d hd
  have hfront := hm σ
  change (Emitter.bind m f σ).result = .error d at hd
  unfold Emitter.bind at hd
  cases h : m σ with
  | mk code τ result =>
      rw [h] at hd hfront
      cases result with
      | ok a => exact hf a τ d hd
      | error d' =>
          cases hd
          exact hfront d rfl

private theorem blameless_emit {code : List Instr} : (Emitter.emit code).Blameless :=
  fun _ => blameless_of_ok rfl

private theorem blameless_freshLabel : freshLabel.Blameless :=
  fun _ => blameless_of_ok rfl

private theorem blameless_declare {t : Ty} {x : Ident} : (declare t x).Blameless :=
  fun _ => blameless_of_ok rfl

private theorem blameless_typeOf {x : Ident} : (typeOf x).Blameless := by
  intro σ d hd
  unfold typeOf at hd
  split at hd
  · cases hd
  · cases hd
    exact blameless_notDeclared

private theorem blameless_readInto {x : Ident} : (readInto x).Blameless :=
  blameless_typeOf.bind fun _ => blameless_emit

private theorem blameless_each {f : α → Emitter Unit} {as : List α}
    (hf : ∀ a ∈ as, (f a).Blameless) :
    (each f as).Blameless := by
  induction as with
  | nil => exact blameless_pure
  | cons a as ih =>
      have hrest := ih fun b hb => hf b (List.mem_cons_of_mem a hb)
      exact (hf a List.mem_cons_self).bind fun _ => hrest

variable {L : Lexicon} {e : Expr}

private theorem blameless_expr (hg : e.Grammatical L) : (expr e).Blameless :=
  fun _ => Expr.blameless_emit hg

private theorem blameless_discarded (hg : e.Grammatical L) : (discarded e).Blameless :=
  (blameless_expr hg).bind fun _ => blameless_emit

private theorem blameless_effect (hg : e.Grammatical L) : (effect e).Blameless := by
  refine (blameless_expr hg).bind fun _ => ?_
  split
  · exact blameless_emit
  · exact blameless_pure

end Emitter

open Emitter

/-- A statement is a row of one. -/
theorem Stmt.blameless_emit_of_emitAll {s : Stmt} (h : (Stmt.emitAll [s]).Blameless) :
    s.emit.Blameless := by
  intro σ d hd
  refine h σ d ?_
  change (Emitter.bind s.emit (fun _ => Stmt.emitAll []) σ).result = .error d
  unfold Emitter.bind
  cases hs : s.emit σ with
  | mk code τ result =>
      rw [hs] at hd
      cases hd
      rfl

private theorem Stmt.blameless_emitAll_singleton {s : Stmt} (h : s.emit.Blameless) :
    (Stmt.emitAll [s]).Blameless := h.bind fun _ => blameless_pure

/-- Code is never given up because statements of a text were malformed. -/
theorem Stmt.blameless_emitAll {L : Lexicon} {ss : List Stmt} (hg : Grammatical L ss) :
    (Stmt.emitAll ss).Blameless := by
  induction hg with
  | nil => exact blameless_pure
  | cons _ _ ihs ihrest => exact (blameless_emit_of_emitAll ihs).bind fun _ => ihrest
  | block _ ih =>
      refine blameless_emitAll_singleton ?_
      rw [emit]
      exact ih
  | declaration =>
      refine blameless_emitAll_singleton ?_
      rw [emit]
      exact blameless_each fun _ _ => blameless_declare
  | read =>
      refine blameless_emitAll_singleton ?_
      rw [emit]
      exact blameless_each fun _ _ => blameless_readInto
  | write hvalues =>
      refine blameless_emitAll_singleton ?_
      rw [emit]
      refine (blameless_each fun e he => ?_).bind fun _ => blameless_emit
      exact (blameless_expr (hvalues e he)).bind fun _ => blameless_pure
  | @branch condition consequent alternate span htest _ _ ihconsequent ihalternate =>
      have halternate : (Stmt.emitOption alternate).Blameless := by
        cases alternate with
        | none => exact blameless_pure
        | some s => exact blameless_emit_of_emitAll ihalternate
      refine blameless_emitAll_singleton ?_
      rw [emit]
      refine blameless_freshLabel.bind fun _ => blameless_freshLabel.bind fun _ => ?_
      refine (blameless_expr htest).bind fun _ => blameless_emit.bind fun _ => ?_
      refine (blameless_emit_of_emitAll ihconsequent).bind fun _ =>
        blameless_emit.bind fun _ => ?_
      exact halternate.bind fun _ => blameless_emit
  | whileLoop htest _ ih =>
      refine blameless_emitAll_singleton ?_
      rw [emit]
      refine blameless_freshLabel.bind fun _ => blameless_freshLabel.bind fun _ => ?_
      refine blameless_emit.bind fun _ => (blameless_expr htest).bind fun _ => ?_
      refine blameless_emit.bind fun _ =>
        (blameless_emit_of_emitAll ih).bind fun _ => ?_
      exact blameless_emit
  | @forLoop induction _ _ _ _ _ _ hinit htest hstep _ ih =>
      have hfront : (Stmt.emitAll (Induction.declarations induction)).Blameless := by
        cases induction with
        | none => exact blameless_pure
        | some i =>
            refine blameless_emitAll_singleton ?_
            rw [emit]
            exact blameless_each fun _ _ => blameless_declare
      refine blameless_emitAll_singleton ?_
      rw [emit_forLoop]
      refine hfront.bind fun _ => (blameless_discarded hinit).bind fun _ => ?_
      refine blameless_freshLabel.bind fun _ => blameless_freshLabel.bind fun _ => ?_
      refine blameless_emit.bind fun _ => (blameless_expr htest).bind fun _ => ?_
      refine blameless_emit.bind fun _ =>
        (blameless_emit_of_emitAll ih).bind fun _ => ?_
      exact (blameless_discarded hstep).bind fun _ => blameless_emit
  | effect he =>
      refine blameless_emitAll_singleton ?_
      rw [emit]
      exact blameless_effect he

/-! ## Code for what follows the rules -/

section

variable {L : Lexicon} {env env' symbols : Env} {n : Nat}

/-- An expression with a type has code, also where more variables are declared, that
leaves this type. -/
theorem Expr.Derives.exists_emits {e : Expr} {t : Ty} (hg : e.Grammatical L)
    (h : e.Derives env t) (hsub : env.Sub symbols) :
    ∃ code, Expr.Emits symbols e code t := by
  induction hg generalizing t with
  | int =>
      cases h
      exact ⟨_, .literal (v := .int _) rfl⟩
  | float =>
      cases h
      exact ⟨_, .literal (v := .float _) rfl⟩
  | bool =>
      cases h
      exact ⟨_, .literal (v := .bool _) rfl⟩
  | string =>
      cases h
      exact ⟨_, .literal (v := .string _) rfl⟩
  | symbol =>
      cases h with
      | symbol ht => exact ⟨_, .symbol (hsub _ _ ht)⟩
  | assignment _ _ ih =>
      cases h with
      | assignment ht hvalue _ =>
          obtain ⟨code, hcode⟩ := ih hvalue
          exact ⟨_, .assignment (hsub _ _ ht) hcode⟩
  | unary _ ih =>
      cases h with
      | opposite _ hoperand _ | not _ hoperand =>
          obtain ⟨code, hcode⟩ := ih hoperand
          exact ⟨_, .unary hcode⟩
  | @binary l operator left right span hlevel _ _ ihleft ihright =>
      cases h with
      | @binary _ _ _ _ _ t u _ hleft hright hcombines =>
          obtain ⟨leftCode, hleftCode⟩ := ihleft hleft
          obtain ⟨rightCode, hrightCode⟩ := ihright hright
          obtain ⟨⟨own, result'⟩, hown⟩ := Option.isSome_iff_exists.mp
            (isSome_operation hlevel (operandType (widens operator.kind) t u))
          have hrule := binaryRule_of_binaryType hcombines.binaryType_eq
          obtain rfl := hrule.eq_of_operation hown
          exact ⟨_, .binary hleftCode hrightCode hown⟩

private theorem Expr.exists_emitsAll {values : List Expr}
    (hg : ∀ e ∈ values, e.Grammatical L) (h : ∀ e ∈ values, ∃ t, e.Derives env t) :
    ∃ code, Expr.EmitsAll env values code := by
  induction values with
  | nil => exact ⟨_, .nil⟩
  | cons e rest ih =>
      obtain ⟨t, ht⟩ := h e List.mem_cons_self
      obtain ⟨front, hfront⟩ := ht.exists_emits (hg e List.mem_cons_self) (.refl _)
      obtain ⟨back, hback⟩ := ih (fun e he => hg e (List.mem_cons_of_mem _ he))
        fun e he => h e (List.mem_cons_of_mem _ he)
      exact ⟨_, .cons hfront hback⟩

private theorem Env.Declares.exists_layout {t : Ty} {idents : List Ident}
    (h : Env.Declares t env idents env') (span : Span) :
    ∃ code, Layout ⟨env, n⟩ [.declaration t idents span] code ⟨env', n⟩ := by
  induction h with
  | nil => exact ⟨_, .declareNone⟩
  | cons _ _ ih =>
      obtain ⟨code, hcode⟩ := ih
      exact ⟨_, .declare hcode⟩

private theorem exists_layout_read {idents : List Ident}
    (h : ∀ x ∈ idents, ∃ t, env.find? x.name = some t) (span : Span) :
    ∃ code, Layout ⟨env, n⟩ [.read idents span] code ⟨env, n⟩ := by
  induction idents with
  | nil => exact ⟨_, .readNone⟩
  | cons x xs ih =>
      obtain ⟨t, ht⟩ := h x List.mem_cons_self
      obtain ⟨code, hcode⟩ := ih fun y hy => h y (List.mem_cons_of_mem _ hy)
      exact ⟨_, .read ht hcode⟩

/-- The declaration of the variable of a loop takes no labels. -/
theorem exists_layout_declarations {induction : Option Induction}
    (h : Stmt.DerivesAll env (Induction.declarations induction) env') :
    ∃ code, Layout ⟨env, n⟩ (Induction.declarations induction) code ⟨env', n⟩ := by
  cases induction with
  | none =>
      cases h
      exact ⟨_, .nil⟩
  | some i =>
      cases Stmt.derivesAll_singleton.mp h with
      | declaration hidents => exact hidents.exists_layout _

/-- Statements that follow the rules keep the types of the variables, as can be seen
from their code. -/
theorem Stmt.DerivesAll.sub_of_layout {ss : List Stmt} {code : List Instr} {τ : Scope}
    (hg : Grammatical L ss) (h : DerivesAll env ss env')
    (hcode : Layout ⟨env, n⟩ ss code τ) :
    env.Sub env' := by
  have hcheck := (checkAll_eq_iff hg).mpr h
  have hwt : Stmt.WellTyped env ss τ.symbols :=
    hcode.wellTyped (congrArg Prod.snd hcheck)
  have henv : env' = τ.symbols := (congrArg Prod.fst hcheck).symm.trans hwt.checkAll_fst
  rw [henv]
  exact hwt.sub

/-- Statements that follow the rules have code, which leaves the variables that
the rules leave. -/
theorem Stmt.DerivesAll.exists_layout {ss : List Stmt} (hg : Grammatical L ss)
    (h : DerivesAll env ss env') : ∃ code m, Layout ⟨env, n⟩ ss code ⟨env', m⟩ := by
  induction hg generalizing env env' n with
  | nil =>
      cases h
      exact ⟨_, _, .nil⟩
  | cons _ _ ihs ihrest =>
      cases h with
      | cons hs hrest =>
          obtain ⟨front, m, hfront⟩ := ihs (derivesAll_singleton.mpr hs)
          obtain ⟨back, k, hback⟩ := ihrest hrest
          exact ⟨_, k, .cons hfront hback⟩
  | block _ ih =>
      cases derivesAll_singleton.mp h with
      | block hbody =>
          obtain ⟨code, m, hcode⟩ := ih hbody
          exact ⟨code, m, .block hcode⟩
  | declaration =>
      cases derivesAll_singleton.mp h with
      | declaration hidents =>
          obtain ⟨code, hcode⟩ := hidents.exists_layout _
          exact ⟨code, n, hcode⟩
  | read =>
      cases derivesAll_singleton.mp h with
      | read hidents =>
          obtain ⟨code, hcode⟩ := exists_layout_read hidents _
          exact ⟨code, n, hcode⟩
  | write hvalues =>
      cases derivesAll_singleton.mp h with
      | write htypes =>
          obtain ⟨code, hcode⟩ := Expr.exists_emitsAll hvalues htypes
          exact ⟨_, n, .write hcode⟩
  | branch htest _ _ ihconsequent ihalternate =>
      cases derivesAll_singleton.mp h with
      | branch hcondition hconsequent halternate =>
          obtain ⟨test, htestCode⟩ := hcondition.exists_emits htest (.refl _)
          obtain ⟨a, m, ha⟩ := ihconsequent (derivesAll_singleton.mpr hconsequent)
          obtain ⟨b, k, hb⟩ := ihalternate halternate
          exact ⟨_, k, .branch htestCode ha hb⟩
  | whileLoop htest _ ih =>
      cases derivesAll_singleton.mp h with
      | whileLoop hcondition hbody =>
          obtain ⟨test, htestCode⟩ := hcondition.exists_emits htest (.refl _)
          obtain ⟨code, m, hcode⟩ := ih (derivesAll_singleton.mpr hbody)
          exact ⟨_, m, .whileLoop htestCode hcode⟩
  | forLoop _ hginit htest hgstep hgbody ih =>
      cases derivesAll_singleton.mp h with
      | forLoop hfront hinit hcondition hstep hbody =>
          have hinner := derivesAll_singleton.mpr hbody
          obtain ⟨front, hfrontCode⟩ := exists_layout_declarations hfront
          obtain ⟨first, hfirst⟩ := hinit.exists_emits hginit (.refl _)
          obtain ⟨test, htestCode⟩ := hcondition.exists_emits htest (.refl _)
          obtain ⟨code, m, hcode⟩ := ih hinner
          -- the code for the step stands behind that for the body
          obtain ⟨last, hlast⟩ :=
            hstep.exists_emits hgstep (hinner.sub_of_layout hgbody hcode)
          exact ⟨_, m, .forLoop hfrontCode hfirst htestCode hcode hlast⟩
  | @effect e span he =>
      cases derivesAll_singleton.mp h with
      | effect ht =>
          obtain ⟨code, hcode⟩ := ht.exists_emits he (.refl _)
          by_cases hkind : e.kind = .assignment
          · exact ⟨_, n, .assign hkind hcode⟩
          · exact ⟨_, n, .leave hkind hcode⟩

end

/-! ## The types on both sides -/

mutual

/-- The expressions that code is made for in a statement, each with the variables there
are when it is made, listed as the checker looks at them. -/
def Stmt.emitted (σ : Scope) : Stmt → List (Env × Expr)
  | block body _ => Stmt.emittedAll σ body
  | declaration .. => []
  | read .. => []
  | write values _ => values.flatMap (Expr.visits σ.symbols)
  | branch condition consequent alternate _ =>
    condition.visits σ.symbols ++ consequent.emitted σ.inside ++
      Stmt.emittedOption (consequent.emit σ.inside).scope alternate
  | whileLoop condition body _ => condition.visits σ.symbols ++ body.emitted σ.inside
  | forLoop induction init condition step body _ =>
    let σ := (Stmt.emitAll (Induction.declarations induction) σ).scope
    init.visits σ.symbols ++ condition.visits σ.symbols ++
      step.visits (body.emit σ.inside).scope.symbols ++ body.emitted σ.inside
  | effect value _ => value.visits σ.symbols

/-- As `Stmt.emitted`, for a statement that may be missing. -/
def Stmt.emittedOption (σ : Scope) : Option Stmt → List (Env × Expr)
  | none => []
  | some s => s.emitted σ

/-- As `Stmt.emitted`, for statements in a row. -/
def Stmt.emittedAll (σ : Scope) : List Stmt → List (Env × Expr)
  | [] => []
  | s :: rest => s.emitted σ ++ Stmt.emittedAll (s.emit σ).scope rest

end

/-- Whether the checker and the code, each with its own variables, find the same type
for an expression. -/
def Expr.Agrees (v w : Env × Expr) : Prop :=
  v.2 = w.2 ∧ ∃ t, v.2.infer v.1 = .good t ∧ (w.2.emit w.1).result = .ok t

section

variable {L : Lexicon} {env env' symbols : Env} {n : Nat}

private theorem Expr.agrees_visits {e : Expr} {t : Ty} (hg : e.Grammatical L)
    (h : e.Derives env t) (hsub : env.Sub symbols) :
    List.Forall₂ Agrees (e.visits env) (e.visits symbols) := by
  rw [visits, visits, List.forall₂_map_left_iff, List.forall₂_map_right_iff,
    List.forall₂_same]
  intro part hpart
  obtain ⟨u, hu⟩ := h.parts part hpart
  have hgpart := hg.parts part hpart
  obtain ⟨code, hcode⟩ := hu.exists_emits hgpart hsub
  exact ⟨rfl, u, hu.infer_eq hgpart, congrArg Fragment.result hcode.emit_eq⟩

private theorem Stmt.emittedAll_singleton (σ : Scope) (s : Stmt) :
    emittedAll σ [s] = s.emitted σ := by
  simp [emittedAll]

private theorem Stmt.emittedAll_toList (σ : Scope) (s : Option Stmt) :
    emittedAll σ s.toList = emittedOption σ s := by
  cases s <;> simp [emittedAll, emittedOption]

/-- In statements that follow the rules the types that the checker finds are those
that the code has. -/
theorem Stmt.agrees_emittedAll {ss : List Stmt} (hg : Grammatical L ss)
    (h : DerivesAll env ss env') :
    List.Forall₂ Expr.Agrees (checkedAll env ss) (emittedAll ⟨env, n⟩ ss) := by
  induction hg generalizing env env' n with
  | nil =>
      simp only [checkedAll, emittedAll]
      exact .nil
  | cons hgs _ ihs ihrest =>
      cases h with
      | cons hs hrest =>
          have hfront := derivesAll_singleton.mpr hs
          obtain ⟨code, m, hcode⟩ := hfront.exists_layout (n := n) hgs
          have hinner := ihs (n := n) hfront
          rw [checkedAll_singleton, emittedAll_singleton] at hinner
          rw [checkedAll, emittedAll, hcode.emit_eq, ← checkAll_singleton,
            (checkAll_eq_iff hgs).mpr hfront]
          exact List.rel_append hinner (ihrest hrest)
  | block _ ih =>
      rw [checkedAll_singleton, emittedAll_singleton, checked, emitted]
      cases derivesAll_singleton.mp h with
      | block hbody => exact ih hbody
  | declaration | read =>
      rw [checkedAll_singleton, emittedAll_singleton, checked, emitted]
      exact .nil
  | write hvalues =>
      rw [checkedAll_singleton, emittedAll_singleton, checked, emitted]
      cases derivesAll_singleton.mp h with
      | write htypes =>
          refine List.forall₂_same.mpr (List.forall_mem_flatMap.mpr fun e he => ?_)
          obtain ⟨t, ht⟩ := htypes e he
          exact List.forall₂_same.mp (Expr.agrees_visits (hvalues e he) ht (.refl env))
  | branch htest hgc _ ihconsequent ihalternate =>
      cases derivesAll_singleton.mp h with
      | branch hcondition hconsequent halternate =>
          have hfront := derivesAll_singleton.mpr hconsequent
          obtain ⟨code, m, hcode⟩ := hfront.exists_layout (n := n + 2) hgc
          have hinner := ihconsequent (n := n + 2) hfront
          have houter := ihalternate (n := m) halternate
          rw [checkedAll_singleton, emittedAll_singleton] at hinner
          rw [checkedAll_toList, emittedAll_toList] at houter
          rw [checkedAll_singleton, emittedAll_singleton, checked, emitted,
            Scope.inside, hcode.emit_eq, ← checkAll_singleton,
            (checkAll_eq_iff hgc).mpr hfront]
          have htests := Expr.agrees_visits htest hcondition (.refl env)
          exact List.rel_append (List.rel_append htests hinner) houter
  | whileLoop htest _ ih =>
      cases derivesAll_singleton.mp h with
      | whileLoop hcondition hbody =>
          have hinner := ih (n := n + 2) (derivesAll_singleton.mpr hbody)
          rw [checkedAll_singleton, emittedAll_singleton] at hinner
          rw [checkedAll_singleton, emittedAll_singleton, checked, emitted]
          exact List.rel_append (Expr.agrees_visits htest hcondition (.refl env)) hinner
  | forLoop _ hginit htest hgstep hgbody ih =>
      cases derivesAll_singleton.mp h with
      | forLoop hfront hinit hcondition hstep hbody =>
          have hrow := derivesAll_singleton.mpr hbody
          obtain ⟨front, hfrontCode⟩ := exists_layout_declarations (n := n) hfront
          obtain ⟨code, m, hcode⟩ := hrow.exists_layout (n := n + 2) hgbody
          have hinner := ih (n := n + 2) hrow
          rw [checkedAll_singleton, emittedAll_singleton] at hinner
          rw [checkedAll_singleton, emittedAll_singleton, checked, emitted,
            checkAll_declarations_eq_iff.mpr hfront, hfrontCode.emitAll_eq]
          simp only [Scope.inside, hcode.emit_eq]
          have hinits := Expr.agrees_visits hginit hinit (.refl _)
          have htests := Expr.agrees_visits htest hcondition (.refl _)
          have hsteps :=
            Expr.agrees_visits hgstep hstep (hrow.sub_of_layout hgbody hcode)
          exact List.rel_append (List.rel_append (List.rel_append hinits htests) hsteps)
            hinner
  | effect he =>
      rw [checkedAll_singleton, emittedAll_singleton, checked, emitted]
      cases derivesAll_singleton.mp h with
      | effect ht => exact Expr.agrees_visits he ht (.refl env)

end

/-! ## Programs -/

section

variable {L : Lexicon} {env env' : Env} {front back : List Stmt}

private theorem Stmt.Grammatical.append_left (h : Grammatical L (front ++ back)) :
    Grammatical L front :=
  .of_forall fun s hs => h.mem s (List.mem_append_left back hs)

private theorem Stmt.DerivesAll.append_left (h : DerivesAll env (front ++ back) env') :
    ∃ inner, DerivesAll env front inner := by
  induction front generalizing env with
  | nil => exact ⟨env, .nil⟩
  | cons s rest ih =>
      cases h with
      | cons hs hrest =>
          obtain ⟨inner, hinner⟩ := ih hrest
          exact ⟨inner, .cons hs hinner⟩

/-- Behind statements that follow the rules the checker and the code have
the same variables. -/
theorem Stmt.DerivesAll.symbols_eq {ss : List Stmt} (hg : Grammatical L ss)
    (h : DerivesAll .empty ss env) :
    (checkAll .empty ss).1 = (emitAll ss .empty).scope.symbols := by
  obtain ⟨code, m, hcode⟩ := h.exists_layout (n := 0) hg
  have hscope : (emitAll ss .empty).scope = ⟨env, m⟩ :=
    congrArg Emission.scope hcode.emitAll_eq
  rw [hscope, (checkAll_eq_iff hg).mpr h]

end

/-- Whether the checker and the code say the same about a program: it has code, all its
expressions have one type on both sides, and behind each of its statements there are
the same variables. -/
structure Program.PhasesAgree (p : Program) : Prop where
  compiles : ∃ code, p.compile = .ok code
  types : List.Forall₂ Expr.Agrees (Stmt.checkedAll .empty p.body)
    (Stmt.emittedAll .empty p.body)
  tables : ∀ front back, p.body = front ++ back →
    (Stmt.checkAll .empty front).1 = (Stmt.emitAll front .empty).scope.symbols

namespace Program

variable {file source : String} {tokens : List Token} {p : Program}

private theorem blameless_check (h : ofTokens file tokens = .ok p) :
    ∀ d ∈ p.check, d.Blameless :=
  Stmt.blameless_checkAll (grammatical_full h)

private theorem blameless_compile (h : ofTokens file tokens = .ok p) :
    ∀ d, p.compile = .error d → d.Blameless := by
  have hblameless := Stmt.blameless_emitAll (grammatical_full h) .empty
  intro d hd
  unfold compile at hd
  dsimp only at hd
  cases hresult : (Stmt.emitAll p.body .empty).result with
  | ok u =>
      rw [hresult] at hd
      cases hd
  | error d' =>
      rw [hresult] at hd
      cases hd
      exact hblameless d hresult

theorem phasesAgree_of_check (h : ofTokens file tokens = .ok p)
    (hcheck : p.check = []) :
    p.PhasesAgree := by
  have hg := grammatical_full h
  have hall := (Stmt.checkAll_eq_iff hg).mp (Prod.ext rfl hcheck)
  refine ⟨?_, Stmt.agrees_emittedAll hg hall, fun front back hbody => ?_⟩
  · obtain ⟨code, m, hcode⟩ := hall.exists_layout (n := 0) hg
    have hemission : Stmt.emitAll p.body .empty = ⟨code, ⟨_, m⟩, .ok ()⟩ :=
      hcode.emitAll_eq
    exact ⟨code, by rw [compile, hemission]; rfl⟩
  · rw [hbody] at hg hall
    obtain ⟨inner, hinner⟩ := hall.append_left
    exact hinner.symbols_eq hg.append_left

/-- A program is rejected for its types if the checker has reports, and with them. -/
theorem compileChecked_eq_error_iff {reports : List Diagnostic}
    (hcompiles : p.check = [] → ∃ code, p.compile = .ok code) :
    p.compileChecked = .error ⟨.types, reports⟩ ↔ p.check = reports ∧ reports ≠ [] := by
  unfold compileChecked
  cases hcheck : p.check with
  | nil =>
      obtain ⟨code, hcode⟩ := hcompiles hcheck
      simp only [hcode]
      constructor
      · intro h
        cases h
      · rintro ⟨rfl, hne⟩
        exact absurd rfl hne
  | cons d ds =>
      constructor
      · intro h
        cases h
        exact ⟨rfl, List.cons_ne_nil d ds⟩
      · rintro ⟨rfl, -⟩
        rfl

end Program

/-- The phases agree. For the programs that tokens make, no report of the checker or
from making code blames the tree, and where the checker has no reports the program has
code with the same types and variables. So a source text is rejected for its types if
and only if the checker has reports, and then with these. -/
theorem phases_agree (file : String) :
    (∀ tokens p, Program.ofTokens file tokens = .ok p →
      (∀ d ∈ p.check, d.Blameless) ∧ (∀ d, p.compile = .error d → d.Blameless) ∧
        (p.check = [] → p.PhasesAgree)) ∧
      ∀ source reports, compileSource file source = .error ⟨.types, reports⟩ ↔
        ∃ p, Program.ofSource file source = .ok p ∧ p.check = reports ∧
          reports ≠ [] := by
  refine ⟨fun tokens p h => ?_, fun source reports => ?_⟩
  · exact ⟨p.blameless_check h, p.blameless_compile h, p.phasesAgree_of_check h⟩
  unfold compileSource
  cases hsource : Program.ofSource file source with
  | error errors => simp
  | ok p =>
      obtain ⟨tokens, -, h⟩ := Program.exists_tokens_of_ofSource hsource
      have hiff : p.compileChecked = .error ⟨.types, reports⟩ ↔ p.check = reports ∧
          reports ≠ [] :=
        Program.compileChecked_eq_error_iff fun hcheck =>
          (p.phasesAgree_of_check h hcheck).compiles
      simpa using hiff

/-- The phases agree on a loop that declares a variable before its step. -/
theorem phases_agree_at_loop :
    ∃ tokens p code, Token.scan "t" "float x; for (int i = 0; i < 3; x = i) int j;" =
        .ok tokens ∧
      Program.ofTokens "t" tokens = .ok p ∧ p.check = [] ∧ p.PhasesAgree ∧
      p.compile = .ok code := by
  obtain ⟨tokens, hscan⟩ : ∃ tokens, Token.scan "t"
      "float x; for (int i = 0; i < 3; x = i) int j;" = .ok tokens := ⟨_, rfl⟩
  obtain ⟨p, hp, hcheck⟩ : ∃ p, Program.ofTokens "t" tokens = .ok p ∧ p.check = [] := by
    cases hscan
    exact ⟨_, rfl, rfl⟩
  obtain ⟨-, -, hagree⟩ := (phases_agree "t").1 tokens p hp
  obtain ⟨code, hcode⟩ := (hagree hcheck).compiles
  exact ⟨tokens, p, code, hscan, hp, hcheck, hagree hcheck, hcode⟩

end ScalarLang
