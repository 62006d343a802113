import ScalarLang.Compilation
import ScalarLang.Proofs.Emission

/-!
# How code is laid out

`Layout σ ss code τ` says that the statements `ss`, in a row and in the scope
`σ`, have this code, and that the scope behind it is `τ`. It has one rule for
each kind of statement, and every later fact about the code of programs is an
induction over these rules.

The relation is one about *lists* of statements, which are taken apart from two on, so
that each list has one rule (`layout_cons_iff` is the rule for all lists that are not
empty). A single statement is a list of one, a missing alternative is the empty list,
and the variable of a loop is a declaration in front of it: so one relation without
mutual recursion serves them all. Several variables in one declaration are the first of
them and a declaration of the others.

## Main results

* `layout_iff`: the code for statements is what the rules say.
* `Program.layout_of_compile`: so is the code that a program compiles to.
-/

namespace ScalarLang

/-! ## Statements -/

/-- The scope behind the declaration of a variable. -/
def Scope.declare (σ : Scope) (t : Ty) (x : Ident) : Scope :=
  { σ with symbols := σ.symbols.insert x.name t }

/-- The scope inside a construct that took two labels. -/
def Scope.inside (σ : Scope) : Scope := { σ with labels := σ.labels + 2 }

/-- The declaration of the variable of a loop, if it has one. -/
def Induction.declarations : Option Induction → List Stmt
  | none => []
  | some i => [.declaration i.ty [i.target] i.target.span]

/-- The code of a choice: behind the test the consequent, which jumps over
the alternative. -/
def branchCode (n : Nat) (test consequent alternate : List Instr) : List Instr :=
  test ++ .jumpUnless n :: (consequent ++ .jump (n + 1) :: .label n ::
    (alternate ++ [.label (n + 1)]))

/-- The code of a loop: the test at its head, and behind the body the jump back to
it. -/
def loopCode (n : Nat) (test body : List Instr) : List Instr :=
  .label n :: (test ++ .jumpUnless (n + 1) :: (body ++ [.jump n, .label (n + 1)]))

/-- The code for expressions in a row, each of which leaves its value. -/
inductive Expr.EmitsAll (symbols : Env) : List Expr → List Instr → Prop where
  | nil : EmitsAll symbols [] []
  | cons {e : Expr} {rest : List Expr} {front back : List Instr} {t : Ty}
      (he : Emits symbols e front t) (hrest : EmitsAll symbols rest back) :
      EmitsAll symbols (e :: rest) (front ++ back)

/-- The code that statements in a row have in a scope, and the scope behind it. -/
inductive Layout : Scope → List Stmt → List Instr → Scope → Prop where
  | nil {σ : Scope} : Layout σ [] [] σ
  | cons {σ τ υ : Scope} {s next : Stmt} {rest : List Stmt} {front back : List Instr}
      (hs : Layout σ [s] front τ) (hrest : Layout τ (next :: rest) back υ) :
      Layout σ (s :: next :: rest) (front ++ back) υ
  | block {σ τ : Scope} {body : List Stmt} {span : Span} {code : List Instr}
      (hbody : Layout σ body code τ) : Layout σ [.block body span] code τ
  | declareNone {σ : Scope} {t : Ty} {span : Span} :
      Layout σ [.declaration t [] span] [] σ
  | declare {σ τ : Scope} {t : Ty} {x : Ident} {xs : List Ident} {span : Span}
      {code : List Instr}
      (hxs : Layout (σ.declare t x) [.declaration t xs span] code τ) :
      Layout σ [.declaration t (x :: xs) span] (.push (.default t) ::
        .save x.name :: code) τ
  | readNone {σ : Scope} {span : Span} : Layout σ [.read [] span] [] σ
  | read {σ τ : Scope} {x : Ident} {xs : List Ident} {span : Span}
      {code : List Instr} {t : Ty}
      (ht : σ.symbols.find? x.name = some t) (hxs : Layout σ [.read xs span] code τ) :
      Layout σ [.read (x :: xs) span] (.read t :: .save x.name :: code) τ
  | write {σ : Scope} {values : List Expr} {span : Span} {code : List Instr}
      (hvalues : Expr.EmitsAll σ.symbols values code) :
      Layout σ [.write values span] (code ++ [.print values.length]) σ
  | branch {σ τ υ : Scope} {condition : Expr} {consequent : Stmt}
      {alternate : Option Stmt}
      {span : Span} {test a b : List Instr} {t : Ty}
      (htest : Expr.Emits σ.symbols condition test t)
      (hconsequent : Layout σ.inside [consequent] a τ)
      (halternate : Layout τ alternate.toList b υ) :
      Layout σ [.branch condition consequent alternate span]
        (branchCode σ.labels test a b) υ
  | whileLoop {σ τ : Scope} {condition : Expr} {body : Stmt} {span : Span}
      {test code : List Instr} {t : Ty} (htest : Expr.Emits σ.symbols condition test t)
      (hbody : Layout σ.inside [body] code τ) :
      Layout σ [.whileLoop condition body span] (loopCode σ.labels test code) τ
  | forLoop {σ τ υ : Scope} {induction : Option Induction} {init condition step : Expr}
      {body : Stmt} {span : Span} {front first test code last : List Instr} {t u v : Ty}
      (hinduction : Layout σ (Induction.declarations induction) front τ)
      (hinit : Expr.Emits τ.symbols init first t)
      (htest : Expr.Emits τ.symbols condition test u)
      (hbody : Layout τ.inside [body] code υ)
      (hstep : Expr.Emits υ.symbols step last v) :
      Layout σ [.forLoop induction init condition step body span]
        (front ++ (first ++ .pop :: loopCode τ.labels test (code ++ (last ++ [.pop]))))
          υ
  | assign {σ : Scope} {e : Expr} {span : Span} {code : List Instr} {t : Ty}
      (hkind : e.kind = .assignment) (he : Expr.Emits σ.symbols e code t) :
      Layout σ [.effect e span] (code ++ [.pop]) σ
  | leave {σ : Scope} {e : Expr} {span : Span} {code : List Instr} {t : Ty}
      (hkind : e.kind ≠ .assignment) (he : Expr.Emits σ.symbols e code t) :
      Layout σ [.effect e span] code σ

/-! ## Emission follows the rules -/

open ScalarLang.Emitter

/-- The variable of a loop is declared like any other. -/
theorem Stmt.emit_forLoop (induction : Option Induction) (init condition step : Expr)
    (body : Stmt) (span : Span) :
    (Stmt.forLoop induction init condition step body span).emit = (do
      Stmt.emitAll (Induction.declarations induction)
      discarded init
      let again ← freshLabel
      let done ← freshLabel
      Emitter.emit [.label again]
      let _ ← expr condition
      Emitter.emit [.jumpUnless done]
      body.emit
      discarded step
      Emitter.emit [.jump again, .label done]) := by
  cases induction with
  | none =>
      rw [Induction.declarations, Stmt.emitAll, Emitter.pure_bind]
      rfl
  | some i =>
      rw [Induction.declarations, Stmt.emitAll, Stmt.emit, each, each, Stmt.emitAll]
      simp only [Emitter.bind_assoc, Emitter.pure_bind]
      rfl

theorem Stmt.emitAll_singleton {s : Stmt} {σ τ : Scope} {code : List Instr} :
    Stmt.emitAll [s] σ = ⟨code, τ, .ok ()⟩ ↔ s.emit σ = ⟨code, τ, .ok ()⟩ := by
  simp only [Stmt.emitAll, bind_eq_ok_iff, pure_eq_ok_iff]
  constructor
  · rintro ⟨front, _, ⟨⟩, _, hs, ⟨rfl, rfl, -⟩, rfl⟩
    simpa using hs
  · intro hs
    exact ⟨code, τ, (), [], hs, ⟨rfl, rfl, trivial⟩, by simp⟩

theorem each_expr_eq_ok_iff {values : List Expr} {σ τ : Scope} {code : List Instr} :
    each (fun e => do let _ ← expr e) values σ = ⟨code, τ, .ok ()⟩ ↔
      Expr.EmitsAll σ.symbols values code ∧ τ = σ := by
  induction values generalizing code with
  | nil =>
      simp only [each, pure_eq_ok_iff]
      constructor
      · rintro ⟨rfl, rfl, -⟩
        exact ⟨.nil, rfl⟩
      · rintro ⟨⟨⟩, rfl⟩
        exact ⟨rfl, rfl, trivial⟩
  | cons e rest ih =>
      rw [each, Emitter.bind_assoc, expr_bind_eq_ok_iff]
      simp only [pure_bind_eq_ok_iff, ih]
      constructor
      · rintro ⟨t, front, back, he, ⟨hrest, rfl⟩, rfl⟩
        exact ⟨.cons he hrest, rfl⟩
      · rintro ⟨_ | ⟨he, hrest⟩, rfl⟩
        exact ⟨_, _, _, he, ⟨hrest, rfl⟩, rfl⟩

theorem each_readInto_cons_eq_ok_iff {x : Ident} {xs : List Ident} {σ τ : Scope}
    {code : List Instr} :
    each readInto (x :: xs) σ = ⟨code, τ, .ok ()⟩ ↔
      ∃ t back, σ.symbols.find? x.name = some t ∧
        each readInto xs σ = ⟨back, τ, .ok ()⟩ ∧
        code = .read t :: .save x.name :: back := by
  rw [each, readInto, Emitter.bind_assoc]
  simp only [bind_eq_ok_iff (m := typeOf x), typeOf_eq_ok_iff, emit_bind_eq_ok_iff]
  constructor
  · rintro ⟨_, _, t, _, ⟨rfl, rfl, ht⟩, ⟨back, hxs, rfl⟩, rfl⟩
    exact ⟨t, back, ht, hxs, rfl⟩
  · rintro ⟨t, back, ht, hxs, rfl⟩
    exact ⟨[], σ, t, _, ⟨rfl, rfl, ht⟩, ⟨back, hxs, rfl⟩, rfl⟩

theorem each_declare_cons_eq_ok_iff {t : Ty} {x : Ident} {xs : List Ident} {σ τ : Scope}
    {code : List Instr} :
    each (declare t) (x :: xs) σ = ⟨code, τ, .ok ()⟩ ↔
      ∃ back, each (declare t) xs (σ.declare t x) = ⟨back, τ, .ok ()⟩ ∧
        code = .push (.default t) :: .save x.name :: back := by
  rw [each, bind_eq_ok_iff]
  constructor
  · rintro ⟨_, _, ⟨⟩, back, ⟨⟩, hxs, rfl⟩
    exact ⟨back, hxs, rfl⟩
  · rintro ⟨back, hxs, rfl⟩
    exact ⟨_, _, (), back, rfl, hxs, rfl⟩

private theorem layout_of_readInto {xs : List Ident} {span : Span} {σ τ : Scope}
    {code : List Instr} (h : each readInto xs σ = ⟨code, τ, .ok ()⟩) :
    Layout σ [.read xs span] code τ := by
  induction xs generalizing code with
  | nil =>
      obtain ⟨rfl, rfl, -⟩ := pure_eq_ok_iff.mp h
      exact .readNone
  | cons x xs ih =>
      obtain ⟨t, back, ht, hxs, rfl⟩ := each_readInto_cons_eq_ok_iff.mp h
      exact .read ht (ih hxs)

private theorem layout_of_declare {t : Ty} {xs : List Ident} {span : Span} {σ τ : Scope}
    {code : List Instr} (h : each (declare t) xs σ = ⟨code, τ, .ok ()⟩) :
    Layout σ [.declaration t xs span] code τ := by
  induction xs generalizing σ code with
  | nil =>
      obtain ⟨rfl, rfl, -⟩ := pure_eq_ok_iff.mp h
      exact .declareNone
  | cons x xs ih =>
      obtain ⟨back, hxs, rfl⟩ := each_declare_cons_eq_ok_iff.mp h
      exact .declare (ih hxs)

private theorem layout_of_declarations {induction : Option Induction} {σ τ : Scope}
    {code : List Instr}
    (h : Stmt.emitAll (Induction.declarations induction) σ = ⟨code, τ, .ok ()⟩) :
    Layout σ (Induction.declarations induction) code τ := by
  cases induction with
  | none =>
      obtain ⟨rfl, rfl, -⟩ := pure_eq_ok_iff.mp h
      exact .nil
  | some i =>
      have h₁ := Stmt.emitAll_singleton.mp h
      rw [Stmt.emit] at h₁
      exact layout_of_declare h₁

mutual

private theorem Stmt.layout_of_emit (s : Stmt) {σ τ : Scope} {code : List Instr}
    (h : s.emit σ = ⟨code, τ, .ok ()⟩) : Layout σ [s] code τ := by
  cases s with
  | block body span =>
      rw [Stmt.emit] at h
      exact .block (Stmt.layout_of_emitAll body h)
  | declaration t xs span =>
      rw [Stmt.emit] at h
      exact layout_of_declare h
  | read xs span =>
      rw [Stmt.emit] at h
      exact layout_of_readInto h
  | write values span =>
      rw [Stmt.emit] at h
      obtain ⟨front, _, ⟨⟩, back, hvalues, h₁, rfl⟩ := bind_eq_ok_iff.mp h
      obtain ⟨hvalues, rfl⟩ := each_expr_eq_ok_iff.mp hvalues
      obtain ⟨rfl, rfl⟩ := emit_eq_ok_iff.mp h₁
      exact .write hvalues
  | branch condition consequent alternate span =>
      rw [Stmt.emit, freshLabel_bind_eq_ok_iff, freshLabel_bind_eq_ok_iff] at h
      obtain ⟨t, test, _, htest, h₁, rfl⟩ := expr_bind_eq_ok_iff.mp h
      obtain ⟨_, h₂, rfl⟩ := emit_bind_eq_ok_iff.mp h₁
      obtain ⟨a, τ₁, ⟨⟩, _, ha, h₃, rfl⟩ := bind_eq_ok_iff.mp h₂
      obtain ⟨_, h₄, rfl⟩ := emit_bind_eq_ok_iff.mp h₃
      obtain ⟨b, τ₂, ⟨⟩, _, hb, h₅, rfl⟩ := bind_eq_ok_iff.mp h₄
      obtain ⟨rfl, rfl⟩ := emit_eq_ok_iff.mp h₅
      exact .branch htest (Stmt.layout_of_emit consequent ha)
        (Stmt.layout_of_emitOption alternate hb)
  | whileLoop condition body span =>
      rw [Stmt.emit, freshLabel_bind_eq_ok_iff, freshLabel_bind_eq_ok_iff] at h
      obtain ⟨_, h₁, rfl⟩ := emit_bind_eq_ok_iff.mp h
      obtain ⟨t, test, _, htest, h₂, rfl⟩ := expr_bind_eq_ok_iff.mp h₁
      obtain ⟨_, h₃, rfl⟩ := emit_bind_eq_ok_iff.mp h₂
      obtain ⟨c, τ₁, ⟨⟩, _, hc, h₄, rfl⟩ := bind_eq_ok_iff.mp h₃
      obtain ⟨rfl, rfl⟩ := emit_eq_ok_iff.mp h₄
      exact .whileLoop htest (Stmt.layout_of_emit body hc)
  | forLoop induction init condition step body span =>
      rw [Stmt.emit_forLoop] at h
      obtain ⟨front, τ₀, ⟨⟩, _, hfront, h₀, rfl⟩ := bind_eq_ok_iff.mp h
      obtain ⟨t, first, _, hinit, h₁, rfl⟩ := discarded_bind_eq_ok_iff.mp h₀
      rw [freshLabel_bind_eq_ok_iff, freshLabel_bind_eq_ok_iff] at h₁
      obtain ⟨_, h₂, rfl⟩ := emit_bind_eq_ok_iff.mp h₁
      obtain ⟨u, test, _, htest, h₃, rfl⟩ := expr_bind_eq_ok_iff.mp h₂
      obtain ⟨_, h₄, rfl⟩ := emit_bind_eq_ok_iff.mp h₃
      obtain ⟨c, τ₁, ⟨⟩, _, hc, h₅, rfl⟩ := bind_eq_ok_iff.mp h₄
      obtain ⟨v, last, _, hstep, h₆, rfl⟩ := discarded_bind_eq_ok_iff.mp h₅
      obtain ⟨rfl, rfl⟩ := emit_eq_ok_iff.mp h₆
      have hinduction := layout_of_declarations hfront
      simpa [loopCode]
        using Layout.forLoop hinduction hinit htest (Stmt.layout_of_emit body hc) hstep
  | effect e span =>
      rw [Stmt.emit, Emitter.effect] at h
      obtain ⟨t, front, back, he, h₁, rfl⟩ := expr_bind_eq_ok_iff.mp h
      split at h₁
      · obtain ⟨rfl, rfl⟩ := emit_eq_ok_iff.mp h₁
        exact .assign ‹_› he
      · obtain ⟨rfl, rfl, -⟩ := pure_eq_ok_iff.mp h₁
        rw [List.append_nil]
        exact .leave ‹_› he

private theorem Stmt.layout_of_emitOption (s : Option Stmt) {σ τ : Scope}
    {code : List Instr} (h : Stmt.emitOption s σ = ⟨code, τ, .ok ()⟩) :
    Layout σ s.toList code τ := by
  cases s with
  | none =>
      obtain ⟨rfl, rfl, -⟩ := pure_eq_ok_iff.mp h
      exact .nil
  | some s => exact Stmt.layout_of_emit s h

private theorem Stmt.layout_of_emitAll (ss : List Stmt) {σ τ : Scope}
    {code : List Instr} (h : Stmt.emitAll ss σ = ⟨code, τ, .ok ()⟩) :
    Layout σ ss code τ := by
  cases ss with
  | nil =>
      obtain ⟨rfl, rfl, -⟩ := pure_eq_ok_iff.mp h
      exact .nil
  | cons s rest =>
      rw [Stmt.emitAll] at h
      obtain ⟨front, τ₁, ⟨⟩, back, hs, hrest, rfl⟩ := bind_eq_ok_iff.mp h
      have hfront := Stmt.layout_of_emit s hs
      cases rest with
      | nil =>
          obtain ⟨rfl, rfl, -⟩ := pure_eq_ok_iff.mp hrest
          rwa [List.append_nil]
      | cons next rest =>
          exact .cons hfront (Stmt.layout_of_emitAll (next :: rest) hrest)

end

/-- The code for statements is complete in exactly the ways that the rules say. -/
theorem layout_iff {ss : List Stmt} {σ τ : Scope} {code : List Instr} :
    Stmt.emitAll ss σ = ⟨code, τ, .ok ()⟩ ↔ Layout σ ss code τ := by
  refine ⟨Stmt.layout_of_emitAll ss, fun h => ?_⟩
  induction h with
  | nil => rfl
  | cons _ _ ihs ihrest =>
      exact bind_eq_ok_iff.mpr ⟨_, _, (), _, Stmt.emitAll_singleton.mp ihs, ihrest, rfl⟩
  | block _ ih => exact Stmt.emitAll_singleton.mpr ih
  | declareNone | readNone => exact Stmt.emitAll_singleton.mpr rfl
  | declare _ ih =>
      refine Stmt.emitAll_singleton.mpr ?_
      rw [Stmt.emit]
      exact each_declare_cons_eq_ok_iff.mpr ⟨_, Stmt.emitAll_singleton.mp ih, rfl⟩
  | read ht _ ih =>
      refine Stmt.emitAll_singleton.mpr ?_
      rw [Stmt.emit]
      exact each_readInto_cons_eq_ok_iff.mpr ⟨_, _, ht,
        Stmt.emitAll_singleton.mp ih, rfl⟩
  | write hvalues =>
      refine Stmt.emitAll_singleton.mpr ?_
      rw [Stmt.emit]
      exact bind_eq_ok_iff.mpr ⟨_, _, (), _,
        each_expr_eq_ok_iff.mpr ⟨hvalues, rfl⟩, rfl, rfl⟩
  | @branch σ τ υ condition consequent alternate span test a b t htest _ _ iha ihb =>
      refine Stmt.emitAll_singleton.mpr ?_
      have hb : Stmt.emitOption alternate τ = ⟨b, υ, .ok ()⟩ := by
        cases alternate with
        | none => exact ihb
        | some s => exact Stmt.emitAll_singleton.mp ihb
      rw [Stmt.emit, freshLabel_bind_eq_ok_iff, freshLabel_bind_eq_ok_iff,
        expr_bind_eq_ok_iff]
      simp only [emit_bind_eq_ok_iff]
      refine ⟨t, test, _, htest, ⟨_, bind_eq_ok_iff.mpr
        ⟨a, τ, (), _, Stmt.emitAll_singleton.mp iha, ?_, rfl⟩, rfl⟩, rfl⟩
      exact emit_bind_eq_ok_iff.mpr ⟨_,
        bind_eq_ok_iff.mpr ⟨b, υ, (), _, hb, rfl, rfl⟩, rfl⟩
  | @whileLoop σ τ condition body span test code t htest _ ih =>
      refine Stmt.emitAll_singleton.mpr ?_
      rw [Stmt.emit, freshLabel_bind_eq_ok_iff, freshLabel_bind_eq_ok_iff,
        emit_bind_eq_ok_iff]
      simp only [expr_bind_eq_ok_iff, emit_bind_eq_ok_iff]
      exact ⟨_, ⟨t, test, _, htest, ⟨_, bind_eq_ok_iff.mpr
        ⟨code, τ, (), _, Stmt.emitAll_singleton.mp ih, rfl, rfl⟩, rfl⟩, rfl⟩, rfl⟩
  | @forLoop σ τ υ induction init condition step body span front first test
      code last t u v
      _ hinit htest _ hstep ihfront ihbody =>
      refine Stmt.emitAll_singleton.mpr ?_
      rw [Stmt.emit_forLoop]
      refine bind_eq_ok_iff.mpr ⟨front, τ, (), _, ihfront, ?_, rfl⟩
      refine discarded_bind_eq_ok_iff.mpr ⟨t, first, _, hinit, ?_, rfl⟩
      rw [freshLabel_bind_eq_ok_iff, freshLabel_bind_eq_ok_iff, emit_bind_eq_ok_iff]
      refine ⟨_,
        expr_bind_eq_ok_iff.mpr ⟨u, test, _, htest,
          emit_bind_eq_ok_iff.mpr ⟨_,
            bind_eq_ok_iff.mpr ⟨code, υ, (),
              last ++ [.pop, .jump τ.labels, .label (τ.labels + 1)],
              Stmt.emitAll_singleton.mp ihbody, ?_, rfl⟩, rfl⟩, rfl⟩,
                  by simp [loopCode]⟩
      exact discarded_bind_eq_ok_iff.mpr ⟨v, last, _, hstep, rfl, rfl⟩
  | assign hkind he =>
      refine Stmt.emitAll_singleton.mpr ?_
      rw [Stmt.emit, Emitter.effect, if_pos hkind]
      exact expr_bind_eq_ok_iff.mpr ⟨_, _, _, he, rfl, rfl⟩
  | leave hkind he =>
      refine Stmt.emitAll_singleton.mpr ?_
      rw [Stmt.emit, Emitter.effect, if_neg hkind]
      exact expr_bind_eq_ok_iff.mpr ⟨_, _, [], he, rfl, by simp⟩

theorem Layout.emitAll_eq {σ τ : Scope} {ss : List Stmt} {code : List Instr}
    (h : Layout σ ss code τ) : Stmt.emitAll ss σ = ⟨code, τ, .ok ()⟩ := layout_iff.mpr h

/-- The code for statements in a row is that for the first one and that for the
others. -/
theorem layout_cons_iff {σ υ : Scope} {s : Stmt} {rest : List Stmt}
    {code : List Instr} :
    Layout σ (s :: rest) code υ ↔
      ∃ front τ back, Layout σ [s] front τ ∧ Layout τ rest back υ ∧
        code = front ++ back := by
  constructor
  · intro h
    cases rest with
    | nil => exact ⟨code, υ, [], h, .nil, (List.append_nil code).symm⟩
    | cons next rest =>
        cases h with
        | cons hs hrest => exact ⟨_, _, _, hs, hrest, rfl⟩
  · rintro ⟨front, τ, back, hs, hrest, rfl⟩
    cases rest with
    | nil =>
        cases hrest with
        | nil => rwa [List.append_nil]
    | cons next rest => exact .cons hs hrest

theorem Layout.emit_eq {σ τ : Scope} {s : Stmt} {code : List Instr}
    (h : Layout σ [s] code τ) :
    s.emit σ = ⟨code, τ, .ok ()⟩ := Stmt.emitAll_singleton.mp h.emitAll_eq

/-- Reading declares nothing and loads nothing. -/
theorem Layout.read_eq {σ τ : Scope} {xs : List Ident} {span : Span} {code : List Instr}
    (h : Layout σ [.read xs span] code τ) : τ = σ ∧ ∀ x, .load x ∉ code := by
  induction xs generalizing code with
  | nil =>
      cases h with
      | readNone => simp
  | cons y ys ih =>
      cases h with
      | read _ hxs => simpa using ih hxs

/-- The code that a program compiles to is laid out from an empty scope on. -/
theorem Program.layout_of_compile {p : Program} {code : List Instr}
    (h : p.compile = .ok code) :
    ∃ τ, Layout .empty p.body code τ := by
  unfold Program.compile at h
  cases hbody : Stmt.emitAll p.body .empty with
  | mk made τ result =>
      cases result with
      | error d => simp [hbody, Except.map] at h
      | ok u =>
          obtain rfl : made = code := by simpa [hbody, Except.map] using h
          exact ⟨τ, layout_iff.mp hbody⟩

/-- A source text compiles if it is a program that types and has code. -/
theorem exists_of_compileSource {file source : String} {code : List Instr}
    (h : compileSource file source = .ok code) :
    ∃ p, Program.ofSource file source = .ok p ∧ p.check = [] ∧
      p.compile = .ok code := by
  unfold compileSource at h
  split at h
  · rename_i p hsource
    refine ⟨p, hsource, ?_⟩
    unfold Program.compileChecked at h
    split at h
    · rename_i hcheck
      refine ⟨hcheck, ?_⟩
      split at h
      · rename_i hcompile
        rw [hcompile, Except.ok.inj h]
      · cases h
    · cases h
  · cases h

end ScalarLang
