import ScalarLang.Proofs.Places
import ScalarLang.Proofs.WellTyped

/-!
# Types and code do not depend on positions

Typing and emitting code read positions only to say where something is wrong. So a tree
with its positions moved has the types and the code of the tree, and the same reports in
the same order, each of them moved.

Both walks go over the whole tree whatever they find, and a tree need not have
been read from text here: the lemmas follow the constructors, one for each walk
and each kind of tree.

## Main results

* `Program.check_move`: the reports on the types of a moved program are
  the reports, moved.
* `Program.compileChecked_move`: a moved program has the same code, or the same
  rejection, moved.
-/

namespace ScalarLang

open ScalarLang.Located

variable {f : Position → Position}

/-! ## Typing -/

private theorem Env.use_move (env : Env) (name : String) (position : Position) :
    env.use name (f position) = move f (env.use name position) := by
  unfold Env.use
  cases env.find? name <;> rfl

private theorem Verdict.bad_move (earlier : List Diagnostic) (cause : Cause)
    (position : Position) :
    bad (move f earlier) cause (f position) = move f (bad earlier cause position) :=
  congrArg (Verdict.mk none) (move_append f earlier [⟨cause, position⟩]).symm

private theorem Verdict.ofRule_move (earlier : List Diagnostic) (position : Position)
    (verdict : Except Cause Ty) :
    ofRule (move f earlier) (f position) verdict =
      move f (ofRule earlier position verdict) := by
  cases verdict with
  | ok t => rfl
  | error cause => exact bad_move earlier cause position

namespace Expr

/-- A moved expression has the same type and the same reports, moved. -/
theorem infer_move (env : Env) (e : Expr) :
    (Located.move f e).infer env = Located.move f (e.infer env) := by
  induction e with
  | int | float | bool | string => rfl
  | symbol name span => exact env.use_move name span.start
  | assignment target value span ih =>
      show infer env (assignment _ (Located.move f value) _) = _
      rw [infer, infer, ih]
      generalize value.infer env = v
      obtain ⟨received, reports⟩ := v
      have hname : (Located.move f target).name = target.name := rfl
      rw [hname]
      cases env.find? target.name with
      | none => exact Verdict.bad_move reports _ _
      | some t =>
          cases received with
          | none => rfl
          | some u => exact Verdict.ofRule_move reports _ _
  | unary operator operand span ih =>
      show infer env (unary _ (Located.move f operand) _) = _
      rw [infer, infer, ih]
      generalize operand.infer env = v
      obtain ⟨received, reports⟩ := v
      cases received with
      | none => rfl
      | some t => exact Verdict.ofRule_move reports _ _
  | binary label operator left right span ihleft ihright =>
      show infer env (binary label _ (Located.move f left) (Located.move f right) _) = _
      cases label with
      | level l =>
          rw [infer, infer, ihleft, ihright]
          generalize left.infer env = v, right.infer env = w
          obtain ⟨t, earlier⟩ := v
          obtain ⟨u, later⟩ := w
          have hreports := move_append f earlier later
          cases t with
          | none => exact congrArg (Verdict.mk none) hreports.symm
          | some t =>
              cases u with
              | none => exact congrArg (Verdict.mk none) hreports.symm
              | some u =>
                  show Verdict.ofRule (Located.move f earlier ++ Located.move f later) _
                    (binaryType operator t u) = _
                  rw [← hreports]
                  exact Verdict.ofRule_move (earlier ++ later) _ _
      | literal | symbol | assignment | unary => rfl

private theorem checkCondition_move (env : Env) (construct : String)
    (condition : Expr) :
    (Located.move f condition).checkCondition env construct =
      Located.move f (condition.checkCondition env construct) := by
  unfold checkCondition
  rw [infer_move, start, span_move]
  generalize condition.infer env = v
  obtain ⟨received, reports⟩ := v
  cases received with
  | none => rfl
  | some t =>
      have hmismatch :=
        move_append f reports [⟨.nonBooleanCondition construct t.name, condition.start⟩]
      cases t with
      | bool => rfl
      | int | float | string => exact hmismatch.symm

end Expr

/-- One walk behind another moves as both do: the second starts with the
environment of the first. -/
theorem behind_move {first : Env × List Diagnostic}
    {second second' : Env → Env × List Diagnostic}
    (h : ∀ env, second' env = move f (second env)) :
    (let (env, reports) := move f first
      let (env, later) := second' env
      (env, reports ++ later)) =
      move f (let (env, reports) := first
        let (env, later) := second env
        (env, reports ++ later)) := by
  obtain ⟨env, reports⟩ := first
  show ((second' env).1, move f reports ++ (second' env).2) =
    ((second env).1, move f (reports ++ (second env).2))
  rw [h, move_append]
  rfl

private theorem Env.declare_move (env : Env) (t : Ty) (target : Ident) :
    env.declare t (move f target) = move f (env.declare t target) := by
  unfold Env.declare
  show (if env.contains target.name then _ else _) = _
  cases env.contains target.name <;> rfl

private theorem Env.declareAll_move (env : Env) (t : Ty) (targets : List Ident) :
    env.declareAll t (move f targets) = move f (env.declareAll t targets) := by
  induction targets generalizing env with
  | nil => rfl
  | cons target targets ih =>
      show env.declareAll t (move f target :: move f targets) = _
      rw [declareAll, declareAll, declare_move]
      exact behind_move ih

/-- The reports on the elements of a list move with them. -/
theorem flatMap_move {α : Type} [Located α] {reports : α → List Diagnostic}
    (h : ∀ a, reports (move f a) = move f (reports a)) (as : List α) :
    (move f as).flatMap reports = move f (as.flatMap reports) := by
  induction as with
  | nil => rfl
  | cons a as ih =>
      show reports (move f a) ++ (move f as).flatMap reports =
        move f (reports a ++ as.flatMap reports)
      rw [h, ih, move_append]

namespace Stmt

private theorem checkAll_declarations_move (env : Env) (i : Option Induction) :
    checkAll env (Induction.declarations (Located.move f i)) =
      Located.move f (checkAll env (Induction.declarations i)) := by
  rw [checkAll_declarations, checkAll_declarations]
  cases i with
  | none => rfl
  | some i => exact env.declare_move i.ty i.target

mutual

/-- A moved statement leaves the same environment behind it, and the
same reports, moved. -/
theorem check_move (env : Env) (s : Stmt) :
    (s.move f).check env = Located.move f (s.check env) := by
  cases s with
  | block body span =>
      rw [move, check, check]
      exact checkAll_move env body
  | declaration t idents span =>
      rw [move, check, check]
      exact env.declareAll_move t idents
  | read idents span =>
      rw [move, check, check, flatMap_move]
      · rfl
      · intro x
        exact congrArg Verdict.reports (env.use_move x.name x.span.start)
  | write values span =>
      rw [move, check, check, flatMap_move]
      · rfl
      · intro e
        exact congrArg Verdict.reports (e.infer_move env)
  | branch condition consequent alternate span =>
      rw [move, check_branch, check_branch, Expr.checkCondition_move,
        check_move env consequent]
      generalize condition.checkCondition env "if" = reports,
        consequent.check env = first
      obtain ⟨behind, inner⟩ := first
      show ((checkOption behind (moveOption f alternate)).1,
          Located.move f reports ++ Located.move f inner ++
            (checkOption behind (moveOption f alternate)).2) =
        ((checkOption behind alternate).1,
          Located.move f (reports ++ inner ++ (checkOption behind alternate).2))
      rw [checkOption_move behind alternate, move_append, move_append]
      rfl
  | whileLoop condition body span =>
      rw [move, check, check, Expr.checkCondition_move, check_move env body]
      exact congrArg (Prod.mk _) (move_append f _ _).symm
  | forLoop induction init condition step body span =>
      rw [move, check_forLoop, check_forLoop, checkAll_declarations_move]
      generalize checkAll env (Induction.declarations induction) = front
      obtain ⟨behind, declared⟩ := front
      show ((check behind (body.move f)).1,
        Located.move f declared ++ ((Located.move f init).infer behind).reports ++
          (Located.move f condition).checkCondition behind "for" ++
          ((Located.move f step).infer behind).reports ++
          (check behind (body.move f)).2) =
        ((check behind body).1,
          Located.move f (declared ++ (init.infer behind).reports ++
            condition.checkCondition behind "for" ++ (step.infer behind).reports ++
            (check behind body).2))
      rw [Expr.infer_move, Expr.checkCondition_move, Expr.infer_move,
        check_move behind body]
      simp only [move_append]
      rfl
  | effect value span =>
      rw [move, check, check, Expr.infer_move]
      rfl

private theorem checkOption_move (env : Env) (s : Option Stmt) :
    checkOption env (moveOption f s) = Located.move f (checkOption env s) := by
  cases s with
  | none => rfl
  | some s => exact check_move env s

private theorem checkAll_move (env : Env) (ss : List Stmt) :
    checkAll env (moveAll f ss) = Located.move f (checkAll env ss) := by
  cases ss with
  | nil => rfl
  | cons s rest =>
      rw [moveAll, checkAll, checkAll, check_move env s]
      exact behind_move fun behind => checkAll_move behind rest

end

end Stmt

/-- The reports on the types of a moved program are the reports, moved. -/
theorem Program.check_move (p : Program) : (move f p).check = move f p.check := by
  have hbody := Stmt.checkAll_move (f := f) .empty p.body
  rw [Stmt.moveAll_eq] at hbody
  exact congrArg Prod.snd hbody

/-! ## Code for expressions -/

namespace Fragment

private theorem andThen_move (c : Fragment)
    {more more' : Ty → List Instr × Except Diagnostic Ty}
    (h : ∀ t, more' t = move f (more t)) :
    (move f c).andThen more' = move f (c.andThen more) := by
  obtain ⟨code, result⟩ := c
  cases result with
  | error d => rfl
  | ok t =>
      show Fragment.mk (code ++ (more' t).1) (more' t).2 = _
      rw [h]
      rfl

private theorem ofVariable_move (symbols : Env) (name : String) (position : Position)
    {use use' : Ty → Fragment} (h : ∀ t, use' t = move f (use t)) :
    ofVariable symbols name (f position) use' =
      move f (ofVariable symbols name position use) := by
  unfold ofVariable
  cases symbols.find? name with
  | none => rfl
  | some t => exact h t

private theorem binaryCode_move (operator : Token) (left right : Fragment) :
    binaryCode (move f operator) (move f left) (move f right) =
      move f (binaryCode operator left right) := by
  apply andThen_move left
  intro l
  obtain ⟨code, result⟩ := right
  cases result with
  | error d => rfl
  | ok r =>
      rw [show move f (Fragment.mk code (.ok r)) = ⟨code, .ok r⟩ from rfl,
        Token.move_kind]
      dsimp only
      cases operation operator.kind (operandType (widens operator.kind) l r) <;> rfl

end Fragment

/-- A moved expression has the same code, and fails for the same reason, at
the moved place. -/
theorem Expr.emit_move (symbols : Env) (e : Expr) :
    (Located.move f e).emit symbols = Located.move f (e.emit symbols) := by
  induction e with
  | int | float | bool | string => rfl
  | symbol name span =>
      show Fragment.ofVariable symbols name (f span.start) _ = _
      exact Fragment.ofVariable_move symbols name span.start fun _ => rfl
  | assignment target value span ih =>
      show Fragment.ofVariable symbols target.name (f target.span.start) _ = _
      apply Fragment.ofVariable_move
      intro t
      show ((Located.move f value).emit symbols).andThen _ = _
      rw [ih]
      exact Fragment.andThen_move _ fun _ => rfl
  | unary operator operand span ih =>
      show ((Located.move f operand).emit symbols).andThen _ = _
      rw [ih]
      exact Fragment.andThen_move _ fun _ => rfl
  | binary label operator left right span ihleft ihright =>
      cases label with
      | level l =>
          show binaryCode (Located.move f operator) ((Located.move f left).emit symbols)
            ((Located.move f right).emit symbols) = _
          rw [ihleft, ihright]
          exact Fragment.binaryCode_move operator _ _
      | literal | symbol | assignment | unary => rfl

/-! ## Code for statements -/

namespace Emitter

variable {α β : Type} [Located α] [Located β] {m m' : Emitter α}

/-- Whether an emitter makes the code of another one, and fails where that
one does, moved. -/
def MovesTo (f : Position → Position) (m m' : Emitter α) : Prop :=
  ∀ σ : Scope, m' σ = move f (m σ)

theorem movesTo_pure (a : α) : MovesTo f (pure a : Emitter α) (pure (move f a)) :=
  fun _ => rfl

theorem MovesTo.bind {g g' : α → Emitter β} (hm : MovesTo f m m')
    (hg : ∀ a, MovesTo f (g a) (g' (move f a))) : MovesTo f (m >>= g) (m' >>= g') := by
  intro σ
  show Emitter.bind m' g' σ = move f (Emitter.bind m g σ)
  unfold Emitter.bind
  rw [hm σ]
  generalize m σ = made
  obtain ⟨code, τ, result⟩ := made
  cases result with
  | error d => rfl
  | ok a =>
      show Emission.mk _ _ _ = Emission.mk _ _ _
      rw [hg a τ]
      rfl

private theorem movesTo_emit (code : List Instr) : MovesTo f (emit code) (emit code) :=
  fun _ => rfl

private theorem movesTo_freshLabel : MovesTo f freshLabel freshLabel := fun _ => rfl

private theorem movesTo_expr (e : Expr) : MovesTo f (expr e) (expr (move f e)) := by
  intro σ
  show Emission.mk ((move f e).emit σ.symbols).code σ
    ((move f e).emit σ.symbols).result = _
  rw [Expr.emit_move]
  rfl

private theorem movesTo_typeOf (target : Ident) :
    MovesTo f (typeOf target) (typeOf (move f target)) := by
  intro σ
  have hname : (move f target).name = target.name := rfl
  unfold typeOf
  rw [hname]
  cases σ.symbols.find? target.name <;> rfl

private theorem movesTo_declare (t : Ty) (target : Ident) :
    MovesTo f (declare t target) (declare t (move f target)) := fun _ => rfl

private theorem movesTo_readInto (target : Ident) :
    MovesTo f (readInto target) (readInto (move f target)) :=
  (movesTo_typeOf target).bind fun _ => movesTo_emit _

private theorem movesTo_each {g : α → Emitter Unit}
    (hg : ∀ a, MovesTo f (g a) (g (move f a))) (as : List α) :
    MovesTo f (each g as) (each g (move f as)) := by
  induction as with
  | nil => exact movesTo_pure ()
  | cons a as ih => exact (hg a).bind fun _ => ih

private theorem movesTo_discarded (e : Expr) :
    MovesTo f (discarded e) (discarded (move f e)) :=
  (movesTo_expr e).bind fun _ => movesTo_emit _

private theorem movesTo_effect (e : Expr) :
    MovesTo f (effect e) (effect (move f e)) := by
  apply (movesTo_expr e).bind
  intro t
  rw [Expr.kind_move]
  by_cases h : e.kind = .assignment
  · rw [if_pos h]
    exact movesTo_emit [.pop]
  · rw [if_neg h]
    exact movesTo_pure ()

end Emitter

open ScalarLang.Emitter

namespace Stmt

private theorem movesTo_declarations (i : Option Induction) :
    MovesTo f (emitAll (Induction.declarations i))
      (emitAll (Induction.declarations (Located.move f i))) := by
  cases i with
  | none => exact movesTo_pure ()
  | some i =>
      exact (movesTo_each (movesTo_declare i.ty) [i.target]).bind fun _ =>
        movesTo_pure ()

mutual

/-- A moved statement has the same code, and fails for the same reason, at
the moved place. -/
theorem movesTo_emit (s : Stmt) : MovesTo f s.emit (s.move f).emit := by
  cases s with
  | block body span => exact movesTo_emitAll body
  | declaration t idents span => exact movesTo_each (movesTo_declare t) idents
  | read idents span => exact movesTo_each movesTo_readInto idents
  | write values span =>
      rw [move, emit, emit]
      apply (movesTo_each (fun e => (movesTo_expr e).bind fun _ =>
        movesTo_pure ()) values).bind
      intro _
      rw [show (Located.move f values).length = values.length from List.length_map _]
      exact Emitter.movesTo_emit _
  | branch condition consequent alternate span =>
      rw [move, emit, emit]
      apply movesTo_freshLabel.bind
      intro otherwise
      apply movesTo_freshLabel.bind
      intro done
      apply (movesTo_expr condition).bind
      intro _
      apply (Emitter.movesTo_emit _).bind
      intro _
      apply (movesTo_emit consequent).bind
      intro _
      apply (Emitter.movesTo_emit _).bind
      intro _
      apply (movesTo_emitOption alternate).bind
      intro _
      exact Emitter.movesTo_emit _
  | whileLoop condition body span =>
      rw [move, emit, emit]
      apply movesTo_freshLabel.bind
      intro again
      apply movesTo_freshLabel.bind
      intro done
      apply (Emitter.movesTo_emit _).bind
      intro _
      apply (movesTo_expr condition).bind
      intro _
      apply (Emitter.movesTo_emit _).bind
      intro _
      apply (movesTo_emit body).bind
      intro _
      exact Emitter.movesTo_emit _
  | forLoop induction init condition step body span =>
      rw [move, emit_forLoop, emit_forLoop]
      apply (movesTo_declarations induction).bind
      intro _
      apply (movesTo_discarded init).bind
      intro _
      apply movesTo_freshLabel.bind
      intro again
      apply movesTo_freshLabel.bind
      intro done
      apply (Emitter.movesTo_emit _).bind
      intro _
      apply (movesTo_expr condition).bind
      intro _
      apply (Emitter.movesTo_emit _).bind
      intro _
      apply (movesTo_emit body).bind
      intro _
      apply (movesTo_discarded step).bind
      intro _
      exact Emitter.movesTo_emit _
  | effect value span => exact movesTo_effect value

private theorem movesTo_emitOption (s : Option Stmt) :
    MovesTo f (emitOption s) (emitOption (moveOption f s)) := by
  cases s with
  | none => exact movesTo_pure ()
  | some s => exact movesTo_emit s

private theorem movesTo_emitAll (ss : List Stmt) :
    MovesTo f (emitAll ss) (emitAll (moveAll f ss)) := by
  cases ss with
  | nil => exact movesTo_pure ()
  | cons s rest => exact (movesTo_emit s).bind fun _ => movesTo_emitAll rest

end

end Stmt

/-! ## Whole programs -/

/-- The code of a moved program is the code, and what it lacks code for is
the same, moved. -/
theorem Program.compile_move (p : Program) : (move f p).compile = move f p.compile := by
  have hbody := Stmt.movesTo_emitAll (f := f) p.body .empty
  rw [Stmt.moveAll_eq] at hbody
  show (let emission := Stmt.emitAll (move f p.body) .empty
    emission.result.map fun _ => emission.code) = _
  rw [hbody]
  unfold compile
  generalize Stmt.emitAll p.body .empty = emission
  obtain ⟨code, scope, result⟩ := emission
  cases result <;> rfl

/-- A moved program has the same code, or the same rejection, moved. -/
theorem Program.compileChecked_move (p : Program) :
    (move f p).compileChecked = move f p.compileChecked := by
  unfold compileChecked
  rw [check_move, compile_move]
  cases p.check with
  | nil => cases p.compile <;> rfl
  | cons report reports => rfl

end ScalarLang
