import ScalarLang.Proofs.Operators

/-!
# Compiled code does what the program says

The code of an expression, standing anywhere in other code and executed on any operands,
does what the evaluation of the expression does (`Expr.Emits.simulates`), and the code
of statements what theirs does (`Layout.simulates`). Both are inductions over the rules
by which the code is laid out; a loop is an induction over the fuel besides, which
`Simulates.loop` contains.

An evaluation that runs out of fuel belongs to a run that has made as many steps. So a
run that comes to an end comes to the end of an evaluation, with enough fuel, and a run
that never ends belongs to evaluations that want more fuel however much they are given.

## Main results

* `Expr.Emits.simulates`, `Layout.simulates`: code does what its tree says.
* `Program.runsAs_of_reaches`: how runs end is told by what they reach for
  every amount of fuel.
-/

namespace ScalarLang

open Machine Evaluator

section

variable {code : Code} {policy : Policy} {fuel k stop : Nat} {ops : List Value}

/-! ## Expressions -/

theorem Expr.HasType.typeIn_eq {env : Env} {e : Expr} {t : Ty} (h : HasType env e t) :
    e.typeIn env = t := by
  rw [typeIn, h.infer_eq]
  rfl

private theorem Env.typeOf_eq {env : Env} {name : String} {t : Ty}
    (h : env.find? name = some t) :
    env.typeOf name = t := by
  rw [Env.typeOf, h]
  rfl

private theorem Expr.eval_of_literal? {env : Env} {e : Expr} {v : Value}
    (h : e.literal? = some v) :
    e.eval env = pure v := by
  cases e <;> cases h <;> rfl

/-- The code of an expression does what the evaluation of the expression does. -/
theorem Expr.Emits.simulates {symbols env : Env} {e : Expr} {c : List Instr} {t u : Ty}
    (h : Emits symbols e c t) (hty : HasType env e u) (hsub : env.Sub symbols)
    (hcode : code.Holds k c) :
    Simulates code policy fuel k ops (e.eval env) (k + c.length) fun v => v :: ops := by
  induction h generalizing k ops u with
  | literal hv =>
      rw [eval_of_literal? hv]
      exact simulates_ofExcept [] (Code.holds_cons.mp hcode).1 rfl fun _ => .ok
  | symbol => exact simulates_load (Code.holds_cons.mp hcode).1
  | @assignment target value span c t w ht hvalue ih =>
      cases hty with
      | literal hv => cases hv
      | assignment ht' hvalue' =>
          obtain rfl := Option.some.inj ((hsub _ _ ht').symm.trans ht)
          obtain rfl := hvalue.type_eq (hvalue'.weaken hsub)
          simp only [Code.holds_append, Code.holds_cons] at hcode
          obtain ⟨hfront, hconvert, hsave, hload, -⟩ := hcode
          rw [eval, hvalue'.typeIn_eq, Env.typeOf_eq ht']
          simp only [assign_bind_pure, List.length_append, ← Nat.add_assoc]
          refine (ih hvalue' hfront).bind fun v => ?_
          refine (simulates_convert hconvert).bind fun v => ?_
          exact (simulates_assign hsave).bind fun _ => simulates_load hload
  | @unary operator operand span c t hoperand ih =>
      cases hty with
      | literal hv => cases hv
      | unary hoperand' =>
          obtain rfl := hoperand.type_eq (hoperand'.weaken hsub)
          simp only [Code.holds_append, Code.holds_cons] at hcode
          obtain ⟨hfront, hi, -⟩ := hcode
          rw [eval, hoperand'.typeIn_eq, List.length_append, ← Nat.add_assoc]
          exact (ih hoperand' hfront).bind fun v => simulates_operateUnary hi
  | @binary l operator left right span leftCode rightCode own t w result
      hleft hright hown
      ihleft ihright =>
      cases hty with
      | literal hv => cases hv
      | binary hleft' hright' hrule =>
          obtain rfl := hleft.type_eq (hleft'.weaken hsub)
          obtain rfl := hright.type_eq (hright'.weaken hsub)
          have hrule' := binaryRule_of_binaryType hrule
          rw [hrule'.widening_eq.1, hrule'.widening_eq.2] at hcode ⊢
          simp only [Code.holds_append, List.length_append, ← Nat.add_assoc] at hcode ⊢
          obtain ⟨h₁, ⟨⟨h₂, h₃⟩, h₄⟩, h₅⟩ := hcode
          rw [eval, hleft'.typeIn_eq, hright'.typeIn_eq]
          refine (ihleft hleft' h₁).bind fun a => ?_
          refine (simulates_convert h₂).bind fun a => ?_
          refine (ihright hright' h₃).bind fun b => ?_
          refine (simulates_convert h₄).bind fun b => ?_
          exact simulates_operate hrule' hown h₅

/-- The code of expressions in a row pushes their values, for whatever
comes behind them. -/
theorem Expr.EmitsAll.simulates_bind {α : Type} {symbols : Env} {values : List Expr}
    {c : List Instr} {f : List Value → Evaluator α} {out : α → List Value}
    (h : EmitsAll symbols values c) (hty : ∀ e ∈ values, ∃ t, HasType symbols e t)
    (hcode : code.Holds k c)
    (hf : ∀ vs : List Value, vs.length = values.length →
      Simulates code policy fuel (k + c.length) (vs.reverse ++ ops) (f vs) stop out) :
    Simulates code policy fuel k ops (Expr.evalAll symbols values >>= f) stop out := by
  induction h generalizing k ops f with
  | nil => exact hf [] rfl
  | @cons e rest front back t he _ ih =>
      obtain ⟨u, hu⟩ := hty e List.mem_cons_self
      rw [Code.holds_append] at hcode
      simp only [Expr.evalAll, Evaluator.bind_assoc, Evaluator.pure_bind]
      refine (he.simulates hu (.refl symbols) hcode.1).bind fun v => ?_
      refine ih (fun e' he' => hty e' (List.mem_cons_of_mem e he')) hcode.2
        fun vs hvs => ?_
      have hnext := hf (v :: vs) (by simp [hvs])
      rw [List.reverse_cons, List.append_assoc, List.length_append, ← Nat.add_assoc]
        at hnext
      exact hnext

/-! ## Statements -/

namespace Stmt

theorem execAll_singleton (env : Env) (s : Stmt) :
    execAll fuel env [s] = s.exec fuel env := by
  rw [execAll]
  exact Evaluator.bind_pure _

private theorem execAll_toList (env : Env) (s : Option Stmt) :
    execAll fuel env s.toList = execOption fuel env s := by
  cases s with
  | none => rfl
  | some s => exact execAll_singleton env s

/-- The variable of a loop is declared like any other. -/
theorem exec_forLoop (env : Env) (induction : Option Induction)
    (init condition step : Expr) (body : Stmt) (span : Span) :
    exec fuel env (.forLoop induction init condition step body span) = (do
      execAll fuel env (Induction.declarations induction)
      let _ ← init.eval (checkAll env (Induction.declarations induction)).1
      repeatWhile (condition.holds (checkAll env (Induction.declarations induction)).1)
        (do
        body.exec fuel (checkAll env (Induction.declarations induction)).1
        let _ ← step.eval (checkAll env (Induction.declarations induction)).1)
            fuel) := by
  cases induction with
  | none => rfl
  | some i =>
      rw [checkAll_declarations, Induction.declarations, execAll_singleton]
      rfl

end Stmt

/-- The code of an expression whose value is dropped does what its evaluation does. -/
theorem Expr.Emits.simulates_discarded {symbols env : Env} {e : Expr} {c : List Instr}
    {t u : Ty} (h : Emits symbols e c t) (hty : HasType env e u)
    (hsub : env.Sub symbols) (hcode : code.Holds k c)
    (hpop : code.instrs[k + c.length]? = some .pop) :
    Simulates code policy fuel k ops (e.eval env) (k + c.length + 1) fun _ => ops :=
  (h.simulates hty hsub hcode).behind fun _ => step_pop hpop

/-- The environment behind a statement without reports is the one that its code
leaves. -/
theorem Layout.check_fst {σ τ : Scope} {s : Stmt} {c : List Instr} {env : Env}
    (h : Layout σ [s] c τ) (hwt : Stmt.WellTyped σ.symbols [s] env) :
    (s.check σ.symbols).1 = τ.symbols := by
  rw [← Stmt.checkAll_singleton, hwt.checkAll_fst]
  exact h.symbols_eq hwt

/-- The code of statements does what the statements say. -/
theorem Layout.simulates {σ τ : Scope} {ss : List Stmt} {c : List Instr} {env : Env}
    (h : Layout σ ss c τ) (hwt : Stmt.WellTyped σ.symbols ss env)
    (hcode : code.Holds k c) (hresolves : code.Resolves) :
    Simulates code policy fuel k [] (Stmt.execAll fuel σ.symbols ss) (k + c.length)
      fun _ => [] := by
  induction h generalizing k env with
  | nil => exact Simulates.pure (fun _ => []) ()
  | cons hs hrest ihs ihrest =>
      cases hwt with
      | cons hwts hwtrest =>
          obtain rfl := hs.symbols_eq hwts
          rw [Code.holds_append] at hcode
          have hfront := ihs hwts hcode.1
          have hback := ihrest hwtrest hcode.2
          rw [Stmt.execAll_singleton] at hfront
          rw [Stmt.execAll, hs.check_fst hwts, List.length_append, ← Nat.add_assoc]
          exact hfront.bind fun _ => hback
  | block _ ih =>
      cases hwt with
      | block hwtbody =>
          rw [Stmt.execAll_singleton, Stmt.exec]
          exact ih hwtbody hcode
  | declareNone =>
      rw [Stmt.execAll_singleton, Stmt.exec]
      exact Simulates.pure (fun _ => []) ()
  | @declare σ τ t x xs span c _ ih =>
      cases hwt with
      | declare _ hwtxs =>
          simp only [Code.holds_cons] at hcode
          obtain ⟨hpush, hsave, hxs⟩ := hcode
          have hrest := ih hwtxs hxs
          rw [Stmt.execAll_singleton, Stmt.exec] at hrest ⊢
          have hassign :
              Simulates code policy fuel (k + 1) [.default t] (declareAll t (x :: xs))
                (k + 1 + 1 + c.length) fun _ => [] :=
                (simulates_assign hsave).bind fun _ => hrest
          exact ((Simulates.before (step_push hpush) hassign).mono
            (Nat.le_succ fuel)).congr_stop
            (by simp only [List.length_cons]; omega)
  | readNone =>
      rw [Stmt.execAll_singleton, Stmt.exec]
      exact Simulates.pure (fun _ => []) ()
  | read ht hxs ih =>
      simp only [Code.holds_cons] at hcode
      obtain ⟨hread, hsave, hxs⟩ := hcode
      have hrest := ih .read hxs
      rw [Stmt.execAll_singleton, Stmt.exec] at hrest ⊢
      rw [readAll, Env.typeOf_eq ht]
      exact ((simulates_read hread).bind fun v => (simulates_assign hsave).bind fun _ =>
        hrest).congr_stop
        (by simp only [List.length_cons]; omega)
  | write hvalues =>
      cases hwt with
      | write hty =>
          simp only [Code.holds_append, Code.holds_cons] at hcode
          obtain ⟨hfront, hprint, -⟩ := hcode
          rw [Stmt.execAll_singleton, Stmt.exec, List.length_append, ← Nat.add_assoc]
          refine hvalues.simulates_bind hty hfront fun vs hvs => ?_
          rw [← hvs] at hprint
          exact simulates_print hprint
  | @branch σ τ υ condition consequent alternate span test a b t htest ha _ iha ihb =>
      cases hwt with
      | branch hty hwta hwtb =>
          obtain rfl := ha.symbols_eq hwta
          have hcheck : (consequent.check σ.symbols).1 = τ.symbols := ha.check_fst hwta
          rw [Stmt.execAll_singleton, Stmt.exec, hcheck, ← Stmt.execAll_toList,
            ← Stmt.execAll_singleton]
          exact Simulates.branch hresolves hcode
            (fun _ => htest.simulates hty (.refl _))
            (fun _ => iha hwta) fun _ => ihb hwtb
  | @whileLoop σ τ condition body span test c t htest _ ih =>
      cases hwt with
      | whileLoop hty hwtbody =>
          rw [Stmt.execAll_singleton, Stmt.exec, ← Stmt.execAll_singleton]
          exact Simulates.loop hresolves hcode (fun _ => htest.simulates hty (.refl _))
            (fun _ => ih hwtbody) (Nat.le_refl fuel)
  | @forLoop σ τ υ induction init condition step body span front first test c
      last t u v hfront
      hinit htest hbody hstep ihfront ihbody =>
      cases hwt with
      | forLoop hwtfront htyinit htytest htystep hwtbody =>
          obtain rfl := hfront.symbols_eq hwtfront
          have hinner : τ.symbols.Sub υ.symbols :=
            hbody.symbols_eq hwtbody ▸ hwtbody.sub
          simp only [Code.holds_append, Code.holds_cons] at hcode
          obtain ⟨hfrontcode, hfirst, hpop, hloopcode⟩ := hcode
          have hround : ∀ l, code.Holds l (c ++ (last ++ [.pop])) →
              Simulates code policy fuel l []
                (do body.exec fuel τ.symbols; let _ ← step.eval τ.symbols)
                (l + (c ++ (last ++ [Instr.pop])).length) fun _ => [] := by
            intro l hl
            simp only [Code.holds_append, Code.holds_cons] at hl
            obtain ⟨hbodycode, hlast, hpop', -⟩ := hl
            have hbodyrun := ihbody hwtbody hbodycode
            rw [Stmt.execAll_singleton] at hbodyrun
            simp only [List.length_append, ← Nat.add_assoc]
            exact hbodyrun.bind fun _ =>
              (hstep.simulates_discarded htystep hinner hlast hpop').bind
              fun _ => .pure (fun _ => []) ()
          have hloop := Simulates.loop hresolves hloopcode
            (fun _ => htest.simulates htytest (.refl _)) hround (Nat.le_refl fuel)
          rw [Stmt.execAll_singleton, Stmt.exec_forLoop, hwtfront.checkAll_fst]
          refine (ihfront hwtfront hfrontcode).bind fun _ => ?_
          refine (hinit.simulates_discarded htyinit (.refl _) hfirst hpop).bind fun _ =>
            ?_
          exact hloop.congr_stop
            (by simp only [List.length_append, List.length_cons]; omega)
  | assign hkind he =>
      cases hwt with
      | effect hty =>
          rw [Code.holds_append, Code.holds_cons] at hcode
          rw [Stmt.execAll_singleton, Stmt.exec, List.length_append, ← Nat.add_assoc]
          simp only [if_pos hkind]
          exact (he.simulates_discarded hty (.refl _) hcode.1 hcode.2.1).bind
            fun _ => .pure (fun _ => []) ()
  | leave hkind he =>
      cases hwt with
      | effect hty =>
          rw [Stmt.execAll_singleton, Stmt.exec]
          simp only [if_neg hkind]
          exact (he.simulates hty (.refl _) hcode).bind fun v => simulates_leave v

end

/-! ## Programs -/

/-- Whether runs of code do what the evaluation of a program does. Each of the three
ways in which a run goes on is matched by one in which the evaluation ends, in the same
state: in particular, with the same output, and with the values left that expression
statements have left. -/
structure Program.RunsAs (p : Program) (code : List Instr) (policy : Policy)
    (console : Console) :
    Prop where
  ended_iff : ∀ m, (∃ n, runFor (.ofList code) policy n (start console) = .ended m) ↔
    ∃ fuel s, p.evaluate fuel console = (.ok (), s) ∧ m = s.machine code.length []
  exists_of_faulted : ∀ n m fault,
    runFor (.ofList code) policy n (start console) = .faulted m fault →
      ∃ fuel s mishap, p.evaluate fuel console = (.error (.failed mishap), s) ∧
        FailsAs m fault s mishap
  faulted_of_failed : ∀ fuel s mishap,
  p.evaluate fuel console = (.error (.failed mishap), s) →
    ∃ n m fault, runFor (.ofList code) policy n (start console) = .faulted m fault ∧
      FailsAs m fault s mishap
  running_of_outOfFuel : ∀ fuel s, p.evaluate fuel console = (.error .outOfFuel, s) →
    ∃ n ip, fuel ≤ n ∧
      runFor (.ofList code) policy n (start console) = .running (s.machine ip [])
  endless_iff :
  (∀ n, ∃ m, runFor (.ofList code) policy n (start console) = .running m) ↔
    ∀ fuel, (p.evaluate fuel console).1 = .error .outOfFuel

section

variable {p : Program} {code : List Instr} {policy : Policy}
  {console : Console} {fuel n : Nat}

/-- A run of the code of a program without reports comes to where the evaluation
stops. -/
theorem Program.reaches (hcheck : p.check = []) (hcompile : p.compile = .ok code) :
    Reaches (.ofList code) policy fuel (start console) code.length (fun _ => [])
      (p.evaluate fuel console) := by
  obtain ⟨τ, h⟩ := Program.layout_of_compile hcompile
  have hall :
      Simulates (.ofList code) policy fuel 0 [] (Stmt.execAll fuel .empty p.body)
        (0 + code.length) fun _ => [] :=
    h.simulates (h.wellTyped hcheck) (Code.holds_ofList code) h.wellLabelled.resolves
  rw [Nat.zero_add] at hall
  exact hall (.start console)

section

variable
  (h : ∀ fuel, Reaches (.ofList code) policy fuel (start console) code.length
    (fun _ => []) (p.evaluate fuel console))
include h

private theorem Program.ended_of_evaluate {s : State}
    (he : p.evaluate fuel console = (.ok (), s)) :
    ∃ n, runFor (.ofList code) policy n (start console) =
      .ended (s.machine code.length []) := by
  have hreaches := h fuel
  rw [he] at hreaches
  obtain ⟨n, hrun⟩ := hreaches
  have hend : code[(s.machine code.length []).ip]? = none :=
    List.getElem?_eq_none (Nat.le_refl code.length)
  refine ⟨n + 1, ?_⟩
  rw [runFor_succ, hrun]
  simp [step, hend]

private theorem Program.faulted_of_evaluate {s : State} {mishap : Mishap}
    (he : p.evaluate fuel console = (.error (.failed mishap), s)) :
    ∃ n m fault, runFor (.ofList code) policy n (start console) = .faulted m fault ∧
      FailsAs m fault s mishap := by
  have hreaches := h fuel
  rwa [he] at hreaches

private theorem Program.running_of_evaluate {s : State}
    (he : p.evaluate fuel console = (.error .outOfFuel, s)) :
    ∃ n ip, fuel ≤ n ∧
      runFor (.ofList code) policy n (start console) = .running (s.machine ip []) := by
  have hreaches := h fuel
  rwa [he] at hreaches

/-- A run that has come to its end shows how the evaluation ends: with more fuel than
steps were made it does not run out. -/
theorem Program.exists_evaluate_of_settled {status : Status}
    (hrun : runFor (.ofList code) policy n (start console) = status)
    (hsettled : ∀ m, status ≠ .running m) :
    (∃ fuel s, p.evaluate fuel console = (.ok (), s) ∧
      status = .ended (s.machine code.length [])) ∨
      ∃ fuel s mishap m fault, p.evaluate fuel console = (.error (.failed mishap), s) ∧
        status = .faulted m fault ∧ FailsAs m fault s mishap := by
  match he : p.evaluate (n + 1) console with
  | (.ok (), s) =>
      obtain ⟨k, hended⟩ := Program.ended_of_evaluate h he
      exact .inl ⟨_, s, he, runFor_unique hrun hended hsettled (by simp)⟩
  | (.error (.failed mishap), s) =>
      obtain ⟨k, m, fault, hfaulted, hfails⟩ := Program.faulted_of_evaluate h he
      exact .inr ⟨_, s, mishap, m, fault, he,
        runFor_unique hrun hfaulted hsettled (by simp), hfails⟩
  | (.error .outOfFuel, s) =>
      obtain ⟨k, ip, hk, hrunning⟩ := Program.running_of_evaluate h he
      obtain ⟨m, hm⟩ := runFor_running_of_le (Nat.le_of_succ_le hk) hrunning
      exact absurd (hrun.symm.trans hm) (hsettled m)

/-- What a run reaches for every amount of fuel is all there is to know
about how it ends. -/
theorem Program.runsAs_of_reaches : p.RunsAs code policy console where
  ended_iff m := by
    constructor
    · rintro ⟨n, hrun⟩
      rcases Program.exists_evaluate_of_settled h hrun (by simp) with
        ⟨fuel, s, he, hm⟩ | ⟨_, _, _, _, _, _, hm, _⟩
      · exact ⟨fuel, s, he, Status.ended.inj hm⟩
      · cases hm
    · rintro ⟨fuel, s, he, rfl⟩
      exact Program.ended_of_evaluate h he
  exists_of_faulted n m fault hrun := by
    rcases Program.exists_evaluate_of_settled h hrun (by simp) with
      ⟨_, _, _, hm⟩ | ⟨fuel, s, mishap, _, _, he, hm, hfails⟩
    · cases hm
    · cases hm
      exact ⟨fuel, s, mishap, he, hfails⟩
  faulted_of_failed fuel s mishap := Program.faulted_of_evaluate h
  running_of_outOfFuel fuel s := Program.running_of_evaluate h
  endless_iff := by
    constructor
    · intro hendless fuel
      match he : p.evaluate fuel console with
      | (.ok (), s) =>
          obtain ⟨n, hended⟩ := Program.ended_of_evaluate h he
          obtain ⟨m, hrunning⟩ := hendless n
          cases hended.symm.trans hrunning
      | (.error (.failed mishap), s) =>
          obtain ⟨n, m', fault, hfaulted, -⟩ := Program.faulted_of_evaluate h he
          obtain ⟨m, hrunning⟩ := hendless n
          cases hfaulted.symm.trans hrunning
      | (.error .outOfFuel, s) => rfl
    · intro hfuel n
      by_cases hsettled : ∃ m,
        runFor (.ofList code) policy n (start console) = .running m
      · exact hsettled
      · rcases Program.exists_evaluate_of_settled h rfl (not_exists.mp hsettled) with
          ⟨fuel, s, he, -⟩ | ⟨fuel, s, mishap, _, _, he, -, -⟩
        · cases (congrArg Prod.fst he).symm.trans (hfuel fuel)
        · cases (congrArg Prod.fst he).symm.trans (hfuel fuel)

end

/-- The code of a source text does what the program in it says, on every input and
under every policy. -/
theorem compileSource_correct {file source : String}
    (h : compileSource file source = .ok code) :
    ∃ p, Program.ofSource file source = .ok p ∧
      ∀ policy console, p.RunsAs code policy console := by
  obtain ⟨p, hsource, hcheck, hcompile⟩ := exists_of_compileSource h
  exact ⟨p, hsource, fun _ _ => Program.runsAs_of_reaches fun _ =>
    p.reaches hcheck hcompile⟩

end

/-- A run that reads an int, widens it to a float, counts on from it in a loop, writes
what it has come to and divides by it. The evaluation is known to end where the run
does, with the same output. -/
theorem compileSource_correct_at_loop :
    ∃ p fuel s, Program.ofSource "t"
        "int n; float x; read n; x = n; while (n < 4) n = n + 1; write n; 7 / n;" =
        .ok p ∧
      p.evaluate fuel (.ofInput [50, 10, 56] none) = (.ok (), s) ∧
      s.store.find? "n" = some (.int 4) ∧
      s.store.find? "x" = some (.float (Float.ofInt 2)) ∧
      s.console = ⟨[56], "4\n".toUTF8, none⟩ ∧ s.residue = [.int 1] := by
  have hcompile : compileSource "t"
      "int n; float x; read n; x = n; while (n < 4) n = n + 1; write n; 7 / n;" =
      .ok [.push (.int 0), .save "n", .push (.default .float), .save "x",
        .read .int, .save "n", .load "n", .widen, .save "x", .load "x", .pop,
        .label 0, .load "n", .push (.int 4), .order .less .int, .jumpUnless 1,
        .load "n", .push (.int 1), .arith .add .int, .save "n", .load "n",
        .pop, .jump 0,
        .label 1, .load "n", .print 1, .push (.int 7), .load "n", .arith .div .int] :=
          rfl
  obtain ⟨p, hsource, hall⟩ := compileSource_correct hcompile
  have hruns := hall ⟨true⟩ (.ofInput [50, 10, 56] none)
  obtain ⟨fuel, s, he, hm⟩ := (hruns.ended_iff ⟨29, [.int 1],
    (Table.empty.insert "n" (.int 4)).insert "x" (.float (Float.ofInt 2)),
    ⟨[56], "4\n".toUTF8, none⟩⟩).mp ⟨80, rfl⟩
  have hstore : _ = s.store := congrArg Machine.store hm
  have hstack : _ = s.residue := congrArg Machine.stack hm
  have hconsole : _ = s.console := congrArg Machine.console hm
  refine ⟨p, fuel, s, hsource, he, ?_, ?_, hconsole.symm, hstack.symm⟩
  · rw [← hstore]
    rfl
  · rw [← hstore]
    rfl

end ScalarLang
