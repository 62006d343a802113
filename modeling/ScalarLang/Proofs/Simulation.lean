import ScalarLang.Proofs.Evaluation
import ScalarLang.Proofs.Run

/-!
# Runs that follow an evaluation

An evaluation and a run share the store and the console, and what expression statements
leave is at the bottom of the stack of the machine. Above it are the operands of the
expressions that the machine is in the middle of (`State.machine`).

`Simulates code policy fuel k operands ev stop out` says that a run from position `k` on
does what the evaluator `ev` does, from any state that both start in: where the
evaluation has a result, the run comes to `stop` with the operands `out` for that
result; where it fails, the run fails for the same reason and in the same state; and
where it runs out of fuel, the run has made as many steps as there was fuel and goes on
in the same state. The rules of this module put such facts together the way evaluators
are put together (`Simulates.bind`, `Simulates.branch`, `Simulates.loop`) and establish
them for single instructions.

## Main results

* `Simulates.bind`: code in a row does what evaluators in a row do.
* `Simulates.loop`: a loop does what its evaluation does, by induction on the fuel.
* `simulates_ofExcept`: an instruction that computes a value does what
  the operator does.
-/

namespace ScalarLang

open Machine Evaluator

/-- The machine at a position in a state, with operands above what was left for good. -/
def State.machine (s : State) (ip : Nat) (operands : List Value) : Machine :=
  ⟨ip, operands ++ s.residue, s.store, s.console⟩

/-- The mishap that operands cause if they do not serve. In an evaluation they
are never missing. -/
def OperandFailure.mishap? : OperandFailure → Option Mishap
  | underflow => none
  | mismatch expected found => some (.mismatch expected found)
  | zeroDivisor => some .zeroDivisor

/-- The mishap that a fault is for an evaluation, to which jumps mean nothing. -/
def Fault.mishap? : Fault → Option Mishap
  | operand cause _ _ => cause.mishap?
  | unresolvedLabel .. => none
  | console cause => some (.console cause)

/-- Whether a run failed the way an evaluation did. It may have left
operands on the stack. -/
structure FailsAs (m : Machine) (fault : Fault) (s : State) (mishap : Mishap) :
    Prop where
  cause : fault.mishap? = some mishap
  store : m.store = s.store
  console : m.console = s.console
  residue : s.residue <:+ m.stack

section

variable {α β : Type} {code : Code} {policy : Policy} {fuel k mid stop : Nat}
  {ops : List Value} {out : α → List Value} {ev : Evaluator α}

/-- Whether a run from a machine comes to where an evaluation stopped. -/
def Reaches (code : Code) (policy : Policy) (fuel : Nat) (m : Machine) (stop : Nat)
    (out : α → List Value) : Except Halt α × State → Prop
  | (.ok a, s) => ∃ n, runFor code policy n m = .running (s.machine stop (out a))
  | (.error (.failed mishap), s) =>
    ∃ n m' fault, runFor code policy n m = .faulted m' fault ∧ FailsAs m' fault s mishap
  | (.error .outOfFuel, s) =>
    ∃ n ip, fuel ≤ n ∧ runFor code policy n m = .running (s.machine ip [])

/-- Whether runs from a position on, with these operands, do what an evaluator does. -/
def Simulates (code : Code) (policy : Policy) (fuel k : Nat) (ops : List Value)
    (ev : Evaluator α) (stop : Nat) (out : α → List Value) : Prop :=
  ∀ s : State, Reaches code policy fuel (s.machine k ops) stop out (ev s)

/-! ## Rules -/

/-- What a machine reaches behind some steps it reaches with them. -/
theorem Reaches.after {m m₁ : Machine} {n : Nat} {r : Except Halt α × State}
    (hrun : runFor code policy n m = .running m₁)
    (h : Reaches code policy fuel m₁ stop out r) :
    Reaches code policy (fuel + n) m stop out r := by
  have hadd : ∀ n₁, runFor code policy (n + n₁) m = runFor code policy n₁ m₁ := by
    intro n₁
    rw [runFor_add, hrun]
  match r, h with
  | (.ok a, s), ⟨n₁, h₁⟩ => exact ⟨n + n₁, (hadd n₁).trans h₁⟩
  | (.error (.failed mishap), s), ⟨n₁, m', fault, h₁, hfails⟩ =>
      exact ⟨n + n₁, m', fault, (hadd n₁).trans h₁, hfails⟩
  | (.error .outOfFuel, s), ⟨n₁, ip, hle, h₁⟩ =>
      exact ⟨n + n₁, ip, by omega, (hadd n₁).trans h₁⟩

theorem Reaches.mono {fuel' : Nat} {m : Machine} {r : Except Halt α × State}
    (hle : fuel' ≤ fuel) (h : Reaches code policy fuel m stop out r) :
    Reaches code policy fuel' m stop out r := by
  match r, h with
  | (.ok a, s), h => exact h
  | (.error (.failed mishap), s), h => exact h
  | (.error .outOfFuel, s), ⟨n, ip, hn, hrun⟩ =>
      exact ⟨n, ip, Nat.le_trans hle hn, hrun⟩

namespace Simulates

theorem mono {fuel' : Nat} (h : Simulates code policy fuel k ops ev stop out)
    (hle : fuel' ≤ fuel) :
    Simulates code policy fuel' k ops ev stop out := fun s => (h s).mono hle

theorem congr_stop {stop' : Nat} (h : Simulates code policy fuel k ops ev stop out)
    (hstop : stop = stop') :
    Simulates code policy fuel k ops ev stop' out := hstop ▸ h

theorem pure (out : α → List Value) (a : α) :
    Simulates code policy fuel k (out a) (pure a) k out := fun _ => ⟨0, rfl⟩

/-- Code in a row does what evaluators in a row do. -/
theorem bind {out' : β → List Value} {f : α → Evaluator β}
    (h : Simulates code policy fuel k ops ev mid out)
    (hf : ∀ a, Simulates code policy fuel mid (out a) (f a) stop out') :
    Simulates code policy fuel k ops (ev >>= f) stop out' := by
  intro s
  have hs := h s
  rw [bind_apply]
  match ev s, hs with
  | (.ok a, s'), ⟨n, hrun⟩ => exact ((hf a s').after hrun).mono (Nat.le_add_right ..)
  | (.error (.failed mishap), s'), hs => exact hs
  | (.error .outOfFuel, s'), hs => exact hs

/-- A step in front of code that means nothing to an evaluation. -/
theorem before {k' : Nat} {ops' : List Value}
    (hstep : ∀ s : State, step code policy (s.machine k ops) =
      .running (s.machine k' ops'))
    (h : Simulates code policy fuel k' ops' ev stop out) :
    Simulates code policy (fuel + 1) k ops ev stop out := by
  intro s
  refine Reaches.after (n := 1) ?_ (h s)
  simp only [runFor, hstep s]

/-- A step behind code that means nothing to an evaluation. -/
theorem behind {out' : α → List Value} (h : Simulates code policy fuel k ops ev mid out)
    (hstep : ∀ a, ∀ s : State,
      step code policy (s.machine mid (out a)) = .running (s.machine stop (out' a))) :
    Simulates code policy fuel k ops ev stop out' := by
  have hlast : ∀ a, Simulates code policy fuel mid (out a) (Pure.pure a) stop out' :=
    fun a => (before (hstep a) (pure out' a)).mono (Nat.le_succ fuel)
  rw [← bind_pure ev]
  exact h.bind hlast

end Simulates

/-! ## Steps that only move on -/

private theorem step_machine {i : Instr} (hi : code.instrs[k]? = some i) (s : State) :
    step code policy (s.machine k ops) = execute code policy (s.machine k ops) i :=
  step_of_instr hi

theorem step_push {v : Value} (hi : code.instrs[k]? = some (.push v)) (s : State) :
    step code policy (s.machine k ops) = .running (s.machine (k + 1) (v :: ops)) :=
  step_machine hi s

theorem step_pop {v : Value} (hi : code.instrs[k]? = some .pop) (s : State) :
    step code policy (s.machine k (v :: ops)) = .running (s.machine (k + 1) ops) :=
  step_machine hi s

private theorem step_label {n : Nat} (hi : code.instrs[k]? = some (.label n))
    (s : State) :
    step code policy (s.machine k ops) = .running (s.machine (k + 1) ops) :=
      step_machine hi s

private theorem step_jump {n : Nat} (hi : code.instrs[k]? = some (.jump n))
    (hlabel : code.labels.find? n = some stop) (s : State) :
    step code policy (s.machine k ops) = .running (s.machine stop ops) := by
  rw [step_machine hi, execute, jump, hlabel]
  rfl

/-! ## Instructions that an evaluation knows -/

private theorem runFor_one (m : Machine) :
    runFor code policy 1 m = step code policy m := by
  simp only [runFor]
  cases step code policy m <;> rfl

theorem simulates_load {name : String} (hi : code.instrs[k]? = some (.load name)) :
    Simulates code policy fuel k ops (valueOf name) (k + 1) fun v => v :: ops :=
  fun s => ⟨1, (runFor_one _).trans (step_machine hi s)⟩

theorem simulates_assign {name : String} {v : Value}
    (hi : code.instrs[k]? = some (.save name)) :
    Simulates code policy fuel k (v :: ops) (assign name v) (k + 1) fun _ => ops :=
  fun s => ⟨1, (runFor_one _).trans (step_machine hi s)⟩

/-- A value that is left for good stays where it is: it is no operand any more. -/
theorem simulates_leave (v : Value) :
    Simulates code policy fuel k [v] (leave v) k fun _ => [] := fun _ => ⟨0, rfl⟩

theorem simulates_read {t : Ty} (hi : code.instrs[k]? = some (.read t)) :
    Simulates code policy fuel k ops (Evaluator.read t) (k + 1) fun v => v :: ops := by
  intro s
  have hstep : step code policy (s.machine k ops) = (s.machine k ops).read t :=
    step_machine hi s
  rw [Evaluator.read]
  rw [Machine.read, show (s.machine k ops).console = s.console from rfl] at hstep
  cases hline : s.console.readLine with
  | mk result console =>
      rw [hline] at hstep
      cases result with
      | ok line => exact ⟨1, (runFor_one _).trans hstep⟩
      | error cause =>
          exact ⟨1, _, _, (runFor_one _).trans hstep,
            ⟨rfl, rfl, rfl, List.suffix_append ..⟩⟩

/-- Values are printed in the order in which they were pushed. -/
theorem simulates_print {values : List Value}
    (hi : code.instrs[k]? = some (.print values.length)) :
    Simulates code policy fuel k (values.reverse ++ ops)
      (Evaluator.print values) (k + 1)
      fun _ => ops := by
  intro s
  have hstep : step code policy (s.machine k (values.reverse ++ ops)) =
      (s.machine k (values.reverse ++ ops)).print values (ops ++ s.residue) := by
    have hlength : values.reverse.length = values.length := List.length_reverse
    rw [step_machine hi, execute, if_neg (by simp [State.machine])]
    simp only [State.machine, List.append_assoc]
    rw [List.take_left' hlength, List.drop_left' hlength, List.reverse_reverse]
  rw [Evaluator.print]
  rw [Machine.print, show (s.machine k (values.reverse ++ ops)).console = s.console
    from rfl] at hstep
  cases hwrite : s.console.write (String.join (values.map Value.text) ++ "\n") with
  | mk result console =>
      rw [hwrite] at hstep
      cases result with
      | ok => exact ⟨1, (runFor_one _).trans hstep⟩
      | error cause =>
          exact ⟨1, _, _, (runFor_one _).trans hstep,
            ⟨rfl, rfl, rfl, List.suffix_append ..⟩⟩

/-! ## Choices and loops -/

/-- A conditional jump does what a choice does. -/
theorem Simulates.decide {test : Evaluator Value} {whenTrue whenFalse : Evaluator α}
    {n other : Nat} (htest : Simulates code policy fuel k [] test mid fun v => [v])
    (hi : code.instrs[mid]? = some (.jumpUnless n))
    (hlabel : code.labels.find? n = some other)
    (htrue : Simulates code policy fuel (mid + 1) [] whenTrue stop out)
    (hfalse : Simulates code policy fuel other [] whenFalse stop out) :
    Simulates code policy fuel k []
      ((test >>= fun v => ofExcept v.asBool) >>= fun b => if b then whenTrue
        else whenFalse)
      stop out := by
  rw [Evaluator.bind_assoc]
  refine htest.bind fun v => ?_
  have hstep : ∀ s : State, step code policy (s.machine mid [v]) =
      execute code policy (s.machine mid [v]) (.jumpUnless n) := step_machine hi
  cases v with
  | bool b =>
      cases b with
      | true =>
          refine (Simulates.before (fun s => ?_) htrue).mono (Nat.le_succ fuel)
          rw [hstep, execute_jumpUnless_cons rfl]
          rfl
      | false =>
          refine (Simulates.before (fun s => ?_) hfalse).mono (Nat.le_succ fuel)
          rw [hstep, execute_jumpUnless_cons rfl]
          simp only [jump, hlabel]
          rfl
  | int | float | string =>
      intro s
      have hfault := hstep s
      rw [execute_jumpUnless_cons rfl] at hfault
      exact ⟨1, _, _, (runFor_one _).trans hfault,
        ⟨rfl, rfl, rfl, List.suffix_refl s.residue⟩⟩

/-- The code of a choice does what the choice does, if that of its parts does
wherever it stands. -/
theorem Simulates.branch {test a b : List Instr} {condition : Evaluator Value}
    {whenTrue whenFalse : Evaluator Unit} {n : Nat} (hresolves : code.Resolves)
    (hcode : code.Holds k (branchCode n test a b))
    (htest : ∀ l, code.Holds l test →
      Simulates code policy fuel l [] condition (l + test.length) fun v => [v])
    (htrue : ∀ l, code.Holds l a →
      Simulates code policy fuel l [] whenTrue (l + a.length) fun _ => [])
    (hfalse : ∀ l, code.Holds l b →
      Simulates code policy fuel l [] whenFalse (l + b.length) fun _ => []) :
    Simulates code policy fuel k []
      ((condition >>= fun v => ofExcept v.asBool) >>= fun b => if b then whenTrue
        else whenFalse)
      (k + (branchCode n test a b).length) fun _ => [] := by
  simp only [branchCode, Code.holds_append, Code.holds_cons] at hcode
  obtain ⟨htestcode, hjump, hacode, hskip, hother, hbcode, hdone, -⟩ := hcode
  have hconsequent :=
    ((htrue _ hacode).behind fun _ => step_jump hskip (hresolves _ _ hdone)).behind
    fun _ => step_label hdone
  have halternate := (before (step_label hother)
    ((hfalse _ hbcode).behind fun _ => step_label hdone)).mono (Nat.le_succ fuel)
  exact ((htest k htestcode).decide hjump (hresolves _ _ hother) hconsequent
    halternate).congr_stop
    (by simp only [branchCode, List.length_append, List.length_cons,
      List.length_nil]; omega)

/-- The code of a loop does what the loop does, if that of its parts does wherever it
stands. This holds for any fuel up to that of the parts. -/
theorem Simulates.loop {test body : List Instr} {condition : Evaluator Value}
    {round : Evaluator Unit} {l : Nat} (hresolves : code.Resolves)
    (hcode : code.Holds k (loopCode l test body))
    (htest : ∀ l, code.Holds l test →
      Simulates code policy fuel l [] condition (l + test.length) fun v => [v])
    (hbody : ∀ l, code.Holds l body →
      Simulates code policy fuel l [] round (l + body.length) fun _ => [])
    {n : Nat} (hn : n ≤ fuel) :
    Simulates code policy n k []
      (repeatWhile (condition >>= fun v => ofExcept v.asBool) round n)
      (k + (loopCode l test body).length) fun _ => [] := by
  have hparts := hcode
  simp only [loopCode, Code.holds_append, Code.holds_cons] at hparts
  obtain ⟨hhead, htestcode, hleave, hbodycode, hback, hdone, -⟩ := hparts
  have hstop : k + 1 + test.length + 1 + body.length + 1 + 1 = k +
      (loopCode l test body).length := by
    simp only [loopCode, List.length_append, List.length_cons, List.length_nil]
    omega
  induction n with
  | zero => exact fun s => ⟨0, k, Nat.zero_le 0, rfl⟩
  | succ n ih =>
      rw [repeatWhile]
      have hnext : Simulates code policy n (k + 1 + test.length + 1) []
          (round >>= fun _ =>
            repeatWhile (condition >>= fun v => ofExcept v.asBool) round n)
          (k + (loopCode l test body).length) fun _ => [] :=
        (((hbody _ hbodycode).mono (by omega)).behind
          fun _ => step_jump hback (hresolves k l hhead)).bind fun _ => ih (by omega)
      have hend : Simulates code policy n (k + 1 + test.length + 1 + body.length + 1) []
          (Pure.pure () : Evaluator Unit) (k + (loopCode l test body).length) fun _ =>
            [] :=
        ((before (step_label hdone) (pure (fun _ => []) ())).mono
          (Nat.le_succ n)).congr_stop hstop
      exact before (step_label hhead)
        (((htest _ htestcode).mono (by omega)).decide hleave
          (hresolves _ _ hdone) hnext hend)

/-! ## Operands -/

/-- Whether a taking gives what an operator does, and leaves the stack
below the operands. -/
def Gives (r : Except Mishap Value) (below : List Value) :
    Except OperandFailure Value × List Value → Prop
  | (.ok v, rest) => r = .ok v ∧ rest = below
  | (.error cause, rest) =>
      (∃ mishap, cause.mishap? = some mishap ∧ r = .error mishap) ∧ below <:+ rest

/-- An instruction that computes a value does what the operator does that
its taking gives. -/
theorem simulates_ofExcept {i : Instr} {taking : Taking Value} {r : Except Mishap Value}
    (top : List Value) (hi : code.instrs[k]? = some i)
    (hcompute : i.compute = some taking)
    (h : ∀ below, Gives r below (taking (top ++ below))) :
    Simulates code policy fuel k (top ++ ops) (ofExcept r) (k + 1) fun v =>
      v :: ops := by
  intro s
  have hgives := h (ops ++ s.residue)
  have hstack : (s.machine k (top ++ ops)).stack = top ++ (ops ++ s.residue) :=
    List.append_assoc ..
  have hstep : step code policy (s.machine k (top ++ ops)) = _ := step_machine hi s
  rw [execute_of_compute hcompute, hstack] at hstep
  match taking (top ++ (ops ++ s.residue)), hgives, hstep with
  | (.ok v, rest), ⟨hr, hrest⟩, hstep =>
      subst hr hrest
      exact ⟨1, (runFor_one _).trans hstep⟩
  | (.error cause, rest), ⟨⟨mishap, hcause, hr⟩, hrest⟩, hstep =>
      subst hr
      have hresidue := (List.suffix_append ops s.residue).trans hrest
      exact ⟨1, _, _, (runFor_one _).trans hstep, ⟨hcause, rfl, rfl, hresidue⟩⟩

end

end ScalarLang
