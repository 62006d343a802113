import ScalarLang.Machine.Basic

/-!
# What instructions take and leave

An instruction takes a number of values from the top of the stack (`Instr.pops`) and
leaves a number of new ones (`Instr.pushes`). If the values it takes are there, it
never runs out of operands, it never sees the values below them, and where it goes on
it leaves as many as it should: `Machine.execute_stack` says so for a step of the
machine, and it is all that later facts about the height of the stack need to know of
the instructions.

Takings are built from taking one value at a time (`Taking.Draws`), so what holds of
that and of takings in a row holds of them all; that they take as many values as they
should is one such thing (`Taking.Takes`).

## Main results

* `Instr.takes_compute`: an instruction that computes a value takes as many operands as
  `Instr.pops` says.
* `Instr.compute_cases`: the instructions by what executing them does.
* `Machine.execute_stack`: what one step does to a stack whose top is known.
-/

namespace ScalarLang

namespace Taking

variable {α β : Type}

@[simp] theorem pure_apply (a : α) (stack : List Value) :
    (pure a : Taking α) stack = (.ok a, stack) :=
  rfl

theorem bind_apply (m : Taking α) (f : α → Taking β) (stack : List Value) :
    (m >>= f) stack = match m stack with
      | (.ok a, rest) => f a rest
      | (.error e, rest) => (.error e, rest) := rfl

section

variable {t : Ty} {a b v : Value} {rest : List Value}

theorem any_cons : any (v :: rest) = (.ok v, rest) := rfl

theorem typed_cons :
    typed t (v :: rest) =
      if v.ty = t then (.ok v, rest) else (.error (.mismatch t.name v.ty), rest) := by
  rw [typed, bind_apply, any_cons]
  by_cases h : v.ty = t <;> simp [h, fail]

theorem bool_cons :
    bool (v :: rest) =
      match v with
      | .bool b => (.ok b, rest)
      | v => (.error (.mismatch Ty.bool.name v.ty), rest) := by
  rw [bool, bind_apply, any_cons]
  cases v <;> rfl

theorem pair_cons_cons :
    pair t (b :: a :: rest) =
      if b.ty = t then
        if a.ty = t then (.ok (a, b), rest) else (.error (.mismatch t.name a.ty), rest)
      else (.error (.mismatch t.name b.ty), a :: rest) := by
  rw [pair, bind_apply, typed_cons]
  by_cases hb : b.ty = t
  · rw [if_pos hb, if_pos hb]
    simp only
    rw [bind_apply, typed_cons]
    by_cases ha : a.ty = t <;> simp [ha]
  · rw [if_neg hb, if_neg hb]

end

/-- A taking that takes this many values, if they are there, and never looks below
them. -/
def Takes (n : Nat) (m : Taking α) : Prop :=
  ∀ top below : List Value, n ≤ top.length →
    (m (top ++ below)).1 ≠ .error .underflow ∧
      ∀ a, (m (top ++ below)).1 = .ok a → (m (top ++ below)).2 = top.drop n ++ below

private theorem takes_pure (a : α) : Takes 0 (pure a : Taking α) := by
  intro top below _
  simp

private theorem takes_fail {e : OperandFailure} (he : e ≠ .underflow) (n : Nat) :
    Takes n (fail e : Taking α) := by
  intro top below _
  simp [fail, he]

private theorem takes_any : Takes 1 any := by
  intro top below h
  cases top with
  | nil => simp at h
  | cons v rest => simp [any]

private theorem Takes.bind {k l : Nat} {m : Taking α} {f : α → Taking β}
    (hm : Takes k m) (hf : ∀ a, Takes l (f a)) : Takes (k + l) (m >>= f) := by
  intro top below h
  obtain ⟨hfail, htake⟩ := hm top below (by omega)
  rw [bind_apply]
  cases hfirst : m (top ++ below) with
  | mk first rest =>
      rw [hfirst] at hfail htake
      cases first with
      | error e => exact ⟨by simpa using hfail, by simp⟩
      | ok a =>
          obtain rfl : rest = top.drop k ++ below := htake a rfl
          obtain ⟨hfail', htake'⟩ := hf a (top.drop k) below (by simp; omega)
          exact ⟨hfail', fun b hb => by rw [htake' b hb, List.drop_drop]⟩

/-! ### How takings are built -/

/-- Takings that are built from taking one value at a time, and how many values
they take at most. -/
inductive Draws : {α : Type} → Nat → Taking α → Prop where
  | pure {α : Type} (a : α) : Draws 0 (pure a : Taking α)
  | fail {α : Type} {e : OperandFailure} (he : e ≠ .underflow) :
      Draws 0 (fail e : Taking α)
  | any : Draws 1 any
  | bind {α β : Type} {k l : Nat} {m : Taking α} {f : α → Taking β} (hm : Draws k m)
      (hf : ∀ a, Draws l (f a)) : Draws (k + l) (m >>= f)

private theorem Draws.takes {n : Nat} {m : Taking α} (h : Draws n m) : Takes n m := by
  induction h with
  | pure a => exact takes_pure a
  | fail he => exact takes_fail he 0
  | any => exact takes_any
  | bind _ _ ihm ihf => exact ihm.bind ihf

private theorem draws_typed (t : Ty) : Draws 1 (typed t) := by
  refine Draws.any.bind (l := 0) fun v => ?_
  split
  · exact .pure v
  · exact .fail (by simp)

theorem draws_bool : Draws 1 bool := by
  refine Draws.any.bind (l := 0) fun v => ?_
  split
  · exact .pure _
  · exact .fail (by simp)

private theorem draws_pair (t : Ty) : Draws 2 (pair t) :=
  (draws_typed t).bind fun _ => (draws_typed t).bind fun _ => .pure _

private theorem draws_arithmetic (onInts : Int32 → Int32 → Option Int32)
    (onFloats : Float → Float → Float) (operands : Value × Value) :
    Draws 0 (arithmetic onInts onFloats operands) := by
  unfold arithmetic
  split
  · split
    · exact .pure _
    · exact .fail (by simp)
  · exact .pure _
  · exact .fail (by simp)

private theorem draws_comparison (op : OrderOp) (operands : Value × Value) :
    Draws 0 (comparison op operands) := by
  unfold comparison
  split
  · exact .pure _
  · exact .pure _
  · exact .fail (by simp)

private theorem draws_opposite (v : Value) : Draws 0 (opposite v) := by
  cases v with
  | int | float => exact .pure _
  | bool | string => exact .fail (by simp)

private theorem draws_widened (v : Value) : Draws 0 (widened v) := by
  cases v with
  | int => exact .pure _
  | float | bool | string => exact .fail (by simp)

end Taking

namespace Instr

/-- How many values an instruction takes from the stack. -/
def pops : Instr → Nat
  | push _ | load _ | read _ | jump _ | label _ | nop => 0
  | pop | save _ | negate _ | not | widen | jumpUnless _ => 1
  | arith .. | mod | concat | logic _ | order .. | equal _ => 2
  | print count => count

/-- How many values an instruction leaves in their place. -/
def pushes : Instr → Nat
  | pop | save _ | print _ | jump _ | jumpUnless _ | label _ | nop => 0
  | _ => 1

open Taking in
/-- What an instruction that computes a value takes is built from taking one
operand at a time. -/
theorem draws_compute {i : Instr} {taking : Taking Value}
    (h : i.compute = some taking) :
    Draws i.pops taking := by
  cases i with
  | push v =>
      obtain rfl : pure v = taking := by simpa [compute] using h
      exact .pure v
  | arith op t =>
      obtain rfl := Option.some.inj h
      exact (draws_pair t).bind (draws_arithmetic _ _)
  | mod =>
      obtain rfl := Option.some.inj h
      exact (draws_pair .int).bind (draws_arithmetic _ _)
  | negate t =>
      obtain rfl := Option.some.inj h
      exact (draws_typed t).bind draws_opposite
  | concat =>
      obtain rfl := Option.some.inj h
      exact Draws.any.bind fun _ => Draws.any.bind fun _ => .pure _
  | logic op =>
      obtain rfl := Option.some.inj h
      exact draws_bool.bind fun _ => draws_bool.bind fun _ => .pure _
  | not =>
      obtain rfl := Option.some.inj h
      exact draws_bool.bind fun _ => .pure _
  | order op t =>
      obtain rfl := Option.some.inj h
      exact (draws_pair t).bind (draws_comparison op)
  | equal t =>
      cases t with
      | bool =>
          obtain rfl := Option.some.inj h
          exact Draws.any.bind fun _ => Draws.any.bind fun _ => .pure _
      | int | float | string =>
          obtain rfl := Option.some.inj h
          exact (draws_pair _).bind fun _ => .pure _
  | widen =>
      obtain rfl := Option.some.inj h
      exact (draws_typed .int).bind draws_widened
  | pop | load | save | print | read | jump | jumpUnless | label | nop =>
      simp [compute] at h

/-- An instruction that computes a value takes as many operands as its count says. -/
theorem takes_compute {i : Instr} {taking : Taking Value}
    (h : i.compute = some taking) :
    Taking.Takes i.pops taking := (draws_compute h).takes

private theorem pushes_of_compute {i : Instr} {taking : Taking Value}
    (h : i.compute = some taking) :
    i.pushes = 1 := by
  cases i <;> simp_all [compute, pushes]

/-- An instruction computes a value from its operands and does nothing else, or it is
one of those that do. -/
@[elab_as_elim]
theorem compute_cases {motive : Instr → Prop}
    (compute : ∀ i taking, i.compute = some taking → motive i) (pop : motive .pop)
    (load : ∀ x, motive (.load x)) (save : ∀ x, motive (.save x))
    (print : ∀ count, motive (.print count)) (read : ∀ t, motive (.read t))
    (jump : ∀ n, motive (.jump n)) (jumpUnless : ∀ n, motive (.jumpUnless n))
    (label : ∀ n, motive (.label n)) (nop : motive .nop) (i : Instr) : motive i := by
  cases i with
  | pop => exact pop
  | load x => exact load x
  | save x => exact save x
  | print count => exact print count
  | read t => exact read t
  | jump n => exact jump n
  | jumpUnless n => exact jumpUnless n
  | label n => exact label n
  | nop => exact nop
  | equal t => cases t <;> exact compute _ _ rfl
  | _ => exact compute _ _ rfl

end Instr

/-- What holds of where one step leads: one thing where it goes on, another where it
fails. A step that executes an instruction never ends a run. -/
def Status.Leads (running : Machine → Prop) (faulted : Machine → Fault → Prop) :
    Status → Prop
  | .running m => running m
  | .ended _ => False
  | .faulted m fault => faulted m fault

theorem Status.Leads.imp {p q : Machine → Prop} {f g : Machine → Fault → Prop}
    {s : Status} (h : s.Leads p f) (hp : ∀ m, p m → q m)
    (hf : ∀ m fault, f m fault → g m fault) : s.Leads q g := by
  cases s with
  | running m => exact hp m h
  | ended m => exact h
  | faulted m fault => exact hf m fault h

theorem Status.Leads.and {p q : Machine → Prop} {f g : Machine → Fault → Prop}
    {s : Status} (h : s.Leads p f) (h' : s.Leads q g) :
    s.Leads (fun m => p m ∧ q m) fun m fault => f m fault ∧ g m fault := by
  cases s with
  | running m | faulted m fault => exact ⟨h, h'⟩
  | ended m => exact h

theorem Status.Leads.of_running {p : Machine → Prop} {f : Machine → Fault → Prop}
    {s : Status} {m : Machine} (h : s.Leads p f) (hs : s = .running m) : p m := by
  rw [hs] at h
  exact h

theorem Status.Leads.of_faulted {p : Machine → Prop} {f : Machine → Fault → Prop}
    {s : Status} {m : Machine} {fault : Fault} (h : s.Leads p f)
    (hs : s = .faulted m fault) : f m fault := by
  rw [hs] at h
  exact h

namespace Machine

variable {code : Code} {policy : Policy} {m m' : Machine} {i : Instr}

theorem execute_of_compute {taking : Taking Value} (h : i.compute = some taking) :
    execute code policy m i =
      match taking m.stack with
      | (.ok v, rest) => .running (m.next (v :: rest))
      | (.error cause, rest) => m.operandFault i cause rest := by
  cases i with
  | pop | load | save | print | read | jump | jumpUnless | label | nop => cases h
  | equal t => cases t <;> cases h <;> rfl
  | _ =>
      cases h
      rfl

/-- A jump goes on at its label or behind itself, and it leaves everything else
alone. -/
theorem jump_leads (n : Nat) :
    (jump code policy m n).Leads
      (fun m' => (m'.ip = m.ip + 1 ∨ code.labels.find? n = some m'.ip) ∧
        m'.stack = m.stack ∧ m'.store = m.store)
      (fun _ fault => fault = .unresolvedLabel n m.ip) := by
  cases h : code.labels.find? n with
  | some position => simp [jump, h, Status.Leads]
  | none => cases hp : policy.strictLabels <;> simp [jump, h, hp, Status.Leads]

theorem print_leads (values stack : List Value) :
    (m.print values stack).Leads
      (fun m' => m'.ip = m.ip + 1 ∧ m'.stack = stack ∧ m'.store = m.store)
      (fun _ fault => ∃ cause, fault = .console cause) := by
  unfold print
  split <;> simp [Status.Leads, next]

theorem read_leads (t : Ty) :
    (m.read t).Leads
      (fun m' => m'.ip = m.ip + 1 ∧ (∃ v : Value, v.ty = t ∧ m'.stack = v :: m.stack) ∧
        m'.store = m.store)
      (fun _ fault => ∃ cause, fault = .console cause) := by
  unfold read
  split
  · exact ⟨rfl, ⟨_, Value.ty_ofInput t _, rfl⟩, rfl⟩
  · exact ⟨_, rfl⟩

/-- A conditional jump with something to decide on goes on behind itself or jumps. -/
theorem execute_jumpUnless_cons {n : Nat} {v : Value} {rest : List Value}
    (h : m.stack = v :: rest) :
    execute code policy m (.jumpUnless n) =
      match v with
      | .bool true => .running (m.next rest)
      | .bool false => jump code policy { m with stack := rest } n
      | v => .faulted { m with stack := rest }
          (.operand (.mismatch Ty.bool.name v.ty) (.jumpUnless n) m.ip) := by
  cases v with
  | bool b => cases b <;> simp [execute, h, Taking.bool, Taking.bind_apply, Taking.any]
  | int | float | string =>
      simp [execute, h, Taking.bool, Taking.bind_apply, Taking.any,
        Taking.fail, operandFault]

/-- What a step does to a stack whose top is known: it takes from the top and leaves new
values there, or it fails for another reason than a lack of operands. -/
theorem execute_stack {top below : List Value} (hstack : m.stack = top ++ below)
    (hpops : i.pops ≤ top.length) :
    (execute code policy m i).Leads
      (fun m' => ∃ new : List Value, new.length = i.pushes ∧
        m'.stack = new ++ (top.drop i.pops ++ below))
      (fun _ fault => ∀ instr ip, fault ≠ .operand .underflow instr ip) := by
  cases i using Instr.compute_cases with
  | compute i taking hcompute =>
      obtain ⟨hfail, htake⟩ := Instr.takes_compute hcompute top below hpops
      rw [execute_of_compute hcompute, hstack]
      cases hresult : taking (top ++ below) with
      | mk result rest =>
          rw [hresult] at hfail htake
          cases result with
          | ok v =>
              refine ⟨[v], (Instr.pushes_of_compute hcompute).symm, ?_⟩
              have hrest : rest = top.drop i.pops ++ below := htake v rfl
              simp [next, hrest]
          | error cause =>
              intro instr ip h
              cases h
              exact hfail rfl
  | pop =>
      obtain ⟨v, rest, rfl⟩ := List.exists_cons_of_length_pos hpops
      exact ⟨[], rfl, by simp [next, hstack, Instr.pops]⟩
  | load x => exact ⟨[_], rfl, by simp [next, hstack, Instr.pops]; rfl⟩
  | save x =>
      obtain ⟨v, rest, rfl⟩ := List.exists_cons_of_length_pos hpops
      simp [execute, hstack, Taking.any, next, Instr.pops, Instr.pushes, Status.Leads]
  | print count =>
      have hcount : ¬ m.stack.length < count := by
        simp only [Instr.pops] at hpops
        simp only [hstack, List.length_append]
        omega
      rw [execute, if_neg hcount]
      refine (print_leads ..).imp (fun m' h => ⟨[], rfl, ?_⟩) ?_
      · rw [h.2.1, hstack]
        exact List.drop_append_of_le_length hpops
      · rintro _ _ ⟨cause, rfl⟩
        simp
  | read t =>
      refine (read_leads t).imp (fun m' h => ?_) ?_
      · obtain ⟨v, -, hv⟩ := h.2.1
        exact ⟨[v], rfl, by simp [hv, hstack, Instr.pops]⟩
      · rintro _ _ ⟨cause, rfl⟩
        simp
  | jump n =>
      refine (jump_leads n).imp (fun m' h => ⟨[], rfl, ?_⟩) ?_
      · simp [h.2.1, hstack, Instr.pops]
      · rintro _ _ rfl
        simp
  | jumpUnless n =>
      obtain ⟨v, rest, rfl⟩ := List.exists_cons_of_length_pos hpops
      rw [execute_jumpUnless_cons hstack]
      cases v with
      | bool b =>
          cases b with
          | true => exact ⟨[], rfl, by simp [next, Instr.pops]⟩
          | false =>
              refine (jump_leads n).imp (fun m' h => ⟨[], rfl, ?_⟩) ?_
              · simp [h.2.1, Instr.pops]
              · rintro _ _ rfl
                simp
      | int | float | string => simp [Status.Leads]
  | label n | nop => exact ⟨[], rfl, by simp [next, hstack, Instr.pops]⟩

/-- Whether an instruction that is executed on a stack makes one store from another:
only `save` does, and that in one variable. -/
def Stores (i : Instr) (stack : List Value) (store store' : Table String Value) :
    Prop :=
  (store' = store ∧ ∀ x, i ≠ .save x) ∨
    ∃ x v rest, i = .save x ∧ stack = v :: rest ∧ store' = store.insert x v

/-- Where a step goes on, and what it does to the store. -/
theorem execute_frame :
    (execute code policy m i).Leads
      (fun m' => (m'.ip = m.ip + 1 ∨ ∃ n, i.target? = some n ∧
        code.labels.find? n = some m'.ip) ∧ Stores i m.stack m.store m'.store)
      (fun _ _ => True) := by
  cases i using Instr.compute_cases with
  | compute i taking hcompute =>
      rw [execute_of_compute hcompute]
      split
      · refine ⟨.inl rfl, .inl ⟨rfl, ?_⟩⟩
        rintro x rfl
        simp [Instr.compute] at hcompute
      · trivial
  | pop | load | label | nop => exact ⟨.inl rfl, .inl ⟨rfl, by simp⟩⟩
  | save x =>
      rw [execute]
      cases hstack : m.stack with
      | nil => trivial
      | cons v rest => exact ⟨.inl rfl, .inr ⟨x, v, rest, rfl, rfl, rfl⟩⟩
  | print count =>
      rw [execute]
      split
      · trivial
      · exact (print_leads ..).imp (fun _ h => ⟨.inl h.1, .inl ⟨h.2.2, by simp⟩⟩)
          fun _ _ _ => trivial
  | read t =>
      exact (read_leads t).imp (fun _ h => ⟨.inl h.1, .inl ⟨h.2.2, by simp⟩⟩)
        fun _ _ _ => trivial
  | jump n =>
      exact (jump_leads n).imp
        (fun _ h => ⟨h.1.imp id fun h => ⟨n, rfl, h⟩, .inl ⟨h.2.2, by simp⟩⟩)
        fun _ _ _ => trivial
  | jumpUnless n =>
      rw [execute]
      split
      · exact ⟨.inl rfl, .inl ⟨rfl, by simp⟩⟩
      · exact (jump_leads n).imp
          (fun _ h => ⟨h.1.imp id fun h => ⟨n, rfl, h⟩, .inl ⟨h.2.2, by simp⟩⟩)
          fun _ _ _ => trivial
      · trivial

end Machine

end ScalarLang
