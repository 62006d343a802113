import ScalarLang.Proofs.Run

/-!
# What a fault leaves behind

An instruction that fails has done nothing but take operands. It stores and pushes only
what it has computed from all of them, and it comes to the console last; so at every
point where it can fail before, the machine is as it was, apart from values that are
gone from the top of the stack (`Machine.Leaves`). How many these can be is told by the
instruction (`Instr.spends`): the operands it takes, which are two at most, but none
where it looks whether it has them before it takes any, and none where the only way to
fail is that there is none.

Takings fail in all the ways in which the smaller ones fail that they are built from, so
this is read off how they are built (`Taking.Draws.exists_drop`). The console may have
changed where it is what failed.

A run that ends with a fault made its last step from a machine that had completed all
instructions before; what it shows afterwards is what that machine would have shown.

## Main results

* `Machine.execute_leaves`: where an instruction can fail, and what it leaves then.
* `Machine.fault_keeps`: faults keep what the instructions before them have done.
-/

namespace ScalarLang

/-! ## Operands that are gone -/

/-- A taking leaves the stack below the values that it has taken, also where it
fails. -/
theorem Taking.Draws.exists_drop {α : Type} {n : Nat} {m : Taking α} (h : Draws n m)
    (stack : List Value) :
    ∃ k ≤ n, (m stack).2 = stack.drop k := by
  induction h generalizing stack with
  | pure | fail => exact ⟨0, Nat.le_refl 0, rfl⟩
  | any => cases stack <;> exact ⟨1, Nat.le_refl 1, rfl⟩
  | @bind _ _ k l m f _ _ ihm ihf =>
      obtain ⟨i, hi, hrest⟩ := ihm stack
      rw [bind_apply]
      cases hfirst : m stack with
      | mk first rest =>
          rw [hfirst] at hrest
          obtain rfl : rest = stack.drop i := hrest
          cases first with
          | error e => exact ⟨i, Nat.le_add_right_of_le hi, rfl⟩
          | ok a =>
              obtain ⟨j, hj, hlast⟩ := ihf a (stack.drop i)
              exact ⟨i + j, Nat.add_le_add hi hj, hlast.trans List.drop_drop⟩

namespace Instr

/-- How many values are gone at most where an instruction has failed. `print` looks
whether there are enough before it takes any, and `save` fails only where there is
none. -/
def spends : Instr → Nat
  | print _ | save _ => 0
  | i => i.pops

private theorem spends_le (i : Instr) : i.spends ≤ 2 := by
  cases i <;> simp [spends, pops]

private theorem spends_le_pops (i : Instr) : i.spends ≤ i.pops := by
  cases i <;> simp [spends, pops]

private theorem spends_of_compute {i : Instr} {taking : Taking Value}
    (h : i.compute = some taking) : i.spends = i.pops := by
  cases i <;> simp_all [compute, spends]

end Instr

/-! ## One step -/

namespace Machine

variable {code : Code} {policy : Policy} {m m' : Machine} {i : Instr} {fault : Fault}

/-- What an instruction that fails leaves of a machine: all of it but some values at the
top of the stack, and the console if that is what failed. -/
inductive Leaves (m : Machine) (i : Instr) : Machine → Fault → Prop
  | spent {fault : Fault} {k : Nat} (hfault : ∀ cause, fault ≠ .console cause)
      (hk : k ≤ i.spends) :
      Leaves m i { m with stack := m.stack.drop k } fault
  | console {cause : ConsoleFailure} (k : Nat) (console : Console) :
      Leaves m i { m with stack := m.stack.drop k, console := console } (.console cause)

/-- A jump that fails leaves the machine alone. -/
theorem jump_leaves (label : Nat) :
    (jump code policy m label).Leads (fun _ => True) fun m' fault => m' = m ∧
    fault = .unresolvedLabel label m.ip := by
  unfold jump
  split
  · trivial
  · split
    · exact ⟨rfl, rfl⟩
    · trivial

private theorem print_leaves (count : Nat) (values : List Value) :
    (m.print values (m.stack.drop count)).Leads (fun _ => True) (Leaves m i) := by
  unfold print
  split
  · trivial
  · exact .console count _

private theorem read_leaves (t : Ty) :
    (m.read t).Leads (fun _ => True) (Leaves m i) := by
  unfold read
  split
  · trivial
  · exact .console 0 _

/-- Operands that do not serve are gone, as far as they have been taken. -/
theorem operandFault_leaves {cause : OperandFailure} {k : Nat} (hk : k ≤ i.spends) :
    (m.operandFault i cause (m.stack.drop k)).Leads (fun _ => True) (Leaves m i) :=
      .spent (by simp) hk

/-- An instruction that fails has done nothing but take operands, or it has
come to the console. -/
theorem execute_leaves :
    (execute code policy m i).Leads (fun _ => True) (Leaves m i) := by
  cases i using Instr.compute_cases with
  | compute i taking hcompute =>
      obtain ⟨k, hk, hrest⟩ := (Instr.draws_compute hcompute).exists_drop m.stack
      rw [← Instr.spends_of_compute hcompute] at hk
      rw [execute_of_compute hcompute]
      cases hresult : taking m.stack with
      | mk result rest =>
          rw [hresult] at hrest
          obtain rfl : rest = m.stack.drop k := hrest
          cases result with
          | ok v => trivial
          | error cause => exact operandFault_leaves hk
  | pop | load | label | nop => trivial
  | save x =>
      rw [execute]
      cases hstack : m.stack with
      | cons v rest => trivial
      | nil =>
          have hleaves :
              (m.operandFault (.save x) .underflow (m.stack.drop 0)).Leads _ _ :=
            operandFault_leaves (Nat.zero_le _)
          rw [hstack] at hleaves
          exact hleaves
  | print count =>
      rw [execute]
      split
      · exact operandFault_leaves (k := 0) (Nat.zero_le _)
      · exact print_leaves count _
  | read t => exact read_leaves t
  | jump label =>
      refine (jump_leaves label).imp (fun _ h => h) ?_
      rintro _ _ ⟨rfl, rfl⟩
      exact .spent (k := 0) (by simp) (Nat.zero_le _)
  | jumpUnless label =>
      obtain ⟨k, hk, hrest⟩ := Taking.draws_bool.exists_drop m.stack
      rw [execute]
      cases hresult : Taking.bool m.stack with
      | mk result rest =>
          rw [hresult] at hrest
          obtain rfl : rest = m.stack.drop k := hrest
          cases result with
          | error cause => exact operandFault_leaves hk
          | ok b =>
              cases b with
              | true => trivial
              | false =>
                  refine (jump_leaves label).imp (fun _ h => h) ?_
                  rintro _ _ ⟨rfl, rfl⟩
                  exact .spent (by simp) hk

private theorem leaves_of_execute (h : execute code policy m i = .faulted m' fault) :
    Leaves m i m' fault :=
  execute_leaves.of_faulted h

private theorem Leaves.exists_drop (h : Leaves m i m' fault)
    (hfault : ∀ cause, fault ≠ .console cause) :
    ∃ k ≤ i.spends, m' = { m with stack := m.stack.drop k } := by
  cases h with
  | spent _ hk => exact ⟨_, hk, rfl⟩
  | console => exact absurd rfl (hfault _)

private theorem Leaves.store_eq (h : Leaves m i m' fault) :
    m'.store = m.store ∧ ∃ k, m'.stack = m.stack.drop k := by
  cases h <;> exact ⟨rfl, _, rfl⟩

/-! ## Runs -/

/-- A fault keeps what was done before it. Whatever the instruction and the machine, a
fault that does not come from the console leaves the machine as it was, apart from
values that are gone from the top of the stack: two at most, and no more than the
instruction takes, and none for `print`, `jump` and `save`. A fault of the console
changes no variable and pushes nothing. So where a run ends with any other fault, its
variables, its output and the input that remains are those of the machine behind the
instructions that it has completed, of which the one at fault was the next. -/
theorem fault_keeps (code : Code) (policy : Policy) :
    (∀ m i m' fault, execute code policy m i = .faulted m' fault →
      ((∀ cause, fault ≠ .console cause) →
        ∃ k ≤ 2, k ≤ i.pops ∧ m' = { m with stack := m.stack.drop k } ∧
          ((∃ count, i = .print count) ∨ (∃ label, i = .jump label) ∨
            (∃ x, i = .save x) → k = 0)) ∧
      m'.store = m.store ∧ ∃ k, m'.stack = m.stack.drop k) ∧
    ∀ m n m' fault, runFor code policy n m = .faulted m' fault →
      (∀ cause, fault ≠ .console cause) →
      ∃ j < n, ∃ last i, runFor code policy j m = .running last ∧
        code.instrs[last.ip]? = some i ∧
        execute code policy last i = .faulted m' fault ∧
        m'.store = last.store ∧ m'.console = last.console := by
  refine ⟨fun m i m' fault h => ⟨fun hfault => ?_, (leaves_of_execute h).store_eq⟩,
    fun m n m' fault h hfault => ?_⟩
  · obtain ⟨k, hk, hm'⟩ := (leaves_of_execute h).exists_drop hfault
    refine ⟨k, Nat.le_trans hk i.spends_le, Nat.le_trans hk i.spends_le_pops, hm', ?_⟩
    rintro (⟨count, rfl⟩ | ⟨label, rfl⟩ | ⟨x, rfl⟩) <;> exact Nat.le_zero.mp hk
  · obtain ⟨j, hj, last, i, hlast, hinstr, hexecute⟩ := exists_instr_of_runFor h
    obtain ⟨k, -, rfl⟩ := (leaves_of_execute hexecute).exists_drop hfault
    exact ⟨j, hj, last, i, hlast, hinstr, hexecute, rfl, rfl⟩

/-- A division by zero behind a variable that was stored, a line that was read and one
that was written: none of them is lost, nor the value below the operands. And a text
that does not fit into the output: it is off the stack, but the variable stays. -/
theorem fault_keeps_at_division :
    (∃ instrs console m' last, runFor (.ofList instrs) ⟨true⟩ 8 (start console) =
          .faulted m' (.operand .zeroDivisor (.arith .div .int) 7) ∧
        (∃ j < 8, runFor (.ofList instrs) ⟨true⟩ j (start console) = .running last) ∧
        last.store.find? "x" = some (.int 7) ∧ last.console.input = [111] ∧
        last.console.output = "hi\n".toUTF8 ∧
          ∃ k ≤ 2, m' = { last with stack := last.stack.drop k }) ∧
      ∃ m m', execute (.ofList []) ⟨false⟩ m (.print 1) = .faulted m' (.console .full) ∧
        m.store.find? "x" = some (.int 7) ∧ m'.store = m.store ∧
        ∃ k, m'.stack = m.stack.drop k := by
  constructor
  · have hrun :
        runFor (.ofList [.push (.int 7), .save "x", .read .string, .print 1,
          .push (.bool true), .push (.int 1), .push (.int 0), .arith .div .int]) ⟨true⟩
            8 (start (.ofInput [104, 105, 10, 111] none)) =
          .faulted ⟨7, [.bool true], Table.empty.insert "x" (.int 7), [111],
            "hi\n".toUTF8, none⟩
            (.operand .zeroDivisor (.arith .div .int) 7) := rfl
    obtain ⟨hstep, hrest⟩ := fault_keeps _ _
    obtain ⟨j, hj, last, i, hlast, -, hexecute, hstore, hconsole⟩ :=
      hrest _ _ _ _ hrun (by simp)
    obtain ⟨k, hk, -, hspent, -⟩ := (hstep _ _ _ _ hexecute).1 (by simp)
    refine ⟨_, _, _, last, hrun, ⟨j, hj, hlast⟩, ?_, ?_, ?_, k, hk, hspent⟩
    · rw [← hstore]
      rfl
    · rw [← hconsole]
    · rw [← hconsole]
  · have hfull : execute (.ofList []) ⟨false⟩
        ⟨0, [.string "long", .bool true], Table.empty.insert "x" (.int 7), [], .empty,
          some 2⟩ (.print 1) =
        .faulted ⟨0, [.bool true], Table.empty.insert "x" (.int 7), [], "lo".toUTF8,
          some 0⟩ (.console .full) := rfl
    exact ⟨_, _, hfull, rfl, ((fault_keeps _ _).1 _ _ _ _ hfull).2⟩

end Machine

end ScalarLang
