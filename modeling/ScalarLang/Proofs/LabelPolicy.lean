import ScalarLang.Proofs.Run

/-!
# Where strict and lenient runs part

The policy says what a jump to a missing label does, and nothing else. So runs of the
same code under the two policies go through the same machines for as long as no such
jump is executed. The first one ends the strict run, while the lenient run goes on
behind it, with the same stack, store and console (`Machine.Parts`): a conditional jump
has taken its operand by then in both of them. A jump that is never taken does not
count, and neither does one that is never come to.

## Main results

* `Machine.agrees_or_parts`: two runs under the two policies never part, or part once.
* `Machine.strict_refines_lenient`: what the strict run does, the lenient one does too,
  unless a label is missing.
-/

namespace ScalarLang

open ScalarLang.Instr

/-- The policy under which a jump to a missing label is a fault. -/
def Policy.strict : Policy := ⟨true⟩

/-- The policy under which it is ignored. -/
def Policy.lenient : Policy := ⟨false⟩

/-! ## Which labels are found -/

private theorem Table.isSome_find?_foldl {κ ν : Type} [DecidableEq κ] {k : κ}
    (entries : List (κ × ν)) (t : Table κ ν) :
    ((entries.foldl (fun t entry => t.insert entry.1 entry.2) t).find? k).isSome ↔
      (t.find? k).isSome ∨ k ∈ entries.map Prod.fst := by
  induction entries generalizing t with
  | nil => simp
  | cons entry rest ih =>
      rw [List.foldl_cons, ih, find?_insert, List.map_cons, List.mem_cons]
      by_cases hk : entry.1 = k
      · simp [hk]
      · rw [if_neg hk, or_iff_right (Ne.symm hk)]

namespace Code

/-- A label is found if code marks it somewhere, be it once or more than once. -/
theorem isSome_find?_resolve {instrs : List Instr} {n : Nat} :
    ((resolve instrs).find? n).isSome ↔ n ∈ Instr.labels instrs := by
  rw [resolve, Table.ofList, Table.isSome_find?_foldl, map_fst_labelsFrom,
    Table.find?_empty]
  simp

end Code

namespace Machine

variable {code : Code} {m : Machine} {n : Nat} {i : Instr}

/-! ## One step -/

/-- Whether an instruction jumps to a missing label from a machine, and
leaves this stack. -/
structure Misses (code : Code) (m : Machine) (i : Instr) (l : Nat)
    (stack : List Value) : Prop where
  target : i.target? = some l
  missing : code.labels.find? l = none
  strict : execute code .strict m i =
    .faulted { m with stack := stack } (.unresolvedLabel l m.ip)
  lenient : execute code .lenient m i = .running (m.next stack)

/-- The policy makes no difference to a jump that finds its label. -/
theorem jump_policies (l : Nat) :
    jump code .strict m l = jump code .lenient m l ∨
      (code.labels.find? l = none ∧
        jump code .strict m l = .faulted m (.unresolvedLabel l m.ip) ∧
        jump code .lenient m l = .running (m.next m.stack)) := by
  cases hfind : code.labels.find? l with
  | some position => exact .inl (by simp [jump, hfind])
  | none =>
      exact .inr
        ⟨rfl, by simp [jump, hfind, Policy.strict],
          by simp [jump, hfind, Policy.lenient, next]⟩

/-- Nor does it to any other instruction. -/
theorem execute_policies (code : Code) (m : Machine) (i : Instr) :
    execute code .strict m i = execute code .lenient m i ∨
    ∃ l stack, Misses code m i l stack := by
  cases i with
  | jump l =>
      rcases jump_policies l with heq | ⟨hmissing, hstrict, hlenient⟩
      · exact .inl heq
      · exact .inr ⟨l, m.stack, rfl, hmissing, hstrict, hlenient⟩
  | jumpUnless l =>
      rw [execute, execute]
      cases htaken : Taking.bool m.stack with
      | mk result rest =>
          cases result with
          | error => exact .inl rfl
          | ok b =>
              cases b with
              | true => exact .inl rfl
              | false =>
                  rcases jump_policies (m := { m with stack := rest }) l
                    with heq | ⟨hmissing, hstrict, hlenient⟩
                  · exact .inl heq
                  · refine .inr ⟨l, rest, rfl, hmissing, ?_, ?_⟩
                    · rw [execute, htaken]
                      exact hstrict
                    · rw [execute, htaken]
                      exact hlenient
  | _ => exact .inl rfl

/-! ## Runs -/

/-- Whether the runs from a machine part at a step: up to it both go through the
same machines, and there the strict one ends while the lenient one goes on, from
the same machine. -/
structure Parts (code : Code) (m : Machine) (j : Nat) (stuck : Machine) (l : Nat) :
    Prop where
  before : ∀ k ≤ j, ∃ m', runFor code .strict k m = .running m' ∧
  runFor code .lenient k m = .running m'
  jumps : ∃ i m', runFor code .strict j m = .running m' ∧ code.instrs[m'.ip]? = some i ∧
  i.target? = some l ∧
    stuck = { m' with stack := stuck.stack }
  missing : code.labels.find? l = none
  strict : ∀ k > j, runFor code .strict k m =
    .faulted stuck (.unresolvedLabel l stuck.ip)
  lenient : runFor code .lenient (j + 1) m = .running (stuck.next stuck.stack)

/-- Runs that have agreed so far go on to agree, have come to an end, or part here. -/
theorem agrees_or_parts_succ
    (hbefore : ∀ k ≤ n, runFor code .strict k m = runFor code .lenient k m) :
    runFor code .strict (n + 1) m = runFor code .lenient (n + 1) m ∨
    ∃ stuck l, Parts code m n stuck l := by
  rw [runFor_succ, runFor_succ, ← hbefore n (Nat.le_refl n)]
  cases hrun : runFor code .strict n m with
  | ended m' | faulted m' fault => exact .inl rfl
  | running m' =>
      dsimp only
      cases hinstr : code.instrs[m'.ip]? with
      | none => exact .inl (by simp [step, hinstr])
      | some i =>
          rw [step_of_instr hinstr, step_of_instr hinstr]
          rcases execute_policies code m' i with heq | ⟨l, stack, hmisses⟩
          · exact .inl heq
          · have hfault : runFor code .strict (n + 1) m =
                .faulted { m' with stack := stack } (.unresolvedLabel l m'.ip) := by
              rw [runFor_succ, hrun]
              exact (step_of_instr hinstr).trans hmisses.strict
            refine .inr ⟨{ m' with stack := stack }, l, ?_⟩
            constructor
            · intro k hk
              obtain ⟨m₁, hm₁⟩ := runFor_running_of_le hk hrun
              exact ⟨m₁, hm₁, (hbefore k hk).symm.trans hm₁⟩
            · exact ⟨i, m', hrun, hinstr, hmisses.target, rfl⟩
            · exact hmisses.missing
            · exact fun k hk => runFor_eq_of_le hk hfault (by simp)
            · rw [runFor_succ, ← hbefore n (Nat.le_refl n), hrun]
              exact (step_of_instr hinstr).trans hmisses.lenient

/-- The runs from a machine never part, or they part once. -/
theorem agrees_or_parts (code : Code) (m : Machine) :
    (∀ n, runFor code .strict n m = runFor code .lenient n m) ∨
    ∃ j stuck l, Parts code m j stuck l := by
  by_cases hparts : ∃ j stuck l, Parts code m j stuck l
  · exact .inr hparts
  · refine .inl fun n => ?_
    induction n using Nat.strongRecOn with
    | ind n ih =>
        cases n with
        | zero => rfl
        | succ n =>
            rcases agrees_or_parts_succ (n := n) fun k hk =>
              ih k (Nat.lt_succ_of_le hk) with heq | hhere
            · exact heq
            · exact absurd ⟨n, hhere⟩ hparts

/-- Runs do not part on code that marks all the labels it may go on at. -/
theorem Parts.mem_targets {instrs : List Instr} {j l : Nat} {stuck : Machine}
    (h : Parts (.ofList instrs) m j stuck l) :
    l ∈ targets instrs ∧ l ∉ labels instrs := by
  obtain ⟨i, m', -, hinstr, htarget, -⟩ := h.jumps
  rw [Code.instrs_ofList_getElem?] at hinstr
  refine ⟨mem_targets_of_getElem? hinstr htarget, fun hmem => ?_⟩
  have hfound := Code.isSome_find?_resolve.mpr hmem
  rw [show (Code.resolve instrs).find? l = none from h.missing] at hfound
  cases hfound

/-- A strict run refines the lenient one. The two go through the same machines until the
strict one comes to a label that is missing; so wherever it comes to anything else, the
lenient run comes to the same, and if every jump has its label, they never part. -/
theorem strict_refines_lenient (instrs : List Instr) (console : Console) :
    ((∀ n, runFor (.ofList instrs) .strict n (start console) =
      runFor (.ofList instrs) .lenient n (start console)) ∨
        ∃ j stuck l, Parts (.ofList instrs) (start console) j stuck l) ∧
      (∀ n status, runFor (.ofList instrs) .strict n (start console) = status →
        (∀ stuck l ip, status ≠ .faulted stuck (.unresolvedLabel l ip)) →
          runFor (.ofList instrs) .lenient n (start console) = status) ∧
      ((∀ l ∈ targets instrs, l ∈ labels instrs) →
        ∀ n, runFor (.ofList instrs) .strict n (start console) =
          runFor (.ofList instrs) .lenient n (start console)) := by
  refine ⟨agrees_or_parts _ _, ?_, ?_⟩
  · rintro n status rfl hother
    rcases agrees_or_parts (.ofList instrs) (start console)
      with hsame | ⟨j, stuck, l, hparts⟩
    · exact (hsame n).symm
    · rcases Nat.lt_or_ge j n with hn | hn
      · exact absurd (hparts.strict n hn) (hother _ _ _)
      · obtain ⟨m', hstrict, hlenient⟩ := hparts.before n hn
        exact hlenient.trans hstrict.symm
  · intro hclosed
    rcases agrees_or_parts (.ofList instrs) (start console)
      with hsame | ⟨j, stuck, l, hparts⟩
    · exact hsame
    · obtain ⟨htarget, hmissing⟩ := hparts.mem_targets
      exact absurd (hclosed l htarget) hmissing

/-- A missing label does not count behind a condition that holds, and one that is marked
twice is not missing. -/
theorem strict_refines_lenient_past_untaken :
    (∃ m, runFor (.ofList [.push (.bool true), .jumpUnless 7, .push (.int 1)])
        .lenient 4 (start ⟨[], .empty, none⟩) = .ended m ∧ m.stack = [.int 1]) ∧
      ∀ n, runFor (.ofList [.jump 2, .label 2, .nop, .label 2]) .strict n
          (start ⟨[], .empty, none⟩) =
        runFor (.ofList [.jump 2, .label 2, .nop, .label 2]) .lenient n
          (start ⟨[], .empty, none⟩) := by
  have hstrict :
      runFor (.ofList [.push (.bool true), .jumpUnless 7, .push (.int 1)]) .strict 4
        (start ⟨[], .empty, none⟩) = .ended ⟨3, [.int 1], .empty, ⟨[], .empty, none⟩⟩ :=
        rfl
  have hlenient := (strict_refines_lenient _ _).2.1 4 _ hstrict (by simp)
  exact ⟨⟨_, hlenient, rfl⟩, (strict_refines_lenient _ _).2.2 (by decide)⟩

end Machine

end ScalarLang
