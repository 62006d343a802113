import ScalarLang.Proofs.Control

/-!
# Programs without loops

Only a loop jumps back to a place where it has been. A choice hands out two labels,
jumps to both of them from in front, and marks them behind: the one in front of the
alternative, the other at its end. So in the code of statements without loops every jump
has its label further on (`Layout.onward`), however deep choices and blocks are nested,
and since each label is marked once, that is the place where the jump goes on
(`Machine.lt_ip_of_step`).

The position of the next instruction is a measure for such a run: it grows with each
step and cannot pass the end of the code (`Machine.runFor_ne_running`). The run itself
has no other bound.

## Main results

* `Layout.onward`: the code of statements without loops jumps forward only.
* `Program.loopFree_halts`: a run of such code goes forward with each step, and ends.
-/

namespace ScalarLang

open ScalarLang.Instr

/-! ## Statements without loops -/

/-- Whether a statement is a loop. -/
def Stmt.isLoop : Stmt → Bool
  | whileLoop .. | forLoop .. => true
  | _ => false

/-- Whether there is no loop among statements, nor anywhere inside them. -/
def Stmt.LoopFree (ss : List Stmt) : Prop := ∀ s ∈ Stmt.everyOf ss, s.isLoop = false

/-- Whether there is no loop in a program. -/
def Program.LoopFree (p : Program) : Prop := Stmt.LoopFree p.body

instance (p : Program) : Decidable p.LoopFree :=
  inferInstanceAs (Decidable (∀ s ∈ Stmt.everyOf p.body, s.isLoop = false))

namespace Stmt

private theorem everyOf_toList (s : Option Stmt) :
    everyOf s.toList = everyOfOption s := by
  cases s <;> simp [everyOf, everyOfOption]

private theorem loopFree_cons_iff {s : Stmt} {rest : List Stmt} :
    LoopFree (s :: rest) ↔ LoopFree [s] ∧ LoopFree rest := by
  simp only [LoopFree, everyOf, List.append_nil, List.forall_mem_append]

private theorem loopFree_block_iff {body : List Stmt} {span : Span} :
    LoopFree [.block body span] ↔ LoopFree body := by
  simp [LoopFree, everyOf, inner, isLoop]

private theorem loopFree_branch_iff {condition : Expr} {consequent : Stmt}
    {alternate : Option Stmt} {span : Span} :
    LoopFree [.branch condition consequent alternate span] ↔ LoopFree [consequent] ∧
    LoopFree alternate.toList := by
  simp [LoopFree, everyOf, inner, isLoop, everyOf_toList, or_imp, forall_and, and_assoc]

/-- A statement with no others inside is loop-free if it is no loop itself. -/
theorem loopFree_of_inner_eq_nil {s : Stmt} (hinner : s.inner = [])
    (hs : s.isLoop = false) : LoopFree [s] := by
  intro t ht
  rw [everyOf, everyOf, hinner, List.append_nil, List.mem_singleton] at ht
  rw [ht, hs]

private theorem not_loopFree_of_isLoop {s : Stmt} (hs : s.isLoop = true) :
    ¬ LoopFree [s] := by
  intro hfree
  have hnone := hfree s List.mem_cons_self
  rw [hs] at hnone
  cases hnone

end Stmt

/-! ## Code that jumps forward -/

namespace Instr

/-- Code that marks each label that it may go on at, and does so behind the jump. -/
inductive Onward : List Instr → Prop
  | nil : Onward []
  | cons {i : Instr} {rest : List Instr}
      (hi : ∀ n, i.target? = some n → n ∈ labels rest) (hrest : Onward rest) :
      Onward (i :: rest)

namespace Onward

variable {front back code : List Instr}

private theorem pass {i : Instr} (hi : i.target? = none) (h : Onward code) :
    Onward (i :: code) := by
  refine .cons (fun n hn => ?_) h
  rw [hi] at hn
  cases hn

theorem of_straight (h : Straight code) : Onward code := by
  induction code with
  | nil => exact .nil
  | cons i rest ih =>
      obtain ⟨hlabels, htargets⟩ := h
      rw [labels_cons, List.append_eq_nil_iff] at hlabels
      rw [targets_cons, List.append_eq_nil_iff, Option.toList_eq_nil_iff] at htargets
      exact pass htargets.1 (ih ⟨hlabels.2, htargets.2⟩)

theorem append (hfront : Onward front) (hback : Onward back) :
    Onward (front ++ back) := by
  induction hfront with
  | nil => exact hback
  | cons hi _ ih =>
      rw [List.cons_append]
      refine .cons (fun n hn => ?_) ih
      rw [labels_append]
      exact List.mem_append_left _ (hi n hn)

/-- A choice jumps over its consequent and over its alternative. -/
theorem branch {n : Nat} {test a b : List Instr} (htest : Straight test) (ha : Onward a)
    (hb : Onward b) :
    Onward (branchCode n test a b) := by
  have hend : Onward (b ++ [label (n + 1)]) := hb.append (pass rfl .nil)
  have hover : Onward (jump (n + 1) :: label n :: (b ++ [label (n + 1)])) := by
    refine .cons (fun m hm => ?_) (pass rfl hend)
    obtain rfl : n + 1 = m := Option.some.inj hm
    simp [label?]
  refine (of_straight htest).append (.cons (fun m hm => ?_) (ha.append hover))
  obtain rfl : n = m := Option.some.inj hm
  simp [label?]

/-- A jump in such code has its label further on. -/
theorem exists_label (h : Onward code) {k n : Nat} {instr : Instr}
    (hinstr : code[k]? = some instr) (hn : instr.target? = some n) :
    ∃ j, k < j ∧ code[j]? = some (.label n) := by
  induction h generalizing k with
  | nil => simp at hinstr
  | @cons i rest hi _ ih =>
      cases k with
      | zero =>
          obtain rfl : i = instr := by simpa using hinstr
          obtain ⟨j, hj⟩ := mem_labels_iff.mp (hi n hn)
          exact ⟨j + 1, Nat.succ_pos j, by simpa using hj⟩
      | succ k =>
          obtain ⟨j, hkj, hj⟩ := ih (by simpa using hinstr)
          exact ⟨j + 1, Nat.succ_lt_succ hkj, by simpa using hj⟩

end Onward

end Instr

/-- The code of statements without loops jumps forward only. -/
theorem Layout.onward {σ τ : Scope} {ss : List Stmt} {code : List Instr}
    (h : Layout σ ss code τ) (hfree : Stmt.LoopFree ss) : Onward code := by
  induction h with
  | nil | declareNone | readNone => exact .nil
  | cons _ _ ihs ihrest =>
      obtain ⟨hs, hrest⟩ := Stmt.loopFree_cons_iff.mp hfree
      exact (ihs hs).append (ihrest hrest)
  | block _ ih => exact ih (Stmt.loopFree_block_iff.mp hfree)
  | declare _ ih | read _ _ ih =>
      have hothers := ih (Stmt.loopFree_of_inner_eq_nil rfl rfl)
      exact .pass rfl (.pass rfl hothers)
  | write hvalues => exact (Onward.of_straight hvalues.straight).append (.pass rfl .nil)
  | branch htest _ _ iha ihb =>
      obtain ⟨ha, hb⟩ := Stmt.loopFree_branch_iff.mp hfree
      exact .branch htest.straight (iha ha) (ihb hb)
  | whileLoop | forLoop => exact absurd hfree (Stmt.not_loopFree_of_isLoop rfl)
  | assign _ he => exact .of_straight (he.straight.append straight_pop)
  | leave _ he => exact .of_straight he.straight

/-! ## Runs that go forward -/

namespace Machine

variable {code : List Instr} {policy : Policy} {m m' : Machine}

/-- A step of code that jumps forward goes forward, and not past the end. -/
theorem lt_ip_of_step (h : Onward code) (hnodup : (labels code).Nodup)
    (hstep : step (.ofList code) policy m = .running m') :
    m.ip < m'.ip ∧ m'.ip ≤ code.length := by
  obtain ⟨instr, hinstr, hgoes, -⟩ := frame_of_step hstep
  rw [Code.instrs_ofList_getElem?] at hinstr
  obtain ⟨hin, -⟩ := List.getElem?_eq_some_iff.mp hinstr
  rcases hgoes with hnext | ⟨n, hn, hfind⟩
  · omega
  · obtain ⟨j, hlt, hj⟩ := h.exists_label hinstr hn
    obtain ⟨hle, -⟩ := List.getElem?_eq_some_iff.mp hj
    rw [Code.labels_ofList, Code.find?_resolve hnodup hj] at hfind
    obtain rfl := Option.some.inj hfind
    omega

/-- A run ends behind the last instruction. -/
theorem size_le_of_ended {code : Code} (hstep : step code policy m = .ended m') :
    m' = m ∧ code.instrs.size ≤ m.ip := by
  cases hinstr : code.instrs[m.ip]? with
  | none =>
      rw [step, hinstr] at hstep
      exact ⟨(Status.ended.inj hstep).symm, Array.getElem?_eq_none_iff.mp hinstr⟩
  | some instr =>
      rw [step_of_instr hinstr] at hstep
      have hframe : (execute code policy m instr).Leads _ _ := execute_frame
      rw [hstep] at hframe
      exact hframe.elim

section

variable {code : Code} {n : Nat}
  (hforward : ∀ m m', step code policy m = .running m' → m.ip < m'.ip)

include hforward

/-- Where steps go forward, a run has come at least as far as the number of its
steps. -/
theorem add_le_ip_of_runFor (hrun : runFor code policy n m = .running m') :
    m.ip + n ≤ m'.ip := by
  refine runFor_induction (P := fun n m' => m.ip + n ≤ m'.ip) (Nat.le_refl _) ?_ hrun
  intro j m₁ m₂ _ hle hstep
  have hlt := hforward m₁ m₂ hstep
  omega

/-- Where steps go forward, there are no more of them than there are instructions
ahead. -/
theorem runFor_ne_running (hn : code.instrs.size - m.ip < n) :
    runFor code policy n m ≠ .running m' := by
  intro hrun
  obtain ⟨k, rfl⟩ := Nat.exists_eq_add_of_lt hn
  obtain ⟨last, hlast, hstep⟩ := runFor_succ_running_iff.mp hrun
  have hle := add_le_ip_of_runFor hforward hlast
  obtain ⟨instr, hinstr, -⟩ := instr_of_step_running hstep
  obtain ⟨hin, -⟩ := Array.getElem?_eq_some_iff.mp hinstr
  omega

end

/-- Where steps go no further than the end of the code, a run that ends without a fault
ends right there. -/
theorem ip_eq_of_ended {code : Code} {n : Nat} (hip : m.ip ≤ code.instrs.size)
    (hend : ∀ m m', step code policy m = .running m' → m'.ip ≤ code.instrs.size)
    (hrun : runFor code policy n m = .ended m') : m'.ip = code.instrs.size := by
  obtain ⟨k, -, last, hlast, hstep⟩ := exists_step_of_runFor hrun (by simp)
  obtain ⟨rfl, hge⟩ := size_le_of_ended hstep
  have hle : m'.ip ≤ code.instrs.size := by
    refine runFor_induction (P := fun _ m' => m'.ip ≤ code.instrs.size) hip ?_ hlast
    exact fun _ m₁ m₂ _ _ hstep => hend m₁ m₂ hstep
  omega

end Machine

/-- A program without loops comes to an end, on every input and under either policy.
Each instruction of its code that is executed moves the position forward, from whatever
state of the machine, and never past the end of the code. So after one step for each
instruction and one more the run has come to the end of the code, or has failed
before. -/
theorem Program.loopFree_halts {p : Program} {code : List Instr}
    (h : p.compile = .ok code) (hfree : p.LoopFree) (policy : Policy) :
    (∀ m m', Machine.step (.ofList code) policy m = .running m' → m.ip < m'.ip ∧
      m'.ip ≤ code.length) ∧ ∀ console,
        (∃ m, Machine.runFor (.ofList code) policy (code.length + 1) (.start console) =
          .ended m ∧ m.ip = code.length) ∨
        ∃ m fault, Machine.runFor (.ofList code) policy (code.length + 1)
          (.start console) = .faulted m fault := by
  obtain ⟨τ, hbody⟩ := p.layout_of_compile h
  have hforward (m m' : Machine)
      (hstep : Machine.step (.ofList code) policy m = .running m') :
      m.ip < m'.ip ∧ m'.ip ≤ code.length :=
    Machine.lt_ip_of_step (hbody.onward hfree) hbody.wellLabelled.nodup hstep
  refine ⟨hforward, fun console => ?_⟩
  have hsize : (Code.ofList code).instrs.size = code.length := List.size_toArray
  cases hrun :
    Machine.runFor (.ofList code) policy (code.length + 1) (.start console) with
  | running m =>
      have hn : (Code.ofList code).instrs.size - (Machine.start console).ip <
          code.length + 1 := by omega
      exact absurd hrun
        (Machine.runFor_ne_running (fun m m' hstep => (hforward m m' hstep).1) hn)
  | ended m =>
      have hip := Machine.ip_eq_of_ended (Nat.zero_le _) (fun m m' hstep => hsize ▸
        (hforward m m' hstep).2) hrun
      exact .inl ⟨m, rfl, hip.trans hsize⟩
  | faulted m fault => exact .inr ⟨m, fault, rfl⟩

/-- A choice in a block in a choice, both with alternatives: the run goes into the first
and over the other arms. -/
theorem Program.loopFree_halts_of_nested :
    ∃ p code, Program.compile p = .ok code ∧ p.LoopFree ∧ labels code = [2, 3, 0, 1] ∧
      (∀ m m', Machine.step (.ofList code) ⟨true⟩ m = .running m' →
        m.ip < m'.ip ∧ m'.ip ≤ 13) ∧
      ∃ m, Machine.runFor (.ofList code) ⟨true⟩ 14 (.start ⟨[], .empty, none⟩) =
        .ended m ∧ m.ip = 13 := by
  let choice (b : Bool) (s t : Stmt) : Stmt :=
    .branch (.bool b default) s (some t) default
  let leave (n : Int32) : Stmt := .effect (.int n default) default
  let p : Program :=
    ⟨[choice true (.block [choice false (leave 1) (leave 2)] default) (leave 3)],
      default⟩
  have hcompile :
      p.compile = .ok [.push (.bool true), .jumpUnless 0, .push (.bool false),
        .jumpUnless 2, .push (.int 1), .jump 3, .label 2, .push (.int 2), .label 3,
        .jump 1, .label 0, .push (.int 3), .label 1] := rfl
  obtain ⟨hforward, hends⟩ := Program.loopFree_halts hcompile (by decide) ⟨true⟩
  rcases hends ⟨[], .empty, none⟩ with hended | ⟨m, fault, hfault⟩
  · exact ⟨p, _, hcompile, by decide, rfl, hforward, hended⟩
  · cases hfault

end ScalarLang
