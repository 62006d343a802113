import ScalarLang.Proofs.Run
import ScalarLang.Proofs.Sites

/-!
# Where control goes

The code of a statement is one range of instructions, and it is closed: what it jumps
to, it marks itself. A label of the whole program is marked once, so finding it among
all labels finds the mark inside the range. Hence a machine that is inside the code of a
statement stays there until it comes to the position right behind it, and a jump without
a place to go to is never executed.

Every statement of a tree has such a range (`Program.has_of_mem`).

## Main results

* `Program.Stands.find?_target`: a jump inside the code of a statement goes to a
  place inside it.
* `Program.Stands.stays_or_leaves`: a run leaves the code of a statement
  only at its end.
-/

namespace ScalarLang

open ScalarLang.Instr

/-! ## All statements of a tree -/

mutual

/-- The statements inside a statement. -/
def Stmt.inner : Stmt → List Stmt
  | .block body _ => Stmt.everyOf body
  | .branch _ consequent alternate _ =>
    consequent :: consequent.inner ++ Stmt.everyOfOption alternate
  | .whileLoop _ body _ => body :: body.inner
  | .forLoop _ _ _ _ body _ => body :: body.inner
  | _ => []

/-- A statement that may be missing, and the statements inside it. -/
def Stmt.everyOfOption : Option Stmt → List Stmt
  | none => []
  | some s => s :: s.inner

/-- Statements in a row, and the statements inside them. -/
def Stmt.everyOf : List Stmt → List Stmt
  | [] => []
  | s :: rest => s :: s.inner ++ Stmt.everyOf rest

end

section

variable {p : Program} {k : Nat} {σ : Scope}

/-- Whether a statement stands somewhere in a program. -/
def Program.Has (p : Program) (s : Stmt) : Prop := ∃ k σ, p.Stands ⟨k, σ, [s]⟩

mutual

private theorem Stmt.has_of_mem_inner (s : Stmt) {k : Nat} {σ : Scope}
    (h : p.Stands ⟨k, σ, [s]⟩) :
    ∀ t ∈ s.inner, p.Has t := by
  intro t ht
  cases s with
  | block body span =>
      rw [Stmt.inner] at ht
      exact Stmt.has_of_mem_everyOf body h.block t ht
  | branch condition consequent alternate span =>
      rw [Stmt.inner, List.cons_append, List.mem_cons, List.mem_append] at ht
      have harm := h.body List.mem_cons_self
      have hother := h.body (List.mem_cons_of_mem _ List.mem_cons_self)
      rcases ht with rfl | ht | ht
      · exact ⟨_, _, harm⟩
      · exact Stmt.has_of_mem_inner consequent harm t ht
      · exact Stmt.has_of_mem_everyOfOption alternate hother t ht
  | whileLoop condition body span =>
      rw [Stmt.inner, List.mem_cons] at ht
      have hbody := h.body List.mem_cons_self
      rcases ht with rfl | ht
      · exact ⟨_, _, hbody⟩
      · exact Stmt.has_of_mem_inner body hbody t ht
  | forLoop induction init condition step body span =>
      rw [Stmt.inner, List.mem_cons] at ht
      have hbody := h.body List.mem_cons_self
      rcases ht with rfl | ht
      · exact ⟨_, _, hbody⟩
      · exact Stmt.has_of_mem_inner body hbody t ht
  | declaration | read | write | effect => simp [Stmt.inner] at ht

private theorem Stmt.has_of_mem_everyOfOption (s : Option Stmt) {k : Nat} {σ : Scope}
    (h : p.Stands ⟨k, σ, s.toList⟩) : ∀ t ∈ Stmt.everyOfOption s, p.Has t := by
  intro t ht
  cases s with
  | none => simp [Stmt.everyOfOption] at ht
  | some s =>
      rw [Stmt.everyOfOption, List.mem_cons] at ht
      rcases ht with rfl | ht
      · exact ⟨k, σ, h⟩
      · exact Stmt.has_of_mem_inner s h t ht

private theorem Stmt.has_of_mem_everyOf (ss : List Stmt) {k : Nat} {σ : Scope}
    (h : p.Stands ⟨k, σ, ss⟩) :
    ∀ t ∈ Stmt.everyOf ss, p.Has t := by
  intro t ht
  cases ss with
  | nil => simp [Stmt.everyOf] at ht
  | cons s rest =>
      rw [Stmt.everyOf, List.cons_append, List.mem_cons, List.mem_append] at ht
      rcases ht with rfl | ht | ht
      · exact ⟨k, σ, h.head⟩
      · exact Stmt.has_of_mem_inner s h.head t ht
      · exact Stmt.has_of_mem_everyOf rest h.tail t ht

end

/-- Every statement of a program stands somewhere in it. -/
theorem Program.has_of_mem {s : Stmt} (hs : s ∈ Stmt.everyOf p.body) : p.Has s :=
  Stmt.has_of_mem_everyOf p.body .whole s hs

end

/-! ## Steps -/

namespace Machine

variable {code : Code} {policy : Policy} {m : Machine} {i : Instr}

private theorem jump_ne_unresolved {n : Nat} (h : (code.labels.find? n).isSome) :
    (jump code policy m n).Leads (fun _ => True)
      (fun _ fault => ∀ label ip, fault ≠ .unresolvedLabel label ip) := by
  obtain ⟨position, hposition⟩ := Option.isSome_iff_exists.mp h
  simp [jump, hposition, Status.Leads]

/-- A step fails for want of a label only if it jumps to one that is nowhere. -/
theorem execute_ne_unresolved
    (h : ∀ n, i.target? = some n → (code.labels.find? n).isSome) :
    (execute code policy m i).Leads (fun _ => True)
      (fun _ fault => ∀ label ip, fault ≠ .unresolvedLabel label ip) := by
  cases i using Instr.compute_cases with
  | compute i taking hcompute =>
      rw [execute_of_compute hcompute]
      split
      · trivial
      · simp [operandFault, Status.Leads]
  | pop | load | label | nop => trivial
  | save x =>
      rw [execute]
      split
      · trivial
      · simp [operandFault, Status.Leads]
  | print count =>
      rw [execute]
      split
      · simp [operandFault, Status.Leads]
      · refine (print_leads ..).imp (fun _ _ => trivial) ?_
        rintro _ _ ⟨cause, rfl⟩
        simp
  | read t =>
      refine (read_leads t).imp (fun _ _ => trivial) ?_
      rintro _ _ ⟨cause, rfl⟩
      simp
  | jump n => exact jump_ne_unresolved (h n rfl)
  | jumpUnless n =>
      rw [execute]
      split
      · trivial
      · exact jump_ne_unresolved (h n rfl)
      · simp [operandFault, Status.Leads]

end Machine

/-- In code whose jumps have places to go to, no run fails for want of a label. -/
theorem WellLabelled.ne_unresolved {code : List Instr} (h : WellLabelled code)
    {policy : Policy} {m m' : Machine} {n : Nat} {fault : Fault}
    (hrun : Machine.runFor (Code.ofList code) policy n m = .faulted m' fault)
    (label ip : Nat) :
    fault ≠ .unresolvedLabel label ip := by
  obtain ⟨k, -, m₁, i, -, hi, hexecute⟩ := Machine.exists_instr_of_runFor hrun
  rw [Code.instrs_ofList_getElem?] at hi
  have htarget (n : Nat) (hn : i.target? = some n) :
      ((Code.ofList code).labels.find? n).isSome := by
    obtain ⟨j, -, hfind⟩ := h.find?_target hi hn
    simp [hfind]
  exact (Machine.execute_ne_unresolved htarget).of_faulted hexecute label ip

/-! ## Statements -/

private theorem Code.Holds.getElem? {code own : List Instr} {k i : Nat} {instr : Instr}
    (h : (Code.ofList code).Holds k own) (hi : own[i]? = some instr) :
    code[k + i]? = some instr := by
  have hat : (Code.ofList code).instrs[k + i]? = some instr := h i instr hi
  rwa [Code.instrs_ofList_getElem?] at hat

namespace Program.Stands

variable {p : Program} {code : List Instr} {k : Nat} {σ : Scope} {s : Stmt}

/-- The code of a statement stands in the code of the program, and jumps only
to what it marks. -/
theorem holds (hcode : p.compile = .ok code) (h : p.Stands ⟨k, σ, [s]⟩) :
    (Code.ofList code).Holds k (s.emit σ).code ∧
      ∀ n ∈ targets (s.emit σ).code, n ∈ labels (s.emit σ).code := by
  obtain ⟨own, τ, hlayout, -⟩ := h.within hcode
  obtain ⟨front, back, hall, hfront, -⟩ := h.enclosed hcode
  rw [Site.code, hlayout.emitAll_eq] at hall
  rw [hlayout.emit_eq]
  refine ⟨?_, hlayout.labelled.closed⟩
  have hholds := Code.holds_ofList code
  rw [hall, Code.holds_append, Code.holds_append, hfront, Nat.zero_add] at hholds
  rw [hall]
  exact hholds.2.1

/-- A jump inside the code of a statement finds its label inside that code. -/
theorem find?_target (hcode : p.compile = .ok code) (h : p.Stands ⟨k, σ, [s]⟩)
    {i n : Nat} {instr : Instr} (hk : k ≤ i) (hi : i < k + (s.emit σ).code.length)
    (hinstr : code[i]? = some instr) (hn : instr.target? = some n) :
    ∃ j, (Code.resolve code).find? n = some j ∧ k ≤ j ∧
      j < k + (s.emit σ).code.length := by
  obtain ⟨τ, hbody⟩ := p.layout_of_compile hcode
  obtain ⟨hholds, hclosed⟩ := h.holds hcode
  obtain ⟨a, rfl⟩ := Nat.exists_eq_add_of_le hk
  have ha : a < (s.emit σ).code.length := by omega
  have hown : (s.emit σ).code[a]? = some instr := by
    have hat := hholds.getElem? (List.getElem?_eq_getElem ha)
    rw [List.getElem?_eq_getElem ha, ← hat, hinstr]
  obtain ⟨b, hb⟩ := mem_labels_iff.mp (hclosed n (mem_targets_of_getElem? hown hn))
  obtain ⟨hlt, -⟩ := List.getElem?_eq_some_iff.mp hb
  exact ⟨k + b, Code.find?_resolve hbody.wellLabelled.nodup (hholds.getElem? hb),
    by omega, by omega⟩

/-- A step from inside the code of a statement goes on inside it or right behind it. -/
theorem step_within (hcode : p.compile = .ok code) (h : p.Stands ⟨k, σ, [s]⟩)
    {policy : Policy} {m m' : Machine} (hk : k ≤ m.ip)
    (hip : m.ip < k + (s.emit σ).code.length)
    (hstep : Machine.step (Code.ofList code) policy m = .running m') :
    k ≤ m'.ip ∧ m'.ip ≤ k + (s.emit σ).code.length := by
  obtain ⟨instr, hinstr, hgoes, -⟩ := Machine.frame_of_step hstep
  rw [Code.instrs_ofList_getElem?] at hinstr
  rcases hgoes with hnext | ⟨n, hn, hfind⟩
  · omega
  · obtain ⟨j, hj, hjk, hjlt⟩ := h.find?_target hcode hk hip hinstr hn
    rw [Code.labels_ofList, hj] at hfind
    obtain rfl := Option.some.inj hfind
    omega

/-- A run that was inside the code of a statement is there still, or has come to the
position right behind it. -/
theorem stays_or_leaves (hcode : p.compile = .ok code) (h : p.Stands ⟨k, σ, [s]⟩)
    {policy : Policy} {m m' : Machine} {n : Nat} (hk : k ≤ m.ip)
    (hip : m.ip < k + (s.emit σ).code.length)
    (hrun : Machine.runFor (Code.ofList code) policy n m = .running m') :
    (k ≤ m'.ip ∧ m'.ip < k + (s.emit σ).code.length) ∨
      ∃ j ≤ n, ∃ m₁, Machine.runFor (Code.ofList code) policy j m = .running m₁ ∧
        m₁.ip = k + (s.emit σ).code.length := by
  refine Machine.runFor_induction (P := fun n m' =>
    (k ≤ m'.ip ∧ m'.ip < k + (s.emit σ).code.length) ∨
      ∃ j ≤ n, ∃ m₁, Machine.runFor (Code.ofList code) policy j m = .running m₁ ∧
        m₁.ip = k + (s.emit σ).code.length) (.inl ⟨hk, hip⟩) ?_ hrun
  intro j m₁ m₂ hrun₁ ih hstep
  rcases ih with ⟨hk₁, hip₁⟩ | ⟨i, hi, m₃, hrun₃, hend⟩
  · obtain ⟨hk₂, hip₂⟩ := h.step_within hcode hk₁ hip₁ hstep
    rcases Nat.lt_or_eq_of_le hip₂ with hlt | hend
    · exact .inl ⟨hk₂, hlt⟩
    · exact .inr ⟨j + 1, Nat.le_refl _, m₂,
        Machine.runFor_succ_running_iff.mpr ⟨m₁, hrun₁, hstep⟩, hend⟩
  · exact .inr ⟨i, by omega, m₃, hrun₃, hend⟩

end Program.Stands

/-! ## The whole of it -/

/-- The labels of compiled code, and where control goes in it.

The labels are marked once each and numbered from zero up to the number of labels handed
out, and every jump goes to one of them. Every statement of the tree has its own range
of instructions. Wherever a statement stands, the jumps in its range find their labels
in the same range, so a run that is inside it goes on inside it until it comes to the
position right behind it; and no run, from whatever state, fails for want of a label. -/
theorem Program.control_stays {p : Program} {code : List Instr}
    (h : p.compile = .ok code) :
    ((labels code).Nodup ∧
      (∀ n, n ∈ labels code ↔ n < (Stmt.emitAll p.body .empty).scope.labels) ∧
      ∀ n ∈ targets code, n ∈ labels code) ∧
    (∀ s ∈ Stmt.everyOf p.body, ∃ k σ, p.Stands ⟨k, σ, [s]⟩) ∧
    (∀ k σ s, p.Stands ⟨k, σ, [s]⟩ →
      (Code.ofList code).Holds k (s.emit σ).code ∧
      (∀ i instr n, k ≤ i → i < k + (s.emit σ).code.length → code[i]? = some instr →
        instr.target? = some n →
        ∃ j, (Code.resolve code).find? n = some j ∧ k ≤ j ∧
          j < k + (s.emit σ).code.length) ∧
      ∀ policy m m' n, k ≤ m.ip → m.ip < k + (s.emit σ).code.length →
        Machine.runFor (Code.ofList code) policy n m = .running m' →
        (k ≤ m'.ip ∧ m'.ip < k + (s.emit σ).code.length) ∨
          ∃ j ≤ n, ∃ m₁, Machine.runFor (Code.ofList code) policy j m = .running m₁ ∧
            m₁.ip = k + (s.emit σ).code.length) ∧
    ∀ policy m m' n fault, Machine.runFor (Code.ofList code) policy n m =
      .faulted m' fault → ∀ label ip, fault ≠ .unresolvedLabel label ip := by
  obtain ⟨τ, hbody⟩ := p.layout_of_compile h
  have hlabelled := hbody.labelled
  have hallocated : (Stmt.emitAll p.body .empty).scope = τ := by rw [hbody.emitAll_eq]
  refine ⟨⟨hlabelled.nodup, fun n => ?_, hlabelled.closed⟩,
    fun s hs => p.has_of_mem hs, ?_, ?_⟩
  · rw [hallocated, hlabelled.mem_iff]
    exact and_iff_right (Nat.zero_le n)
  · intro k σ s hstands
    refine ⟨(hstands.holds h).1, fun i instr n hk hi hinstr hn => ?_,
      fun policy m m' n hk hip hrun => ?_⟩
    · exact hstands.find?_target h hk hi hinstr hn
    · exact hstands.stays_or_leaves h hk hip hrun
  · intro policy m m' n fault hrun
    exact hbody.wellLabelled.ne_unresolved hrun

/-- A choice inside a loop: the loop takes the labels 0 and 1, the choice 2 and 3, and
the jump over its alternative stays in the range of the choice. -/
theorem control_stays_in_loop :
    ∃ p code s, Program.compile p = .ok code ∧ labels code = [0, 2, 3, 1] ∧
      (∀ n, n ∈ labels code ↔ n < (Stmt.emitAll p.body .empty).scope.labels) ∧
      p.Stands ⟨3, Scope.empty.inside, [s]⟩ ∧ code[5]? = some (.jump 3) ∧
      ∃ j, (Code.resolve code).find? 3 = some j ∧ 3 ≤ j ∧ j < 8 := by
  let choice : Stmt := .branch (.bool false default) (.block [] default) none default
  have hcompile :
      Program.compile ⟨[.whileLoop (.bool true default) choice default], default⟩ =
        .ok [.label 0, .push (.bool true), .jumpUnless 1, .push (.bool false),
          .jumpUnless 2, .jump 3, .label 2, .label 3, .jump 0, .label 1] := rfl
  have hstands :
      Program.Stands ⟨[.whileLoop (.bool true default) choice default], default⟩
        ⟨3, Scope.empty.inside, [choice]⟩ := .body .whole List.mem_cons_self
  obtain ⟨⟨-, hmem, -⟩, -, hplaces, -⟩ := Program.control_stays hcompile
  obtain ⟨-, hjumps, -⟩ := hplaces _ _ _ hstands
  exact ⟨_, _, _, hcompile, rfl, hmem, hstands, rfl,
    hjumps 5 (.jump 3) 3 (by decide) (by decide) rfl rfl⟩

end ScalarLang
