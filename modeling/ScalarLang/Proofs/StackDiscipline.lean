import ScalarLang.Proofs.Run
import ScalarLang.Proofs.Sites

/-!
# What runs leave on the stack

Compiled code never touches what was on the stack before it. A statement takes nothing
from there and leaves nothing but the values of the expression statements it executed,
in the order of their execution; an expression leaves exactly one value.

The number of operands at each place of the code is known (`levels`), so the invariant
of a run is that the stack is made of that many operands, below them the values left so
far (`Machine.leftovers`), and below those the stack the run started with (`Poised`). A
step moves along the code or to a label, and at labels and jumps there are no operands.

## Main results

* `Machine.execute_level`: what a step does to operands that were counted.
* `Poised.runFor`: the invariant holds along a run.
-/

namespace ScalarLang

open ScalarLang.Instr

/-! ## Counted operands -/

namespace Instr

/-- What a count says: there are enough operands, none behind jumps and labels, and
one behind a mark. -/
theorem of_level {i : Instr} {marked : Bool} {d e : Nat}
    (h : i.level marked d = some e) :
    i.pops ≤ d ∧ e = (if marked then 0 else d - i.pops + i.pushes) ∧
      ((i.target?.isSome || i.label?.isSome) = true → e = 0 ∧ d = i.pops) ∧
      (marked = true → d - i.pops + i.pushes = 1) := by
  simp only [level] at h
  split at h
  · simp at h
  · split at h
    · simp at h
      grind
    · grind

end Instr

namespace Machine

variable {code : Code} {policy : Policy} {m m' : Machine}

/-- What a step does to operands that were counted: there are enough of them, as many as
counted are there behind it, and a mark leaves one value below. -/
theorem execute_level {i : Instr} {marked : Bool} {operands below : List Value}
    {e : Nat} (hlevel : i.level marked operands.length = some e)
    (hstack : m.stack = operands ++ below) :
    (execute code policy m i).Leads
      (fun m' => ∃ operands', operands'.length = e ∧
        m'.stack = operands' ++ ((if marked then m'.stack.take 1 else []) ++ below))
      (fun _ fault => ∀ instr ip, fault ≠ .operand .underflow instr ip) := by
  obtain ⟨hpops, he, -, hone⟩ := of_level hlevel
  refine (execute_stack hstack hpops).imp (fun m' h => ?_) fun _ _ h => h
  obtain ⟨new, hnew, hstack'⟩ := h
  have hlength : (new ++ operands.drop i.pops).length = operands.length - i.pops +
      i.pushes := by
    simp [hnew]
    omega
  rw [← List.append_assoc] at hstack'
  cases marked with
  | false =>
      exact ⟨new ++ operands.drop i.pops, by simpa [he] using hlength,
        by simpa using hstack'⟩
  | true =>
      obtain ⟨v, hv⟩ := List.length_eq_one_iff.mp (hlength.trans (hone rfl))
      rw [hv] at hstack'
      exact ⟨[], by simp [he], by simp [hstack']⟩

end Machine

/-! ## Counted code -/

/-- The number of operands at a position of code with marks. -/
def depthAt (code : List Instr) (marks : List Bool) (k : Nat) : Option Nat :=
  levels 0 ((code.zip marks).take k)

/-- Code with marks for which the count comes out: it starts and ends without
operands. -/
structure Counted (code : List Instr) (marks : List Bool) : Prop where
  length : marks.length = code.length
  wellLabelled : WellLabelled code
  balanced : levels 0 (code.zip marks) = some 0

namespace Counted

variable {code : List Instr} {marks : List Bool}

theorem of_compile {p : Program} (h : p.compile = .ok code) :
    Counted code (Stmt.marksAll p.body .empty) := by
  obtain ⟨τ, hbody⟩ := p.layout_of_compile h
  have hbalanced := hbody.levels_markedAll
  rw [hbody.markedAll_eq] at hbalanced
  exact ⟨hbody.length_marks, hbody.wellLabelled, hbalanced⟩

private theorem exists_depthAt (h : Counted code marks) (k : Nat) :
    ∃ d, depthAt code marks k = some d := by
  have hall := h.balanced
  rw [← List.take_append_drop k (code.zip marks), levels_append] at hall
  unfold depthAt
  cases hd : levels 0 ((code.zip marks).take k) with
  | none => simp [hd] at hall
  | some d => exact ⟨d, rfl⟩

/-- The count goes on at each instruction. -/
theorem level_eq (h : Counted code marks) {k d : Nat} {i : Instr}
    (hi : code[k]? = some i) (hd : depthAt code marks k = some d) :
    ∃ e, i.level (marks[k]?.getD false) d = some e ∧
      depthAt code marks (k + 1) = some e := by
  obtain ⟨hk, rfl⟩ := List.getElem?_eq_some_iff.mp hi
  have hk' : k < marks.length := h.length ▸ hk
  have hzip : (code.zip marks)[k]? = some (code[k], marks[k]) := by
    rw [List.getElem?_zip_eq_some]
    exact ⟨List.getElem?_eq_getElem hk, List.getElem?_eq_getElem hk'⟩
  obtain ⟨e, he⟩ := h.exists_depthAt (k + 1)
  refine ⟨e, ?_, he⟩
  rw [depthAt, List.take_add_one, hzip, levels_append, ← depthAt, hd] at he
  simpa [hk'] using he

/-- There are no operands at a label. -/
theorem depthAt_label (h : Counted code marks) {k n : Nat}
    (hk : code[k]? = some (.label n)) :
    depthAt code marks k = some 0 := by
  obtain ⟨d, hd⟩ := h.exists_depthAt k
  obtain ⟨e, he, -⟩ := h.level_eq hk hd
  obtain ⟨-, -, hplace, -⟩ := of_level he
  rw [hd, (hplace rfl).2]
  rfl

end Counted

/-! ## Runs -/

namespace Machine

/-- The value that a step leaves for good, if it does. -/
def leftover (marks : List Bool) (m m' : Machine) : List Value :=
  if marks[m.ip]?.getD false then m'.stack.take 1 else []

private theorem reverse_leftover (marks : List Bool) (m m' : Machine) :
    (leftover marks m m').reverse = leftover marks m m' := by
  unfold leftover
  split
  · cases m'.stack <;> rfl
  · rfl

/-- The values that a run leaves for good, in the order in which it leaves them: one for
each time that it comes to the end of an expression statement that is no assignment. -/
def leftovers (code : Code) (policy : Policy) (marks : List Bool) :
    Nat → Machine → List Value
  | 0, _ => []
  | n + 1, m =>
    match step code policy m with
    | .running m' => leftover marks m m' ++ leftovers code policy marks n m'
    | _ => []

end Machine

/-- Whether the stack of a machine is made of the operands that are counted at its
position and of other values below them. -/
def Poised (code : List Instr) (marks : List Bool) (m : Machine) (below : List Value) :
    Prop :=
  ∃ operands, m.stack = operands ++ below ∧
    depthAt code marks m.ip = some operands.length

namespace Poised

open Machine

variable {code : List Instr} {marks : List Bool} {m m' : Machine} {below : List Value}
  {policy : Policy}

/-- A step keeps what lies below the operands, and leaves there at most one value
more. -/
theorem execute_leads (policy : Policy) (hc : Counted code marks)
    (h : Poised code marks m below) {i : Instr} (hi : code[m.ip]? = some i) :
    (execute (Code.ofList code) policy m i).Leads
      (fun m' => Poised code marks m' (leftover marks m m' ++ below))
      (fun _ fault => ∀ instr ip, fault ≠ .operand .underflow instr ip) := by
  obtain ⟨operands, hstack, hdepth⟩ := h
  obtain ⟨e, he, hnext⟩ := hc.level_eq hi hdepth
  refine ((execute_level he hstack).and execute_frame).imp ?_ fun _ _ h => h.1
  rintro m' ⟨⟨operands', hlength, hstack'⟩, hip, -⟩
  refine ⟨operands', hstack', ?_⟩
  rcases hip with hip | ⟨n, hn, hip⟩
  · rw [hip, hnext, hlength]
  · obtain ⟨j, hj, hfind⟩ := hc.wellLabelled.find?_target hi hn
    obtain rfl : j = m'.ip := by simpa [hfind] using hip
    obtain ⟨-, -, hplace, -⟩ := of_level he
    rw [hc.depthAt_label hj, hlength, (hplace (by simp [hn])).1]

/-- A run keeps what lies below the operands, and leaves there what it leaves for
good. -/
theorem runFor (hc : Counted code marks) (h : Poised code marks m below) {n : Nat}
    (hrun : Machine.runFor (Code.ofList code) policy n m = .running m') :
    Poised code marks m' ((leftovers (Code.ofList code) policy marks n m).reverse ++
      below) := by
  induction n generalizing m below with
  | zero =>
      obtain rfl : m = m' := by simpa [Machine.runFor] using hrun
      exact h
  | succ n ih =>
      rw [Machine.runFor] at hrun
      cases hstep : step (Code.ofList code) policy m with
      | ended | faulted => simp [hstep] at hrun
      | running m₁ =>
          obtain ⟨i, hi, hexecute⟩ := instr_of_step_running hstep
          rw [Code.instrs_ofList_getElem?] at hi
          have hnext := (h.execute_leads policy hc hi).of_running hexecute
          have hrest := ih hnext (by simpa [hstep] using hrun)
          simpa [leftovers, hstep, reverse_leftover] using hrest

/-- The next instruction takes none of the values below the operands. -/
theorem pops_le (hc : Counted code marks) (h : Poised code marks m below) {i : Instr}
    (hi : code[m.ip]? = some i) :
    ∃ operands, m.stack = operands ++ below ∧ i.pops ≤ operands.length := by
  obtain ⟨operands, hstack, hdepth⟩ := h
  obtain ⟨e, he, -⟩ := hc.level_eq hi hdepth
  exact ⟨operands, hstack, (of_level he).1⟩

end Poised

/-! ## Statements -/

section

variable {p : Program} {code : List Instr} {site : Site}

private theorem Within.depthAt_start {marks : List Bool} {inner : List (Instr × Bool)}
    {k : Nat} (h : Within (code.zip marks) k inner) :
    depthAt code marks k = some 0 := by
  obtain ⟨front, back, hall, rfl, hfront, -⟩ := h
  rw [depthAt, hall, List.take_left, hfront]

private theorem Within.depthAt_stop {marks : List Bool} {inner : List (Instr × Bool)}
    {k : Nat} (h : Within (code.zip marks) k inner) (hinner : levels 0 inner = some 0) :
    depthAt code marks (k + inner.length) = some 0 := by
  obtain ⟨front, back, hall, rfl, hfront, -⟩ := h
  rw [depthAt, hall, ← List.append_assoc, ← List.length_append, List.take_left,
    levels_append, hfront]
  exact hinner

/-- The code of a site starts and ends without operands. -/
theorem Program.Stands.depthAt_eq (hcode : p.compile = .ok code) (h : p.Stands site) :
    depthAt code (Stmt.marksAll p.body .empty) site.start = some 0 ∧
      depthAt code (Stmt.marksAll p.body .empty) site.stop = some 0 := by
  obtain ⟨τ, hbody⟩ := p.layout_of_compile hcode
  obtain ⟨c, υ, hlayout, hwithin⟩ := h.within hcode
  rw [hbody.markedAll_eq] at hwithin
  have hstop := hwithin.depthAt_stop hlayout.levels_markedAll
  rw [Site.marked, hlayout.length_markedAll] at hstop
  refine ⟨hwithin.depthAt_start, ?_⟩
  rwa [Site.stop, Site.code, hlayout.emitAll_eq]

end

/-! ## Expressions -/

private theorem levels_take {d e : Nat} {code : List (Instr × Bool)}
    (h : levels d code = some e) (k : Nat) :
    ∃ e', levels d (code.take k) = some e' := by
  rw [← List.take_append_drop k code, levels_append] at h
  cases hd : levels d (code.take k) with
  | none => simp [hd] at h
  | some e' => exact ⟨e', rfl⟩

private theorem Expr.Emits.level_eq {symbols : Env} {e : Expr} {own : List Instr}
    {t : Ty} (h : Emits symbols e own t) {n d : Nat} {i : Instr} (hi : own[n]? = some i)
    (hd : levels 0 (unmarked (own.take n)) = some d) :
    ∃ d', i.level false d = some d' ∧
      levels 0 (unmarked (own.take (n + 1))) = some d' := by
  have htake : unmarked (own.take (n + 1)) = (unmarked own).take (n + 1) := by
    simp [unmarked, List.map_take]
  obtain ⟨d', hd'⟩ := levels_take (h.levels_unmarked 0) (n + 1)
  rw [← htake] at hd'
  refine ⟨d', ?_, hd'⟩
  rw [List.take_add_one, hi, unmarked_append, levels_append, hd] at hd'
  simpa using hd'

/-- The code for an expression goes on step by step, and it takes nothing but
its own operands. -/
theorem Expr.Emits.runFor {symbols : Env} {e : Expr} {own : List Instr} {t : Ty}
    {code : Code} {policy : Policy} {m m' : Machine} {n : Nat}
    (h : Emits symbols e own t) (hc : code.Holds m.ip own) (hn : n ≤ own.length)
    (hrun : Machine.runFor code policy n m = .running m') :
    m'.ip = m.ip + n ∧ ∃ operands, m'.stack = operands ++ m.stack ∧
      levels 0 (unmarked (own.take n)) = some operands.length := by
  induction n generalizing m' with
  | zero =>
      obtain rfl : m = m' := by simpa [Machine.runFor] using hrun
      exact ⟨rfl, [], rfl, rfl⟩
  | succ n ih =>
      obtain ⟨m₁, hrun₁, hstep⟩ := Machine.runFor_succ_running_iff.mp hrun
      obtain ⟨hip, operands, hstack, hdepth⟩ := ih (by omega) hrun₁
      have hi : own[n]? = some own[n] := List.getElem?_eq_getElem hn
      obtain ⟨d, hd, hnext⟩ := h.level_eq hi hdepth
      have hexecute := hc n _ hi
      rw [← hip] at hexecute
      rw [Machine.step_of_instr hexecute] at hstep
      obtain ⟨⟨operands', hlength, hstack'⟩, hip', -⟩ :=
        ((Machine.execute_level hd hstack).and Machine.execute_frame).of_running hstep
      refine ⟨?_, operands', by simpa using hstack', by rw [hnext, hlength]⟩
      rcases hip' with hip' | ⟨l, hl, -⟩
      · omega
      · have hstraight := mem_targets_of_getElem? hi hl
        rw [h.straight.2] at hstraight
        simp at hstraight

/-! ## The whole of it -/

section

variable {p : Program} {code : List Instr} {policy : Policy}

/-- From the first instruction of a statement on, the stack found there stays, and where
the code of the statement ends there is nothing above it but what was left for good. -/
theorem Program.Stands.keeps_stack (hcode : p.compile = .ok code) {k : Nat} {σ : Scope}
    {s : Stmt} (h : p.Stands ⟨k, σ, [s]⟩) {m m' : Machine} {n : Nat} (hip : m.ip = k)
    (hrun : Machine.runFor (Code.ofList code) policy n m = .running m') :
    ∃ operands, m'.stack = operands ++
        ((Machine.leftovers (Code.ofList code) policy (Stmt.marksAll p.body .empty)
          n m).reverse ++ m.stack) ∧
      (∀ i, code[m'.ip]? = some i → i.pops ≤ operands.length) ∧
      (m'.ip = k + (s.emit σ).code.length → operands = []) := by
  have hcounted := Counted.of_compile hcode
  obtain ⟨hstart, hstop⟩ := h.depthAt_eq hcode
  have hpoised : Poised code (Stmt.marksAll p.body .empty) m m.stack :=
    ⟨[], rfl, by rw [hip]; exact hstart⟩
  obtain ⟨operands, hstack, hdepth⟩ := hpoised.runFor hcounted hrun
  refine ⟨operands, hstack, fun i hi => ?_, fun hip' => ?_⟩
  · obtain ⟨d, hd, -⟩ := hcounted.level_eq hi hdepth
    exact (of_level hd).1
  · obtain ⟨own, τ, hlayout, -⟩ := h.within hcode
    rw [Site.stop, Site.code, hlayout.emitAll_eq] at hstop
    rw [hip', hlayout.emit_eq, hstop] at hdepth
    simpa using hdepth.symm

/-- From the first instruction of an expression on, the stack found there stays, and
where the code of the expression ends there is one value above it. -/
theorem Expr.Emits.keeps_stack {symbols : Env} {e : Expr} {own : List Instr} {t : Ty}
    {m m' : Machine} {n : Nat} {code : Code} (h : Emits symbols e own t)
    (hc : code.Holds m.ip own) (hn : n ≤ own.length)
    (hrun : Machine.runFor code policy n m = .running m') :
    m'.ip = m.ip + n ∧ ∃ operands, m'.stack = operands ++ m.stack ∧
      (∀ i, own[n]? = some i → i.pops ≤ operands.length) ∧
      (n = own.length → operands.length = 1) := by
  obtain ⟨hip, operands, hstack, hdepth⟩ := h.runFor hc hn hrun
  refine ⟨hip, operands, hstack, fun i hi => ?_, fun hend => ?_⟩
  · obtain ⟨d, hd, -⟩ := h.level_eq hi hdepth
    exact (of_level hd).1
  · rw [hend, List.take_length, h.levels_unmarked 0] at hdepth
    simpa using hdepth.symm

private theorem Program.poised_of_compile (hcode : p.compile = .ok code)
    {console : Console} {n : Nat} {m : Machine}
    (hrun : Machine.runFor (Code.ofList code) policy n (.start console) = .running m) :
    ∃ left, Poised code (Stmt.marksAll p.body .empty) m left := by
  have hstart : Poised code (Stmt.marksAll p.body .empty) (.start console) [] :=
    ⟨[], rfl, rfl⟩
  exact ⟨_, hstart.runFor (Counted.of_compile hcode) hrun⟩

/-- No run of a program lacks operands. -/
theorem Program.ne_underflow_of_compile (hcode : p.compile = .ok code)
    {console : Console} {n : Nat} {m : Machine} {fault : Fault}
    (hrun : Machine.runFor (Code.ofList code) policy n (.start console) =
      .faulted m fault)
    (instr : Instr) (ip : Nat) : fault ≠ .operand .underflow instr ip := by
  obtain ⟨k, -, m₁, i, hrun₁, hi, hexecute⟩ := Machine.exists_instr_of_runFor hrun
  obtain ⟨left, hpoised⟩ := p.poised_of_compile hcode hrun₁
  rw [Code.instrs_ofList_getElem?] at hi
  exact (hpoised.execute_leads policy (Counted.of_compile hcode) hi).of_faulted
    hexecute instr ip

/-- No run of a program drops a value where there is none. -/
theorem Program.ne_nil_of_compile (hcode : p.compile = .ok code) {console : Console}
    {n : Nat} {m : Machine}
    (hrun : Machine.runFor (Code.ofList code) policy n (.start console) = .running m)
    (hpop : code[m.ip]? = some .pop) : m.stack ≠ [] := by
  obtain ⟨left, hpoised⟩ := p.poised_of_compile hcode hrun
  obtain ⟨operands, hstack, hpops⟩ := hpoised.pops_le (Counted.of_compile hcode) hpop
  intro hnil
  rw [hnil] at hstack
  obtain ⟨rfl, -⟩ := List.append_eq_nil_iff.mp hstack.symm
  simp [pops] at hpops

end

/-- The code that a program compiles to keeps the stack it finds.

From the first instruction of a statement on, no step takes a value of the stack that
the machine had there, and where the code of the statement ends there is nothing above
that stack but the values that expression statements left, one for each time that one of
them was executed: the marks by which these values are told stand where expression
statements end that are no assignments. From the first instruction of an expression on,
no step takes a value of the stack, and where its code ends there is one value more. So
no run of the program lacks operands, and none drops a value where there is none. -/
theorem Program.stack_discipline {p : Program} {code : List Instr}
    (h : p.compile = .ok code) (policy : Policy) :
    (∀ q, (Stmt.marksAll p.body .empty)[q]? = some true ↔ p.LeavesAt q) ∧
    (∀ k σ s, p.Stands ⟨k, σ, [s]⟩ → ∀ m m' n, m.ip = k →
      Machine.runFor (Code.ofList code) policy n m = .running m' →
      ∃ operands, m'.stack = operands ++
          ((Machine.leftovers (Code.ofList code) policy (Stmt.marksAll p.body .empty)
            n m).reverse ++ m.stack) ∧
        (∀ i, code[m'.ip]? = some i → i.pops ≤ operands.length) ∧
        (m'.ip = k + (s.emit σ).code.length → operands = [])) ∧
    (∀ symbols e own t, Expr.emit symbols e = ⟨own, .ok t⟩ →
      ∀ m m' n, (Code.ofList code).Holds m.ip own → n ≤ own.length →
      Machine.runFor (Code.ofList code) policy n m = .running m' →
      m'.ip = m.ip + n ∧ ∃ operands, m'.stack = operands ++ m.stack ∧
        (∀ i, own[n]? = some i → i.pops ≤ operands.length) ∧
        (n = own.length → operands.length = 1)) ∧
    ∀ console n m,
      (∀ fault, Machine.runFor (Code.ofList code) policy n (.start console) =
        .faulted m fault → ∀ instr ip, fault ≠ .operand .underflow instr ip) ∧
      (Machine.runFor (Code.ofList code) policy n (.start console) = .running m →
        code[m.ip]? = some .pop → m.stack ≠ []) :=
  ⟨fun _ => Program.marksAll_getElem?_iff h,
    fun _ _ _ hstands _ _ _ hip hrun => hstands.keeps_stack h hip hrun,
    fun _ _ _ _ he _ _ _ hc hn hrun => (Expr.emits_iff.mp he).keeps_stack hc hn hrun,
    fun _ _ _ => ⟨fun _ hrun => p.ne_underflow_of_compile h hrun,
      p.ne_nil_of_compile h⟩⟩

/-- A loop that leaves a value each time around, entered at the
statement that leaves it. -/
theorem stack_discipline_of_leaving_loop :
    ∃ p code m m', Program.compile p = .ok code ∧
      p.Stands ⟨3, Scope.empty.inside, [.effect (.int 7 default) default]⟩ ∧
      Machine.ip m = 3 ∧ Machine.runFor (Code.ofList code) ⟨true⟩ 1 m = .running m' ∧
      ∃ operands, m'.stack = operands ++
          ((Machine.leftovers (Code.ofList code) ⟨true⟩ (Stmt.marksAll p.body .empty)
            1 m).reverse ++ m.stack) ∧
        (∀ i, code[m'.ip]? = some i → i.pops ≤ operands.length) ∧
        (m'.ip = 3 + 1 → operands = []) := by
  let leaving : Stmt := .effect (.int 7 default) default
  have hcompile :
      Program.compile ⟨[.whileLoop (.bool true default) leaving default], default⟩ =
        .ok [.label 0, .push (.bool true), .jumpUnless 1, .push (.int 7), .jump 0,
          .label 1] := rfl
  have hstands :
      Program.Stands ⟨[.whileLoop (.bool true default) leaving default], default⟩
        ⟨3, Scope.empty.inside, [leaving]⟩ := .body .whole List.mem_cons_self
  exact ⟨_, _, ⟨3, [.string "below"], .empty, ⟨[], .empty, none⟩⟩, _, hcompile, hstands,
    rfl, rfl,
    (Program.stack_discipline hcompile ⟨true⟩).2.1 _ _ _ hstands _ _ _ rfl rfl⟩

end ScalarLang
