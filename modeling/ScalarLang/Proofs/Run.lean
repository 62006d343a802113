import ScalarLang.Proofs.Labels
import ScalarLang.Proofs.Operands

/-!
# Runs

A run is a number of steps (`Machine.runFor`). What holds of a run is proved from what
holds of a step: `Machine.runFor_induction` packages the induction once, for properties
that may speak about the number of steps made so far. A run that has come to its end
stays there, so where a run ends does not depend on how many steps are allowed.

Code at a place of other code is `Code.Holds`, which splits at the seams of an append;
and `Machine.Executes` says which instruction a run executes at a step, the history that
the store of a machine remembers (`Machine.store_isSome_iff`).

## Main results

* `Machine.runFor_induction`: what every step preserves holds all along a run.
* `Machine.store_isSome_iff`: a variable has a value if and only if the
  run has saved it.
-/

namespace ScalarLang

/-! ## Code at a place -/

namespace Instr

/-- Whether something holds of each instruction of code and its position, the first
of which is given. -/
def Each (P : Nat → Instr → Prop) (k : Nat) (instrs : List Instr) : Prop :=
  ∀ i instr, instrs[i]? = some instr → P (k + i) instr

variable {P : Nat → Instr → Prop} {k : Nat}

@[simp] theorem each_nil : Each P k [] := by
  intro i instr h
  simp at h

@[simp] theorem each_cons {instr : Instr} {c : List Instr} :
    Each P k (instr :: c) ↔ P k instr ∧ Each P (k + 1) c := by
  constructor
  · intro h
    refine ⟨h 0 instr rfl, fun i own hi => ?_⟩
    rw [show k + 1 + i = k + (i + 1) by omega]
    exact h (i + 1) own (by simpa using hi)
  · rintro ⟨hfirst, hrest⟩ i own hi
    cases i with
    | zero =>
        obtain rfl : instr = own := by simpa using hi
        exact hfirst
    | succ i =>
        rw [show k + (i + 1) = k + 1 + i by omega]
        exact hrest i own (by simpa using hi)

@[simp] theorem each_append {front back : List Instr} :
    Each P k (front ++ back) ↔ Each P k front ∧ Each P (k + front.length) back := by
  induction front generalizing k with
  | nil => simp
  | cons instr front ih =>
      simp only [List.cons_append, each_cons, ih, List.length_cons, and_assoc]
      rw [show k + 1 + front.length = k + (front.length + 1) by omega]

end Instr

namespace Code

/-- Whether instructions stand in code from a position on. -/
def Holds (code : Code) (k : Nat) (c : List Instr) : Prop :=
  Instr.Each (fun k instr => code.instrs[k]? = some instr) k c

variable {code : Code} {k : Nat}

@[simp] theorem holds_nil : code.Holds k [] := Instr.each_nil

@[simp] theorem holds_cons {instr : Instr} {c : List Instr} :
    code.Holds k (instr :: c) ↔ code.instrs[k]? = some instr ∧ code.Holds (k + 1) c :=
  Instr.each_cons

@[simp] theorem holds_append {front back : List Instr} :
    code.Holds k (front ++ back) ↔ code.Holds k front ∧
    code.Holds (k + front.length) back :=
  Instr.each_append

theorem holds_ofList (c : List Instr) : (ofList c).Holds 0 c := by
  intro i instr h
  simpa using h

/-- Whether each label of code is found where it is marked. -/
def Resolves (code : Code) : Prop :=
  ∀ k n, code.instrs[k]? = some (.label n) → code.labels.find? n = some k

end Code

theorem WellLabelled.resolves {code : List Instr} (h : WellLabelled code) :
    (Code.ofList code).Resolves := by
  intro k n hk
  rw [Code.instrs_ofList_getElem?] at hk
  exact Code.find?_resolve h.nodup hk

/-! ## Runs -/

namespace Machine

variable {code : Code} {policy : Policy} {m m' : Machine} {n : Nat} {fault : Fault}

theorem step_of_instr {instr : Instr} (h : code.instrs[m.ip]? = some instr) :
    step code policy m = execute code policy m instr := by
  simp [step, h]

theorem instr_of_step_running (h : step code policy m = .running m') :
    ∃ instr, code.instrs[m.ip]? = some instr ∧
      execute code policy m instr = .running m' := by
  unfold step at h
  split at h
  · cases h
  · exact ⟨_, ‹_›, h⟩

private theorem instr_of_step_faulted (h : step code policy m = .faulted m' fault) :
    ∃ instr, code.instrs[m.ip]? = some instr ∧
      execute code policy m instr = .faulted m' fault := by
  unfold step at h
  split at h
  · cases h
  · exact ⟨_, ‹_›, h⟩

/-- What a step does to the position and to the store. -/
theorem frame_of_step (h : step code policy m = .running m') :
    ∃ instr, code.instrs[m.ip]? = some instr ∧
      (m'.ip = m.ip + 1 ∨ ∃ n, instr.target? = some n ∧
        code.labels.find? n = some m'.ip) ∧
      Stores instr m.stack m.store m'.store := by
  obtain ⟨instr, hinstr, hexecute⟩ := instr_of_step_running h
  exact ⟨instr, hinstr, execute_frame.of_running hexecute⟩

/-- A run of one step more makes that step last. -/
theorem runFor_succ (n : Nat) :
    runFor code policy (n + 1) m =
      match runFor code policy n m with
      | .running m => step code policy m
      | status => status := by
  rw [runFor_add code policy n 1 m]
  cases runFor code policy n m with
  | running m₁ =>
      simp only [runFor]
      cases step code policy m₁ <;> rfl
  | ended | faulted => rfl

theorem runFor_succ_running_iff :
    runFor code policy (n + 1) m = .running m' ↔
      ∃ m₁, runFor code policy n m = .running m₁ ∧
        step code policy m₁ = .running m' := by
  rw [runFor_succ]
  cases runFor code policy n m <;> simp

/-- A run that still goes on went on before. -/
theorem runFor_running_of_le {k : Nat} (hk : k ≤ n)
    (h : runFor code policy n m = .running m') :
    ∃ m₁, runFor code policy k m = .running m₁ := by
  obtain ⟨j, rfl⟩ := Nat.exists_eq_add_of_le hk
  rw [runFor_add] at h
  cases hrun : runFor code policy k m with
  | running m₁ => exact ⟨m₁, rfl⟩
  | ended | faulted => simp [hrun] at h

/-- A run that has come to its end came there by a step. -/
theorem exists_step_of_runFor {s : Status} (h : runFor code policy n m = s)
    (hs : ∀ m', s ≠ .running m') :
    ∃ k < n, ∃ m₁, runFor code policy k m = .running m₁ ∧ step code policy m₁ = s := by
  induction n with
  | zero => exact absurd h.symm (hs m)
  | succ n ih =>
      rw [runFor_succ] at h
      cases hrun : runFor code policy n m with
      | running m₁ =>
          simp only [hrun] at h
          exact ⟨n, Nat.lt_succ_self n, m₁, hrun, h⟩
      | ended | faulted =>
          simp only [hrun] at h
          obtain ⟨k, hk, m₁, hrun₁, hstep⟩ := ih (hrun.trans h)
          exact ⟨k, by omega, m₁, hrun₁, hstep⟩

/-- A run that has failed came there by an instruction, behind those that
it has completed. -/
theorem exists_instr_of_runFor (h : runFor code policy n m = .faulted m' fault) :
    ∃ k < n, ∃ m₁ instr, runFor code policy k m = .running m₁ ∧
      code.instrs[m₁.ip]? = some instr ∧
      execute code policy m₁ instr = .faulted m' fault := by
  obtain ⟨k, hk, m₁, hrun, hstep⟩ := exists_step_of_runFor h (by simp)
  obtain ⟨instr, hinstr, hexecute⟩ := instr_of_step_faulted hstep
  exact ⟨k, hk, m₁, instr, hrun, hinstr, hexecute⟩

/-- A run that has come to its end stays there. -/
theorem runFor_eq_of_le {k : Nat} {s : Status} (hk : k ≤ n)
    (h : runFor code policy k m = s) (hs : ∀ m', s ≠ .running m') :
    runFor code policy n m = s := by
  obtain ⟨j, rfl⟩ := Nat.exists_eq_add_of_le hk
  rw [runFor_add, h]
  cases s with
  | running m₁ => exact absurd rfl (hs m₁)
  | ended | faulted => rfl

/-- A run comes to one end only. -/
theorem runFor_unique {k : Nat} {s s' : Status} (h : runFor code policy k m = s)
    (h' : runFor code policy n m = s') (hs : ∀ m', s ≠ .running m')
    (hs' : ∀ m', s' ≠ .running m') :
    s = s' := by
  rcases Nat.le_total k n with hk | hk
  · rw [← h', runFor_eq_of_le hk h hs]
  · rw [← h, runFor_eq_of_le hk h' hs']

/-- What holds before a run and is preserved by its steps holds all along it. -/
theorem runFor_induction {P : Nat → Machine → Prop} (hstart : P 0 m)
    (hstep : ∀ j m₁ m₂, runFor code policy j m = .running m₁ → P j m₁ →
      step code policy m₁ = .running m₂ → P (j + 1) m₂)
    (h : runFor code policy n m = .running m') : P n m' := by
  induction n generalizing m' with
  | zero =>
      obtain rfl : m = m' := by simpa [runFor] using h
      exact hstart
  | succ n ih =>
      obtain ⟨m₁, hrun, hlast⟩ := runFor_succ_running_iff.mp h
      exact hstep n m₁ m' hrun (ih hrun) hlast

/-! ## What a run has executed -/

/-- Whether the instruction behind this many steps of a run is this one. -/
def Executes (code : Code) (policy : Policy) (m : Machine) (n : Nat) (instr : Instr) :
    Prop :=
  ∃ m', runFor code policy n m = .running m' ∧ code.instrs[m'.ip]? = some instr

/-- A variable has a value if it had one before the run, or if the run has saved it. -/
theorem store_isSome_iff_of_runFor (h : runFor code policy n m = .running m')
    (x : String) :
    (m'.store.find? x).isSome ↔
      (m.store.find? x).isSome ∨ ∃ j < n, Executes code policy m j (.save x) := by
  refine runFor_induction (P := fun n m' => (m'.store.find? x).isSome ↔
    (m.store.find? x).isSome ∨
      ∃ j < n, Executes code policy m j (.save x)) (by simp) ?_ h
  intro j m₁ m₂ hrun ih hlast
  obtain ⟨instr, hinstr, -, hstores⟩ := frame_of_step hlast
  have hlater : (∃ i < j + 1, Executes code policy m i (.save x)) ↔
      (∃ i < j, Executes code policy m i (.save x)) ∨ instr = .save x := by
    constructor
    · rintro ⟨i, hi, hexec⟩
      rcases Nat.lt_succ_iff_lt_or_eq.mp hi with hi | rfl
      · exact .inl ⟨i, hi, hexec⟩
      · obtain ⟨m₃, hrun₃, hsave⟩ := hexec
        obtain rfl : m₁ = m₃ := by simpa [hrun] using hrun₃
        exact .inr (by simpa [hinstr] using hsave)
    · rintro (⟨i, hi, hexec⟩ | rfl)
      · exact ⟨i, by omega, hexec⟩
      · exact ⟨j, by omega, m₁, hrun, hinstr⟩
  rw [hlater, ← or_assoc, ← ih]
  rcases hstores with ⟨hstore, hsave⟩ | ⟨y, v, rest, rfl, -, hstore⟩
  · simp [hstore, hsave x]
  · rw [hstore, Table.find?_insert]
    by_cases hy : y = x <;> simp [hy]

/-- A variable has a value if and only if the run has saved it. -/
theorem store_isSome_iff {console : Console}
    (h : runFor code policy n (start console) = .running m) (x : String) :
    (m.store.find? x).isSome ↔
    ∃ j < n, Executes code policy (start console) j (.save x) := by
  simp [store_isSome_iff_of_runFor h x, start, Table.find?_empty]

end Machine

end ScalarLang
