import ScalarLang.Proofs.Run

/-!
# Blank lines do not count

An instruction that does nothing may stand anywhere in stack code. Everything behind it
has moved up by one position (`Code.shift`), labels included, and so a run of the longer
code goes through the same machines, moved up the same way: only right in front of the
new instruction does it make one step more (`Machine.Tracks`). Both runs go on forever
or both end, and they end in the same way, with the same stack, store and console; where
an instruction is at fault, its position has moved up (`Machine.RunsLike`).

One by one, all instructions that do nothing can be taken out. What is left of a
position then is the number of other instructions in front of it (`Code.rank`). In a
text these instructions are the lines that are blank or not recognised (`Instr.Idle`),
so texts that have the other lines in common run alike.

## Main results

* `Code.padded_ofList`: where instructions and labels are in the longer code.
* `Machine.runFor_tracks`: a run of the longer code follows the one of the shorter code.
* `Machine.blank_neutral`: an instruction that does nothing, and a line without an
  instruction, change nothing else.
-/

namespace ScalarLang

/-! ## Positions -/

namespace Code

/-- Where the instruction at a position stands once there is one more in front
of position `k`. -/
def shift (k i : Nat) : Nat := if i < k then i else i + 1

private theorem shift_of_lt {k i : Nat} (h : i < k) : shift k i = i := if_pos h

private theorem shift_of_le {k i : Nat} (h : k ≤ i) : shift k i = i + 1 :=
  if_neg (Nat.not_lt_of_le h)

/-- How many of the instructions in front of a position do something. -/
def rank (instrs : List Instr) (i : Nat) : Nat := (instrs.take i).countP (· ≠ .nop)

/-- An instruction that does nothing changes positions, but no ranks. -/
theorem rank_shift (front back : List Instr) (i : Nat) :
    rank (front ++ .nop :: back) (shift front.length i) = rank (front ++ back) i := by
  unfold rank
  rcases Nat.lt_or_ge i front.length with hi | hi
  · have hle := Nat.le_of_lt hi
    rw [shift_of_lt hi, List.take_append_of_le_length hle,
      List.take_append_of_le_length hle]
  · obtain ⟨j, rfl⟩ := Nat.exists_eq_add_of_le hi
    rw [shift_of_le hi, Nat.add_assoc, List.take_length_add_append,
      List.take_length_add_append, List.take_succ_cons, List.countP_append,
      List.countP_append, List.countP_cons_of_neg (by simp)]

end Code

open ScalarLang.Code (shift rank shift_of_lt shift_of_le rank_shift)

/-! ## The longer code -/

private theorem Table.find?_ofList_map {κ ν : Type} [DecidableEq κ] (f : ν → ν)
    (entries : List (κ × ν)) (k : κ) :
    (ofList (entries.map fun entry => (entry.1, f entry.2))).find? k =
      ((ofList entries).find? k).map f := by
  have hfold (t t' : Table κ ν) (h : ∀ k, t'.find? k = (t.find? k).map f) :
      ((entries.map fun entry => (entry.1, f entry.2)).foldl
        (fun t entry => t.insert entry.1 entry.2) t').find? k =
        ((entries.foldl (fun t entry => t.insert entry.1 entry.2) t).find? k).map
          f := by
    induction entries generalizing t t' with
    | nil => exact h k
    | cons entry rest ih =>
        refine ih _ _ fun k => ?_
        rw [find?_insert, find?_insert, h]
        split <;> rfl
  exact hfold empty empty fun _ => rfl

namespace Code

/-- Whether code is other code with an instruction that does nothing in
front of a position. -/
structure Padded (k : Nat) (code code' : Code) : Prop where
  instr : ∀ i, code'.instrs[shift k i]? = code.instrs[i]?
  blank : code'.instrs[k]? = some .nop
  label : ∀ n, code'.labels.find? n = (code.labels.find? n).map (shift k)

/-- Labels behind the position have moved up. -/
theorem labelsFrom_succ {k position : Nat} (h : k ≤ position) (instrs : List Instr) :
    labelsFrom (position + 1) instrs = (labelsFrom position instrs).map fun entry =>
      (entry.1, shift k entry.2) := by
  induction instrs generalizing position with
  | nil => rfl
  | cons i rest ih =>
      have hrest := ih (Nat.le_succ_of_le h)
      cases i with
      | label n => rw [labelsFrom, labelsFrom, List.map_cons, hrest, shift_of_le h]
      | _ => exact hrest

/-- Labels in front of it have not. -/
theorem labelsFrom_padded (position : Nat) (front back : List Instr) :
    labelsFrom position (front ++ .nop :: back) =
      (labelsFrom position (front ++ back)).map fun entry =>
        (entry.1, shift (position + front.length) entry.2) := by
  induction front generalizing position with
  | nil => exact labelsFrom_succ (Nat.le_refl _) back
  | cons i front ih =>
      have hrest := ih (position + 1)
      have hlength : position + 1 + front.length = position + (i :: front).length := by
        rw [List.length_cons]
        omega
      rw [hlength] at hrest
      cases i with
      | label n =>
          have hlt : position < position + (Instr.label n :: front).length :=
            Nat.lt_add_of_pos_right (Nat.succ_pos _)
          rw [List.cons_append, List.cons_append, labelsFrom, labelsFrom, List.map_cons,
            hrest, shift_of_lt hlt]
      | _ => exact hrest

theorem padded_ofList (front back : List Instr) :
    Padded front.length (ofList (front ++ back)) (ofList (front ++ .nop :: back)) where
  instr i := by
    rw [instrs_ofList_getElem?, instrs_ofList_getElem?]
    rcases Nat.lt_or_ge i front.length with hi | hi
    · rw [shift_of_lt hi, List.getElem?_append_left hi, List.getElem?_append_left hi]
    · have hpos : i + 1 - front.length = i - front.length + 1 := Nat.succ_sub hi
      rw [shift_of_le hi, List.getElem?_append_right (Nat.le_succ_of_le hi),
        List.getElem?_append_right hi, hpos, List.getElem?_cons_succ]
  blank := by
    rw [instrs_ofList_getElem?,
      List.getElem?_append_right (Nat.le_refl _), Nat.sub_self]
    rfl
  label n := by
    have hlabels := labelsFrom_padded 0 front back
    rw [Nat.zero_add] at hlabels
    rw [labels_ofList, labels_ofList, resolve, hlabels, Table.find?_ofList_map]
    rfl

end Code

/-! ## What a run shows -/

/-- A fault with another position for its instruction. -/
def Fault.relocate (f : Nat → Nat) : Fault → Fault
  | operand cause instr ip => operand cause instr (f ip)
  | unresolvedLabel label ip => unresolvedLabel label (f ip)
  | console cause => console cause

private theorem Fault.relocate_id (fault : Fault) : fault.relocate id = fault := by
  cases fault <;> rfl

private theorem Fault.relocate_relocate (f g : Nat → Nat) (fault : Fault) :
    (fault.relocate f).relocate g = fault.relocate (g ∘ f) := by
  cases fault <;> rfl

/-- What a run has come to in the end. -/
structure Outcome where
  /-- The fault, if there was one. -/
  fault : Option Fault
  stack : List Value
  store : Table String Value
  console : Console

namespace Outcome

/-- An outcome with another position for the instruction at fault. -/
def relocate (f : Nat → Nat) (o : Outcome) : Outcome :=
  { o with fault := o.fault.map (·.relocate f) }

private theorem relocate_id (o : Outcome) : o.relocate id = o := by
  obtain ⟨_ | fault, stack, store, console⟩ := o
  · rfl
  · rw [relocate, Option.map_some, fault.relocate_id]

private theorem relocate_relocate (f g : Nat → Nat) (o : Outcome) :
    (o.relocate f).relocate g = o.relocate (g ∘ f) := by
  obtain ⟨_ | fault, stack, store, console⟩ := o
  · rfl
  · simp only [relocate, Option.map_some, fault.relocate_relocate]

end Outcome

/-- What a run shows where it has come to its end. -/
def Status.outcome? : Status → Option Outcome
  | .running _ => none
  | .ended m => some ⟨none, m.stack, m.store, m.console⟩
  | .faulted m fault => some ⟨some fault, m.stack, m.store, m.console⟩

private theorem Status.outcome?_eq_none_iff {s : Status} :
    s.outcome? = none ↔ ∃ m, s = .running m := by
  cases s <;> simp [outcome?]

private theorem Status.ne_running {s : Status} {o : Outcome} (h : s.outcome? = some o)
    (m : Machine) : s ≠ .running m := by
  rintro rfl
  cases h

namespace Machine

/-- Whether the run of stack code never comes to an end. -/
def Endless (instrs : List Instr) (policy : Policy) (console : Console) : Prop :=
  ∀ n, ∃ m, runFor (.ofList instrs) policy n (start console) = .running m

/-- Whether the run of stack code comes to this in the end. -/
def EndsWith (instrs : List Instr) (policy : Policy) (console : Console) (o : Outcome) :
    Prop :=
  ∃ n, (runFor (.ofList instrs) policy n (start console)).outcome? = some o

/-- Whether the runs of two lists of instructions both go on forever, or both end in the
same way, with the same position behind two maps where an instruction is at fault. -/
structure RunsLike (f g : Nat → Nat) (p q : List Instr) (policy : Policy)
    (console : Console) : Prop where
  endless_iff : Endless p policy console ↔ Endless q policy console
  outcome_eq : ∀ o o', EndsWith p policy console o → EndsWith q policy console o' →
  o.relocate f = o'.relocate g

section

variable {p q r : List Instr} {policy : Policy} {console : Console} {f g h : Nat → Nat}
  {o o' : Outcome}

private theorem EndsWith.unique (ho : EndsWith p policy console o)
    (ho' : EndsWith p policy console o') : o = o' := by
  obtain ⟨n, hn⟩ := ho
  obtain ⟨n', hn'⟩ := ho'
  have hsame := runFor_unique rfl rfl (Status.ne_running hn) (Status.ne_running hn')
  rw [hsame] at hn
  exact Option.some.inj (hn.symm.trans hn')

theorem exists_endsWith_iff :
    (∃ o, EndsWith p policy console o) ↔ ¬ Endless p policy console := by
  constructor
  · rintro ⟨o, n, hn⟩ hendless
    obtain ⟨m, hm⟩ := hendless n
    exact Status.ne_running hn m hm
  · intro hends
    obtain ⟨n, hn⟩ := Classical.not_forall.mp hends
    obtain ⟨o, ho⟩ :=
      Option.ne_none_iff_exists'.mp (mt Status.outcome?_eq_none_iff.mp hn)
    exact ⟨o, n, ho⟩

namespace RunsLike

private theorem refl (f : Nat → Nat) (p : List Instr) (policy : Policy)
    (console : Console) :
    RunsLike f f p p policy console :=
  ⟨Iff.rfl, fun _ _ ho ho' => by rw [ho.unique ho']⟩

private theorem symm (hpq : RunsLike f g p q policy console) :
    RunsLike g f q p policy console :=
  ⟨hpq.endless_iff.symm, fun o o' ho ho' => (hpq.outcome_eq o' o ho' ho).symm⟩

theorem trans (hpq : RunsLike f g p q policy console)
    (hqr : RunsLike g h q r policy console) :
    RunsLike f h p r policy console := by
  refine ⟨hpq.endless_iff.trans hqr.endless_iff, fun o o' ho ho' => ?_⟩
  have hends : ¬ Endless q policy console :=
    mt hpq.endless_iff.mpr (exists_endsWith_iff.mp ⟨o, ho⟩)
  obtain ⟨middle, hmiddle⟩ := exists_endsWith_iff.mpr hends
  exact (hpq.outcome_eq o middle ho hmiddle).trans
    (hqr.outcome_eq middle o' hmiddle ho')

/-- What is the same position stays so behind a further map. -/
theorem relocate (hpq : RunsLike f g p q policy console) (h : Nat → Nat) :
    RunsLike (h ∘ f) (h ∘ g) p q policy console := by
  refine ⟨hpq.endless_iff, fun o o' ho ho' => ?_⟩
  rw [← Outcome.relocate_relocate, ← Outcome.relocate_relocate,
    hpq.outcome_eq o o' ho ho']

end RunsLike

end

/-! ## Two runs side by side -/

/-- A machine with its position moved up. -/
def shifted (k : Nat) (m : Machine) : Machine := { m with ip := shift k m.ip }

/-- Whether a run of the longer code has come as far as one of the shorter code, or
stands right in front of the instruction that does nothing. -/
inductive Tracks (k : Nat) : Machine → Machine → Prop
  | aligned {m : Machine} : Tracks k m (m.shifted k)
  | waiting {m : Machine} (h : m.ip = k) : Tracks k m m

end Machine

/-- The same where runs may have come to an end. -/
inductive Status.Tracks (k : Nat) : Status → Status → Prop
  | running {m m' : Machine} (h : m.Tracks k m') : Tracks k (.running m) (.running m')
  | ended {m : Machine} : Tracks k (.ended m) (.ended (m.shifted k))
  | faulted {m : Machine} {fault : Fault} :
      Tracks k (.faulted m fault) (.faulted (m.shifted k) (fault.relocate (shift k)))

private theorem Status.Tracks.outcome?_eq {k : Nat} {s s' : Status}
    (h : s.Tracks k s') :
    s'.outcome? = s.outcome?.map (·.relocate (shift k)) := by
  cases h <;> rfl

namespace Machine

variable {k n : Nat} {code code' : Code} {policy : Policy} {m m' : Machine}

private theorem tracks_next (k : Nat) (m : Machine) (stack : List Value) :
    (m.next stack).Tracks k ((m.shifted k).next stack) := by
  by_cases hk : m.ip + 1 = k
  · have hsame : (m.shifted k).next stack = m.next stack := by
      rw [shifted, shift_of_lt (Nat.lt_of_succ_le (Nat.le_of_eq hk))]
    rw [hsame]
    exact .waiting hk
  · have hmoved : (m.shifted k).next stack = (m.next stack).shifted k := by
      have hip : shift k m.ip + 1 = shift k (m.ip + 1) := by
        unfold shift
        split <;> split <;> omega
      simp only [shifted, next, hip]
    rw [hmoved]
    exact .aligned

private theorem jump_tracks (hcode : code.Padded k code') (m : Machine) (l : Nat) :
    (jump code policy m l).Tracks k (jump code' policy (m.shifted k) l) := by
  unfold jump
  rw [hcode.label]
  cases code.labels.find? l with
  | some position => exact .running .aligned
  | none =>
      dsimp only [Option.map_none]
      split
      · exact .faulted
      · exact .running (tracks_next k m m.stack)

private theorem print_tracks (k : Nat) (m : Machine) (values stack : List Value) :
    (m.print values stack).Tracks k ((m.shifted k).print values stack) := by
  unfold print
  rw [show (m.shifted k).console = m.console from rfl]
  split
  · exact .running (tracks_next k { m with console := _ } stack)
  · exact .faulted

private theorem read_tracks (k : Nat) (m : Machine) (t : Ty) :
    (m.read t).Tracks k ((m.shifted k).read t) := by
  unfold read
  rw [show (m.shifted k).console = m.console from rfl]
  split
  · exact .running (tracks_next k { m with console := _ } _)
  · exact .faulted

/-- An instruction does the same in both runs. -/
theorem execute_tracks (hcode : code.Padded k code') (m : Machine) (i : Instr) :
    (execute code policy m i).Tracks k (execute code' policy (m.shifted k) i) := by
  have hstack : (m.shifted k).stack = m.stack := rfl
  cases i using Instr.compute_cases with
  | compute i taking hcompute =>
      rw [execute_of_compute hcompute, execute_of_compute hcompute, hstack]
      split
      · exact .running (tracks_next k m _)
      · exact .faulted
  | pop | load | label | nop => exact .running (tracks_next k m _)
  | save x =>
      rw [execute, execute, hstack]
      split
      · exact .running (tracks_next k { m with store := _ } _)
      · exact .faulted
  | print count =>
      rw [execute, execute, hstack]
      split
      · exact .faulted
      · exact print_tracks k m _ _
  | read t => exact read_tracks k m t
  | jump l => exact jump_tracks hcode m l
  | jumpUnless l =>
      rw [execute, execute, hstack]
      split
      · exact .running (tracks_next k m _)
      · exact jump_tracks hcode { m with stack := _ } l
      · exact .faulted

/-- A step of the shorter code is a step of the longer one, from a machine that
has come as far. -/
theorem step_tracks (hcode : code.Padded k code') (policy : Policy) (m : Machine) :
    (step code policy m).Tracks k (step code' policy (m.shifted k)) := by
  unfold step
  rw [show code'.instrs[(m.shifted k).ip]? = code.instrs[m.ip]? from hcode.instr m.ip]
  split
  · exact .ended
  · exact execute_tracks hcode m _

/-- A run that stands in front of the instruction that does nothing has come
as far behind it. -/
theorem Tracks.exists_runFor_eq (hcode : code.Padded k code') (policy : Policy)
    (h : m.Tracks k m') :
    ∃ d, ∀ n, runFor code' policy (d + n) m' = runFor code' policy n (m.shifted k) := by
  cases h with
  | aligned => exact ⟨0, fun n => by rw [Nat.zero_add]⟩
  | waiting hk =>
      have hstep : step code' policy m = .running (m.shifted k) := by
        rw [step_of_instr (hk ▸ hcode.blank), shifted,
          shift_of_le (Nat.le_of_eq hk.symm)]
        rfl
      exact ⟨1, fun n => by rw [Nat.add_comm, runFor, hstep]⟩

/-- A run of the longer code follows the one of the shorter code, and it takes at
least as many steps. -/
theorem runFor_tracks (hcode : code.Padded k code') (policy : Policy)
    (h : m.Tracks k m') (n : Nat) :
    ∃ n', n ≤ n' ∧ (runFor code policy n m).Tracks k (runFor code' policy n' m') := by
  induction n generalizing m m' with
  | zero => exact ⟨0, Nat.le_refl 0, .running h⟩
  | succ n ih =>
      obtain ⟨d, hd⟩ := h.exists_runFor_eq hcode policy
      have hsteps := step_tracks hcode policy m
      rw [runFor]
      generalize hs : step code policy m = s at hsteps ⊢
      generalize hs' : step code' policy (m.shifted k) = s' at hsteps
      cases hsteps with
      | running h =>
          obtain ⟨n', hn', htracks⟩ := ih h
          refine ⟨d + (n' + 1), by omega, ?_⟩
          rw [hd, runFor, hs']
          exact htracks
      | ended =>
          refine ⟨d + (n + 1), by omega, ?_⟩
          rw [hd, runFor, hs']
          exact .ended
      | faulted =>
          refine ⟨d + (n + 1), by omega, ?_⟩
          rw [hd, runFor, hs']
          exact .faulted

/-! ## Whole runs -/

section

variable {policy : Policy} {console : Console}

private theorem start_tracks (k : Nat) (console : Console) :
    (start console).Tracks k (start console) := by
  rcases Nat.eq_zero_or_pos k with rfl | hk
  · exact .waiting rfl
  · have hsame : (start console).shifted k = start console := by
      show { start console with ip := shift k 0 } = start console
      rw [shift_of_lt hk]
      rfl
    have haligned : (start console).Tracks k ((start console).shifted k) := .aligned
    rwa [hsame] at haligned

private theorem endsWith_padded {front back : List Instr} {o : Outcome}
    (h : EndsWith (front ++ back) policy console o) :
    EndsWith (front ++ .nop :: back) policy console
      (o.relocate (shift front.length)) := by
  obtain ⟨n, hn⟩ := h
  have hcode := Code.padded_ofList front back
  obtain ⟨n', -, htracks⟩ := runFor_tracks hcode policy (start_tracks _ console) n
  exact ⟨n', by rw [htracks.outcome?_eq, hn, Option.map_some]⟩

private theorem endless_padded {front back : List Instr}
    (h : Endless (front ++ back) policy console) :
    Endless (front ++ .nop :: back) policy console := by
  intro n
  obtain ⟨m, hm⟩ := h n
  have hcode := Code.padded_ofList front back
  obtain ⟨n', hn', htracks⟩ := runFor_tracks hcode policy (start_tracks _ console) n
  rw [hm] at htracks
  generalize hlonger : runFor _ policy n' _ = longer at htracks
  cases htracks with
  | running _ => exact runFor_running_of_le hn' hlonger

/-- An instruction that does nothing changes no more than positions. -/
theorem runsLike_nop (front back : List Instr) (policy : Policy) (console : Console) :
    RunsLike (shift front.length) id (front ++ back) (front ++ .nop :: back)
      policy console := by
  constructor
  · refine ⟨endless_padded, fun hendless => Classical.not_not.mp fun hends => ?_⟩
    obtain ⟨o, ho⟩ := exists_endsWith_iff.mpr hends
    exact exists_endsWith_iff.mp ⟨_, endsWith_padded ho⟩ hendless
  · intro o o' ho ho'
    rw [Outcome.relocate_id]
    exact (endsWith_padded ho).unique ho'

/-- So all those instructions can be taken out. -/
theorem runsLike_filter (instrs : List Instr) (policy : Policy) (console : Console) :
    RunsLike (rank instrs) (rank (instrs.filter (· ≠ .nop))) instrs
      (instrs.filter (· ≠ .nop)) policy console := by
  have hbehind (front : List Instr) :
      RunsLike (rank (front ++ instrs)) (rank (front ++ instrs.filter (· ≠ .nop)))
        (front ++ instrs) (front ++ instrs.filter (· ≠ .nop)) policy console := by
    induction instrs generalizing front with
    | nil => exact .refl ..
    | cons i rest ih =>
        by_cases hnop : i = .nop
        · subst hnop
          have hone := (runsLike_nop front rest policy console).relocate
            (rank (front ++ .nop :: rest))
          have hranks : rank (front ++ .nop :: rest) ∘ shift front.length =
              rank (front ++ rest) :=
            funext (rank_shift front rest)
          rw [hranks] at hone
          rw [List.filter_cons_of_neg (by simp)]
          exact hone.symm.trans (ih front)
        · have hrest := ih (front ++ [i])
          rw [List.filter_cons_of_pos (by simp [hnop])]
          simpa only [List.append_assoc, List.singleton_append] using hrest
  exact hbehind []

/-- Code that has the other instructions in common runs alike. -/
theorem runsLike_of_filter_eq {p q : List Instr}
    (h : p.filter (· ≠ .nop) = q.filter (· ≠ .nop)) (policy : Policy)
    (console : Console) : RunsLike (rank p) (rank q) p q policy console := by
  have hp := runsLike_filter p policy console
  rw [h] at hp
  exact hp.trans (runsLike_filter q policy console).symm

end

end Machine

/-! ## Lines -/

namespace Instr

/-- Whether a line is blank or not recognised. -/
def Idle (line : List Char) : Prop := Text.trim line = [] ∨ ofLine? line = none

instance : DecidablePred Idle := fun line =>
  inferInstanceAs (Decidable (Text.trim line = [] ∨ ofLine? line = none))

private theorem ofWords?_ne_nop (mnemonic : String) (operand : List Char) :
    ofWords? mnemonic operand ≠ some nop := by
  unfold ofWords?
  simp only
  split <;> simp

private theorem readPush?_ne_nop (cs : List Char) : readPush? cs ≠ some nop := by
  simp [readPush?, Option.bind_eq_some_iff]

/-- A line stands for the instruction that does nothing if and only if it is blank
or not recognised. -/
theorem getD_ofLine?_eq_nop_iff (line : List Char) :
    (ofLine? line).getD nop = nop ↔ Idle line := by
  have hblank : ofLine? line = some nop ↔ Text.trim line = [] := by
    unfold ofLine?
    split
    · next h => simp [h]
    · next h =>
        simp only
        split
        · simpa [readPush?_ne_nop] using h
        · simpa [ofWords?_ne_nop] using h
  unfold Idle
  rw [← hblank]
  cases ofLine? line <;> simp

private theorem filter_readText (text : String) :
    (readText text).filter (· ≠ nop) =
      ((Text.lines text.toList).filter (¬ Idle ·)).map fun line =>
        (ofLine? line).getD nop := by
  rw [readText, List.filter_map]
  congr 2
  funext line
  simp [getD_ofLine?_eq_nop_iff]

end Instr

namespace Machine

/-- Blank lines are neutral. With an instruction that does nothing at any position of
any stack code, the run goes on forever if and only if it did without, and otherwise it
ends in the same way with the same stack, store and console, except that the position of
an instruction at fault is one higher when it is not in front of the new one. So texts
that differ only in lines that are blank or not recognised run alike, up to the number
of such lines in front of an instruction at fault. -/
theorem blank_neutral (policy : Policy) (console : Console) :
    (∀ front back : List Instr,
        RunsLike (shift front.length) id (front ++ back) (front ++ .nop :: back)
          policy console) ∧
      ∀ text text' : String,
        (Text.lines text.toList).filter (¬ Instr.Idle ·) =
          (Text.lines text'.toList).filter (¬ Instr.Idle ·) →
          RunsLike (rank (Instr.readText text)) (rank (Instr.readText text'))
            (Instr.readText text) (Instr.readText text') policy console := by
  refine ⟨fun front back => runsLike_nop front back policy console,
    fun text text' hlines => ?_⟩
  refine runsLike_of_filter_eq ?_ policy console
  rw [Instr.filter_readText, Instr.filter_readText, hlines]

/-- A jump over an empty line and a remark to an addition without operands, which is the
third instruction of either text that does something. -/
theorem blank_neutral_at_remark :
    (Text.lines "jmp 1\nlabel 1\nadd I".toList).filter (¬ Instr.Idle ·) =
        (Text.lines "jmp 1\n\nlabel 1\n# add\nadd I\n".toList).filter (¬ Instr.Idle ·) ∧
      RunsLike (rank (Instr.readText "jmp 1\nlabel 1\nadd I"))
        (rank (Instr.readText "jmp 1\n\nlabel 1\n# add\nadd I\n"))
          (Instr.readText "jmp 1\nlabel 1\nadd I")
        (Instr.readText "jmp 1\n\nlabel 1\n# add\nadd I\n") ⟨true⟩ ⟨[], .empty, none⟩ ∧
      EndsWith (Instr.readText "jmp 1\n\nlabel 1\n# add\nadd I\n") ⟨true⟩
        ⟨[], .empty, none⟩
        ⟨some (.operand .underflow (.arith .add .int) 4), [], .empty,
          ⟨[], .empty, none⟩⟩ ∧
      rank (Instr.readText "jmp 1\n\nlabel 1\n# add\nadd I\n") 4 = 2 := by
  have hlines : (Text.lines "jmp 1\nlabel 1\nadd I".toList).filter (¬ Instr.Idle ·) =
      (Text.lines "jmp 1\n\nlabel 1\n# add\nadd I\n".toList).filter
        (¬ Instr.Idle ·) := by decide +kernel
  have hends :
      (runFor (.ofList (Instr.readText "jmp 1\n\nlabel 1\n# add\nadd I\n")) ⟨true⟩ 5
        (start ⟨[], .empty, none⟩)).outcome? =
        some ⟨some (.operand .underflow (.arith .add .int) 4), [], .empty,
          ⟨[], .empty, none⟩⟩ := rfl
  exact ⟨hlines, (blank_neutral _ _).2 _ _ hlines, ⟨5, hends⟩, by decide +kernel⟩

end Machine

end ScalarLang
