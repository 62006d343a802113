import ScalarLang.Machine.Basic
import ScalarLang.Proofs.Layout

/-!
# The labels of laid-out code

Labels are handed out from one counter, so the code for statements marks exactly the
labels handed out while it was made, each one once, and all its jumps go to labels it
marks itself (`Labelled`). A label that is marked once is found where it stands
(`Code.find?_resolve`), so in a compiled program every jump has a place to go to, and
what the policy says about missing labels never matters.

## Main results

* `Layout.labelled`: the labels and the jumps of the code for statements.
* `Code.find?_resolve`: among distinct labels each is found at its own position.
* `Layout.wellLabelled`: code for statements is closed under its jumps and finds
  all of its labels.
-/

namespace ScalarLang

/-! ## Labels and targets -/

namespace Instr

/-- The label that an instruction marks. -/
def label? : Instr → Option Nat
  | label n => some n
  | _ => none

private theorem label?_eq_some_iff {i : Instr} {n : Nat} :
    i.label? = some n ↔ i = .label n := by
  cases i <;> simp [label?]

/-- The labels that code marks, in order. -/
def labels (code : List Instr) : List Nat := code.filterMap label?

/-- The labels that code may go on at, in order. -/
def targets (code : List Instr) : List Nat := code.filterMap target?

@[simp] theorem labels_nil : labels [] = [] := rfl

@[simp] theorem labels_cons (i : Instr) (rest : List Instr) :
    labels (i :: rest) = i.label?.toList ++ labels rest := by
  cases h : i.label? <;> simp [labels, h]

@[simp] theorem labels_append (front back : List Instr) :
    labels (front ++ back) = labels front ++ labels back := List.filterMap_append

@[simp] theorem targets_nil : targets [] = [] := rfl

@[simp] theorem targets_cons (i : Instr) (rest : List Instr) :
    targets (i :: rest) = i.target?.toList ++ targets rest := by
  cases h : i.target? <;> simp [targets, h]

@[simp] theorem targets_append (front back : List Instr) :
    targets (front ++ back) = targets front ++ targets back := List.filterMap_append

theorem mem_labels_iff {code : List Instr} {n : Nat} :
    n ∈ labels code ↔ ∃ i : Nat, code[i]? = some (Instr.label n) := by
  rw [labels, List.mem_filterMap]
  simp only [label?_eq_some_iff, exists_eq_right, List.mem_iff_getElem?]

theorem mem_targets_of_getElem? {code : List Instr} {i : Nat} {instr : Instr} {n : Nat}
    (hi : code[i]? = some instr) (hn : instr.target? = some n) : n ∈ targets code :=
  List.mem_filterMap.mpr ⟨instr, List.mem_of_getElem? hi, hn⟩

/-- Code that goes straight on: it neither marks places nor jumps. -/
def Straight (code : List Instr) : Prop := labels code = [] ∧ targets code = []

theorem Straight.append {front back : List Instr} (hfront : Straight front)
    (hback : Straight back) : Straight (front ++ back) := by
  simp [Straight, hfront.1, hfront.2, hback.1, hback.2]

end Instr

open ScalarLang.Instr

private theorem straight_widening (widen : Bool) (t u : Ty) :
    Straight (widening widen t u) := by
  unfold widening
  split <;> exact ⟨rfl, rfl⟩

private theorem straight_operation {operator : TokenKind} {t result : Ty}
    {own : List Instr} (h : operation operator t = some (own, result)) :
    Straight own := by
  cases operator <;> simp [operation] at h <;> obtain ⟨rfl, -⟩ := h <;> exact ⟨rfl, rfl⟩

private theorem straight_unaryOperation (operator : TokenKind) (t : Ty) :
    Straight [unaryOperation operator t] := by
  unfold unaryOperation
  split <;> exact ⟨rfl, rfl⟩

theorem straight_pop : Straight [.pop] := ⟨rfl, rfl⟩

/-- The code for an expression goes straight on. -/
theorem Expr.Emits.straight {symbols : Env} {e : Expr} {code : List Instr} {t : Ty}
    (h : Emits symbols e code t) : Straight code := by
  induction h with
  | literal | symbol => exact ⟨rfl, rfl⟩
  | assignment _ _ ih => exact ih.append ((straight_widening ..).append ⟨rfl, rfl⟩)
  | unary _ ih => exact ih.append (straight_unaryOperation ..)
  | binary _ _ hown ihleft ihright =>
      exact ihleft.append ((((straight_widening ..).append ihright).append
        (straight_widening ..)).append (straight_operation hown))

theorem Expr.EmitsAll.straight {symbols : Env} {values : List Expr} {code : List Instr}
    (h : EmitsAll symbols values code) : Straight code := by
  induction h with
  | nil => exact ⟨rfl, rfl⟩
  | cons he _ ih => exact he.straight.append ih

/-! ## Labels by their numbers -/

/-- Code that marks each label from one number up to another once and no others, and
that jumps to labels it marks itself. -/
structure Labelled (first last : Nat) (code : List Instr) : Prop where
  le : first ≤ last
  nodup : (labels code).Nodup
  mem_iff : ∀ n, n ∈ labels code ↔ first ≤ n ∧ n < last
  closed : ∀ n ∈ targets code, n ∈ labels code

namespace Labelled

/-- The jumps of such code go to labels of its own range. -/
theorem mem_targets {first last n : Nat} {code : List Instr}
    (h : Labelled first last code) (hn : n ∈ targets code) : first ≤ n ∧ n < last :=
  (h.mem_iff n).mp (h.closed n hn)

private theorem of_straight {n : Nat} {code : List Instr} (h : Straight code) :
    Labelled n n code where
  le := Nat.le_refl n
  nodup := by simp [h.1]
  mem_iff m := by simp [h.1]
  closed m := by simp [h.2]

theorem append {first middle last : Nat} {front back : List Instr}
    (hfront : Labelled first middle front) (hback : Labelled middle last back) :
    Labelled first last (front ++ back) := by
  have h₁ := hfront.le
  have h₂ := hback.le
  refine ⟨by omega, ?_, ?_, ?_⟩
  · rw [labels_append, List.nodup_append]
    refine ⟨hfront.nodup, hback.nodup, fun m hm n hn => ?_⟩
    have := (hfront.mem_iff m).mp hm
    have := (hback.mem_iff n).mp hn
    omega
  · intro n
    rw [labels_append, List.mem_append, hfront.mem_iff, hback.mem_iff]
    omega
  · intro n hn
    rw [targets_append, List.mem_append] at hn
    rw [labels_append, List.mem_append]
    exact hn.imp (hfront.closed n) (hback.closed n)

private theorem branch {n middle last : Nat} {test a b : List Instr}
    (htest : Straight test) (ha : Labelled (n + 2) middle a)
    (hb : Labelled middle last b) :
    Labelled n last (branchCode n test a b) := by
  have h₁ := ha.le
  have h₂ := hb.le
  have hlabels : labels (branchCode n test a b) = labels a ++ n ::
      (labels b ++ [n + 1]) := by
    simp [branchCode, htest.1, label?]
  have htargets : targets (branchCode n test a b) = n ::
      (targets a ++ (n + 1) :: targets b) := by
    simp [branchCode, htest.2, target?]
  refine ⟨by omega, ?_, ?_, ?_⟩
  · have hab := (ha.append hb).nodup
    rw [hlabels, List.perm_middle.nodup_iff, List.nodup_cons, ← List.append_assoc,
      (List.perm_append_singleton ..).nodup_iff, List.nodup_cons, ← labels_append]
    refine ⟨?_, ?_, hab⟩
    · simp only [List.mem_append, List.mem_singleton, (ha.append hb).mem_iff]
      omega
    · rw [(ha.append hb).mem_iff]
      omega
  · intro m
    simp only [hlabels, List.mem_append, List.mem_cons, List.not_mem_nil, or_false,
      ha.mem_iff, hb.mem_iff]
    omega
  · intro m hm
    simp only [htargets, List.mem_append, List.mem_cons] at hm
    simp only [hlabels, List.mem_append, List.mem_cons, List.not_mem_nil, or_false]
    rcases hm with rfl | h | rfl | h
    · exact .inr (.inl rfl)
    · exact .inl (ha.closed m h)
    · exact .inr (.inr (.inr rfl))
    · exact .inr (.inr (.inl (hb.closed m h)))

private theorem loop {n last : Nat} {test body : List Instr} (htest : Straight test)
    (hbody : Labelled (n + 2) last body) : Labelled n last (loopCode n test body) := by
  have h₁ := hbody.le
  have hlabels : labels (loopCode n test body) = n :: (labels body ++ [n + 1]) := by
    simp [loopCode, htest.1, label?]
  have htargets : targets (loopCode n test body) = (n + 1) ::
      (targets body ++ [n]) := by
    simp [loopCode, htest.2, target?]
  refine ⟨by omega, ?_, ?_, ?_⟩
  · rw [hlabels, List.nodup_cons, (List.perm_append_singleton ..).nodup_iff,
      List.nodup_cons]
    refine ⟨?_, ?_, hbody.nodup⟩
    · simp only [List.mem_append, List.mem_singleton, hbody.mem_iff]
      omega
    · rw [hbody.mem_iff]
      omega
  · intro m
    simp only [hlabels, List.mem_append, List.mem_cons, List.not_mem_nil, or_false,
      hbody.mem_iff]
    omega
  · intro m hm
    simp only [htargets, List.mem_append, List.mem_cons, List.not_mem_nil, or_false]
      at hm
    simp only [hlabels, List.mem_append, List.mem_cons, List.not_mem_nil, or_false]
    rcases hm with rfl | h | rfl
    · exact .inr (.inr rfl)
    · exact .inr (.inl (hbody.closed m h))
    · exact .inl rfl

end Labelled

/-- The code for statements marks the labels handed out while it was made, and
jumps to no others. -/
theorem Layout.labelled {σ τ : Scope} {ss : List Stmt} {code : List Instr}
    (h : Layout σ ss code τ) : Labelled σ.labels τ.labels code := by
  induction h with
  | nil | declareNone | readNone => exact .of_straight ⟨rfl, rfl⟩
  | cons _ _ ihs ihrest => exact ihs.append ihrest
  | block _ ih => exact ih
  | @declare _ _ t x _ _ _ _ ih =>
      have hx : Straight [.push (.default t), .save x.name] := ⟨rfl, rfl⟩
      exact (Labelled.of_straight hx).append ih
  | @read _ _ x _ _ _ t _ _ ih =>
      have hx : Straight [.read t, .save x.name] := ⟨rfl, rfl⟩
      exact (Labelled.of_straight hx).append ih
  | @write _ values _ _ hvalues =>
      have hprint : Straight [.print values.length] := ⟨rfl, rfl⟩
      exact .of_straight (hvalues.straight.append hprint)
  | branch htest _ _ iha ihb => exact .branch htest.straight iha ihb
  | whileLoop htest _ ih => exact .loop htest.straight ih
  | forLoop _ hinit htest _ hstep ihfront ihbody =>
      have hbody := Labelled.loop htest.straight
        (ihbody.append (.of_straight (hstep.straight.append straight_pop)))
      exact ihfront.append ((Labelled.of_straight hinit.straight).append
        ((Labelled.of_straight straight_pop).append hbody))
  | assign _ he => exact .of_straight (he.straight.append straight_pop)
  | leave _ he => exact .of_straight he.straight

/-! ## Where labels are found -/

namespace Table

variable {κ ν : Type} [DecidableEq κ]

private theorem find?_foldl_insert {k : κ} {entries : List (κ × ν)}
    (h : k ∉ entries.map Prod.fst) (t : Table κ ν) :
    (entries.foldl (fun t entry => t.insert entry.1 entry.2) t).find? k =
      t.find? k := by
  induction entries generalizing t with
  | nil => rfl
  | cons entry rest ih =>
      rw [List.map_cons, List.mem_cons, not_or] at h
      rw [List.foldl_cons, ih h.2, find?_insert, if_neg (Ne.symm h.1)]

/-- Among assignments to distinct keys each one stands. -/
theorem find?_ofList_of_mem {entries : List (κ × ν)}
    (hnodup : (entries.map Prod.fst).Nodup) {k : κ} {v : ν} (h : (k, v) ∈ entries) :
    (ofList entries).find? k = some v := by
  obtain ⟨front, back, rfl⟩ := List.append_of_mem h
  have hk : k ∉ back.map Prod.fst := by
    rw [List.map_append, List.map_cons, List.nodup_append] at hnodup
    exact (List.nodup_cons.mp hnodup.2.1).1
  rw [ofList, List.foldl_append, List.foldl_cons, find?_foldl_insert hk,
    find?_insert, if_pos rfl]

end Table

namespace Code

theorem map_fst_labelsFrom (position : Nat) (instrs : List Instr) :
    (labelsFrom position instrs).map Prod.fst = Instr.labels instrs := by
  induction instrs generalizing position with
  | nil => rfl
  | cons i rest ih => cases i <;> simp [labelsFrom, label?, ih]

private theorem mem_labelsFrom {position i n : Nat} {instrs : List Instr}
    (h : instrs[i]? = some (.label n)) :
    (n, position + i) ∈ labelsFrom position instrs := by
  induction instrs generalizing position i with
  | nil => simp at h
  | cons first rest ih =>
      cases i with
      | zero =>
          obtain rfl : first = .label n := by simpa using h
          exact List.mem_cons_self
      | succ i =>
          have hrest := @ih (position + 1) i (by simpa using h)
          rw [show position + (i + 1) = position + 1 + i by omega]
          cases first <;> simp [labelsFrom, hrest]

/-- Among distinct labels each one is found at its own position. -/
theorem find?_resolve {instrs : List Instr} (hnodup : (Instr.labels instrs).Nodup)
    {i n : Nat} (h : instrs[i]? = some (.label n)) :
    (resolve instrs).find? n = some i := by
  have hmem := @mem_labelsFrom 0 _ _ _ h
  rw [Nat.zero_add] at hmem
  exact Table.find?_ofList_of_mem (by rwa [map_fst_labelsFrom]) hmem

@[simp] theorem instrs_ofList_getElem? (instrs : List Instr) (i : Nat) :
    (ofList instrs).instrs[i]? = instrs[i]? := by
  simp [ofList]

@[simp] theorem labels_ofList (instrs : List Instr) :
    (ofList instrs).labels = resolve instrs := rfl

end Code

/-- Code whose jumps all have a place to go to: its labels are distinct, and it marks
every label that it may go on at. -/
structure WellLabelled (code : List Instr) : Prop where
  nodup : (labels code).Nodup
  closed : ∀ n ∈ targets code, n ∈ labels code

theorem Layout.wellLabelled {σ τ : Scope} {ss : List Stmt} {code : List Instr}
    (h : Layout σ ss code τ) : WellLabelled code :=
  ⟨h.labelled.nodup, h.labelled.closed⟩

/-- A jump in such code finds its label, and finds it where it is marked. -/
theorem WellLabelled.find?_target {code : List Instr} (h : WellLabelled code)
    {i n : Nat} {instr : Instr} (hi : code[i]? = some instr)
    (hn : instr.target? = some n) :
    ∃ j, code[j]? = some (.label n) ∧ (Code.resolve code).find? n = some j := by
  obtain ⟨j, hj⟩ := mem_labels_iff.mp (h.closed n (mem_targets_of_getElem? hi hn))
  exact ⟨j, hj, Code.find?_resolve h.nodup hj⟩

end ScalarLang
