import ScalarLang.Proofs.Depth

/-!
# Where statements stand

A site is a place of a program's code together with the statements whose code stands
there. The sites of a program are found from the whole of it inwards (`Program.Stands`):
statements in a row stand one behind the other, and the arms of a choice and what a loop
repeats stand inside the code of the choice or the loop, behind its test.

## Main results

* `Program.Stands.within`: the code of a site stands inside the code of the program,
  where it is reached without operands and where no jump from outside leads into it.
-/

namespace ScalarLang

open ScalarLang.Instr

/-- Statements in a row, with the scope that their code is made in and the
position it starts at. -/
structure Site where
  start : Nat
  scope : Scope
  stmts : List Stmt

namespace Site

/-- The code of a site. -/
def code (s : Site) : List Instr := (Stmt.emitAll s.stmts s.scope).code

/-- The position behind the code of a site. -/
def stop (s : Site) : Nat := s.start + s.code.length

/-- The code of a site with its marks. -/
def marked (s : Site) : List (Instr × Bool) := Stmt.markedAll s.stmts s.scope

end Site

/-- The bodies inside a statement whose code starts at a position: the arms of a choice,
or what a loop repeats before its step. -/
def Stmt.bodies (k : Nat) (σ : Scope) : Stmt → List Site
  | .branch condition consequent alternate _ =>
    let test := (condition.emit σ.symbols).code.length
    let arm := consequent.emit σ.inside
    [⟨k + test + 1, σ.inside, [consequent]⟩,
      ⟨k + test + 1 + arm.code.length + 2, arm.scope, alternate.toList⟩]
  | .whileLoop condition body _ =>
    [⟨k + 1 + (condition.emit σ.symbols).code.length + 1, σ.inside, [body]⟩]
  | .forLoop induction init condition _ body _ =>
    let front := Stmt.emitAll (Induction.declarations induction) σ
    let first := (init.emit front.scope.symbols).code.length
    let test := (condition.emit front.scope.symbols).code.length
    [⟨k + front.code.length + first + 2 + test + 1, front.scope.inside, [body]⟩]
  | _ => []

/-- The sites of a program. -/
inductive Program.Stands (p : Program) : Site → Prop where
  | whole : p.Stands ⟨0, .empty, p.body⟩
  | head {k : Nat} {σ : Scope} {s : Stmt} {rest : List Stmt}
      (h : p.Stands ⟨k, σ, s :: rest⟩) :
      p.Stands ⟨k, σ, [s]⟩
  | tail {k : Nat} {σ : Scope} {s : Stmt} {rest : List Stmt}
      (h : p.Stands ⟨k, σ, s :: rest⟩) :
      p.Stands ⟨k + (s.emit σ).code.length, (s.emit σ).scope, rest⟩
  | block {k : Nat} {σ : Scope} {body : List Stmt} {span : Span}
      (h : p.Stands ⟨k, σ, [.block body span]⟩) : p.Stands ⟨k, σ, body⟩
  | body {k : Nat} {σ : Scope} {s : Stmt} {site : Site} (h : p.Stands ⟨k, σ, [s]⟩)
      (hsite : site ∈ s.bodies k σ) : p.Stands site

/-! ## Code inside code -/

/-- Whether marked code stands inside other code from an offset on, where it is reached
without operands and where no jump from outside leads into it. -/
def Within (outer : List (Instr × Bool)) (k : Nat) (inner : List (Instr × Bool)) :
    Prop :=
  ∃ front back, outer = front ++ (inner ++ back) ∧ front.length = k ∧
    levels 0 front = some 0 ∧
    ∀ n ∈ targets ((front ++ back).map Prod.fst), n ∉ labels (inner.map Prod.fst)

namespace Within

variable {a b c : List (Instr × Bool)} {k l : Nat}

private theorem refl : Within a 0 a := ⟨[], [], by simp⟩

private theorem trans (hab : Within a k b) (hbc : Within b l c) :
    Within a (k + l) c := by
  obtain ⟨front, back, rfl, rfl, hlevels, hapart⟩ := hab
  obtain ⟨front', back', rfl, rfl, hlevels', hapart'⟩ := hbc
  refine ⟨front ++ front', back' ++ back, by simp, by simp, ?_, ?_⟩
  · rw [levels_append, hlevels]
    exact hlevels'
  · intro n hn hlabel
    simp only [List.map_append, targets_append, labels_append, List.mem_append]
      at hn hapart hapart'
    rcases hn with (h | h) | h | h
    · exact hapart n (.inl h) (.inr (.inl hlabel))
    · exact hapart' n (.inl h) hlabel
    · exact hapart' n (.inr h) hlabel
    · exact hapart n (.inr h) (.inr (.inl hlabel))

end Within

private theorem Layout.map_fst_markedAll {σ τ : Scope} {ss : List Stmt}
    {code : List Instr} (h : Layout σ ss code τ) :
    (Stmt.markedAll ss σ).map Prod.fst = code := by
  rw [h.markedAll_eq]
  exact List.map_fst_zip (Nat.le_of_eq h.length_marks.symm)

private theorem Layout.map_snd_markedAll {σ τ : Scope} {ss : List Stmt}
    {code : List Instr} (h : Layout σ ss code τ) :
    (Stmt.markedAll ss σ).map Prod.snd = Stmt.marksAll ss σ := by
  rw [h.markedAll_eq]
  exact List.map_snd_zip (Nat.le_of_eq h.length_marks)

theorem Layout.length_markedAll {σ τ : Scope} {ss : List Stmt} {code : List Instr}
    (h : Layout σ ss code τ) : (Stmt.markedAll ss σ).length = code.length := by
  rw [← h.map_fst_markedAll, List.length_map]

@[simp] theorem map_fst_unmarked (code : List Instr) :
    (unmarked code).map Prod.fst = code := by
  induction code with
  | nil => rfl
  | cons i rest ih => simp [ih]

@[simp] theorem length_unmarked (code : List Instr) :
    (unmarked code).length = code.length :=
  List.length_map _

/-- The code of statements stands inside code around it if that code jumps to labels
of its own only. -/
theorem Layout.within {σ τ : Scope} {ss : List Stmt} {code : List Instr} {k : Nat}
    {front back : List (Instr × Bool)} (h : Layout σ ss code τ) (hk : front.length = k)
    (hlevels : levels 0 front = some 0)
    (hapart : ∀ n ∈ targets ((front ++ back).map Prod.fst), n < σ.labels ∨
      τ.labels ≤ n) :
    Within (front ++ (Stmt.markedAll ss σ ++ back)) k (Stmt.markedAll ss σ) := by
  refine ⟨front, back, rfl, hk, hlevels, fun n hn hlabel => ?_⟩
  rw [h.map_fst_markedAll] at hlabel
  have hinside := (h.labelled.mem_iff n).mp hlabel
  have houtside := hapart n hn
  omega

section

variable {σ τ υ : Scope} {condition : Expr} {body : Stmt} {span : Span}
  {test code : List Instr} {t : Ty}

private theorem Layout.within_consequent {alternate : Option Stmt} {other : List Instr}
    (htest : Expr.Emits σ.symbols condition test t)
    (hbody : Layout σ.inside [body] code τ)
    (halternate : Layout τ alternate.toList other υ) :
    Within (Stmt.markedAll [.branch condition body alternate span] σ) (test.length + 1)
      (Stmt.markedAll [body] σ.inside) := by
  rw [markedAll_branch htest hbody halternate]
  refine hbody.within (by simp) ?_ fun n hn => ?_
  · simp [levels_append, htest.levels_unmarked, level, pops, pushes, target?, label?]
  · have hinside : σ.inside.labels = σ.labels + 2 := rfl
    have hrange := hbody.labelled.le
    simp only [List.map_append, map_fst_unmarked, halternate.map_fst_markedAll,
      targets_append, htest.straight.2, targets_cons, target?, targets_nil,
      List.mem_append, Option.toList_some, Option.toList_none, List.mem_cons,
      List.not_mem_nil, or_false, false_or] at hn
    rcases hn with rfl | rfl | hn
    · omega
    · omega
    · have := halternate.labelled.mem_targets hn
      omega

private theorem Layout.within_alternate {alternate : Option Stmt} {other : List Instr}
    (htest : Expr.Emits σ.symbols condition test t)
    (hbody : Layout σ.inside [body] code τ)
    (halternate : Layout τ alternate.toList other υ) :
    Within (Stmt.markedAll [.branch condition body alternate span] σ)
      (test.length + 1 + code.length + 2) (Stmt.markedAll alternate.toList τ) := by
  rw [markedAll_branch htest hbody halternate, ← List.append_assoc, ← List.append_assoc]
  refine halternate.within ?_ ?_ fun n hn => ?_
  · simp [hbody.length_markedAll]
    omega
  · simp [levels_append, htest.levels_unmarked, hbody.levels_markedAll, level, pops,
      pushes, target?, label?]
  · have hinside : σ.inside.labels = σ.labels + 2 := rfl
    have hrange := hbody.labelled.le
    simp only [List.map_append, map_fst_unmarked, hbody.map_fst_markedAll,
      targets_append, htest.straight.2, targets_cons, target?, targets_nil,
      List.mem_append, Option.toList_some, Option.toList_none, List.mem_cons,
      List.not_mem_nil, or_false, false_or] at hn
    rcases hn with (rfl | hn) | rfl
    · omega
    · have := hbody.labelled.mem_targets hn
      omega
    · omega

private theorem Layout.within_whileLoop (htest : Expr.Emits σ.symbols condition test t)
    (hbody : Layout σ.inside [body] code τ) :
    Within (Stmt.markedAll [.whileLoop condition body span] σ) (1 + test.length + 1)
      (Stmt.markedAll [body] σ.inside) := by
  rw [markedAll_whileLoop htest hbody]
  refine hbody.within (by simp; omega) ?_ fun n hn => ?_
  · simp [levels_append, htest.levels_unmarked, level, pops, pushes, target?, label?]
  · have hinside : σ.inside.labels = σ.labels + 2 := rfl
    simp only [List.map_append, map_fst_unmarked, targets_append, htest.straight.2,
      targets_cons, target?, targets_nil, List.mem_append, Option.toList_some,
      Option.toList_none, List.mem_cons, List.not_mem_nil, or_false, false_or] at hn
    omega

private theorem Layout.within_forLoop {induction : Option Induction} {init step : Expr}
    {front first last : List Instr} {u v : Ty}
    (hfront : Layout σ (Induction.declarations induction) front τ)
    (hinit : Expr.Emits τ.symbols init first u)
    (htest : Expr.Emits τ.symbols condition test t)
    (hbody : Layout τ.inside [body] code υ) (hstep : Expr.Emits υ.symbols step last v) :
    Within (Stmt.markedAll [.forLoop induction init condition step body span] σ)
      (front.length + first.length + 2 + test.length + 1)
        (Stmt.markedAll [body] τ.inside) := by
  have hnone := hfront.levels_markedAll
  rw [hfront.markedAll_eq, hfront.marksAll_declarations, zip_silent] at hnone
  rw [markedAll_forLoop hfront hinit htest hbody hstep]
  refine hbody.within (by simp; omega) ?_ fun n hn => ?_
  · simp [levels_append, hnone, hinit.levels_unmarked, htest.levels_unmarked, level,
      pops, pushes, target?, label?]
  · have hinside : τ.inside.labels = τ.labels + 2 := rfl
    simp only [List.map_append, map_fst_unmarked, targets_append, hinit.straight.2,
      htest.straight.2, hstep.straight.2, targets_cons, target?, targets_nil,
      List.mem_append, Option.toList_some, Option.toList_none, List.mem_cons,
      List.not_mem_nil, or_false, false_or] at hn
    rcases hn with (hn | rfl) | rfl
    · have := hfront.labelled.mem_targets hn
      omega
    · omega
    · omega

end

/-- The code of a body stands inside the code of its statement. -/
theorem Layout.within_body {k : Nat} {σ τ : Scope} {s : Stmt} {code : List Instr}
    {site : Site} (h : Layout σ [s] code τ) (hsite : site ∈ s.bodies k σ) :
    ∃ l c υ, site.start = k + l ∧ Layout site.scope site.stmts c υ ∧
      Within (Stmt.markedAll [s] σ) l site.marked := by
  cases h with
  | block | declareNone | declare | readNone | read | write | assign | leave =>
      simp [Stmt.bodies] at hsite
  | @branch _ τ _ condition consequent alternate span test a b t htest
      hconsequent halternate =>
      simp only [Stmt.bodies, htest.emit_eq, hconsequent.emit_eq, List.mem_cons,
        List.not_mem_nil, or_false] at hsite
      rcases hsite with rfl | rfl
      · exact ⟨_, a, τ, Nat.add_assoc .., hconsequent,
          within_consequent htest hconsequent halternate⟩
      · exact ⟨_, b, _, by simp only; omega, halternate,
          within_alternate htest hconsequent halternate⟩
  | @whileLoop _ _ _ _ _ test code _ htest hbody =>
      simp only [Stmt.bodies, htest.emit_eq, List.mem_singleton] at hsite
      subst hsite
      exact ⟨_, code, τ, by simp only; omega, hbody, within_whileLoop htest hbody⟩
  | @forLoop _ _ _ _ _ _ _ _ _ front first test code last _ _ _ hfront hinit htest
      hbody hstep =>
      simp only [Stmt.bodies, hfront.emitAll_eq, hinit.emit_eq, htest.emit_eq,
        List.mem_singleton] at hsite
      subst hsite
      exact ⟨_, code, τ, by simp only; omega, hbody,
        within_forLoop hfront hinit htest hbody hstep⟩

/-- The code of a site stands inside the code of the program. -/
theorem Program.Stands.within {p : Program} {code : List Instr}
    (hcode : p.compile = .ok code) {site : Site} (h : p.Stands site) :
    ∃ c τ, Layout site.scope site.stmts c τ ∧
      Within (Stmt.markedAll p.body .empty) site.start site.marked := by
  induction h with
  | whole =>
      obtain ⟨τ, hbody⟩ := p.layout_of_compile hcode
      exact ⟨code, τ, hbody, .refl⟩
  | @head k σ s rest h ih =>
      obtain ⟨c, υ, hall, hwithin⟩ := ih
      obtain ⟨front, τ, back, hs, hrest, rfl⟩ := layout_cons_iff.mp hall
      refine ⟨front, τ, hs, Within.trans (l := 0) hwithin ?_⟩
      rw [Site.marked,
        hall.markedAll_cons, ← List.nil_append (Stmt.markedAll [s] σ ++ _)]
      refine hs.within rfl rfl fun n hn => .inr ?_
      rw [hs.emit_eq, List.nil_append, hrest.map_fst_markedAll] at hn
      exact (hrest.labelled.mem_targets hn).1
  | @tail k σ s rest h ih =>
      obtain ⟨c, υ, hall, hwithin⟩ := ih
      obtain ⟨front, τ, back, hs, hrest, rfl⟩ := layout_cons_iff.mp hall
      rw [hs.emit_eq]
      refine ⟨back, υ, hrest, hwithin.trans ?_⟩
      rw [Site.marked, hall.markedAll_cons,
        hs.emit_eq, ← List.append_nil (Stmt.markedAll rest τ)]
      refine hrest.within hs.length_markedAll hs.levels_markedAll fun n hn => .inl ?_
      rw [List.append_nil, hs.map_fst_markedAll] at hn
      exact (hs.labelled.mem_targets hn).2
  | @block k σ body span h ih =>
      obtain ⟨c, τ, hall, hwithin⟩ := ih
      cases hall with
      | block hbody =>
          refine ⟨c, τ, hbody, ?_⟩
          simpa only [Site.marked, Layout.markedAll_block hbody] using hwithin
  | body h hsite ih =>
      obtain ⟨c, τ, hs, hwithin⟩ := ih
      obtain ⟨l, c', υ, hstart, hlayout, hbody⟩ := hs.within_body hsite
      rw [hstart]
      exact ⟨c', υ, hlayout, hwithin.trans hbody⟩

/-- The code of a site stands in the code of the program, and jumps from outside do
not lead into it. -/
theorem Program.Stands.enclosed {p : Program} {code : List Instr}
    (hcode : p.compile = .ok code) {site : Site} (h : p.Stands site) :
    ∃ front back, code = front ++ (site.code ++ back) ∧ front.length = site.start ∧
      ∀ n ∈ targets (front ++ back), n ∉ labels site.code := by
  obtain ⟨τ, hbody⟩ := p.layout_of_compile hcode
  obtain ⟨c, υ, hlayout, front, back, hall, hstart, -, hapart⟩ := h.within hcode
  have hown : site.marked.map Prod.fst = site.code := by
    rw [Site.code, hlayout.emitAll_eq]
    exact hlayout.map_fst_markedAll
  rw [hown, List.map_append] at hapart
  refine ⟨front.map Prod.fst, back.map Prod.fst, ?_, by simpa using hstart, hapart⟩
  rw [← hbody.map_fst_markedAll, hall, List.map_append, List.map_append, hown]

/-! ## Bodies by their code -/

section

variable {k : Nat} {σ τ : Scope} {condition : Expr} {body : Stmt} {span : Span}
  {test : List Instr} {t : Ty}

theorem Stmt.consequent_mem_bodies {alternate : Option Stmt}
    (htest : Expr.Emits σ.symbols condition test t) :
    ⟨k + test.length + 1, σ.inside, [body]⟩ ∈
      (branch condition body alternate span).bodies k σ := by
  rw [bodies, htest.emit_eq]
  exact List.mem_cons_self

theorem Stmt.alternate_mem_bodies {alternate : Option Stmt} {code : List Instr}
    (htest : Expr.Emits σ.symbols condition test t)
    (hbody : Layout σ.inside [body] code τ) :
    ⟨k + test.length + 1 + code.length + 2, τ, alternate.toList⟩ ∈
      (branch condition body alternate span).bodies k σ := by
  rw [bodies, htest.emit_eq, hbody.emit_eq]
  exact List.mem_cons_of_mem _ List.mem_cons_self

theorem Stmt.whileLoop_mem_bodies (htest : Expr.Emits σ.symbols condition test t) :
    ⟨k + 1 + test.length + 1, σ.inside, [body]⟩ ∈
      (whileLoop condition body span).bodies k σ := by
  rw [bodies, htest.emit_eq]
  exact List.mem_cons_self

theorem Stmt.forLoop_mem_bodies {induction : Option Induction} {init step : Expr}
    {front first : List Instr} {u : Ty}
    (hfront : Layout σ (Induction.declarations induction) front τ)
    (hinit : Expr.Emits τ.symbols init first u)
    (htest : Expr.Emits τ.symbols condition test t) :
    ⟨k + front.length + first.length + 2 + test.length + 1, τ.inside, [body]⟩ ∈
      (forLoop induction init condition step body span).bodies k σ := by
  rw [bodies, hfront.emitAll_eq]
  simp only [hinit.emit_eq, htest.emit_eq]
  exact List.mem_cons_self

end

/-! ## Where marks stand -/

/-- Whether an expression statement that is no assignment ends with the
instruction at a position. -/
def Program.LeavesAt (p : Program) (q : Nat) : Prop :=
  ∃ k σ e span, p.Stands ⟨k, σ, [.effect e span]⟩ ∧ e.kind ≠ .assignment ∧
    q + 1 = (⟨k, σ, [.effect e span]⟩ : Site).stop

private theorem getElem?_silent {code : List Instr} {q : Nat} :
    (silent code)[q]? ≠ some true := by
  rw [silent, List.getElem?_map]
  cases code[q]? <;> simp

private theorem getElem?_unmarked {code : List Instr} {q : Nat} {i : Instr} :
    (unmarked code)[q]? ≠ some (i, true) := by
  simp [unmarked]

theorem of_getElem?_append {α : Type} {front back : List α} {q : Nat} {a : α}
    (h : (front ++ back)[q]? = some a) :
    front[q]? = some a ∨ ∃ r, q = front.length + r ∧ back[r]? = some a := by
  rw [List.getElem?_append] at h
  split at h
  · exact .inl h
  · exact .inr ⟨q - front.length, by omega, h⟩

private theorem of_getElem?_unmarked_append {code : List Instr}
    {back : List (Instr × Bool)} {q : Nat} {i : Instr}
    (h : (unmarked code ++ back)[q]? = some (i, true)) :
    ∃ r, q = code.length + r ∧ back[r]? = some (i, true) := by
  rcases of_getElem?_append h with h | h
  · exact absurd h getElem?_unmarked
  · simpa using h

/-- Marks stand where expression statements end that are no assignments. -/
theorem Layout.leavesAt {σ τ : Scope} {ss : List Stmt} {code : List Instr}
    (h : Layout σ ss code τ) {p : Program} {k q : Nat} {i : Instr}
    (hstands : p.Stands ⟨k, σ, ss⟩)
    (hmark : (Stmt.markedAll ss σ)[q]? = some (i, true)) : p.LeavesAt (k + q) := by
  induction h generalizing k q with
  | nil => simp [Stmt.markedAll, Stmt.marksAll] at hmark
  | cons hs hrest ihs ihrest =>
      rw [(Layout.cons hs hrest).markedAll_cons] at hmark
      rcases of_getElem?_append hmark with h₁ | ⟨r, rfl, h₁⟩
      · exact ihs hstands.head h₁
      · have htail := hstands.tail
        rw [hs.emit_eq] at htail h₁
        rw [hs.length_markedAll, ← Nat.add_assoc]
        exact ihrest htail h₁
  | block hbody ih =>
      rw [markedAll_block hbody] at hmark
      exact ih hstands.block hmark
  | declareNone =>
      rw [markedAll_of_silent .declareNone (by rw [Stmt.marks])] at hmark
      exact absurd hmark getElem?_unmarked
  | declare hxs =>
      rw [markedAll_of_silent (.declare hxs) (by rw [Stmt.marks])] at hmark
      exact absurd hmark getElem?_unmarked
  | readNone =>
      rw [markedAll_of_silent .readNone (by rw [Stmt.marks])] at hmark
      exact absurd hmark getElem?_unmarked
  | read ht hxs =>
      rw [markedAll_of_silent (.read ht hxs) (by rw [Stmt.marks])] at hmark
      exact absurd hmark getElem?_unmarked
  | write hvalues =>
      rw [markedAll_of_silent (.write hvalues) (by rw [Stmt.marks])] at hmark
      exact absurd hmark getElem?_unmarked
  | @branch σ τ υ condition consequent alternate span test a b t htest hconsequent
      halternate iha ihb =>
      rw [markedAll_branch htest hconsequent halternate] at hmark
      obtain ⟨r, rfl, h₁⟩ := of_getElem?_unmarked_append hmark
      rcases of_getElem?_append h₁ with h₂ | ⟨r, rfl, h₂⟩
      · have hleaves := iha (hstands.body (Stmt.consequent_mem_bodies htest)) h₂
        simpa [Nat.add_assoc] using hleaves
      · obtain ⟨r, rfl, h₃⟩ := of_getElem?_unmarked_append h₂
        rcases of_getElem?_append h₃ with h₄ | ⟨r, rfl, h₄⟩
        · have hleaves :=
            ihb (hstands.body (Stmt.alternate_mem_bodies htest hconsequent)) h₄
          simpa [Nat.add_assoc, hconsequent.length_markedAll] using hleaves
        · exact absurd h₄ getElem?_unmarked
  | @whileLoop σ τ condition body span test code t htest hbody ih =>
      rw [markedAll_whileLoop htest hbody] at hmark
      obtain ⟨r, rfl, h₁⟩ := of_getElem?_unmarked_append hmark
      rcases of_getElem?_append h₁ with h₂ | ⟨r, rfl, h₂⟩
      · have hleaves := ih (hstands.body (Stmt.whileLoop_mem_bodies htest)) h₂
        rw [show k + 1 + test.length + 1 + r = k + (test.length + 2 + r) by omega]
          at hleaves
        simpa using hleaves
      · exact absurd h₂ getElem?_unmarked
  | @forLoop σ τ υ _ _ _ _ body _ front first test code last _ _ _ hfront hinit htest
      hbody hstep _ ih =>
      rw [markedAll_forLoop hfront hinit htest hbody hstep] at hmark
      obtain ⟨r, rfl, h₁⟩ := of_getElem?_unmarked_append hmark
      rcases of_getElem?_append h₁ with h₂ | ⟨r, rfl, h₂⟩
      · have hleaves :=
          ih (hstands.body (Stmt.forLoop_mem_bodies hfront hinit htest)) h₂
        have hoffset : k + front.length + first.length + 2 + test.length + 1 + r =
            k + ((front ++ (first ++ Instr.pop :: Instr.label τ.labels :: (test ++
              [Instr.jumpUnless (τ.labels + 1)]))).length + r) := by
          simp
          omega
        rwa [hoffset] at hleaves
      · exact absurd h₂ getElem?_unmarked
  | assign hkind he =>
      rw [markedAll_of_silent (.assign hkind he) (by rw [Stmt.marks, if_pos hkind])]
        at hmark
      exact absurd hmark getElem?_unmarked
  | @leave σ e span code t hkind he =>
      refine ⟨k, σ, e, span, hstands, hkind, ?_⟩
      have hall : Layout σ [.effect e span] code σ := .leave hkind he
      rw [hall.markedAll_eq, Stmt.marksAll_singleton, Stmt.marks, if_neg hkind,
        he.emit_eq] at hmark
      rw [Site.stop, Site.code, hall.emitAll_eq]
      obtain ⟨hi, hlast⟩ := List.getElem?_zip_eq_some.mp hmark
      obtain ⟨hq, -⟩ := List.getElem?_eq_some_iff.mp hi
      rcases of_getElem?_append hlast with h₁ | ⟨r, rfl, h₁⟩
      · exact absurd h₁ getElem?_silent
      · simp only [length_silent, List.length_dropLast] at hq ⊢
        cases r with
        | zero => omega
        | succ r => simp at h₁

/-- The marks of a program stand where its expression statements end that
are no assignments. -/
theorem Program.marksAll_getElem?_iff {p : Program} {code : List Instr}
    (hcode : p.compile = .ok code) {q : Nat} :
    (Stmt.marksAll p.body .empty)[q]? = some true ↔ p.LeavesAt q := by
  obtain ⟨τ, hbody⟩ := p.layout_of_compile hcode
  constructor
  · intro hmark
    obtain ⟨hq, -⟩ := List.getElem?_eq_some_iff.mp hmark
    rw [hbody.length_marks] at hq
    have hmarked : (Stmt.markedAll p.body .empty)[q]? = some (code[q], true) := by
      rw [hbody.markedAll_eq, List.getElem?_zip_eq_some]
      exact ⟨List.getElem?_eq_getElem hq, hmark⟩
    simpa using hbody.leavesAt .whole hmarked
  · rintro ⟨k, σ, e, span, hstands, hkind, hq⟩
    obtain ⟨c, υ, hlayout, front, back, hall, hfront, -, -⟩ := hstands.within hcode
    have hmarks := hlayout.map_snd_markedAll
    rw [Site.stop, Site.code, hlayout.emitAll_eq] at hq
    simp only at hq hfront
    cases hlayout with
    | assign h => exact absurd h hkind
    | leave _ he =>
        have hlength : 0 < c.length := by
          refine List.length_pos_iff.mpr ?_
          rintro rfl
          simpa using he.levels_unmarked 0
        have hbefore : (front.map Prod.snd ++ silent c.dropLast).length = q := by
          simp only [List.length_append, List.length_map, length_silent,
            List.length_dropLast, hfront]
          omega
        rw [Stmt.marksAll_singleton, Stmt.marks, if_neg hkind, he.emit_eq] at hmarks
        rw [← hbody.map_snd_markedAll, hall, Site.marked, List.map_append,
          List.map_append, hmarks, List.append_assoc, ← List.append_assoc, ← hbefore,
          List.getElem?_append_right (Nat.le_refl _), Nat.sub_self]
        rfl

end ScalarLang
