import ScalarLang.Proofs.Run
import ScalarLang.Proofs.Sites

/-!
# When variables have values

A declaration gives its variables their defaults when it is executed, while their types
are known from where it stands on. So code that stands behind a declaration may be
executed without it: the declaration may stand in an arm of a choice that was not taken,
or in the body of a loop that was not entered. That is the only way. A body is entered
at its first instruction, and code before a declaration in the same body jumps only
inside itself, so a run that is in a body behind a declaration has executed it, and so
has a run that has left the body.

## Main results

* `Layout.knownLoads`: what is loaded is declared before, in a body around
  the declaration.
* `Program.Declares.runFor`: a run that has entered a body has come to its declarations
  before it is behind them.
-/

namespace ScalarLang

open ScalarLang.Instr

/-! ## Declarations and the bodies around them -/

mutual

/-- The variables that a statement declares, apart from those declared in
bodies inside it. -/
def Stmt.declared : Stmt → List String
  | .block body _ => Stmt.declaredAll body
  | .declaration _ idents _ => idents.map Ident.name
  | .forLoop induction _ _ _ _ _ => (induction.map fun i => i.target.name).toList
  | _ => []

/-- The variables that statements in a row declare, apart from those declared in
bodies inside them. -/
def Stmt.declaredAll : List Stmt → List String
  | [] => []
  | s :: rest => s.declared ++ Stmt.declaredAll rest

end

private theorem Stmt.declaredAll_cons (s : Stmt) (rest : List Stmt) :
    Stmt.declaredAll (s :: rest) = s.declared ++ Stmt.declaredAll rest := rfl

@[simp] theorem Stmt.declaredAll_singleton (s : Stmt) :
    Stmt.declaredAll [s] = s.declared := by
  simp [Stmt.declaredAll]

/-- Code that jumps only inside itself. -/
def Closed (code : List Instr) : Prop := ∀ n ∈ targets code, n ∈ labels code

private theorem Closed.append {front back : List Instr} (hfront : Closed front)
    (hback : Closed back) :
    Closed (front ++ back) := by
  intro n hn
  rw [targets_append, List.mem_append] at hn
  rw [labels_append, List.mem_append]
  exact hn.imp (hfront n) (hback n)

/-- The bodies of a program: the whole of it and those inside its statements. -/
inductive Program.Body (p : Program) : Site → Prop where
  | whole : p.Body ⟨0, .empty, p.body⟩
  | inner {k : Nat} {σ : Scope} {s : Stmt} {site : Site} (h : p.Stands ⟨k, σ, [s]⟩)
      (hsite : site ∈ s.bodies k σ) : p.Body site

private theorem Program.Body.stands {p : Program} {body : Site} (h : p.Body body) :
    p.Stands body := by
  cases h with
  | whole => exact .whole
  | inner h hsite => exact h.body hsite

/-- Whether code stands in the code of a body at a position, behind code that jumps
only inside itself. -/
def Site.Behind (body : Site) (k : Nat) (code : List Instr) : Prop :=
  ∃ pre post, body.code = pre ++ (code ++ post) ∧
    body.start + pre.length = k ∧ Closed pre

/-- Whether a variable is declared in the row of a body at a position. -/
structure Program.Declares (p : Program) (body : Site) (q : Nat) (x : String) :
    Prop where
  ofBody : p.Body body
  declared : x ∈ Stmt.declaredAll body.stmts
  behind : body.Behind q [.save x]

/-- Whether a variable is declared before a position. -/
def Program.Known (p : Program) (l : Nat) (x : String) : Prop :=
  ∃ body q, p.Declares body q x ∧ q < l

theorem Program.Known.mono {p : Program} {k l : Nat} {x : String} (h : p.Known k x)
    (hkl : k ≤ l) :
    p.Known l x := by
  obtain ⟨body, q, hdeclares, hq⟩ := h
  exact ⟨body, q, hdeclares, by omega⟩

namespace Site.Behind

variable {body : Site} {k : Nat} {front back : List Instr}

theorem left (h : body.Behind k (front ++ back)) : body.Behind k front := by
  obtain ⟨pre, post, hall, hk, hclosed⟩ := h
  exact ⟨pre, back ++ post, by simp [hall], hk, hclosed⟩

theorem right (h : body.Behind k (front ++ back)) (hfront : Closed front) :
    body.Behind (k + front.length) back := by
  obtain ⟨pre, post, hall, hk, hclosed⟩ := h
  exact ⟨pre ++ front, post, by simp [hall], by simp [← hk, Nat.add_assoc],
    hclosed.append hfront⟩

theorem of_layout {σ τ : Scope} {ss : List Stmt} {code : List Instr}
    (h : Layout σ ss code τ) :
    (⟨k, σ, ss⟩ : Site).Behind k code :=
  ⟨[], [], by simp [Site.code, h.emitAll_eq], rfl, by simp [Closed]⟩

end Site.Behind

/-! ## Loads and the declarations before them -/

/-- Whether the variables that code loads are declared before it does. -/
def Program.KnownLoads (p : Program) (k : Nat) (code : List Instr) : Prop :=
  Each (fun l i => ∀ x, i = .load x → p.Known l x) k code

private theorem Program.knownLoads_of_mem {p : Program} {k : Nat} {code : List Instr}
    (h : ∀ x, .load x ∈ code → p.Known k x) : p.KnownLoads k code := by
  rintro i _ hi x rfl
  exact (h x (List.mem_of_getElem? hi)).mono (Nat.le_add_right k i)

private theorem load_not_mem_widening (widen : Bool) (t u : Ty) (x : String) :
    .load x ∉ widening widen t u := by
  unfold widening
  split <;> simp

private theorem load_not_mem_operation {operator : TokenKind} {t result : Ty}
    {own : List Instr} (h : operation operator t = some (own, result)) (x : String) :
    .load x ∉ own := by
  cases operator <;> simp [operation] at h <;> obtain ⟨rfl, -⟩ := h <;> simp

/-- The code for an expression loads variables that have a type. -/
theorem Expr.Emits.isSome_of_load {symbols : Env} {e : Expr} {code : List Instr}
    {t : Ty} (h : Emits symbols e code t) {x : String} (hx : .load x ∈ code) :
    (symbols.find? x).isSome := by
  induction h with
  | literal => simp at hx
  | symbol ht =>
      obtain rfl : x = _ := by simpa using hx
      simp [ht]
  | assignment ht _ ih =>
      simp only [List.mem_append, load_not_mem_widening, false_or] at hx
      rcases hx with hx | hx
      · exact ih hx
      · obtain rfl : x = _ := by simpa using hx
        simp [ht]
  | unary _ ih =>
      unfold unaryOperation at hx
      rcases List.mem_append.mp hx with hx | hx
      · exact ih hx
      · split at hx <;> simp at hx
  | binary _ _ hown ihleft ihright =>
      simp only [List.mem_append, load_not_mem_widening, load_not_mem_operation hown,
        false_or, or_false] at hx
      exact hx.elim ihleft ihright

private theorem Expr.EmitsAll.isSome_of_load {symbols : Env} {values : List Expr}
    {code : List Instr} (h : EmitsAll symbols values code) {x : String}
    (hx : .load x ∈ code) :
    (symbols.find? x).isSome := by
  induction h with
  | nil => simp at hx
  | cons he _ ih => exact (List.mem_append.mp hx).elim he.isSome_of_load ih

section

variable {p : Program} {around : Site} {σ τ : Scope} {k : Nat} {code : List Instr}

private theorem Layout.known_declaration {t : Ty} {xs : List Ident} {span : Span}
    (h : Layout σ [.declaration t xs span] code τ) (haround : p.Body around)
    (hdeclared : ∀ x ∈ xs, x.name ∈ Stmt.declaredAll around.stmts)
    (hbehind : around.Behind k code)
    (hσ : ∀ x, (σ.symbols.find? x).isSome → p.Known k x) :
    p.KnownLoads k code ∧ ∀ x, (τ.symbols.find? x).isSome →
    p.Known (k + code.length) x := by
  induction xs generalizing σ code k with
  | nil =>
      cases h with
      | declareNone => exact ⟨each_nil, hσ⟩
  | cons y ys ih =>
      cases h with
      | @declare _ _ _ _ _ _ rest hxs =>
          have hpush : Closed [.push (.default t)] := by simp [Closed, target?]
          have hfront : Closed [.push (.default t), .save y.name] := by
            simp [Closed, target?]
          have hsave : around.Behind k ([.push (.default t)] ++
              ([.save y.name] ++ rest)) := hbehind
          have hrest : around.Behind k ([.push (.default t), .save y.name] ++ rest) :=
            hbehind
          have hy : p.Declares around (k + 1) y.name :=
            ⟨haround, hdeclared y List.mem_cons_self, (hsave.right hpush).left⟩
          have hstep : ∀ x, ((σ.declare t y).symbols.find? x).isSome →
              p.Known (k + 2) x := by
            intro x hx
            rw [Scope.declare, Table.find?_insert] at hx
            by_cases hyx : y.name = x
            · exact ⟨around, k + 1, hyx ▸ hy, by omega⟩
            · rw [if_neg hyx] at hx
              exact (hσ x hx).mono (by omega)
          obtain ⟨hloads, hτ⟩ :=
            ih hxs (fun x hx => hdeclared x (List.mem_cons_of_mem _ hx))
            (hrest.right hfront) hstep
          refine ⟨?_, fun x hx => ?_⟩
          · simp only [Program.KnownLoads, each_cons]
            exact ⟨by simp, by simp, hloads⟩
          · have hknown := hτ x hx
            rwa [List.length_cons, List.length_cons,
              show k + (rest.length + 1 + 1) = k + 2 + rest.length by
              omega]

private theorem Layout.known_declarations {i : Option Induction}
    (h : Layout σ (Induction.declarations i) code τ) (haround : p.Body around)
    (hdeclared : (i.map fun i => i.target.name).toList ⊆ Stmt.declaredAll around.stmts)
    (hbehind : around.Behind k code)
    (hσ : ∀ x, (σ.symbols.find? x).isSome → p.Known k x) :
    p.KnownLoads k code ∧ ∀ x, (τ.symbols.find? x).isSome →
    p.Known (k + code.length) x := by
  cases i with
  | none =>
      cases h with
      | nil => exact ⟨each_nil, hσ⟩
  | some i =>
      exact Layout.known_declaration h haround (by simpa using hdeclared) hbehind hσ

/-- What code loads is declared before, in a body around the declaration. -/
theorem Layout.knownLoads {ss : List Stmt} (h : Layout σ ss code τ)
    (hstands : p.Stands ⟨k, σ, ss⟩) (haround : p.Body around)
    (hdeclared : Stmt.declaredAll ss ⊆ Stmt.declaredAll around.stmts)
    (hbehind : around.Behind k code)
    (hσ : ∀ x, (σ.symbols.find? x).isSome → p.Known k x) :
    p.KnownLoads k code ∧ ∀ x, (τ.symbols.find? x).isSome →
    p.Known (k + code.length) x := by
  induction h generalizing around k with
  | nil => exact ⟨each_nil, hσ⟩
  | cons hs hrest ihs ihrest =>
      rw [Stmt.declaredAll_cons, List.append_subset] at hdeclared
      obtain ⟨hloads, hτ⟩ := ihs hstands.head haround
        (by simpa using hdeclared.1) hbehind.left hσ
      have htail := hstands.tail
      rw [hs.emit_eq] at htail
      obtain ⟨hloads', hυ⟩ := ihrest htail haround hdeclared.2
        (hbehind.right hs.labelled.closed) hτ
      refine ⟨each_append.mpr ⟨hloads, hloads'⟩, fun x hx => ?_⟩
      rw [List.length_append, ← Nat.add_assoc]
      exact hυ x hx
  | block _ ih =>
      rw [Stmt.declaredAll_singleton, Stmt.declared] at hdeclared
      exact ih hstands.block haround hdeclared hbehind hσ
  | declareNone | readNone => exact ⟨each_nil, hσ⟩
  | declare hxs _ =>
      rw [Stmt.declaredAll_singleton, Stmt.declared] at hdeclared
      exact Layout.known_declaration (.declare hxs) haround
        (fun x hx => hdeclared (List.mem_map_of_mem hx)) hbehind hσ
  | read ht hxs _ =>
      obtain ⟨hτ, hloads⟩ := (Layout.read ht hxs).read_eq
      exact ⟨p.knownLoads_of_mem fun x hx => absurd hx (hloads x), fun x hx =>
        (hσ x (hτ ▸ hx)).mono (Nat.le_add_right ..)⟩
  | write hvalues =>
      refine ⟨p.knownLoads_of_mem fun x hx => ?_,
        fun x hx => (hσ x hx).mono (Nat.le_add_right ..)⟩
      rcases List.mem_append.mp hx with hx | hx
      · exact hσ x (hvalues.isSome_of_load hx)
      · simp at hx
  | @branch σ τ υ condition consequent alternate span test a b t htest hconsequent
      halternate iha ihb =>
      have hfirst : _ ∈ (Stmt.branch condition consequent alternate span).bodies k σ :=
        Stmt.consequent_mem_bodies htest
      have hsecond : _ ∈ (Stmt.branch condition consequent alternate span).bodies k σ :=
        Stmt.alternate_mem_bodies htest hconsequent
      obtain ⟨hloads, hτ⟩ :=
        iha (hstands.body hfirst) (.inner hstands hfirst) (List.Subset.refl _)
        (.of_layout hconsequent) fun x hx => (hσ x hx).mono (by omega)
      obtain ⟨hloads', hυ⟩ := ihb (hstands.body hsecond) (.inner hstands hsecond)
        (List.Subset.refl _) (.of_layout halternate) fun x hx =>
          (hτ x hx).mono (by omega)
      have htests : p.KnownLoads k test := p.knownLoads_of_mem fun x hx =>
        hσ x (htest.isSome_of_load hx)
      refine ⟨?_, fun x hx => (hυ x hx).mono (by simp [branchCode]; omega)⟩
      simp only [Program.KnownLoads, branchCode, each_append, each_cons]
      exact ⟨htests, by simp, hloads, by simp, by simp, hloads', by simp, each_nil⟩
  | @whileLoop σ τ condition body span test code t htest hbody ih =>
      have hinner : _ ∈ (Stmt.whileLoop condition body span).bodies k σ :=
        Stmt.whileLoop_mem_bodies htest
      obtain ⟨hloads, hτ⟩ :=
        ih (hstands.body hinner) (.inner hstands hinner) (List.Subset.refl _)
        (.of_layout hbody) fun x hx => (hσ x hx).mono (by omega)
      have htests : p.KnownLoads (k + 1) test := p.knownLoads_of_mem fun x hx =>
        (hσ x (htest.isSome_of_load hx)).mono (by omega)
      refine ⟨?_, fun x hx => (hτ x hx).mono (by simp [loopCode]; omega)⟩
      simp only [Program.KnownLoads, loopCode, each_append, each_cons]
      exact ⟨by simp, htests, by simp, hloads, by simp, by simp, each_nil⟩
  | @forLoop σ τ υ induction init condition step inner span front first test code
      last _ _ _ hfront
      hinit htest hinner hstep _ ih =>
      rw [Stmt.declaredAll_singleton, Stmt.declared] at hdeclared
      obtain ⟨hloads, hτ⟩ := hfront.known_declarations haround hdeclared hbehind.left hσ
      have hbody :
          _ ∈ (Stmt.forLoop induction init condition step inner span).bodies k σ :=
        Stmt.forLoop_mem_bodies hfront hinit htest
      obtain ⟨hloads', hυ⟩ :=
        ih (hstands.body hbody) (.inner hstands hbody) (List.Subset.refl _)
        (.of_layout hinner) fun x hx => (hτ x hx).mono (by omega)
      have hfirst : p.KnownLoads (k + front.length) first :=
        p.knownLoads_of_mem fun x hx =>
        hτ x (hinit.isSome_of_load hx)
      have htests : p.KnownLoads (k + front.length + first.length + 2) test :=
        p.knownLoads_of_mem fun x hx => (hτ x (htest.isSome_of_load hx)).mono (by omega)
      have hlast : p.KnownLoads
          (k + front.length + first.length + 2 + test.length + 1 + code.length) last :=
        p.knownLoads_of_mem fun x hx => hυ x (hstep.isSome_of_load hx)
      refine ⟨?_, fun x hx => (hυ x hx).mono (by simp [loopCode]; omega)⟩
      simp only [Program.KnownLoads, loopCode, each_append, each_cons]
      exact ⟨hloads, hfirst, by simp, by simp, htests, by simp,
        ⟨hloads', hlast, by simp, each_nil⟩, by simp, by simp, each_nil⟩
  | assign hkind he =>
      refine ⟨p.knownLoads_of_mem fun x hx => ?_,
        fun x hx => (hσ x hx).mono (Nat.le_add_right ..)⟩
      rcases List.mem_append.mp hx with hx | hx
      · exact hσ x (he.isSome_of_load hx)
      · simp at hx
  | leave hkind he =>
      exact ⟨p.knownLoads_of_mem fun x hx => hσ x (he.isSome_of_load hx), fun x hx =>
        (hσ x hx).mono (Nat.le_add_right ..)⟩

end

/-- What a program loads is declared before. -/
theorem Program.known_of_load {p : Program} {code : List Instr}
    (hcode : p.compile = .ok code) {l : Nat} {x : String}
    (hl : code[l]? = some (.load x)) : p.Known l x := by
  obtain ⟨τ, hbody⟩ := p.layout_of_compile hcode
  obtain ⟨hloads, -⟩ :=
    hbody.knownLoads .whole .whole (List.Subset.refl _) (.of_layout hbody)
    (by simp [Scope.empty, Table.find?_empty])
  simpa using hloads l _ hl x rfl

/-! ## Runs through bodies -/

/-- Whether a position is in the code of a site. -/
def Site.Contains (site : Site) (k : Nat) : Prop := site.start ≤ k ∧ k < site.stop

section

variable {p : Program} {code : List Instr} {body : Site} {k k' q : Nat}
  {i : Instr} {x : String}

/-- Where execution may go on behind an instruction at a position. -/
def GoesOn (code : List Instr) (k : Nat) (i : Instr) (k' : Nat) : Prop :=
  k' = k + 1 ∨ ∃ n, i.target? = some n ∧ (Code.resolve code).find? n = some k'

/-- The code of a site is entered at its first instruction. -/
theorem Program.Stands.eq_start (hcode : p.compile = .ok code) (h : p.Stands body)
    (hi : code[k]? = some i) (hout : ¬ body.Contains k) (hnext : GoesOn code k i k')
    (hin : body.Contains k') : k' = body.start := by
  obtain ⟨τ, hbody⟩ := p.layout_of_compile hcode
  obtain ⟨front, back, hall, hfront, hapart⟩ := h.enclosed hcode
  unfold Site.Contains Site.stop at hout hin
  rcases hnext with rfl | ⟨n, hn, hk'⟩
  · omega
  · obtain ⟨j, hj, hfind⟩ := hbody.wellLabelled.find?_target hi hn
    obtain rfl : j = k' := by simpa [hfind] using hk'
    have htarget : n ∈ targets (front ++ back) := by
      rw [hall] at hi
      rw [targets_append, List.mem_append]
      rcases of_getElem?_append hi with h₁ | ⟨r, rfl, h₁⟩
      · exact .inl (mem_targets_of_getElem? h₁ hn)
      · rcases of_getElem?_append h₁ with h₂ | ⟨r, rfl, h₂⟩
        · obtain ⟨hr, -⟩ := List.getElem?_eq_some_iff.mp h₂
          omega
        · exact .inr (mem_targets_of_getElem? h₂ hn)
    have hlabel : n ∈ labels body.code := by
      rw [hall] at hj
      rcases of_getElem?_append hj with h₁ | ⟨r, rfl, h₁⟩
      · obtain ⟨hr, -⟩ := List.getElem?_eq_some_iff.mp h₁
        omega
      · rcases of_getElem?_append h₁ with h₂ | ⟨r, rfl, h₂⟩
        · exact mem_labels_iff.mpr ⟨_, h₂⟩
        · omega
    exact absurd hlabel (hapart n htarget)

/-- From code of a body before a declaration, execution goes on before the
declaration or comes to it. -/
theorem Program.Declares.le_of_lt (hcode : p.compile = .ok code)
    (h : p.Declares body q x) (hi : code[k]? = some i) (hstart : body.start ≤ k)
    (hk : k < q) (hnext : GoesOn code k i k') :
    body.start ≤ k' ∧ k' ≤ q := by
  obtain ⟨τ, hbody⟩ := p.layout_of_compile hcode
  obtain ⟨front, back, hall, hfront, -⟩ := h.ofBody.stands.enclosed hcode
  obtain ⟨pre, post, hcodes, rfl, hclosed⟩ := h.behind
  rcases hnext with rfl | ⟨n, hn, hk'⟩
  · omega
  · rw [hcodes, List.append_assoc] at hall
    have hpre : n ∈ targets pre := by
      rw [hall] at hi
      rcases of_getElem?_append hi with h₁ | ⟨r, rfl, h₁⟩
      · obtain ⟨hr, -⟩ := List.getElem?_eq_some_iff.mp h₁
        omega
      · rcases of_getElem?_append h₁ with h₂ | ⟨r, rfl, h₂⟩
        · exact mem_targets_of_getElem? h₂ hn
        · omega
    obtain ⟨j, hj⟩ := mem_labels_iff.mp (hclosed n hpre)
    obtain ⟨hlt, -⟩ := List.getElem?_eq_some_iff.mp hj
    have hlabel : code[front.length + j]? = some (.label n) := by
      rw [hall, List.getElem?_append_right (Nat.le_add_right ..),
        Nat.add_sub_cancel_left, List.getElem?_append_left hlt, hj]
    rw [Code.find?_resolve hbody.wellLabelled.nodup hlabel] at hk'
    obtain rfl : front.length + j = k' := by simpa using hk'
    omega

private theorem Program.Declares.getElem? (hcode : p.compile = .ok code)
    (h : p.Declares body q x) :
    code[q]? = some (.save x) ∧ body.Contains q := by
  obtain ⟨front, back, hall, hfront, -⟩ := h.ofBody.stands.enclosed hcode
  obtain ⟨pre, post, hcodes, rfl, -⟩ := h.behind
  rw [Site.Contains, Site.stop, hcodes]
  rw [hcodes, List.append_assoc] at hall
  refine ⟨?_, by omega, by simp⟩
  rw [hall, ← hfront, List.getElem?_append_right (Nat.le_add_right ..),
    Nat.add_sub_cancel_left, List.getElem?_append_right (Nat.le_refl _), Nat.sub_self]
  rfl

end

section

open Machine

variable {p : Program} {code : List Instr} {policy : Policy} {console : Console}
  {body : Site} {q n : Nat} {x : String} {m : Machine}

/-- Whether a run has not yet been in the code of a body, up to and with the machine
behind this many steps. -/
def Site.Unvisited (body : Site) (code : List Instr) (policy : Policy)
    (console : Console) (n : Nat) :
    Prop :=
  ∀ j ≤ n, ∀ m, runFor (Code.ofList code) policy j (.start console) = .running m →
    ¬ body.Contains m.ip

/-- A run has saved a variable, or it has not been in the body that declares the
variable, or it is in that body and not yet behind the declaration. -/
theorem Program.Declares.runFor (hcode : p.compile = .ok code) (h : p.Declares body q x)
    (hrun : runFor (Code.ofList code) policy n (.start console) = .running m) :
    (m.store.find? x).isSome ∨ body.Unvisited code policy console n ∨
      (body.start ≤ m.ip ∧ m.ip ≤ q) := by
  obtain ⟨hsave, hle, -⟩ := h.getElem? hcode
  refine runFor_induction (P := fun n m => (m.store.find? x).isSome ∨
    body.Unvisited code policy console n ∨ (body.start ≤ m.ip ∧ m.ip ≤ q)) ?_ ?_ hrun
  · by_cases hstart : body.start = 0
    · exact .inr (.inr ⟨by simp [hstart], Nat.zero_le q⟩)
    · refine .inr (.inl fun j hj m hm hin => ?_)
      obtain rfl : j = 0 := by omega
      obtain rfl : .start console = m := by simpa [Machine.runFor] using hm
      exact hstart (Nat.le_zero.mp hin.1)
  · rintro j m₁ m₂ hrun₁ hinv hstep
    obtain ⟨i, hi, hnext, hstores⟩ := frame_of_step hstep
    rw [Code.instrs_ofList_getElem?] at hi
    rcases hinv with hsaved | hunvisited | ⟨hlo, hhi⟩
    · left
      rcases hstores with ⟨hstore, -⟩ | ⟨y, v, rest, -, -, hstore⟩
      · rwa [hstore]
      · rw [hstore, Table.find?_insert]
        split
        · rfl
        · exact hsaved
    · right
      by_cases hin : body.Contains m₂.ip
      · have hout := hunvisited j (Nat.le_refl j) m₁ hrun₁
        have hstart := h.ofBody.stands.eq_start hcode hi hout hnext hin
        exact .inr ⟨by omega, by omega⟩
      · refine .inl fun j' hj' m' hm' => ?_
        rcases Nat.le_succ_iff.mp hj' with hj' | rfl
        · exact hunvisited j' hj' m' hm'
        · have hm₂ := runFor_succ_running_iff.mpr ⟨m₁, hrun₁, hstep⟩
          obtain rfl : m₂ = m' := by simpa [hm₂] using hm'
          exact hin
    · rcases Nat.lt_or_eq_of_le hhi with hlt | heq
      · exact .inr (.inr (h.le_of_lt hcode hi hlo hlt hnext))
      · obtain rfl : i = .save x := by simpa [heq, hsave] using hi.symm
        left
        rcases hstores with ⟨-, hother⟩ | ⟨y, v, rest, hy, -, hstore⟩
        · exact absurd rfl (hother x)
        · obtain rfl : x = y := by simpa using hy
          simp [hstore, Table.find?_insert]

end

/-- Where a run of a compiled program loads a variable, it has saved the variable
before, and so the value that it loads is one that was saved; or the variable is
declared in an arm of a choice or in the body of a loop, and the run has not been in
that arm or body. -/
theorem load_saved_or_unvisited {file source : String} {code : List Instr}
    (h : compileSource file source = .ok code) (policy : Policy) (console : Console) :
    ∃ p, Program.ofSource file source = .ok p ∧ ∀ n m x,
      Machine.runFor (Code.ofList code) policy n (.start console) = .running m →
      code[m.ip]? = some (.load x) →
      ((m.store.find? x).isSome ∧ ∃ j < n,
        Machine.Executes (Code.ofList code) policy (.start console) j (.save x)) ∨
      ∃ k σ s body, p.Stands ⟨k, σ, [s]⟩ ∧ body ∈ s.bodies k σ ∧
        x ∈ Stmt.declaredAll body.stmts ∧ body.Unvisited code policy console n := by
  obtain ⟨p, hsource, -, hcompile⟩ := exists_of_compileSource h
  refine ⟨p, hsource, fun n m x hrun hload => ?_⟩
  obtain ⟨body, q, hdeclares, hq⟩ := p.known_of_load hcompile hload
  rcases hdeclares.runFor hcompile hrun with hsaved | hunvisited | ⟨-, hle⟩
  · exact .inl ⟨hsaved, (Machine.store_isSome_iff hrun x).mp hsaved⟩
  · obtain ⟨-, -, hstop⟩ := hdeclares.getElem? hcompile
    cases hdeclares.ofBody with
    | whole =>
        have hstart := hunvisited 0 (Nat.zero_le n) _ rfl
        exact absurd ⟨Nat.le_refl 0, Nat.lt_of_le_of_lt (Nat.zero_le q) hstop⟩ hstart
    | inner hstands hsite =>
        exact .inr ⟨_, _, _, body, hstands, hsite, hdeclares.declared, hunvisited⟩
  · omega

/-- The condition cannot be dropped: where a branch that declares a variable is not
taken, a variable that was never saved is loaded behind it. -/
theorem load_unsaved_behind_branch :
    ∃ code m, compileSource "t" "if (false) string s; write s;" = .ok code ∧
      Machine.runFor (Code.ofList code) ⟨true⟩ 4 (.start ⟨[], .empty, none⟩) =
        .running m ∧
      code[m.ip]? = some (.load "s") ∧ m.store.find? "s" = none ∧
      ¬ ∃ j < 4, Machine.Executes (Code.ofList code) ⟨true⟩ (.start ⟨[], .empty, none⟩)
        j (.save "s") := by
  have hrun :
      Machine.runFor (Code.ofList [.push (.bool false), .jumpUnless 0,
        .push (.string ""), .save "s", .jump 1, .label 0, .label 1, .load "s",
        .print 1]) ⟨true⟩ 4 (.start ⟨[], .empty, none⟩) =
        .running ⟨7, [], .empty, ⟨[], .empty, none⟩⟩ := rfl
  refine ⟨_, _, rfl, hrun, rfl, rfl, fun hsaved => ?_⟩
  have hstore := (Machine.store_isSome_iff hrun "s").mpr hsaved
  cases hstore

/-- A run in which a branch declares a variable and is taken. -/
theorem load_saved_behind_branch :
    ∃ code m, compileSource "t" "if (true) string s; write s;" = .ok code ∧
      Machine.runFor (Code.ofList code) ⟨true⟩ 6 (.start ⟨[], .empty, none⟩) =
        .running m ∧
      code[m.ip]? = some (.load "s") ∧
      (((m.store.find? "s").isSome ∧ ∃ j < 6,
          Machine.Executes (Code.ofList code) ⟨true⟩ (.start ⟨[], .empty, none⟩) j
            (.save "s")) ∨
        ∃ p k σ s body, Program.Stands p ⟨k, σ, [s]⟩ ∧ body ∈ s.bodies k σ ∧
          "s" ∈ Stmt.declaredAll body.stmts ∧
          body.Unvisited code ⟨true⟩ ⟨[], .empty, none⟩ 6) := by
  have hcompile : compileSource "t" "if (true) string s; write s;" =
      .ok [.push (.bool true), .jumpUnless 0, .push (.string ""), .save "s", .jump 1,
        .label 0, .label 1, .load "s", .print 1] := rfl
  obtain ⟨p, -, hall⟩ := load_saved_or_unvisited hcompile ⟨true⟩ ⟨[], .empty, none⟩
  refine ⟨_, ⟨7, [], .empty |>.insert "s" (.string ""), ⟨[], .empty, none⟩⟩,
    hcompile, rfl, rfl, ?_⟩
  rcases hall 6 _ "s" rfl rfl with hsaved | ⟨k, σ, s, body, hbody⟩
  · exact .inl hsaved
  · exact .inr ⟨p, k, σ, s, body, hbody⟩

end ScalarLang
