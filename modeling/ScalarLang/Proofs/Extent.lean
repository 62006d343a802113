import ScalarLang.Grammar.Program
import ScalarLang.Proofs.Labels

/-!
# How much code a text can have

Labels and counts are numbers of a fixed width in the text of code, while nothing bounds
them here. A text that is not longer than these numbers go has no code with larger ones.

Each choice and each loop takes two labels, and a `write` counts the values it has
(`Stmt.extent`). All of them are paid for with tokens: a choice or a loop has two
parentheses, and behind each value there is a comma or a semicolon. A parser that is
entered with some credit leaves with as much as it has taken tokens more, and what it
has read is charged against that (`Parser.Earns`). Only tokens whose kind a rule asks
for are counted, since the rules leave it open what the others are; and they are there
to be taken because the tokens end with the one for the end (`Cursor.Terminated`).

## Main results

* `Layout.labels_le`, `Layout.count_le`: the labels and the counts of code are
  bounded by the extent.
* `Program.extent_le_of_ofTokens`: the extent of a program is bounded by the
  number of its tokens.
-/

namespace ScalarLang

/-! ## Operations -/

namespace Instr

/-- Whether an instruction is an operation on values, or a conversion. -/
def Operates : Instr → Prop
  | arith .. | mod | negate _ | concat | logic _ | not | order .. | equal _ | widen =>
      True
  | _ => False

theorem operates_widening (widen : Bool) (t u : Ty) :
    ∀ i ∈ widening widen t u, i.Operates := by
  unfold widening
  split <;> simp [Operates]

theorem operates_operation {operator : TokenKind} {t result : Ty} {own : List Instr}
    (h : operation operator t = some (own, result)) : ∀ i ∈ own, i.Operates := by
  unfold operation at h
  split at h <;> cases h <;> simp [Operates]

theorem operates_unaryOperation (operator : TokenKind) (t : Ty) :
    (unaryOperation operator t).Operates := by
  unfold unaryOperation
  split <;> trivial

end Instr

/-! ## The extent of statements -/

mutual

/-- How many labels a statement takes and how many values it prints. -/
def Stmt.extent : Stmt → Nat
  | block body _ => Stmt.extentAll body
  | declaration .. => 0
  | read .. => 0
  | write values _ => values.length
  | branch _ consequent alternate _ =>
      2 + (consequent.extent + Stmt.extentOption alternate)
  | whileLoop _ body _ => 2 + body.extent
  | forLoop _ _ _ _ body _ => 2 + body.extent
  | effect .. => 0

/-- As `Stmt.extent`, for a statement that may be missing. -/
def Stmt.extentOption : Option Stmt → Nat
  | none => 0
  | some s => s.extent

/-- As `Stmt.extent`, for statements in a row. -/
def Stmt.extentAll : List Stmt → Nat
  | [] => 0
  | s :: rest => s.extent + Stmt.extentAll rest

end

theorem Stmt.extentAll_singleton (s : Stmt) : extentAll [s] = s.extent := by
  simp [extentAll]

theorem Stmt.extentAll_toList (s : Option Stmt) :
    extentAll s.toList = extentOption s := by
  cases s <;> simp [extentAll, extentOption]

private theorem Stmt.extentAll_declarations (induction : Option Induction) :
    extentAll (Induction.declarations induction) = 0 := by
  cases induction <;> simp [Induction.declarations, extentAll, extent]

section

variable {σ τ : Scope} {ss : List Stmt} {code : List Instr}

/-- The labels that were handed out are within the extent. -/
theorem Layout.labels_le (h : Layout σ ss code τ) :
    τ.labels ≤ σ.labels + Stmt.extentAll ss := by
  induction h with
  | nil | declareNone | readNone | write | assign | leave => exact Nat.le_add_right _ _
  | @cons σ τ υ s next rest front back _ _ ihs ihrest =>
      rw [Stmt.extentAll_singleton] at ihs
      show υ.labels ≤ σ.labels + (s.extent + Stmt.extentAll (next :: rest))
      omega
  | block _ ih =>
      rw [Stmt.extentAll_singleton, Stmt.extent]
      exact ih
  | declare _ ih =>
      rw [Stmt.extentAll_singleton, Stmt.extent] at ih ⊢
      exact ih
  | read _ _ ih =>
      rw [Stmt.extentAll_singleton, Stmt.extent] at ih ⊢
      exact ih
  | branch _ _ _ iha ihb =>
      rw [Stmt.extentAll_singleton] at iha
      rw [Stmt.extentAll_toList] at ihb
      rw [Stmt.extentAll_singleton, Stmt.extent]
      simp only [Scope.inside] at iha
      omega
  | whileLoop _ _ ih =>
      rw [Stmt.extentAll_singleton] at ih
      rw [Stmt.extentAll_singleton, Stmt.extent]
      simp only [Scope.inside] at ih
      omega
  | forLoop _ _ _ _ _ ihfront ihbody =>
      rw [Stmt.extentAll_declarations] at ihfront
      rw [Stmt.extentAll_singleton] at ihbody
      rw [Stmt.extentAll_singleton, Stmt.extent]
      simp only [Scope.inside] at ihbody
      omega

/-- The code for an expression prints nothing. -/
theorem Expr.Emits.print_not_mem {symbols : Env} {e : Expr} {t : Ty}
    (h : Emits symbols e code t) (k : Nat) : .print k ∉ code := by
  have hwidening (widen : Bool) (t u : Ty) : .print k ∉ widening widen t u :=
    Instr.operates_widening widen t u _
  induction h with
  | literal | symbol => simp
  | assignment _ _ ih => simp [ih, hwidening]
  | @unary operator operand span code t _ ih =>
      have hunary : Instr.print k ≠ unaryOperation operator.kind t := fun hk =>
        (hk ▸ Instr.operates_unaryOperation operator.kind t : (Instr.print k).Operates)
      simp [ih, hunary]
  | @binary l operator left right span leftCode rightCode own t u result _ _ hown
      ihleft ihright =>
      have hoperation : Instr.print k ∉ own := Instr.operates_operation hown _
      simp [ihleft, ihright, hwidening, hoperation]

private theorem Expr.EmitsAll.print_not_mem {symbols : Env} {values : List Expr}
    (h : EmitsAll symbols values code) (k : Nat) : .print k ∉ code := by
  induction h with
  | nil => simp
  | cons he _ ih => simp [he.print_not_mem, ih]

/-- The values that are printed at once are within the extent. -/
theorem Layout.count_le (h : Layout σ ss code τ) {k : Nat} (hk : .print k ∈ code) :
    k ≤ Stmt.extentAll ss := by
  induction h with
  | nil | declareNone | readNone => simp at hk
  | @cons σ τ υ s next rest front back _ _ ihs ihrest =>
      rw [Stmt.extentAll_singleton] at ihs
      show k ≤ s.extent + Stmt.extentAll (next :: rest)
      rcases List.mem_append.mp hk with hk | hk
      · exact Nat.le_trans (ihs hk) (Nat.le_add_right _ _)
      · exact Nat.le_trans (ihrest hk) (Nat.le_add_left _ _)
  | block _ ih =>
      rw [Stmt.extentAll_singleton, Stmt.extent]
      exact ih hk
  | declare _ ih | read _ _ ih =>
      rw [Stmt.extentAll_singleton, Stmt.extent] at ih ⊢
      exact ih (by simpa using hk)
  | @write σ values span code hvalues =>
      rw [Stmt.extentAll_singleton, Stmt.extent]
      have hcount : k = values.length := by simpa [hvalues.print_not_mem] using hk
      exact Nat.le_of_eq hcount
  | @branch _ _ _ _ _ _ _ _ a b _ htest _ _ iha ihb =>
      rw [Stmt.extentAll_singleton] at iha
      rw [Stmt.extentAll_toList] at ihb
      rw [Stmt.extentAll_singleton, Stmt.extent]
      have hinner : Instr.print k ∈ a ∨ Instr.print k ∈ b := by
        simpa [branchCode, htest.print_not_mem] using hk
      rcases hinner with hk | hk
      · have hle := iha hk
        omega
      · have hle := ihb hk
        omega
  | whileLoop htest _ ih =>
      rw [Stmt.extentAll_singleton] at ih
      rw [Stmt.extentAll_singleton, Stmt.extent]
      have hle := ih (by simpa [loopCode, htest.print_not_mem] using hk)
      omega
  | @forLoop _ _ _ _ _ _ _ _ _ front _ _ code _ _ _ _ _ hinit htest _ hstep
      ihfront ihbody =>
      rw [Stmt.extentAll_declarations] at ihfront
      rw [Stmt.extentAll_singleton] at ihbody
      rw [Stmt.extentAll_singleton, Stmt.extent]
      have hinner : Instr.print k ∈ front ∨ Instr.print k ∈ code := by
        simpa [loopCode, hinit.print_not_mem, htest.print_not_mem, hstep.print_not_mem]
          using hk
      rcases hinner with hk | hk
      · have hle := ihfront hk
        omega
      · have hle := ihbody hk
        omega
  | assign _ he => simp [he.print_not_mem] at hk
  | leave _ he => exact absurd hk (he.print_not_mem k)

end

/-! ## Cursors -/

/-- Whether the last of the tokens from a cursor on is the one for the end. -/
def Cursor.Terminated (c : Cursor) : Prop :=
  ∀ t ∈ (c.current :: c.ahead).getLast?, t.kind = .eof

namespace Cursor

variable {c : Cursor}

theorem Terminated.advance (h : c.Terminated) : c.advance.Terminated := by
  unfold Cursor.advance
  split
  · exact h
  · next t ts heq =>
      intro u hu
      apply h
      rw [heq, List.getLast?_cons_cons]
      exact hu

theorem length_advance_le (c : Cursor) : c.advance.ahead.length ≤ c.ahead.length := by
  unfold advance
  split
  · exact Nat.le_refl _
  · next t ts heq =>
      rw [heq]
      exact Nat.le_succ _

/-- A token that is not the end has another one behind it. -/
theorem Terminated.length_advance (h : c.Terminated) (hkind : c.current.kind ≠ .eof) :
    c.advance.ahead.length + 1 = c.ahead.length := by
  unfold Cursor.advance
  split
  · next heq =>
      have hlast := h c.current (by rw [heq]; rfl)
      exact absurd hlast hkind
  · next t ts heq => rw [heq, List.length_cons]

theorem terminated_ofTokens (file : String) (tokens : List Token) :
    (ofTokens file tokens).Terminated := by
  have hclosed : ∀ t ∈ (closed file tokens).getLast?, t.kind = .eof := by
    unfold closed
    split
    · intro t ht
      cases ht
      rfl
    · next last hlast =>
        split
        · next hkind =>
            intro t ht
            rw [hlast] at ht
            cases ht
            exact hkind
        · intro t ht
          rw [List.getLast?_concat] at ht
          cases ht
          rfl
  unfold ofTokens
  split
  · intro t ht
    cases ht
    rfl
  · next t ts heq =>
      rw [heq] at hclosed
      exact hclosed

theorem length_ofTokens_le (file : String) (tokens : List Token) :
    (ofTokens file tokens).ahead.length ≤ tokens.length := by
  have hclosed : (closed file tokens).length ≤ tokens.length + 1 := by
    unfold closed
    split
    · exact Nat.le_add_left _ _
    · split
      · exact Nat.le_succ _
      · simp
  unfold ofTokens
  split
  · exact Nat.zero_le _
  · next t ts heq =>
      rw [heq, List.length_cons] at hclosed
      exact Nat.le_of_succ_le_succ hclosed

end Cursor

/-! ## Parsers -/

namespace Parser

variable {α β : Type} {n : Nat} {v : β → Nat}

/-- Whether a parser that is entered with a credit, and has read something, leaves with
a credit for it that is backed by the tokens it took. -/
def Earns (n : Nat) (p : Parser α) (v : α → Nat) : Prop :=
  ∀ c : Cursor, c.Terminated → ∀ a next, p c = .ok a next →
    next.Terminated ∧ v a + next.ahead.length ≤ n + c.ahead.length

theorem earns_pure {b : β} (h : v b ≤ n) : Earns n (pure b : Parser β) v := by
  intro c hc a next hreply
  cases hreply
  exact ⟨hc, Nat.add_le_add_right h _⟩

theorem Earns.bind {p : Parser α} {w : α → Nat} {f : α → Parser β} (hp : Earns n p w)
    (hf : ∀ a, Earns (w a) (f a) v) : Earns n (p >>= f) v := by
  intro c hc b next hreply
  change Parser.bind p f c = .ok b next at hreply
  unfold Parser.bind at hreply
  cases hfirst : p c with
  | ok a middle =>
      rw [hfirst] at hreply
      obtain ⟨hmiddle, hle⟩ := hp c hc a middle hfirst
      obtain ⟨hnext, hle'⟩ := hf a middle hmiddle b next hreply
      exact ⟨hnext, by omega⟩
  | fail error stop =>
      rw [hfirst] at hreply
      cases hreply
  | endless =>
      rw [hfirst] at hreply
      cases hreply

theorem earns_current : Earns n current fun _ => n := by
  intro c hc a next hreply
  cases hreply
  exact ⟨hc, Nat.le_refl _⟩

theorem earns_previousEnd : Earns n previousEnd fun _ => n := by
  intro c hc a next hreply
  cases hreply
  exact ⟨hc, Nat.le_refl _⟩

/-- A token of any kind may be the last one, which is not taken. -/
theorem earns_advance : Earns n advance fun _ => n := by
  intro c hc a next hreply
  cases hreply
  exact ⟨hc.advance, Nat.add_le_add_left c.length_advance_le n⟩

theorem earns_fail {cause : Cause} {position : Position} :
    Earns n (fail cause position : Parser β) v := by
  intro c hc a next hreply
  cases hreply

theorem earns_endless : Earns n (endless : Parser β) v := by
  intro c hc a next hreply
  cases hreply

theorem earns_unexpected : Earns n (unexpected : Parser β) v :=
  earns_current.bind fun _ => earns_fail

theorem earns_unexpectedFor {message : String} :
    Earns n (unexpectedFor message : Parser β) v :=
  earns_current.bind fun _ => earns_fail

/-- A token that was asked for by its kind is taken. -/
theorem earns_ofKind {kind : TokenKind} (hkind : kind ≠ .eof) {f g : Token → Parser β}
    (hyes : ∀ t, Earns (n + 1) (f t) v) (hno : ∀ t, Earns n (g t) v) :
    Earns n (current >>= fun t => if t.kind = kind then advance >>= f else g t) v := by
  intro c hc b next hreply
  change (if c.current.kind = kind then advance >>= f else g c.current) c =
    .ok b next at hreply
  by_cases hcurrent : c.current.kind = kind
  · rw [if_pos hcurrent] at hreply
    have hlength := hc.length_advance (by rw [hcurrent]; exact hkind)
    obtain ⟨hnext, hle⟩ := hyes c.current c.advance hc.advance b next hreply
    exact ⟨hnext, by omega⟩
  · rw [if_neg hcurrent] at hreply
    exact hno c.current c hc b next hreply

theorem earns_expect {kind : TokenKind} (hkind : kind ≠ .eof) :
    Earns n (expect kind) fun _ => n + 1 := by
  unfold expect
  rw [← bind_pure advance]
  exact earns_ofKind hkind (fun _ => earns_pure (Nat.le_refl _)) fun _ =>
    earns_unexpected

theorem earns_expectFor {kind : TokenKind} {message : String} (hkind : kind ≠ .eof) :
    Earns n (expectFor kind message) fun _ => n + 1 := by
  unfold expectFor
  rw [← bind_pure advance]
  exact earns_ofKind hkind (fun _ => earns_pure (Nat.le_refl _)) fun _ =>
    earns_unexpectedFor

/-- There is a comma behind each item but the last. -/
theorem earns_commaLoop {item : Parser α} (hitem : ∀ n, Earns n item fun _ => n)
    (k n : Nat) :
    Earns n (commaLoop item k) fun as => n + (as.length - 1) := by
  induction k generalizing n with
  | zero => exact earns_endless
  | succ k ih =>
      refine (hitem n).bind fun first => ?_
      refine earns_ofKind (by decide) (fun _ => (ih (n + 1)).bind fun rest => ?_)
        fun _ => ?_
      · apply earns_pure
        simp only [List.length_cons]
        omega
      · apply earns_pure
        exact Nat.le_refl _

private theorem earns_commaSeparated {item : Parser α}
    (hitem : ∀ n, Earns n item fun _ => n) (n : Nat) :
    Earns n (commaSeparated item) fun as => n + (as.length - 1) :=
  fun c hc => earns_commaLoop hitem _ n c hc

private theorem earns_bodyLoop {item : Parser Stmt}
    (hitem : ∀ n, Earns n item fun s => n + s.extent) (k n : Nat) :
    Earns n (bodyLoop item k) fun ss => n + Stmt.extentAll ss := by
  induction k generalizing n with
  | zero => exact earns_endless
  | succ k ih =>
      refine earns_current.bind fun token => ?_
      split
      · exact earns_pure (Nat.le_refl _)
      · refine (hitem n).bind fun first => (ih (n + first.extent)).bind fun rest => ?_
        apply earns_pure
        show n + (first.extent + Stmt.extentAll rest) ≤ _
        omega

private theorem earns_untilClosed {item : Parser Stmt}
    (hitem : ∀ n, Earns n item fun s => n + s.extent) (n : Nat) :
    Earns n (untilClosed item) fun ss => n + Stmt.extentAll ss :=
  fun c hc => earns_bodyLoop hitem _ n c hc

end Parser

open ScalarLang.Parser

/-! ## Rules -/

section

variable {expr : ExprParser} {stmt : Parser Stmt}

private theorem earns_readPrimary (n : Nat) : Earns n readPrimary fun _ => n := by
  refine earns_current.bind fun token => ?_
  split
  · exact earns_advance.bind fun _ => earns_pure (Nat.le_refl _)
  · exact earns_fail

private theorem earns_readIdent (n : Nat) : Earns n readIdent fun _ => n := by
  refine (earns_expectFor (by decide)).bind fun token => ?_
  exact earns_pure (Nat.le_succ n)

private theorem earns_readType? (n : Nat) : Earns n readType? fun _ => n := by
  refine earns_current.bind fun token => ?_
  split
  · exact earns_advance.bind fun _ => earns_pure (Nat.le_refl _)
  · exact earns_pure (Nat.le_refl _)

private theorem earns_readDeclaration (n : Nat) :
    Earns n readDeclaration fun s => n + s.extent := by
  refine earns_advance.bind fun word => ?_
  split
  · exact earns_unexpectedFor
  · refine (earns_commaSeparated earns_readIdent n).bind fun idents => ?_
    refine (earns_expect (by decide)).bind fun _ => earns_previousEnd.bind fun _ => ?_
    apply earns_pure
    rw [Stmt.extent]
    omega

private theorem earns_readRead (n : Nat) : Earns n readRead fun s => n + s.extent := by
  refine earns_advance.bind fun word => ?_
  refine (earns_commaSeparated earns_readIdent n).bind fun idents => ?_
  refine (earns_expect (by decide)).bind fun _ => earns_previousEnd.bind fun _ => ?_
  apply earns_pure
  rw [Stmt.extent]
  omega

private theorem earns_readEmpty (n : Nat) : Earns n readEmpty fun s => n + s.extent :=
  earns_advance.bind fun _ => earns_pure (Nat.le_refl _)

section

variable (hexpr : ∀ power n, Earns n (expr power) fun _ => n)

include hexpr

private theorem StartRule.earns_parse (rule : StartRule) (n : Nat) :
    Earns n (rule.parse expr) fun _ => n := by
  cases rule with
  | primary => exact earns_readPrimary n
  | operator =>
      refine earns_advance.bind fun operator => earns_current.bind fun token => ?_
      dsimp only
      split
      · exact earns_advance.bind fun _ => earns_pure (Nat.le_refl _)
      · exact (hexpr _ _).bind fun operand => earns_pure (Nat.le_refl _)
  | grouping =>
      refine earns_advance.bind fun _ => (hexpr _ _).bind fun inner => ?_
      exact (earns_expect (by decide)).bind fun _ => earns_pure (Nat.le_succ n)

private theorem JoinRule.earns_parse (rule : JoinRule) (left : Expr) (power : Power)
    (n : Nat) :
    Earns n (rule.parse expr left power) fun _ => n := by
  cases rule with
  | binary =>
      refine earns_advance.bind fun operator => ?_
      split
      · exact earns_fail
      · exact (hexpr _ _).bind fun right => earns_pure (Nat.le_refl _)
  | assignment =>
      refine earns_advance.bind fun operator => ?_
      split
      · exact (hexpr _ _).bind fun value => earns_pure (Nat.le_refl _)
      · exact earns_fail

/-- The parentheses around a condition pay for the labels of its construct. -/
theorem earns_readCondition (n : Nat) :
    Earns n (readCondition expr) fun _ => n + 2 := by
  refine (earns_expect (by decide)).bind fun _ => (hexpr _ _).bind fun condition => ?_
  exact (earns_expect (by decide)).bind fun _ => earns_pure (Nat.le_refl _)

private theorem earns_readEffect (n : Nat) :
    Earns n (readEffect expr) fun s => n + s.extent := by
  refine (hexpr _ n).bind fun value => (earns_expect (by decide)).bind fun _ => ?_
  refine earns_previousEnd.bind fun _ => ?_
  apply earns_pure
  rw [Stmt.extent]
  omega

/-- The semicolon pays for the last value, the commas for the others. -/
theorem earns_readWrite (n : Nat) : Earns n (readWrite expr) fun s => n + s.extent := by
  refine earns_advance.bind fun word => ?_
  refine (earns_commaSeparated (hexpr _) n).bind fun values => ?_
  refine (earns_expect (by decide)).bind fun _ => earns_previousEnd.bind fun _ => ?_
  apply earns_pure
  rw [Stmt.extent]
  omega

end

variable (hexpr : ∀ power n, Earns n (expr power) fun _ => n)
  (hstmt : ∀ n, Earns n stmt fun s => n + s.extent)

section

include hstmt

private theorem earns_readBlock (n : Nat) :
    Earns n (readBlock stmt) fun s => n + s.extent := by
  refine (earns_expect (by decide)).bind fun brace => ?_
  refine (earns_untilClosed hstmt (n + 1)).bind fun body => ?_
  refine (earns_expectFor (by decide)).bind fun _ => earns_previousEnd.bind fun _ => ?_
  apply earns_pure
  rw [Stmt.extent]
  omega

private theorem earns_readAlternate (n : Nat) :
    Earns n (readAlternate stmt) fun s => n + Stmt.extentOption s := by
  refine earns_current.bind fun token => ?_
  split
  · refine earns_advance.bind fun _ => (hstmt n).bind fun s => ?_
    exact earns_pure (Nat.le_refl _)
  · exact earns_pure (Nat.le_refl _)

end

include hexpr hstmt

private theorem earns_readBranch (n : Nat) :
    Earns n (readBranch expr stmt) fun s => n + s.extent := by
  refine earns_advance.bind fun word =>
    (earns_readCondition hexpr n).bind fun condition => ?_
  refine (hstmt (n + 2)).bind fun consequent => ?_
  refine (earns_readAlternate hstmt _).bind fun alternate =>
    earns_previousEnd.bind fun _ => ?_
  apply earns_pure
  rw [Stmt.extent]
  omega

private theorem earns_readWhile (n : Nat) :
    Earns n (readWhile expr stmt) fun s => n + s.extent := by
  refine earns_advance.bind fun word =>
    (earns_readCondition hexpr n).bind fun condition => ?_
  refine (hstmt (n + 2)).bind fun body => earns_previousEnd.bind fun _ => ?_
  apply earns_pure
  rw [Stmt.extent]
  omega

private theorem earns_readFor (n : Nat) :
    Earns n (readFor expr stmt) fun s => n + s.extent := by
  refine earns_advance.bind fun word => (earns_expect (by decide)).bind fun _ => ?_
  refine (earns_readType? _).bind fun declared => earns_current.bind fun first => ?_
  refine (hexpr _ _).bind fun init => ?_
  split
  · exact earns_fail
  refine (earns_expect (by decide)).bind fun _ => (hexpr _ _).bind fun condition => ?_
  refine (earns_expect (by decide)).bind fun _ => (hexpr _ _).bind fun step => ?_
  refine (earns_expect (by decide)).bind fun _ => (hstmt _).bind fun body => ?_
  refine earns_previousEnd.bind fun _ => ?_
  apply earns_pure
  rw [Stmt.extent]
  omega

private theorem StmtRule.earns_parse (rule : StmtRule) (n : Nat) :
    Earns n (rule.parse expr stmt) fun s => n + s.extent := by
  cases rule with
  | any => exact hstmt n
  | declaration => exact earns_readDeclaration n
  | read => exact earns_readRead n
  | write => exact earns_readWrite hexpr n
  | block => exact earns_readBlock hstmt n
  | empty => exact earns_readEmpty n
  | branch => exact earns_readBranch hexpr hstmt n
  | whileLoop => exact earns_readWhile hexpr hstmt n
  | forLoop => exact earns_readFor hexpr hstmt n

end

/-! ## Programs -/

namespace Rules

/-- Along a chain of any length expressions are charged nothing. -/
theorem earns_within (r : Rules) (k : Nat) :
    (∀ power n, Earns n (r.exprWithin k power) fun _ => n) ∧
      ∀ power left n, Earns n (r.operatorsWithin k power left) fun _ => n := by
  induction k with
  | zero =>
      constructor
      · intro power n
        rw [exprWithin]
        exact earns_endless
      · intro power left n
        rw [operatorsWithin]
        exact earns_endless
  | succ k ih =>
      obtain ⟨hexpr, hoperators⟩ := ih
      constructor
      · intro power n
        rw [exprWithin]
        refine earns_current.bind fun token => ?_
        split
        · exact earns_unexpected
        · next rule _ =>
            exact (rule.earns_parse hexpr n).bind fun left => hoperators power left n
      · intro power left n
        rw [operatorsWithin]
        refine earns_current.bind fun token => ?_
        split
        · exact earns_pure (Nat.le_refl _)
        · next rule own _ =>
            split
            · exact earns_pure (Nat.le_refl _)
            · exact (rule.earns_parse hexpr left own n).bind fun joined =>
                hoperators power joined n

private theorem earns_stmtWithin (r : Rules) (k n : Nat) :
    Earns n (r.stmtWithin k) fun s => n + s.extent := by
  induction k generalizing n with
  | zero =>
      rw [stmtWithin]
      exact earns_endless
  | succ k ih =>
      have hexpr := (r.earns_within k).1
      rw [stmtWithin]
      refine earns_current.bind fun token => ?_
      split
      · next rule _ => exact rule.earns_parse hexpr ih n
      · exact earns_readEffect hexpr n

/-- Statements that were all read are paid for with the tokens there were. -/
theorem extent_readStatements_le (r : Rules) (k : Nat) {c : Cursor} (hc : c.Terminated)
    (h : (r.readStatements k c).errors = []) :
    Stmt.extentAll (r.readStatements k c).body ≤ c.ahead.length := by
  induction k generalizing c with
  | zero => exact Nat.zero_le _
  | succ k ih =>
      unfold readStatements at h ⊢
      split at h
      · rename_i htokens
        rw [if_pos htokens]
        cases hreply : r.stmt c with
        | ok s next =>
            rw [hreply] at h
            obtain ⟨hnext, hle⟩ := r.earns_stmtWithin _ 0 c hc s next hreply
            have hrest := ih hnext h
            simp only [Nat.zero_add] at hle
            show s.extent + Stmt.extentAll (r.readStatements k next).body ≤ _
            omega
        | fail error stop =>
            rw [hreply] at h
            cases h
        | endless => exact Nat.zero_le _
      · rename_i htokens
        rw [if_neg htokens]
        exact Nat.zero_le _

end Rules

/-- A text has at most as many pieces as characters. -/
theorem Piece.length_splitAfter_le (skip : Nat) (cs : List Char) :
    (splitAfter skip cs).length ≤ cs.length := by
  induction cs generalizing skip with
  | nil => cases skip <;> exact Nat.le_refl _
  | cons c cs ih =>
      cases skip with
      | zero => exact Nat.succ_le_succ (ih _)
      | succ skip => exact Nat.le_succ_of_le (ih skip)

private theorem Piece.length_placed (p : Position) (pieces : List Piece) :
    (placed p pieces).length = pieces.length := by
  induction pieces generalizing p with
  | nil => rfl
  | cons piece pieces ih => exact congrArg (· + 1) (ih _)

/-- There are at most as many tokens as characters, and the one for the end. -/
theorem Token.length_scan_le {file source : String} {tokens : List Token}
    (h : scan file source = .ok tokens) : tokens.length ≤ source.length + 1 := by
  have hpieces := Piece.length_splitAfter_le 0 source.toList
  have htokens := List.length_filterMap_le Piece.token?
    (Piece.placed (.first file) (Piece.split source.toList))
  rw [Piece.length_placed] at htokens
  rw [eq_of_scan h, List.length_append, List.length_singleton]
  exact Nat.succ_le_succ (Nat.le_trans htokens hpieces)

theorem Program.extent_le_of_ofTokens {file : String} {tokens : List Token}
    {p : Program} (h : ofTokens file tokens = .ok p) :
    Stmt.extentAll p.body ≤ tokens.length := by
  simp only [ofTokens] at h
  split at h
  · next hdone =>
      cases h
      have herrors : (readTokens file tokens).errors = [] := by
        rw [Bool.and_eq_true, List.isEmpty_iff] at hdone
        exact hdone.2
      have hle := Rules.standard.extent_readStatements_le _
        (Cursor.terminated_ofTokens file tokens) herrors
      exact Nat.le_trans hle (Cursor.length_ofTokens_le file tokens)
  · cases h

end ScalarLang
