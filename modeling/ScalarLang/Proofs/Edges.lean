import ScalarLang.Proofs.Phases
import ScalarLang.Proofs.Wording

/-!
# Where ranges start and stop

A tree takes the edges of its ranges from tokens: a range starts where a token starts
and stops where a token stops. Which places these are is a parameter here, the `Edges`.
Positions alone do not tell the one from the other, and what is known of a position, say
the character behind it, may hold for starts only.

Reports are about starts. The rules give up at the start of a token, and where they give
up they leave tokens behind that are read on from; so the parsers are followed where
they give up too (`Parser.Stays`). The checker reports at the start of a range in the
tree, and code is only made where it has nothing to report.

## Main results

* `Program.along_of_ofTokens`: the ranges in a tree have the edges of tokens.
* `Rejection.starts_of_compileSource`: all reports on a text are about starts of tokens
  or of stray characters.
-/

namespace ScalarLang

open ScalarLang.Parser

/-- Places where ranges may start and places where they may stop. -/
structure Edges where
  start : Position → Prop
  stop : Position → Prop

/-- Whether a range starts and stops at such places. -/
def Edges.Has (E : Edges) (s : Span) : Prop := E.start s.start ∧ E.stop s.stop

/-! ## Trees -/

/-- Whether all ranges in an expression have such edges. -/
def Expr.Along (E : Edges) : Expr → Prop
  | int _ s | float _ s | bool _ s | string _ s | symbol _ s => E.Has s
  | assignment target value s => E.Has s ∧ E.Has target.span ∧ value.Along E
  | unary operator operand s => E.Has s ∧ E.Has operator.span ∧ operand.Along E
  | binary _ operator left right s =>
      E.Has s ∧ E.Has operator.span ∧ left.Along E ∧ right.Along E

mutual

/-- Whether all ranges in a statement have such edges. -/
def Stmt.Along (E : Edges) : Stmt → Prop
  | block body s => E.Has s ∧ Stmt.AlongAll E body
  | declaration _ idents s => E.Has s ∧ ∀ x ∈ idents, E.Has x.span
  | read idents s => E.Has s ∧ ∀ x ∈ idents, E.Has x.span
  | write values s => E.Has s ∧ ∀ e ∈ values, e.Along E
  | branch condition consequent alternate s =>
    E.Has s ∧ condition.Along E ∧ consequent.Along E ∧ Stmt.AlongOption E alternate
  | whileLoop condition body s => E.Has s ∧ condition.Along E ∧ body.Along E
  | forLoop induction init condition step body s =>
    E.Has s ∧ (∀ i ∈ induction, E.Has i.target.span) ∧ init.Along E ∧
      condition.Along E ∧ step.Along E ∧ body.Along E
  | effect value s => E.Has s ∧ value.Along E

/-- As `Stmt.Along`, for a statement that may be missing. -/
def Stmt.AlongOption (E : Edges) : Option Stmt → Prop
  | none => True
  | some s => s.Along E

/-- As `Stmt.Along`, for statements in a row. -/
def Stmt.AlongAll (E : Edges) : List Stmt → Prop
  | [] => True
  | s :: rest => s.Along E ∧ Stmt.AlongAll E rest

end

section

variable {E : Edges}

private theorem Expr.Along.span {e : Expr} (h : e.Along E) : E.Has e.span := by
  cases e with
  | int | float | bool | string | symbol => exact h
  | assignment | unary | binary => exact h.1

private theorem Stmt.alongAll_of_forall {ss : List Stmt} (h : ∀ s ∈ ss, s.Along E) :
    AlongAll E ss := by
  induction ss with
  | nil => trivial
  | cons s rest ih =>
      have hrest := ih fun s hs => h s (List.mem_cons_of_mem _ hs)
      exact ⟨h s List.mem_cons_self, hrest⟩

end

/-! ## Cursors and parsers -/

/-- Whether a cursor stands among tokens with such edges. -/
def Cursor.Along (E : Edges) (c : Cursor) : Prop :=
  E.stop c.previousEnd ∧ E.Has c.current.span ∧ ∀ t ∈ c.ahead, E.Has t.span

namespace Cursor

variable {E : Edges} {c : Cursor}

private theorem Along.advance (h : c.Along E) : c.advance.Along E := by
  unfold Cursor.advance
  split
  · exact h
  · next t ts heq =>
      have hahead := h.2.2
      rw [heq] at hahead
      exact ⟨h.2.1.2, List.forall_mem_cons.mp hahead⟩

private theorem Along.resume (h : c.Along E) : c.resume.Along E := by
  obtain ⟨previousEnd, current, ahead⟩ := c
  show (Cursor.resumeFrom previousEnd current ahead).Along E
  induction ahead generalizing previousEnd current with
  | nil => exact h
  | cons t ts ih =>
      have hnext : Along E ⟨current.span.stop, t, ts⟩ :=
        ⟨h.2.1.2, List.forall_mem_cons.mp h.2.2⟩
      unfold Cursor.resumeFrom
      by_cases heof : current.kind = .eof
      · rwa [if_pos heof]
      · rw [if_neg heof]
        by_cases hend : current.kind = .semicolon ∨ current.kind = .closeCurly
        · rwa [if_pos hend]
        · rw [if_neg hend]
          exact ih _ _ hnext

/-- Tokens that end with one for the end are taken as they are. -/
theorem closed_of_last {body : List Token} {last : Token} (h : last.kind = .eof)
    (file : String) :
    closed file (body ++ [last]) = body ++ [last] := by
  unfold closed
  rw [List.getLast?_concat]
  exact if_pos h

private theorem Along.ofTokens {body : List Token} {last : Token}
    (hlast : last.kind = .eof) (h : ∀ t ∈ body ++ [last], E.Has t.span)
    (file : String) :
    (Cursor.ofTokens file (body ++ [last])).Along E := by
  unfold Cursor.ofTokens
  rw [closed_of_last hlast]
  cases hcase : body ++ [last] with
  | nil => exact absurd hcase (List.concat_ne_nil last body)
  | cons t ts =>
      rw [hcase] at h
      obtain ⟨ht, hts⟩ := List.forall_mem_cons.mp h
      exact ⟨ht.2, ht, hts⟩

end Cursor

/-- Whether a reply is something with a property, or a complaint about a start, and
leaves off among tokens with such edges. -/
def Reply.Stays {α : Type} (E : Edges) (P : α → Prop) : Reply α → Prop
  | .ok a next => P a ∧ next.Along E
  | .fail error stop => E.start error.position ∧ stop.Along E
  | .endless => True

namespace Parser

variable {α β : Type} {E : Edges} {P : α → Prop} {Q : β → Prop}

/-- Whether a parser that starts among tokens with such edges replies with something
that has a property. -/
def Stays (E : Edges) (P : α → Prop) (p : Parser α) : Prop :=
  ∀ c : Cursor, c.Along E → (p c).Stays E P

theorem stays_pure {a : α} (ha : P a) : Stays E P (pure a : Parser α) :=
  fun _ hc => ⟨ha, hc⟩

theorem Stays.bind {p : Parser α} {f : α → Parser β} (hp : Stays E P p)
    (hf : ∀ a, P a → Stays E Q (f a)) :
    Stays E Q (p >>= f) := by
  intro c hc
  have hreply := hp c hc
  show Reply.Stays E Q (Parser.bind p f c)
  unfold Parser.bind
  cases h : p c with
  | ok a next =>
      rw [h] at hreply
      exact hf a hreply.1 next hreply.2
  | fail error stop =>
      rw [h] at hreply
      exact hreply
  | endless => trivial

theorem stays_current : Stays E (fun t => E.Has t.span) current :=
  fun _ hc => ⟨hc.2.1, hc⟩

theorem stays_advance : Stays E (fun t => E.Has t.span) advance :=
  fun _ hc => ⟨hc.2.1, hc.advance⟩

theorem stays_previousEnd : Stays E E.stop previousEnd := fun _ hc => ⟨hc.1, hc⟩

theorem stays_fail {cause : Cause} {position : Position} (h : E.start position) :
    Stays E P (fail cause position : Parser α) := fun _ hc => ⟨h, hc⟩

theorem stays_endless : Stays E P (endless : Parser α) := fun _ _ => trivial

theorem stays_unexpected : Stays E P (unexpected : Parser α) :=
  stays_current.bind fun _ htoken => stays_fail htoken.1

theorem stays_unexpectedFor {message : String} :
    Stays E P (unexpectedFor message : Parser α) :=
  stays_current.bind fun _ htoken => stays_fail htoken.1

theorem stays_expect {kind : TokenKind} :
    Stays E (fun t => E.Has t.span) (expect kind) := by
  apply stays_current.bind
  intro token _
  by_cases hkind : token.kind = kind
  · rw [if_pos hkind]
    exact stays_advance
  · rw [if_neg hkind]
    exact stays_unexpected

theorem stays_expectFor {kind : TokenKind} {message : String} :
    Stays E (fun t => E.Has t.span) (expectFor kind message) := by
  apply stays_current.bind
  intro token _
  by_cases hkind : token.kind = kind
  · rw [if_pos hkind]
    exact stays_advance
  · rw [if_neg hkind]
    exact stays_unexpectedFor

/-! ### Repetition -/

private theorem stays_commaSeparated {item : Parser α} (hitem : Stays E P item) :
    Stays E (fun as => ∀ a ∈ as, P a) (commaSeparated item) := by
  have hloop : ∀ n, Stays E (fun as => ∀ a ∈ as, P a) (commaLoop item n) := by
    intro n
    induction n with
    | zero => exact stays_endless
    | succ n ih =>
        apply hitem.bind
        intro first hfirst
        apply stays_current.bind
        intro token _
        by_cases hcomma : token.kind = .comma
        · rw [if_pos hcomma]
          apply stays_advance.bind
          intro _ _
          exact ih.bind fun rest hrest =>
            stays_pure (List.forall_mem_cons.mpr ⟨hfirst, hrest⟩)
        · rw [if_neg hcomma]
          exact stays_pure (List.forall_mem_singleton.mpr hfirst)
  exact fun c hc => hloop _ c hc

private theorem stays_untilClosed {item : Parser α} (hitem : Stays E P item) :
    Stays E (fun as => ∀ a ∈ as, P a) (untilClosed item) := by
  have hloop : ∀ n, Stays E (fun as => ∀ a ∈ as, P a) (bodyLoop item n) := by
    intro n
    induction n with
    | zero => exact stays_endless
    | succ n ih =>
        apply stays_current.bind
        intro token _
        by_cases hend : token.kind = .eof ∨ token.kind = .closeCurly
        · rw [if_pos hend]
          exact stays_pure (List.forall_mem_nil _)
        · rw [if_neg hend]
          apply hitem.bind
          intro first hfirst
          exact ih.bind fun rest hrest =>
            stays_pure (List.forall_mem_cons.mpr ⟨hfirst, hrest⟩)
  exact fun c hc => hloop _ c hc

end Parser

/-! ## Expressions -/

section

variable {E : Edges} {expr : ExprParser}

private theorem along_of_primaryOf {t : Token} {e : Expr} (ht : E.Has t.span)
    (h : primaryOf t = .ok e) : e.Along E := by
  unfold primaryOf at h
  split at h
  · split at h <;> cases h
    exact ht
  · split at h <;> cases h
    exact ht
  all_goals
    cases h
    try exact ht

private theorem stays_readPrimary : Stays E (Expr.Along E) readPrimary := by
  apply stays_current.bind
  intro token htoken
  cases hprimary : primaryOf token with
  | ok e =>
      exact stays_advance.bind fun _ _ =>
        stays_pure (along_of_primaryOf htoken hprimary)
  | error cause => exact stays_fail htoken.1

variable (hexpr : ∀ power, Stays E (Expr.Along E) (expr power))

include hexpr

private theorem stays_readOperator : Stays E (Expr.Along E) (readOperator expr) := by
  apply stays_advance.bind
  intro operator hoperator
  apply stays_current.bind
  intro token htoken
  dsimp only
  split
  · exact stays_advance.bind fun _ _ => stays_pure ⟨hoperator.1, htoken.2⟩
  · apply (hexpr .unary).bind
    intro operand hoperand
    exact stays_pure ⟨⟨hoperator.1, hoperand.span.2⟩, hoperator, hoperand⟩

private theorem stays_readGrouping : Stays E (Expr.Along E) (readGrouping expr) := by
  apply stays_advance.bind
  intro _ _
  apply (hexpr .lowest).bind
  intro inner hinner
  exact stays_expect.bind fun _ _ => stays_pure hinner

private theorem StartRule.stays_parse (rule : StartRule) :
    Stays E (Expr.Along E) (rule.parse expr) := by
  cases rule with
  | primary => exact stays_readPrimary
  | operator => exact stays_readOperator hexpr
  | grouping => exact stays_readGrouping hexpr

private theorem stays_readBinary {left : Expr} (hleft : left.Along E) (power : Power) :
    Stays E (Expr.Along E) (readBinary expr left power) := by
  apply stays_advance.bind
  intro operator hoperator
  cases Level.ofOperator? operator.kind with
  | none => exact stays_fail hoperator.1
  | some level =>
      apply (hexpr power).bind
      intro right hright
      exact stays_pure ⟨⟨hleft.span.1, hright.span.2⟩, hoperator, hleft, hright⟩

private theorem stays_readAssignment {left : Expr} (hleft : left.Along E) :
    Stays E (Expr.Along E) (readAssignment expr left) := by
  apply stays_advance.bind
  intro operator hoperator
  cases left with
  | symbol name span =>
      have hspan : E.Has span := hleft
      apply (hexpr .lowest).bind
      intro value hvalue
      exact stays_pure ⟨⟨hspan.1, hvalue.span.2⟩, hspan, hvalue⟩
  | _ => exact stays_fail hoperator.1

private theorem JoinRule.stays_parse (rule : JoinRule) {left : Expr}
    (hleft : left.Along E) (power : Power) :
    Stays E (Expr.Along E) (rule.parse expr left power) := by
  cases rule with
  | binary => exact stays_readBinary hexpr hleft power
  | assignment => exact stays_readAssignment hexpr hleft

end

/-! ## Statements -/

section

variable {E : Edges} {expr : ExprParser} {stmt : Parser Stmt}

private theorem stays_idents :
    Stays E (fun xs : List Ident => ∀ x ∈ xs,
      E.Has x.span) (commaSeparated readIdent) :=
  stays_commaSeparated (stays_expectFor.bind fun _ ht => stays_pure ht)

private theorem stays_readDeclaration : Stays E (Stmt.Along E) readDeclaration := by
  apply stays_advance.bind
  intro word hword
  cases word.kind.ty? with
  | none => exact stays_unexpectedFor
  | some t =>
      apply stays_idents.bind
      intro idents hidents
      apply stays_expect.bind
      intro _ _
      exact stays_previousEnd.bind fun stop hstop =>
        stays_pure ⟨⟨hword.1, hstop⟩, hidents⟩

private theorem stays_readRead : Stays E (Stmt.Along E) readRead := by
  apply stays_advance.bind
  intro word hword
  apply stays_idents.bind
  intro idents hidents
  apply stays_expect.bind
  intro _ _
  exact stays_previousEnd.bind fun stop hstop => stays_pure ⟨⟨hword.1, hstop⟩, hidents⟩

private theorem stays_readEmpty : Stays E (Stmt.Along E) readEmpty :=
  stays_advance.bind fun _ htoken => stays_pure ⟨htoken, trivial⟩

private theorem stays_readType? : Stays E (fun _ => True) readType? := by
  apply stays_current.bind
  intro token _
  cases token.kind.ty? with
  | some t => exact stays_advance.bind fun _ _ => stays_pure trivial
  | none => exact stays_pure trivial

variable (hexpr : ∀ power, Stays E (Expr.Along E) (expr power))
  (hstmt : Stays E (Stmt.Along E) stmt)

section

include hexpr

private theorem stays_readCondition : Stays E (Expr.Along E) (readCondition expr) := by
  apply stays_expect.bind
  intro _ _
  apply (hexpr .lowest).bind
  intro condition hcondition
  exact stays_expect.bind fun _ _ => stays_pure hcondition

private theorem stays_readEffect : Stays E (Stmt.Along E) (readEffect expr) := by
  apply (hexpr .lowest).bind
  intro value hvalue
  apply stays_expect.bind
  intro _ _
  exact stays_previousEnd.bind fun stop hstop =>
    stays_pure ⟨⟨hvalue.span.1, hstop⟩, hvalue⟩

private theorem stays_readWrite : Stays E (Stmt.Along E) (readWrite expr) := by
  apply stays_advance.bind
  intro word hword
  apply (stays_commaSeparated (hexpr .lowest)).bind
  intro values hvalues
  apply stays_expect.bind
  intro _ _
  exact stays_previousEnd.bind fun stop hstop => stays_pure ⟨⟨hword.1, hstop⟩, hvalues⟩

end

section

include hstmt

private theorem stays_readBlock : Stays E (Stmt.Along E) (readBlock stmt) := by
  apply stays_expect.bind
  intro brace hbrace
  apply (stays_untilClosed hstmt).bind
  intro body hbody
  apply stays_expectFor.bind
  intro _ _
  have hall := Stmt.alongAll_of_forall hbody
  exact stays_previousEnd.bind fun stop hstop => stays_pure ⟨⟨hbrace.1, hstop⟩, hall⟩

private theorem stays_readAlternate :
    Stays E (Stmt.AlongOption E) (readAlternate stmt) := by
  apply stays_current.bind
  intro token _
  by_cases helse : token.kind = .elseWord
  · rw [if_pos helse]
    apply stays_advance.bind
    intro _ _
    exact hstmt.bind fun s hs => stays_pure hs
  · rw [if_neg helse]
    exact stays_pure trivial

end

/-- The variable that a loop declares stands where its first expression has it. -/
theorem span_of_inductionOf {declared : Option Ty} {init : Expr}
    {induction : Option Induction} (hinit : init.Along E)
    (h : inductionOf declared init = .ok induction) :
    ∀ i ∈ induction, E.Has i.target.span := by
  unfold inductionOf at h
  split at h
  · cases h
    exact fun i hi => nomatch hi
  · cases h
    intro i hi
    rw [← Option.some.inj hi]
    exact hinit.2.1
  · cases h

include hexpr hstmt

private theorem stays_readBranch : Stays E (Stmt.Along E) (readBranch expr stmt) := by
  apply stays_advance.bind
  intro word hword
  apply (stays_readCondition hexpr).bind
  intro condition hcondition
  apply hstmt.bind
  intro consequent hconsequent
  apply (stays_readAlternate hstmt).bind
  intro alternate halternate
  apply stays_previousEnd.bind
  intro stop hstop
  exact stays_pure ⟨⟨hword.1, hstop⟩, hcondition, hconsequent, halternate⟩

private theorem stays_readWhile : Stays E (Stmt.Along E) (readWhile expr stmt) := by
  apply stays_advance.bind
  intro word hword
  apply (stays_readCondition hexpr).bind
  intro condition hcondition
  apply hstmt.bind
  intro body hbody
  exact stays_previousEnd.bind fun stop hstop =>
    stays_pure ⟨⟨hword.1, hstop⟩, hcondition, hbody⟩

private theorem stays_readFor : Stays E (Stmt.Along E) (readFor expr stmt) := by
  apply stays_advance.bind
  intro word hword
  apply stays_expect.bind
  intro _ _
  apply stays_readType?.bind
  intro declared _
  apply stays_current.bind
  intro first hfirst
  apply (hexpr .lowest).bind
  intro init hinit
  cases hdeclared : inductionOf declared init with
  | error cause => exact stays_fail hfirst.1
  | ok induction =>
      have hinduction := span_of_inductionOf hinit hdeclared
      apply stays_expect.bind
      intro _ _
      apply (hexpr .lowest).bind
      intro condition hcondition
      apply stays_expect.bind
      intro _ _
      apply (hexpr .lowest).bind
      intro step hstep
      apply stays_expect.bind
      intro _ _
      apply hstmt.bind
      intro body hbody
      apply stays_previousEnd.bind
      intro stop hstop
      exact stays_pure ⟨⟨hword.1, hstop⟩, hinduction, hinit, hcondition, hstep, hbody⟩

private theorem StmtRule.stays_parse (rule : StmtRule) :
    Stays E (Stmt.Along E) (rule.parse expr stmt) := by
  cases rule with
  | any => exact hstmt
  | declaration => exact stays_readDeclaration
  | read => exact stays_readRead
  | write => exact stays_readWrite hexpr
  | block => exact stays_readBlock hstmt
  | empty => exact stays_readEmpty
  | branch => exact stays_readBranch hexpr hstmt
  | whileLoop => exact stays_readWhile hexpr hstmt
  | forLoop => exact stays_readFor hexpr hstmt

end

/-! ## Whatever the rules are -/

namespace Rules

variable {E : Edges}

private theorem stays_within (r : Rules) (n : Nat) :
    (∀ power, Stays E (Expr.Along E) (r.exprWithin n power)) ∧
      ∀ power left, left.Along E →
        Stays E (Expr.Along E) (r.operatorsWithin n power left) := by
  induction n with
  | zero =>
      constructor
      · intro power
        rw [exprWithin]
        exact stays_endless
      · intro power left _
        rw [operatorsWithin]
        exact stays_endless
  | succ n ih =>
      obtain ⟨hexpr, hoperators⟩ := ih
      constructor
      · intro power
        rw [exprWithin]
        apply stays_current.bind
        intro token _
        cases r.starts.find? token.kind with
        | none => exact stays_unexpected
        | some rule =>
            exact (rule.stays_parse hexpr).bind fun left hleft =>
              hoperators power left hleft
      · intro power left hleft
        rw [operatorsWithin]
        apply stays_current.bind
        intro token _
        cases r.joins.find? token.kind with
        | none => exact stays_pure hleft
        | some join =>
            obtain ⟨rule, own⟩ := join
            dsimp only
            split
            · exact stays_pure hleft
            · apply (rule.stays_parse hexpr hleft own).bind
              intro joined hjoined
              exact hoperators power joined hjoined

private theorem stays_stmtWithin (r : Rules) (n : Nat) :
    Stays E (Stmt.Along E) (r.stmtWithin n) := by
  induction n with
  | zero =>
      rw [stmtWithin]
      exact stays_endless
  | succ n ih =>
      have hexpr := (r.stays_within (E := E) n).1
      rw [stmtWithin]
      apply stays_current.bind
      intro token _
      cases r.stmts.find? token.kind with
      | none => exact stays_readEffect hexpr
      | some rule => exact rule.stays_parse hexpr ih

/-- Statement by statement, and behind those that do not fit too, what is read has such
edges, and what is reported starts. -/
theorem stays_readStatements (r : Rules) (n : Nat) {c : Cursor} (hc : c.Along E) :
    (∀ s ∈ (r.readStatements n c).body, s.Along E) ∧
      ∀ d ∈ (r.readStatements n c).errors, E.start d.position := by
  induction n generalizing c with
  | zero => simp [readStatements]
  | succ n ih =>
      have hreply : (r.stmt c).Stays E (Stmt.Along E) := r.stays_stmtWithin _ c hc
      unfold readStatements
      split
      · cases h : r.stmt c with
        | ok statement next =>
            rw [h] at hreply
            have hlater := ih hreply.2
            exact ⟨List.forall_mem_cons.mpr ⟨hreply.1, hlater.1⟩, hlater.2⟩
        | fail error stop =>
            rw [h] at hreply
            have hlater := ih hreply.2.resume
            exact ⟨hlater.1, List.forall_mem_cons.mpr ⟨hreply.1, hlater.2⟩⟩
        | endless => simp
      · simp

end Rules

namespace Program

variable {E : Edges} {file : String} {body : List Token} {last : Token}

/-- All ranges in what is read from tokens have the edges of tokens. -/
theorem along_of_ofTokens (hlast : last.kind = .eof)
    (htokens : ∀ t ∈ body ++ [last], E.Has t.span) {p : Program}
    (h : ofTokens file (body ++ [last]) = .ok p) : Stmt.AlongAll E p.body := by
  have hall :=
    (Rules.standard.stays_readStatements ((body ++ [last]).length + 2)
      (.ofTokens hlast htokens file)).1
  unfold ofTokens at h
  dsimp only at h
  split at h <;> cases h
  exact Stmt.alongAll_of_forall hall

/-- Tokens that do not fit are reported where they start. -/
theorem starts_of_ofTokens (hlast : last.kind = .eof)
    (htokens : ∀ t ∈ body ++ [last], E.Has t.span) {reports : List Diagnostic}
    (h : ofTokens file (body ++ [last]) = .error reports) :
    ∀ d ∈ reports, E.start d.position := by
  have hall :=
    (Rules.standard.stays_readStatements ((body ++ [last]).length + 2)
      (.ofTokens hlast htokens file)).2
  unfold ofTokens at h
  dsimp only at h
  split at h <;> cases h
  exact hall

end Program

/-! ## Typing -/

section

variable {E : Edges} {env : Env}

private theorem starts_ofRule {earlier : List Diagnostic} {position : Position}
    (rule : Except Cause Ty) (hearlier : ∀ d ∈ earlier, E.start d.position)
    (hposition : E.start position) :
    ∀ d ∈ (Verdict.ofRule earlier position rule).reports, E.start d.position := by
  cases rule with
  | ok t => exact hearlier
  | error cause =>
      exact List.forall_mem_append.mpr ⟨hearlier,
        List.forall_mem_singleton.mpr hposition⟩

private theorem Env.starts_use {position : Position} (h : E.start position)
    (name : String) :
    ∀ d ∈ (env.use name position).reports, E.start d.position := by
  unfold use
  cases env.find? name with
  | some t => exact List.forall_mem_nil _
  | none => exact List.forall_mem_singleton.mpr h

private theorem Expr.starts_infer {e : Expr} (h : e.Along E) :
    ∀ d ∈ (e.infer env).reports, E.start d.position := by
  induction e with
  | int | float | bool | string => exact List.forall_mem_nil _
  | symbol name span => exact Env.starts_use h.1 name
  | assignment target value span ih =>
      have hvalue := ih h.2.2
      rw [infer]
      cases env.find? target.name with
      | none => exact starts_ofRule (.error _) hvalue h.1.1
      | some t =>
          cases (value.infer env).ty with
          | none => exact hvalue
          | some u => exact starts_ofRule _ hvalue h.1.1
  | unary operator operand span ih =>
      have hoperand := ih h.2.2
      rw [infer]
      cases (operand.infer env).ty with
      | none => exact hoperand
      | some t => exact starts_ofRule _ hoperand h.1.1
  | binary label operator left right span ihleft ihright =>
      have hboth := List.forall_mem_append.mpr ⟨ihleft h.2.2.1, ihright h.2.2.2⟩
      cases label with
      | level l =>
          rw [infer]
          cases (left.infer env).ty with
          | none => exact hboth
          | some t =>
              cases (right.infer env).ty with
              | none => exact hboth
              | some u => exact starts_ofRule _ hboth h.1.1
      | literal t => exact List.forall_mem_nil _
      | symbol | assignment | unary => exact List.forall_mem_singleton.mpr h.1.1

private theorem Expr.starts_checkCondition {e : Expr} (h : e.Along E)
    (construct : String) :
    ∀ d ∈ e.checkCondition env construct, E.start d.position := by
  have hreports : ∀ d ∈ (e.infer env).reports, E.start d.position := starts_infer h
  unfold checkCondition
  dsimp only
  split
  · exact hreports
  · exact hreports
  · exact List.forall_mem_append.mpr ⟨hreports, List.forall_mem_singleton.mpr h.span.1⟩

private theorem Env.starts_declare {t : Ty} {x : Ident} (h : E.Has x.span) :
    ∀ d ∈ (env.declare t x).2, E.start d.position := by
  unfold declare
  split
  · exact List.forall_mem_singleton.mpr h.1
  · exact List.forall_mem_nil _

private theorem Env.starts_declareAll {t : Ty} {idents : List Ident}
    (h : ∀ x ∈ idents, E.Has x.span) :
    ∀ d ∈ (env.declareAll t idents).2, E.start d.position := by
  induction idents generalizing env with
  | nil => exact List.forall_mem_nil _
  | cons x xs ih =>
      obtain ⟨hx, hxs⟩ := List.forall_mem_cons.mp h
      exact List.forall_mem_append.mpr ⟨Env.starts_declare hx, ih hxs⟩

mutual

private theorem Stmt.starts_check (env : Env) (s : Stmt) (h : s.Along E) :
    ∀ d ∈ (s.check env).2, E.start d.position := by
  cases s with
  | block body span => exact Stmt.starts_checkAll env body h.2
  | declaration t idents span => exact Env.starts_declareAll h.2
  | read idents span =>
      exact List.forall_mem_flatMap.mpr fun x hx => Env.starts_use (h.2 x hx).1 x.name
  | write values span =>
      exact List.forall_mem_flatMap.mpr fun e he => Expr.starts_infer (h.2 e he)
  | branch condition consequent alternate span =>
      obtain ⟨-, hcondition, hconsequent, halternate⟩ := h
      have hinner := Stmt.starts_check env consequent hconsequent
      have hother :=
        Stmt.starts_checkOption (consequent.check env).1 alternate halternate
      have htest : ∀ d ∈ condition.checkCondition env "if", E.start d.position :=
        Expr.starts_checkCondition hcondition "if"
      exact List.forall_mem_append.mpr ⟨List.forall_mem_append.mpr ⟨htest, hinner⟩,
        hother⟩
  | whileLoop condition body span =>
      have hbody := Stmt.starts_check env body h.2.2
      exact List.forall_mem_append.mpr ⟨Expr.starts_checkCondition h.2.1 "while", hbody⟩
  | forLoop induction init condition step body span =>
      obtain ⟨-, hinduction, hinit, hcondition, hstep, hbody⟩ := h
      cases induction with
      | none =>
          rw [check]
          simp only [List.nil_append, List.forall_mem_append]
          exact ⟨⟨⟨Expr.starts_infer hinit, Expr.starts_checkCondition hcondition
            "for"⟩, Expr.starts_infer hstep⟩, Stmt.starts_check env body hbody⟩
      | some i =>
          rw [check]
          simp only [List.forall_mem_append]
          exact ⟨⟨⟨⟨Env.starts_declare (hinduction i rfl), Expr.starts_infer hinit⟩,
            Expr.starts_checkCondition hcondition "for"⟩, Expr.starts_infer hstep⟩,
            Stmt.starts_check _ body hbody⟩
  | effect value span => exact Expr.starts_infer h.2

private theorem Stmt.starts_checkOption (env : Env) (s : Option Stmt)
    (h : Stmt.AlongOption E s) :
    ∀ d ∈ (Stmt.checkOption env s).2, E.start d.position := by
  cases s with
  | none => exact List.forall_mem_nil _
  | some s => exact Stmt.starts_check env s h

private theorem Stmt.starts_checkAll (env : Env) (ss : List Stmt)
    (h : Stmt.AlongAll E ss) :
    ∀ d ∈ (Stmt.checkAll env ss).2, E.start d.position := by
  cases ss with
  | nil => exact List.forall_mem_nil _
  | cons s rest =>
      have hrest := Stmt.starts_checkAll (s.check env).1 rest h.2
      exact List.forall_mem_append.mpr ⟨Stmt.starts_check env s h.1, hrest⟩

end

end

/-! ## All phases -/

/-- Programs of tokens are rejected with what the checker reports. -/
theorem Program.reports_of_compileChecked {file : String} {tokens : List Token}
    {p : Program} {r : Rejection} (hp : ofTokens file tokens = .ok p)
    (h : p.compileChecked = .error r) : r.reports = p.check := by
  unfold compileChecked at h
  cases hcheck : p.check with
  | nil =>
      obtain ⟨code, hcode⟩ := (p.phasesAgree_of_check hp hcheck).compiles
      rw [hcheck] at h
      dsimp only at h
      rw [hcode] at h
      cases h
  | cons d ds =>
      rw [hcheck] at h
      rw [← Except.error.inj h]

private theorem Token.exists_last_of_scan {file source : String} {tokens : List Token}
    (h : Token.scan file source = .ok tokens) :
    ∃ body last, tokens = body ++ [last] ∧ last.kind = .eof := by
  exact ⟨_, _, Token.eq_of_scan h, rfl⟩

/-- All reports on a source text are about starts, where its tokens and the reports on
its characters are. -/
theorem Rejection.starts_of_compileSource {E : Edges} {file source : String}
    (htokens : ∀ tokens, Token.scan file source = .ok tokens →
      ∀ t ∈ tokens, E.Has t.span)
    (hstray : ∀ reports, Token.scan file source = .error reports →
      ∀ d ∈ reports, E.start d.position)
    {r : Rejection} (h : compileSource file source = .error r) :
    ∀ d ∈ r.reports, E.start d.position := by
  cases hscan : Token.scan file source with
  | error reports =>
      have hreports : r = ⟨.grammar, reports⟩ := by
        unfold compileSource Program.ofSource at h
        rw [hscan] at h
        exact (Except.error.inj h).symm
      rw [hreports]
      exact hstray reports hscan
  | ok tokens =>
      obtain ⟨body, last, heq, hlast⟩ := Token.exists_last_of_scan hscan
      have hall := htokens tokens hscan
      rw [heq] at hall
      rw [compileSource_of_scan hscan, heq] at h
      cases hp : Program.ofTokens file (body ++ [last]) with
      | error reports =>
          rw [hp] at h
          rw [← Except.error.inj h]
          exact Program.starts_of_ofTokens hlast hall hp
      | ok p =>
          rw [hp] at h
          have hcheck : r.reports = p.check := Program.reports_of_compileChecked hp h
          rw [hcheck]
          exact Stmt.starts_checkAll .empty p.body
            (Program.along_of_ofTokens hlast hall hp)

end ScalarLang
