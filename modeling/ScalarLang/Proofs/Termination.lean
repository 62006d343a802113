import ScalarLang.Proofs.Nesting

/-!
# Reading comes to an end

A rule calls the readers for expressions and statements where tokens have been taken
already, except that a statement without a rule is an expression from its first token
on. So readers that reply the same further on make the same statement here
(`Rules.sameOn_dispatch`): which reply there is follows by recursion on the tokens
ahead, whatever the tokens are, and the length of the chains that the readers are given
is no more than a way to write this recursion down (`Rules.stmtWithin_eq_stmt`).

The cursor stands still on the last token, and so does resuming at a token for the end,
which can stand between others. But neither the program nor a block asks for a statement
there. A statement that is read has taken a token (`Rules.GoesOn.ok`); where one is
given up without having taken any, there is a token to resume behind
(`Rules.GoesOn.fail`). Each round of the program takes a token at least, and there is a
statement or a report for each.

## Main results

* `Rules.dispatch_eq_stmt`: only what is read further on counts for a statement.
* `Rules.exists_rounds`: reading goes in rounds, each of which takes a token and makes a
  statement or a report.
* `Program.readTokens_goes_on`: reading any tokens comes to an end, and goes on with
  each statement or report.
-/

namespace ScalarLang

open ScalarLang.Parser

variable {α β : Type} {c next : Cursor} {D D' E E' F : Cursor → Prop}

/-! ## Readers that reply the same -/

/-- Whether two readers reply the same at these places, and leave the cursor at those
where something was read. -/
def Parser.SameOn (D E : Cursor → Prop) (p p' : Parser α) : Prop :=
  ∀ c, D c → p' c = p c ∧ ∀ a next, p c = .ok a next → E next

namespace Parser.SameOn

variable {p p' : Parser α} {g g' : α → Parser β}

theorem imp (h : SameOn D E p p') (hD : ∀ c, D' c → D c) (hE : ∀ c, E c → E' c) :
    SameOn D' E' p p' := by
  intro c hc
  obtain ⟨hsame, hnext⟩ := h c (hD c hc)
  exact ⟨hsame, fun a next ha => hE next (hnext a next ha)⟩

theorem bind (hp : SameOn D E p p') (hg : ∀ a, SameOn E F (g a) (g' a)) :
    SameOn D F (p >>= g) (p' >>= g') := by
  intro c hc
  obtain ⟨hsame, hnext⟩ := hp c hc
  show Parser.bind p' g' c = Parser.bind p g c ∧
    ∀ b last, Parser.bind p g c = .ok b last → F last
  unfold Parser.bind
  rw [hsame]
  cases hreply : p c with
  | ok a next => exact hg a next (hnext a next hreply)
  | fail | endless => exact ⟨rfl, fun _ _ h => nomatch h⟩

theorem pure (a : α) : SameOn D D (Pure.pure a) (Pure.pure a) := by
  intro c hc
  refine ⟨rfl, fun _ _ h => ?_⟩
  cases h
  exact hc

theorem fail (cause : Cause) (position : Position) :
    SameOn D E (Parser.fail cause position : Parser α) (Parser.fail cause position) :=
  fun _ _ => ⟨rfl, fun _ _ h => nomatch h⟩

theorem unexpected : SameOn D E (unexpected : Parser α) unexpected :=
  fun _ _ => ⟨rfl, fun _ _ h => nomatch h⟩

theorem unexpectedFor (message : String) :
    SameOn D E (unexpectedFor message : Parser α) (unexpectedFor message) :=
  fun _ _ => ⟨rfl, fun _ _ h => nomatch h⟩

theorem endless : SameOn D E (endless : Parser α) endless :=
  fun _ _ => ⟨rfl, fun _ _ h => nomatch h⟩

theorem current : SameOn D D current current := by
  intro c hc
  refine ⟨rfl, fun _ _ h => ?_⟩
  cases h
  exact hc

theorem previousEnd : SameOn D D previousEnd previousEnd := by
  intro c hc
  refine ⟨rfl, fun _ _ h => ?_⟩
  cases h
  exact hc

/-! ### One token further on -/

theorem advance : SameOn (fun c => D c.advance) D advance advance := by
  intro c hc
  refine ⟨rfl, fun _ _ h => ?_⟩
  cases h
  exact hc

theorem expect (kind : TokenKind) :
    SameOn (fun c => D c.advance) D (expect kind) (expect kind) := by
  refine current.bind fun token => ?_
  by_cases hkind : token.kind = kind
  · rw [if_pos hkind]
    exact advance
  · rw [if_neg hkind]
    exact unexpected

private theorem expectFor (kind : TokenKind) (message : String) :
    SameOn (fun c => D c.advance) D (expectFor kind message)
      (expectFor kind message) := by
  refine current.bind fun token => ?_
  by_cases hkind : token.kind = kind
  · rw [if_pos hkind]
    exact advance
  · rw [if_neg hkind]
    exact unexpectedFor message

end Parser.SameOn

/-! ## Rules with other readers inside -/

section

variable {item item' : Parser α} {expr expr' : ExprParser} {stmt stmt' : Parser Stmt}
  (hD : ∀ c : Cursor, D c → D c.advance)

include hD

theorem sameOn_advance : SameOn D D advance advance := SameOn.advance.imp hD fun _ => id

theorem sameOn_expect (kind : TokenKind) : SameOn D D (expect kind) (expect kind) :=
  (SameOn.expect kind).imp hD fun _ => id

theorem sameOn_expectFor (kind : TokenKind) (message : String) :
    SameOn D D (expectFor kind message) (expectFor kind message) :=
  (SameOn.expectFor kind message).imp hD fun _ => id

private theorem sameOn_commaSeparated (hitem : SameOn D D item item') :
    SameOn D D (commaSeparated item) (commaSeparated item') := by
  have hloop (n : Nat) : SameOn D D (commaLoop item n) (commaLoop item' n) := by
    induction n with
    | zero => exact .endless
    | succ n ih =>
        refine hitem.bind fun first => SameOn.current.bind fun token => ?_
        by_cases hcomma : token.kind = .comma
        · rw [if_pos hcomma, if_pos hcomma]
          exact (sameOn_advance hD).bind fun _ => ih.bind fun rest => .pure _
        · rw [if_neg hcomma, if_neg hcomma]
          exact .pure _
  exact fun c hc => hloop (c.ahead.length + 1) c hc

omit hD in
private theorem sameOn_untilClosed (hitem : SameOn D D item item') :
    SameOn D D (untilClosed item) (untilClosed item') := by
  have hloop (n : Nat) : SameOn D D (bodyLoop item n) (bodyLoop item' n) := by
    induction n with
    | zero => exact .endless
    | succ n ih =>
        refine SameOn.current.bind fun token => ?_
        by_cases hclosed : token.kind = .eof ∨ token.kind = .closeCurly
        · rw [if_pos hclosed, if_pos hclosed]
          exact .pure _
        · rw [if_neg hclosed, if_neg hclosed]
          exact hitem.bind fun first => ih.bind fun rest => .pure _
  exact fun c hc => hloop (c.ahead.length + 1) c hc

private theorem sameOn_readIdent : SameOn D D readIdent readIdent :=
  (sameOn_expectFor hD _ _).bind fun _ => .pure _

/-- Behind its semicolon, a statement only remembers where that ended. -/
theorem sameOn_semicolon {f : Position → Stmt} :
    SameOn D D (do let _ ← expect .semicolon; return f (← previousEnd))
      (do let _ ← expect .semicolon; return f (← previousEnd)) :=
  (sameOn_expect hD _).bind fun _ => SameOn.previousEnd.bind fun _ => .pure _

variable (hexpr : ∀ power, SameOn D D (expr power) (expr' power))

include hexpr

private theorem StartRule.sameOn_parse (rule : StartRule) :
    SameOn (fun c => D c.advance) D (rule.parse expr) (rule.parse expr') := by
  cases rule with
  | primary =>
      refine SameOn.current.bind fun token => ?_
      cases primaryOf token with
      | ok e => exact SameOn.advance.bind fun _ => .pure _
      | error cause => exact .fail _ _
  | operator =>
      refine SameOn.advance.bind fun operator => SameOn.current.bind fun token => ?_
      dsimp only
      cases (if operator.kind = .dash ∧
        token.kind = .integer then oppositeOf? token.value else none) with
      | some n => exact (sameOn_advance hD).bind fun _ => .pure _
      | none => exact (hexpr .unary).bind fun _ => .pure _
  | grouping =>
      exact SameOn.advance.bind fun _ => (hexpr .lowest).bind fun _ =>
        (sameOn_expect hD _).bind fun _ => .pure _

omit hD in
private theorem JoinRule.sameOn_parse (rule : JoinRule) (left : Expr) (power : Power) :
    SameOn (fun c => D c.advance) D (rule.parse expr left power)
      (rule.parse expr' left power) := by
  cases rule with
  | binary =>
      refine SameOn.advance.bind fun operator => ?_
      cases Level.ofOperator? operator.kind with
      | none => exact .fail _ _
      | some level => exact (hexpr power).bind fun _ => .pure _
  | assignment =>
      refine SameOn.advance.bind fun operator => ?_
      cases left with
      | symbol name span => exact (hexpr .lowest).bind fun _ => .pure _
      | _ => exact .fail _ _

private theorem sameOn_readCondition :
    SameOn D D (readCondition expr) (readCondition expr') :=
  (sameOn_expect hD _).bind fun _ => (hexpr .lowest).bind fun _ =>
    (sameOn_expect hD _).bind fun _ => .pure _

omit hexpr in
/-- An expression with its semicolon starts with the expression, which has to be the
same already there. -/
theorem sameOn_readEffect (hfirst : SameOn D' D (expr .lowest) (expr' .lowest)) :
    SameOn D' D (readEffect expr) (readEffect expr') :=
  hfirst.bind fun _ => sameOn_semicolon hD

omit hexpr in
private theorem sameOn_readType? : SameOn D D readType? readType? := by
  refine SameOn.current.bind fun token => ?_
  cases token.kind.ty? with
  | none => exact .pure _
  | some t => exact (sameOn_advance hD).bind fun _ => .pure _

variable (hstmt : SameOn D D stmt stmt')

include hstmt

omit hexpr in
private theorem sameOn_readAlternate :
    SameOn D D (readAlternate stmt) (readAlternate stmt') := by
  refine SameOn.current.bind fun token => ?_
  by_cases helse : token.kind = .elseWord
  · rw [if_pos helse, if_pos helse]
    exact (sameOn_advance hD).bind fun _ => hstmt.bind fun _ => .pure _
  · rw [if_neg helse, if_neg helse]
    exact .pure _

private theorem sameOn_readFor :
    SameOn (fun c => D c.advance) D (readFor expr stmt) (readFor expr' stmt') := by
  refine SameOn.advance.bind fun word => (sameOn_expect hD _).bind fun _ => ?_
  refine (sameOn_readType? hD).bind fun declared => ?_
  refine SameOn.current.bind fun first => (hexpr .lowest).bind fun init => ?_
  cases inductionOf declared init with
  | error cause => exact .fail _ _
  | ok induction =>
      refine (sameOn_expect hD _).bind fun _ => (hexpr .lowest).bind fun condition => ?_
      refine (sameOn_expect hD _).bind fun _ => (hexpr .lowest).bind fun step => ?_
      exact (sameOn_expect hD _).bind fun _ => hstmt.bind fun body =>
        SameOn.previousEnd.bind fun _ => .pure _

/-- A rule takes a token before it calls a reader, if it does not stand for all
rules. -/
theorem StmtRule.sameOn_parse {rule : StmtRule} (hrule : rule ≠ any) :
    SameOn (fun c => D c.advance) D (rule.parse expr stmt)
      (rule.parse expr' stmt') := by
  cases rule with
  | any => exact absurd rfl hrule
  | declaration =>
      refine SameOn.advance.bind fun word => ?_
      cases word.kind.ty? with
      | none => exact .unexpectedFor _
      | some t =>
          exact (sameOn_commaSeparated hD (sameOn_readIdent hD)).bind fun _ =>
            sameOn_semicolon hD
  | read =>
      exact SameOn.advance.bind fun _ =>
        (sameOn_commaSeparated hD (sameOn_readIdent hD)).bind fun _ =>
          sameOn_semicolon hD
  | write =>
      exact SameOn.advance.bind fun _ =>
        (sameOn_commaSeparated hD (hexpr .lowest)).bind fun _ => sameOn_semicolon hD
  | block =>
      refine (SameOn.expect _).bind fun brace =>
        (sameOn_untilClosed hstmt).bind fun body => ?_
      exact (sameOn_expectFor hD _ _).bind fun _ =>
        SameOn.previousEnd.bind fun _ => .pure _
  | empty => exact SameOn.advance.bind fun _ => .pure _
  | branch =>
      refine SameOn.advance.bind fun word =>
        (sameOn_readCondition hD hexpr).bind fun condition => ?_
      refine hstmt.bind fun consequent =>
        (sameOn_readAlternate hD hstmt).bind fun alternate => ?_
      exact SameOn.previousEnd.bind fun _ => .pure _
  | whileLoop =>
      refine SameOn.advance.bind fun word =>
        (sameOn_readCondition hD hexpr).bind fun condition => ?_
      exact hstmt.bind fun body => SameOn.previousEnd.bind fun _ => .pure _
  | forLoop => exact sameOn_readFor hD hexpr hstmt

end

/-! ## The length of the chains -/

/-- Whether there are fewer than this many tokens ahead, the last of which is the
end. -/
structure Cursor.Below (bound : Nat) (c : Cursor) : Prop where
  terminated : c.Terminated
  lt : c.ahead.length < bound

namespace Cursor

theorem Below.advance {bound : Nat} (h : c.Below bound) : c.advance.Below bound :=
  ⟨h.terminated.advance, Nat.lt_of_le_of_lt c.length_advance_le h.lt⟩

private theorem Below.advance_of_ne {bound : Nat} (h : c.Below (bound + 1))
    (hkind : c.current.kind ≠ .eof) :
    c.advance.Below bound := by
  have hlength := h.terminated.length_advance hkind
  have hlt := h.lt
  exact ⟨h.terminated.advance, by omega⟩

theorem Below.mono {bound bound' : Nat} (h : c.Below bound) (hle : bound ≤ bound') :
    c.Below bound' :=
  ⟨h.terminated, Nat.lt_of_lt_of_le h.lt hle⟩

private theorem Terminated.below (hc : c.Terminated) : c.Below (c.ahead.length + 1) :=
  ⟨hc, Nat.lt_succ_self _⟩

end Cursor

private theorem TokenKind.Flat.ne_eof {k : TokenKind} (h : k.Flat) : k ≠ .eof := by
  rintro rfl
  exact absurd h (by decide)

namespace Rules

open ScalarLang.Cursor (Below)

/-- Chains with a link for each token ahead and one more read the same expressions: a
rule takes a token before it reads another expression, and so does an operator. -/
theorem sameOn_within (bound : Nat) :
    ∀ n n', bound ≤ n → bound ≤ n' →
      (∀ power, SameOn (Below bound) (Below bound) (standard.exprWithin n power)
        (standard.exprWithin n' power)) ∧
      ∀ power left,
        SameOn (Below bound) (Below bound) (standard.operatorsWithin n power left)
          (standard.operatorsWithin n' power left) := by
  induction bound with
  | zero =>
      have hnone (c : Cursor) : ¬ c.Below 0 := fun hc => Nat.not_lt_zero _ hc.lt
      exact fun _ _ _ _ =>
        ⟨fun _ c hc => absurd hc (hnone c), fun _ _ c hc => absurd hc (hnone c)⟩
  | succ bound ih =>
      intro n n' hn hn'
      obtain ⟨m, rfl⟩ :=
        Nat.exists_eq_add_of_le' (Nat.le_trans (Nat.le_add_left 1 bound) hn)
      obtain ⟨m', rfl⟩ :=
        Nat.exists_eq_add_of_le' (Nat.le_trans (Nat.le_add_left 1 bound) hn')
      obtain ⟨hexpr, hoperators⟩ :=
        ih m m' (Nat.le_of_succ_le_succ hn) (Nat.le_of_succ_le_succ hn')
      have hclosed : ∀ c : Cursor, c.Below bound → c.advance.Below bound :=
        fun _ h => h.advance
      have hmono : ∀ c : Cursor, c.Below bound → c.Below (bound + 1) :=
        fun _ h => h.mono (Nat.le_succ bound)
      constructor
      · intro power c hc
        rw [exprWithin, exprWithin]
        dsimp only
        rw [current_bind, current_bind]
        cases hfind : standard.starts.find? c.current.kind with
        | none => exact SameOn.unexpected c hc
        | some rule =>
            have hrest := (rule.sameOn_parse hclosed hexpr).bind fun left =>
              hoperators power left
            exact hrest.imp (fun _ => id) hmono c
              (hc.advance_of_ne (flat_of_find?_starts hfind).ne_eof)
      · intro power left c hc
        rw [operatorsWithin, operatorsWithin]
        dsimp only
        rw [current_bind, current_bind]
        cases hfind : standard.joins.find? c.current.kind with
        | none => exact SameOn.pure left c hc
        | some found =>
            obtain ⟨rule, own⟩ := found
            dsimp only
            by_cases hpower : own.rank ≤ power.rank
            · rw [if_pos hpower, if_pos hpower]
              exact SameOn.pure left c hc
            · rw [if_neg hpower, if_neg hpower]
              have hrest := (rule.sameOn_parse hexpr left own).bind fun joined =>
                hoperators power joined
              exact hrest.imp (fun _ => id) hmono c
                (hc.advance_of_ne (flat_of_find?_joins hfind).ne_eof)

/-! ### Statements -/

/-- Reads a statement by the rule for the current token, with these readers inside. -/
def dispatch (r : Rules) (expr : ExprParser) (stmt : Parser Stmt) : Parser Stmt := do
  let token ← current
  match r.stmts.find? token.kind with
  | some rule => rule.parse expr stmt
  | .none => readEffect expr

private theorem stmtWithin_succ (r : Rules) (n : Nat) :
    r.stmtWithin (n + 1) = r.dispatch (r.exprWithin n) (r.stmtWithin n) := rfl

/-- Readers that reply the same further on make the same statement here, if those for
expressions do so here too. -/
theorem sameOn_dispatch {expr expr' : ExprParser} {stmt stmt' : Parser Stmt}
    (hD : ∀ c : Cursor, D c → D c.advance)
    (hstart : ∀ c, D' c → c.current.kind ≠ .eof → D c.advance)
    (hexpr : ∀ power, SameOn D D (expr power) (expr' power))
    (hfirst : SameOn D' D (expr .lowest) (expr' .lowest))
    (hstmt : SameOn D D stmt stmt') :
    SameOn D' D (standard.dispatch expr stmt) (standard.dispatch expr' stmt') := by
  intro c hc
  unfold dispatch
  rw [current_bind, current_bind]
  cases hfind : standard.stmts.find? c.current.kind with
  | none => exact sameOn_readEffect hD hfirst c hc
  | some rule =>
      have hstarts := starts_of_find?_stmts hfind
      have hrule : rule ≠ .any := by
        rintro rfl
        exact hstarts.elim
      have heof : c.current.kind ≠ .eof := by
        intro heq
        rw [heq] at hfind
        cases hfind
      exact StmtRule.sameOn_parse hD hexpr hstmt hrule c (hstart c hc heof)

private theorem exists_reaches_of_exprWithin {n : Nat} {power : Power} {e : Expr}
    (hc : c.Terminated) (hn : c.ahead.length < n)
    (h : standard.exprWithin n power c = .ok e next) :
    ∃ ts, c.Reaches ts next ∧ ts ≠ [] := by
  have hexpresses := (expresses_within n).1 power c hc hn
  rw [h] at hexpresses
  obtain ⟨ts, hts, -, hle⟩ := hexpresses
  exact ⟨ts, hts, List.ne_nil_of_length_pos hle⟩

/-- Chains with two links more than there are tokens ahead read the same statements. -/
theorem sameOn_stmtWithin (bound : Nat) :
    ∀ n n', bound < n → bound < n' →
      SameOn (Below bound) (Below bound) (standard.stmtWithin n)
        (standard.stmtWithin n') := by
  induction bound with
  | zero => exact fun _ _ _ _ _ hc => absurd hc.lt (Nat.not_lt_zero _)
  | succ bound ih =>
      intro n n' hn hn'
      obtain ⟨m, rfl⟩ := Nat.exists_eq_add_of_le'
        (Nat.le_trans (Nat.le_add_left 1 bound) (Nat.le_of_lt hn))
      obtain ⟨m', rfl⟩ := Nat.exists_eq_add_of_le'
        (Nat.le_trans (Nat.le_add_left 1 bound) (Nat.le_of_lt hn'))
      have hm : bound + 1 ≤ m := Nat.le_of_lt_succ hn
      have hm' : bound + 1 ≤ m' := Nat.le_of_lt_succ hn'
      have hexpr :=
        (sameOn_within bound m m' (Nat.le_of_succ_le hm) (Nat.le_of_succ_le hm')).1
      -- A statement without a rule is an expression from here on, which takes a token
      -- before anything else is read.
      have hfirst :
          SameOn (Below (bound + 1)) (Below bound) (standard.exprWithin m .lowest)
            (standard.exprWithin m' .lowest) := by
        intro c hc
        refine ⟨((sameOn_within (bound + 1) m m' hm hm').1 .lowest c hc).1,
          fun e next he => ?_⟩
        obtain ⟨ts, hts, hne⟩ :=
          exists_reaches_of_exprWithin hc.terminated (Nat.lt_of_lt_of_le hc.lt hm) he
        have hlength := hts.length_add
        have hpos := List.length_pos_iff.mpr hne
        have hlt := hc.lt
        exact ⟨hts.terminated hc.terminated, by omega⟩
      rw [stmtWithin_succ, stmtWithin_succ]
      refine (sameOn_dispatch (fun _ h => h.advance)
        (fun c hc heof => hc.advance_of_ne heof) hexpr hfirst (ih m m' hm hm')).imp
          (fun _ => id) fun _ h => h.mono (Nat.le_succ bound)

private theorem exprWithin_eq_expr {n : Nat} (hc : c.Terminated)
    (hn : c.ahead.length < n) (power : Power) :
    standard.exprWithin n power c = standard.expr power c := by
  have hbound : c.ahead.length + 1 ≤ chainBound c := Nat.le_of_lt (lt_chainBound c)
  exact ((sameOn_within _ (chainBound c) n hbound hn).1 power c hc.below).1

/-- The length of the chains does not count where it is enough for each token ahead. -/
theorem stmtWithin_eq_stmt {n : Nat} (hc : c.Terminated) (hn : c.ahead.length + 1 < n) :
    standard.stmtWithin n c = standard.stmt c :=
  (sameOn_stmtWithin _ (chainBound c) n (lt_chainBound c) hn c hc.below).1

end Rules

/-! ## Further on -/

namespace Cursor

/-- Whether a cursor comes to another one by taking a token or more. -/
def Later (c c' : Cursor) : Prop := ∃ ts, c.Reaches ts c' ∧ ts ≠ []

theorem Later.trans {c' : Cursor} {ts : List Token} (h : c.Later next)
    (h' : next.Reaches ts c') : c.Later c' := by
  obtain ⟨us, hus, hne⟩ := h
  exact ⟨us ++ ts, hus.trans h', List.append_ne_nil_of_left_ne_nil hne ts⟩

private theorem exists_reaches_advance (c : Cursor) : ∃ ts, c.Reaches ts c.advance := by
  cases hahead : c.ahead with
  | nil =>
      have hstill : c.advance = c := by
        unfold Cursor.advance
        rw [hahead]
      exact ⟨[], by rw [hstill]; exact .refl⟩
  | cons t ts =>
      exact ⟨[c.current], .step (by rw [hahead]; exact List.cons_ne_nil t ts) .refl⟩

private theorem Later.advance (h : c.Later next) : c.Later next.advance := by
  obtain ⟨ts, hts⟩ := next.exists_reaches_advance
  exact h.trans hts

theorem Terminated.later_advance (hc : c.Terminated) (hkind : c.current.kind ≠ .eof) :
    c.Later c.advance :=
  ⟨[c.current], hc.reaches_advance hkind, List.cons_ne_nil _ _⟩

private theorem Later.terminated (h : c.Later next) (hc : c.Terminated) :
    next.Terminated := by
  obtain ⟨ts, hts, -⟩ := h
  exact hts.terminated hc

private theorem Later.length_lt (h : c.Later next) :
    next.ahead.length < c.ahead.length := by
  obtain ⟨ts, hts, hne⟩ := h
  have hlength := hts.length_add
  have hpos := List.length_pos_iff.mpr hne
  omega

/-- Resuming takes the current token first, if it is not the end. -/
theorem resume_eq (hne : c.ahead ≠ []) (hkind : c.current.kind ≠ .eof) :
    c.resume = if c.current.kind = .semicolon ∨
    c.current.kind = .closeCurly then c.advance else c.advance.resume := by
  obtain ⟨previousEnd, current, ahead⟩ := c
  cases ahead with
  | nil => exact absurd rfl hne
  | cons t ts => exact if_neg hkind

theorem exists_reaches_resume (c : Cursor) : ∃ ts, c.Reaches ts c.resume := by
  induction hlength : c.ahead.length generalizing c with
  | zero =>
      obtain ⟨previousEnd, current, ahead⟩ := c
      obtain rfl := List.length_eq_zero_iff.mp hlength
      exact ⟨[], .refl⟩
  | succ n ih =>
      have hne : c.ahead ≠ [] := List.ne_nil_of_length_eq_add_one hlength
      by_cases hkind : c.current.kind = .eof
      · obtain ⟨previousEnd, current, ahead⟩ := c
        obtain ⟨t, ts, rfl⟩ := List.exists_cons_of_ne_nil hne
        have hstill : (⟨previousEnd, current, t :: ts⟩ : Cursor).resume =
            ⟨previousEnd, current, t :: ts⟩ :=
          if_pos hkind
        exact ⟨[], by rw [hstill]; exact .refl⟩
      · have hadvance : c.advance.ahead.length = n := by
          have htokens := congrArg List.length (tokens_eq_cons_advance hne)
          unfold tokens at htokens
          rw [List.length_cons, List.length_cons, List.length_cons] at htokens
          omega
        rw [resume_eq hne hkind]
        split
        · exact ⟨[c.current], .step hne .refl⟩
        · obtain ⟨ts, hts⟩ := ih c.advance hadvance
          exact ⟨c.current :: ts, .step hne hts⟩

/-- Resuming goes on where there is a token to resume behind. -/
theorem Terminated.later_resume (hc : c.Terminated) (hkind : c.current.kind ≠ .eof) :
    c.Later c.resume := by
  rw [resume_eq (hc.ahead_ne_nil hkind) hkind]
  split
  · exact hc.later_advance hkind
  · obtain ⟨ts, hts⟩ := c.advance.exists_reaches_resume
    exact (hc.later_advance hkind).trans hts

end Cursor

namespace Rules

/-! ## One statement -/

/-! The readers that are given to the rule at a place have chains that are long enough
for all places from there on. -/

private theorem lt_innerBound {c' : Cursor} (h : c'.ahead.length ≤ c.ahead.length) :
    c'.ahead.length + 1 < innerBound c := by
  unfold innerBound
  omega

private theorem exprWithin_of_reaches {ts : List Token} {c' : Cursor}
    (hc : c.Terminated) (hts : c.Reaches ts c') (power : Power) :
    standard.exprWithin (innerBound c) power c' = standard.expr power c' ∧
      ∀ e next, standard.exprWithin (innerBound c) power c' = .ok e next →
        c.Later next := by
  have hlength := hts.length_add
  have hbound : c'.ahead.length < innerBound c :=
    Nat.lt_of_succ_lt (lt_innerBound (by omega))
  refine ⟨exprWithin_eq_expr (hts.terminated hc) hbound power, fun e next he => ?_⟩
  obtain ⟨us, hus, hne⟩ := exists_reaches_of_exprWithin (hts.terminated hc) hbound he
  exact ⟨ts ++ us, hts.trans hus, List.append_ne_nil_of_right_ne_nil ts hne⟩

private theorem stmtWithin_of_later {c' : Cursor} (hc : c.Terminated) (h : c.Later c') :
    standard.stmtWithin (innerBound c) c' = standard.stmt c' ∧
      ∀ s next, standard.stmtWithin (innerBound c) c' = .ok s next → c.Later next := by
  have heq :=
    stmtWithin_eq_stmt (h.terminated hc) (lt_innerBound (Nat.le_of_lt h.length_lt))
  refine ⟨heq, fun s next hs => ?_⟩
  obtain ⟨us, hus, -⟩ := exists_reaches_of_stmt (h.terminated hc) (heq.symm.trans hs)
  exact h.trans hus

/-- A statement is made of what is read further on, apart from the expression it may
start with: other readers inside make the same one if they reply the same there. -/
theorem dispatch_eq_stmt {expr' : ExprParser} {stmt' : Parser Stmt} (hc : c.Terminated)
    (hexpr : ∀ power ts c', c.Reaches ts c' → expr' power c' = standard.expr power c')
    (hstmt : ∀ c', c.Later c' → stmt' c' = standard.stmt c') :
    standard.dispatch expr' stmt' c = standard.stmt c := by
  have hreached {power : Power} {ts : List Token} {c' : Cursor}
      (hts : c.Reaches ts c') :
      expr' power c' = standard.exprWithin (innerBound c) power c' ∧
        ∀ e next, standard.exprWithin (innerBound c) power c' = .ok e next →
          c.Later next := by
    obtain ⟨heq, hnext⟩ := exprWithin_of_reaches hc hts power
    exact ⟨(hexpr power ts c' hts).trans heq.symm, hnext⟩
  have hinside (power : Power) :
      SameOn c.Later c.Later (standard.exprWithin (innerBound c) power)
        (expr' power) := by
    rintro c' ⟨ts, hts, -⟩
    exact hreached hts
  have hfirst : SameOn (· = c) c.Later (standard.exprWithin (innerBound c) .lowest)
      (expr' .lowest) := by
    rintro c' rfl
    exact hreached .refl
  have hstmts : SameOn c.Later c.Later (standard.stmtWithin (innerBound c)) stmt' := by
    intro c' hc'
    obtain ⟨heq, hnext⟩ := stmtWithin_of_later hc hc'
    exact ⟨(hstmt c' hc').trans heq.symm, hnext⟩
  refine (sameOn_dispatch (fun _ h => h.advance) ?_ hinside hfirst hstmts c rfl).1
  rintro c' rfl hkind
  exact hc.later_advance hkind

/-- A block reads the statements in it as the program reads its own. -/
theorem stmt_of_openCurly (hc : c.Terminated) (hkind : c.current.kind = .openCurly) :
    standard.stmt c = readBlock standard.stmt c := by
  have hdispatch : standard.dispatch standard.expr standard.stmt c = standard.stmt c :=
    dispatch_eq_stmt hc (fun _ _ _ _ => rfl) fun _ _ => rfl
  rw [← hdispatch, dispatch, current_bind, hkind]
  rfl

/-- What is known of the place of a statement, whatever is made of the tokens there. -/
structure GoesOn (c : Cursor) : Prop where
  /-- Only what is read further on counts, and the expression that stands here. -/
  later : ∀ (expr' : ExprParser) (stmt' : Parser Stmt),
    (∀ power ts c', c.Reaches ts c' → expr' power c' = standard.expr power c') →
      (∀ c', c.Later c' → stmt' c' = standard.stmt c') →
      standard.dispatch expr' stmt' c = standard.stmt c
  block : c.current.kind = .openCurly → standard.stmt c = readBlock standard.stmt c
  /-- The length of the chains does not count. -/
  within : ∀ n, c.ahead.length + 1 < n → standard.stmtWithin n c = standard.stmt c
  replies : standard.stmt c ≠ .endless
  ok : ∀ s next, standard.stmt c = .ok s next → c.Later next
  fail : ∀ d stop, standard.stmt c = .fail d stop → c.current.kind ≠ .eof →
  c.Later stop.resume

private theorem goesOn (hc : c.Terminated) : GoesOn c where
  later _ _ := dispatch_eq_stmt hc
  block := stmt_of_openCurly hc
  within _ := stmtWithin_eq_stmt hc
  replies h := by
    have hstates := states_stmt hc
    rw [h] at hstates
    exact hstates
  ok s next h := exists_reaches_of_stmt hc h
  fail d stop h hkind := by
    have hstates := states_stmt hc
    rw [h] at hstates
    obtain ⟨ts, hts, -⟩ := hstates
    obtain ⟨us, hus⟩ := stop.exists_reaches_resume
    cases ts with
    | nil =>
        -- Nothing was taken, and so reading stands in front of the token
        -- it started with.
        cases hts
        exact hc.later_resume hkind
    | cons t ts => exact ⟨t :: ts ++ us, hts.trans hus, List.cons_ne_nil _ _⟩

/-! ## All statements -/

/-- Reading in rounds, with the tokens that each of them takes. A round reads a
statement, or gives one up and resumes behind it; either way it takes a token. -/
inductive Rounds : Cursor → List (List Token) → Reading → Prop
  | stop {c : Cursor} (hkind : c.current.kind = .eof) : Rounds c [] ⟨[], [], true, c⟩
  | read {c next : Cursor} {s : Stmt} {ts : List Token} {rounds : List (List Token)}
      {reading : Reading}
      (hkind : c.current.kind ≠ .eof) (h : standard.stmt c = .ok s next)
      (hts : c.Reaches ts next) (hne : ts ≠ [])
      (hrest : Rounds next rounds reading) :
      Rounds c (ts :: rounds) (reading.behind (.ok s))
  | report {c stop : Cursor} {d : Diagnostic} {ts : List Token}
      {rounds : List (List Token)} {reading : Reading}
      (hkind : c.current.kind ≠ .eof) (h : standard.stmt c = .fail d stop)
      (hts : c.Reaches ts stop.resume)
      (hne : ts ≠ []) (hrest : Rounds stop.resume rounds reading) :
      Rounds c (ts :: rounds) (reading.behind (.error d))

namespace Rounds

variable {rounds : List (List Token)} {reading : Reading}

private theorem finished (h : Rounds c rounds reading) : reading.finished = true := by
  induction h with
  | stop => rfl
  | read _ _ _ _ _ ih | report _ _ _ _ _ ih => exact ih

private theorem ne_nil (h : Rounds c rounds reading) : ∀ ts ∈ rounds, ts ≠ [] := by
  induction h with
  | stop => exact List.forall_mem_nil _
  | read _ _ _ hne _ ih | report _ _ _ hne _ ih =>
      exact List.forall_mem_cons.mpr ⟨hne, ih⟩

private theorem reaches (h : Rounds c rounds reading) :
    c.Reaches rounds.flatten reading.stop := by
  induction h with
  | stop => exact .refl
  | read _ _ hts _ _ ih | report _ _ hts _ _ ih => exact hts.trans ih

/-- There is a statement or a report for each round. -/
theorem length_eq (h : Rounds c rounds reading) :
    reading.body.length + reading.errors.length = rounds.length := by
  induction h with
  | stop => rfl
  | @read c next s ts rounds reading _ _ _ _ _ ih =>
      show reading.body.length + 1 + reading.errors.length = rounds.length + 1
      omega
  | @report c stop d ts rounds reading _ _ _ _ _ ih =>
      show reading.body.length + (reading.errors.length + 1) = rounds.length + 1
      omega

/-- There are no more rounds than there are tokens ahead. -/
theorem length_le (h : Rounds c rounds reading) :
    reading.body.length + reading.errors.length ≤ c.ahead.length := by
  have hflatten := Program.length_le_flatten h.ne_nil
  have hadded := h.reaches.length_add
  have hlength := h.length_eq
  omega

end Rounds

/-- As each round takes a token, one for each token ahead and one more are enough. -/
theorem exists_rounds {n : Nat} (hc : c.Terminated) (hn : c.ahead.length < n) :
    ∃ rounds, Rounds c rounds (standard.readStatements n c) := by
  induction n generalizing c with
  | zero => exact absurd hn (Nat.not_lt_zero _)
  | succ n ih =>
      by_cases hkind : c.current.kind = .eof
      · rw [readStatements_eof hkind]
        exact ⟨[], .stop hkind⟩
      have hrest {next : Cursor} (hlater : c.Later next) :
          ∃ rounds, Rounds next rounds (standard.readStatements n next) := by
        have hlt := hlater.length_lt
        exact ih (hlater.terminated hc) (by omega)
      cases hreply : standard.stmt c with
      | ok s next =>
          have hlater := (goesOn hc).ok s next hreply
          obtain ⟨rounds, hrounds⟩ := hrest hlater
          obtain ⟨ts, hts, hne⟩ := hlater
          rw [readStatements_ok hkind hreply]
          exact ⟨ts :: rounds, .read hkind hreply hts hne hrounds⟩
      | fail d stop =>
          have hlater := (goesOn hc).fail d stop hreply hkind
          obtain ⟨rounds, hrounds⟩ := hrest hlater
          obtain ⟨ts, hts, hne⟩ := hlater
          rw [readStatements_fail hkind hreply]
          exact ⟨ts :: rounds, .report hkind hreply hts hne hrounds⟩
      | endless => exact absurd hreply (goesOn hc).replies

end Rules

namespace Program

open Rules

/-- Whatever the tokens are, reading them comes to an end. It goes in rounds that take
a token each and make a statement or a report, so that there are no more of these than
there are tokens. At each place from which a statement can be read, in a block or not,
there is a reply, which follows from those further on, and a statement that is read
has taken a token. -/
theorem readTokens_goes_on (file : String) (tokens : List Token) :
    (readTokens file tokens).finished = true ∧
      (∃ rounds, Rounds (.ofTokens file tokens) rounds (readTokens file tokens)) ∧
      (readTokens file tokens).body.length + (readTokens file tokens).errors.length ≤
        tokens.length ∧
      ∀ ts c, (Cursor.ofTokens file tokens).Reaches ts c → Rules.GoesOn c := by
  have hstart := Cursor.terminated_ofTokens file tokens
  have hle := Cursor.length_ofTokens_le file tokens
  obtain ⟨rounds, hrounds⟩ := exists_rounds (n := tokens.length + 2) hstart (by omega)
  have hlength := Nat.le_trans hrounds.length_le hle
  exact ⟨hrounds.finished, ⟨rounds, hrounds⟩, hlength,
    fun ts c hts => goesOn (hts.terminated hstart)⟩

/-- A closing brace that nothing opens, a brace that nothing closes, and the end in the
middle: the first statement is given up in front of its first token, and reading stops
at the end that comes first. -/
theorem readTokens_goes_on_at_stray_brace :
    ∃ (tokens : List Token) (d : Diagnostic) (stop : Cursor),
      tokens.map Token.lexeme = [(.closeCurly, "\x7d"), (.openCurly, "\x7b"),
        (.eof, "EOF"), (.semicolon, ";")] ∧
      standard.stmt (.ofTokens "a" tokens) = .fail d stop ∧
      stop = .ofTokens "a" tokens ∧
      (Cursor.ofTokens "a" tokens).Later stop.resume ∧
      (readTokens "a" tokens).finished = true ∧
      (readTokens "a" tokens).errors.length = 2 ∧
      (readTokens "a" tokens).body.length + (readTokens "a" tokens).errors.length ≤
        tokens.length := by
  let token (l : Lexeme) : Token := ⟨l.1, l.2, .at (.first "a")⟩
  let tokens : List Token :=
    [(.closeCurly, "\x7d"), (.openCurly, "\x7b"), (.eof, "EOF"),
      (.semicolon, ";")].map token
  obtain ⟨hfinished, -, hle, hgoesOn⟩ := readTokens_goes_on "a" tokens
  obtain ⟨d, hfail⟩ : ∃ d,
      standard.stmt (.ofTokens "a" tokens) = .fail d (.ofTokens "a" tokens) := ⟨_, rfl⟩
  have hlater := (hgoesOn [] _ .refl).fail d _ hfail TokenKind.noConfusion
  exact ⟨tokens, d, _, rfl, hfail, rfl, hlater, hfinished, rfl, hle⟩

end Program

end ScalarLang
