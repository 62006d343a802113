import ScalarLang.Proofs.Recovery

/-!
# A mistake inside blocks

A block is read by one rule, and so it is given up as a whole where a statement in it
is: the report is that of the statement, and so is the place where reading resumes
(`Rules.Breaks`). But behind the semicolon of the statement no block is open any more.
What is left of the blocks is read as statements of the program, and each closing brace
that is left of them starts none.

So a mistake in a flat statement is reported once, and every block around the statement
adds a report on its closing brace.

## Main results

* `Program.ofTokens_spoilt`: the reports where the tokens of one statement are
  replaced by others.
-/

namespace ScalarLang

open ScalarLang.Parser ScalarLang.Token

variable {start c c' next last : Cursor} {t semi : Token} {s : Stmt} {ss : List Stmt}
  {d : Diagnostic} {flat back back' rest : List Token} {opened : List Cursor}
  {closing : List Token}

/-! ## What the rules read -/

/-- Whether a statement has no statement in it. -/
def Stmt.Plain : Stmt → Prop
  | .declaration .. | .read .. | .write .. | .effect .. => True
  | _ => False

/-- Whether a statement is one of those that a rule reads. -/
def StmtRule.Reads : StmtRule → Stmt → Prop
  | any, _ => True
  | declaration, .declaration .. => True
  | read, .read .. => True
  | write, .write .. => True
  | block, .block .. => True
  | empty, .block [] _ => True
  | branch, .branch .. => True
  | whileLoop, .whileLoop .. => True
  | forLoop, .forLoop .. => True
  | _, _ => False

/-- Whether a statement is one of a list, or directly in blocks that are nested
this deep there. -/
inductive Stmt.Lies (s : Stmt) : Nat → List Stmt → Prop
  | here {body : List Stmt} (h : s ∈ body) : Lies s 0 body
  | inside {body inner : List Stmt} {span : Span} {depth : Nat}
      (hblock : Stmt.block inner span ∈ body)
      (h : Lies s depth inner) : Lies s (depth + 1) body

private theorem Stmt.Lies.ne_nil {depth : Nat} (h : s.Lies depth ss) : ss ≠ [] := by
  cases h with
  | here h => exact List.ne_nil_of_mem h
  | inside hblock _ => exact List.ne_nil_of_mem hblock

/-- Whether a reply is something with a property, unless nothing was read. -/
def Reply.Gives {α : Type} (P : α → Prop) : Reply α → Prop
  | .ok a _ => P a
  | .fail _ _ | .endless => True

namespace Parser

variable {α β : Type} {p : Parser α} {g : α → Parser β}

theorem gives_bind {P : β → Prop} (hg : ∀ a next, (g a next).Gives P) :
    ((p >>= g) c).Gives P := by
  show (Parser.bind p g c).Gives P
  unfold Parser.bind
  cases p c with
  | ok a next => exact hg a next
  | fail | endless => trivial

theorem exists_of_bind_eq_ok {b : β} (h : (p >>= g) c = .ok b last) :
    ∃ a next, p c = .ok a next ∧ g a next = .ok b last := by
  change Parser.bind p g c = _ at h
  unfold Parser.bind at h
  cases hreply : p c with
  | ok a next =>
      rw [hreply] at h
      exact ⟨a, next, rfl, h⟩
  | fail | endless =>
      rw [hreply] at h
      cases h

private theorem of_expectFor_eq_ok {kind : TokenKind} {message : String}
    (h : expectFor kind message c = .ok t next) :
    c.current.kind = kind ∧ next = c.advance := by
  change (if c.current.kind = kind then advance else unexpectedFor message) c = _ at h
  by_cases hkind : c.current.kind = kind
  · rw [if_pos hkind] at h
    cases h
    exact ⟨hkind, rfl⟩
  · rw [if_neg hkind] at h
    cases h

end Parser

private theorem StmtRule.gives_parse (rule : StmtRule) (expr : ExprParser)
    (stmt : Parser Stmt) :
    (rule.parse expr stmt c).Gives rule.Reads := by
  cases rule with
  | any =>
      show (stmt c).Gives fun _ => True
      cases stmt c <;> trivial
  | declaration =>
      refine gives_bind fun word next => ?_
      cases word.kind.ty? with
      | none => trivial
      | some t => exact gives_bind fun _ _ => gives_bind fun _ _ => trivial
  | read =>
      exact gives_bind fun _ _ => gives_bind fun _ _ => gives_bind fun _ _ => trivial
  | write =>
      exact gives_bind fun _ _ => gives_bind fun _ _ => gives_bind fun _ _ => trivial
  | block =>
      exact gives_bind fun _ _ => gives_bind fun _ _ => gives_bind fun _ _ => trivial
  | empty => trivial
  | branch =>
      exact gives_bind fun _ _ => gives_bind fun _ _ => gives_bind fun _ _ =>
        gives_bind fun _ _ => trivial
  | whileLoop =>
      exact gives_bind fun _ _ => gives_bind fun _ _ => gives_bind fun _ _ => trivial
  | forLoop =>
      refine gives_bind fun _ _ => gives_bind fun _ _ => gives_bind fun declared _ =>
        gives_bind fun _ _ => ?_
      refine gives_bind fun init _ => ?_
      cases inductionOf declared init with
      | error cause => trivial
      | ok induction =>
          refine gives_bind fun _ _ => gives_bind fun _ _ => gives_bind fun _ _ =>
            gives_bind fun _ _ => ?_
          exact gives_bind fun _ _ => gives_bind fun _ _ => trivial

/-- The report on a token that no statement starts with. -/
def Token.complaint (t : Token) : Diagnostic := ⟨.unexpectedToken t.value, t.span.start⟩

namespace Rules

/-- The length of the chain that the rule for a statement is given. -/
def innerBound (c : Cursor) : Nat := 2 * c.ahead.length + 7

private theorem stmt_of_find? {rule : StmtRule}
    (hfind : standard.stmts.find? c.current.kind = some rule) :
    standard.stmt c = rule.parse (standard.exprWithin (innerBound c))
      (standard.stmtWithin (innerBound c)) c := by
  show standard.stmtWithin (innerBound c + 1) c = _
  rw [stmtWithin, current_bind, hfind]

private theorem stmt_of_find?_none
    (hfind : standard.stmts.find? c.current.kind = .none) :
    standard.stmt c = readEffect (standard.exprWithin (innerBound c)) c := by
  show standard.stmtWithin (innerBound c + 1) c = _
  rw [stmtWithin, current_bind, hfind]

private theorem reads_of_find? {rule : StmtRule}
    (hfind : standard.stmts.find? c.current.kind = some rule)
    (h : standard.stmt c = .ok s next) : rule.Reads s := by
  have hgives := rule.gives_parse (c := c) (standard.exprWithin (innerBound c))
    (standard.stmtWithin (innerBound c))
  rw [← stmt_of_find? hfind, h] at hgives
  exact hgives

/-- Only between braces are there statements in a block. -/
theorem openCurly_of_block {span : Span}
    (h : standard.stmt c = .ok (.block ss span) next) (hss : ss ≠ []) :
    c.current.kind = .openCurly := by
  cases hfind : standard.stmts.find? c.current.kind with
  | none =>
      have hgives : (standard.stmt c).Gives fun s => ∀ ss span, s ≠ .block ss span := by
        rw [stmt_of_find?_none hfind]
        exact gives_bind fun _ _ => gives_bind fun _ _ _ _ => Stmt.noConfusion
      rw [h] at hgives
      exact absurd rfl (hgives ss span)
  | some rule =>
      have hstarts := starts_of_find?_stmts hfind
      have hreads := reads_of_find? hfind h
      cases rule with
      | any => exact hstarts.elim
      | block => exact hstarts
      | empty =>
          cases ss with
          | nil => exact absurd rfl hss
          | cons => exact hreads.elim
      | declaration | read | write | branch | whileLoop | forLoop => exact hreads.elim

/-- A statement without statements in it is flat. -/
theorem segment_of_plain (hc : c.Terminated) (h : standard.stmt c = .ok s next)
    (hs : s.Plain) :
    ∃ ts, c.Reaches ts next ∧ Segment ts := by
  have hexpr := (expresses_within (innerBound c)).1
  have hbound : c.ahead.length < innerBound c := by
    unfold innerBound
    omega
  have hconcludes : (standard.stmt c).Concludes c := by
    cases hfind : standard.stmts.find? c.current.kind with
    | none =>
        rw [stmt_of_find?_none hfind]
        exact concludes_readEffect hexpr hc hbound
    | some rule =>
        have hreads := reads_of_find? hfind h
        rw [stmt_of_find? hfind]
        apply StmtRule.concludes_parse hexpr hc hbound.le (starts_of_find?_stmts hfind)
        cases rule with
        | any => exact (starts_of_find?_stmts hfind).elim
        | declaration | read | write => decide
        | block | empty | branch | whileLoop | forLoop =>
            cases s <;> first | exact hs.elim | exact hreads.elim
  rw [h] at hconcludes
  exact hconcludes

/-- No statement starts at a closing brace, at an `else` or at the end. -/
theorem stmt_eq_fail (h : c.current.kind ∈ [TokenKind.closeCurly, .elseWord, .eof]) :
    standard.stmt c = .fail c.current.complaint c := by
  have hstmts : ∀ k ∈ [TokenKind.closeCurly, .elseWord, .eof],
      standard.stmts.find? k = .none := by decide
  have hstarts : ∀ k ∈ [TokenKind.closeCurly, .elseWord, .eof],
      standard.starts.find? k = .none := by decide
  rw [stmt_of_find?_none (hstmts _ h), readEffect]
  apply bind_of_eq_fail
  show standard.exprWithin (2 * c.ahead.length + 6 + 1) .lowest c = _
  rw [exprWithin]
  dsimp only
  rw [current_bind, hstarts _ h]
  rfl

theorem not_mem_of_stmt_eq_ok (h : standard.stmt c = .ok s next) :
    c.current.kind ∉ [TokenKind.closeCurly, .elseWord, .eof] := by
  intro hkind
  rw [stmt_eq_fail hkind] at h
  cases h

theorem exists_reaches_of_stmt (hc : c.Terminated) (h : standard.stmt c = .ok s next) :
    ∃ ts, c.Reaches ts next ∧ ts ≠ [] := by
  have hstates := states_stmt hc
  rw [h] at hstates
  obtain ⟨ts, hts, hsentence⟩ := hstates
  exact ⟨ts, hts, hsentence.ne_nil⟩

/-! ## Statements in a row -/

/-- Whether statements are read one after the other from a cursor on, up to another
one. -/
inductive Row : Cursor → List Stmt → Cursor → Prop
  | nil {c : Cursor} : Row c [] c
  | cons {c next last : Cursor} {s : Stmt} {ss : List Stmt}
      (h : standard.stmt c = .ok s next)
      (hrest : Row next ss last) : Row c (s :: ss) last

private theorem Row.exists_reaches (h : Row c ss last) (hc : c.Terminated) :
    ∃ ts, c.Reaches ts last ∧ ss.length ≤ ts.length := by
  induction h with
  | nil => exact ⟨[], .refl, Nat.le_refl 0⟩
  | cons h _ ih =>
      obtain ⟨ts, hts, hne⟩ := exists_reaches_of_stmt hc h
      obtain ⟨us, hus, hle⟩ := ih (hts.terminated hc)
      have hpos := List.length_pos_iff.mpr hne
      refine ⟨ts ++ us, hts.trans hus, ?_⟩
      rw [List.length_append, List.length_cons]
      omega

/-- As each statement takes a token, there is a step left behind a row of them. -/
theorem Row.exists_steps (h : Row c ss last) (hc : c.Terminated) {n : Nat}
    (hn : c.ahead.length < n) :
    ∃ k, n = ss.length + (k + 1) ∧ last.ahead.length ≤ k ∧ last.Terminated := by
  obtain ⟨ts, hts, hle⟩ := h.exists_reaches hc
  have hlength := hts.length_add
  exact ⟨n - ss.length - 1, by omega, by omega, hts.terminated hc⟩

/-- The statements of a program are read in a row up to the end. -/
theorem row_of_readStatements {n : Nat}
    (h : standard.readStatements n c = ⟨ss, [], true, last⟩) :
    Row c ss last ∧ last.current.kind = .eof := by
  induction n generalizing c ss with
  | zero => cases h
  | succ n ih =>
      by_cases hkind : c.current.kind = .eof
      · rw [readStatements_eof hkind] at h
        cases h
        exact ⟨.nil, hkind⟩
      · cases hreply : standard.stmt c with
        | ok s next =>
            rw [readStatements_ok hkind hreply] at h
            generalize hlater : standard.readStatements n next = later at h
            obtain ⟨body, errors, finished, stop⟩ := later
            cases h
            obtain ⟨hrow, hlast⟩ := ih hlater
            exact ⟨.cons hreply hrow, hlast⟩
        | fail d stop =>
            rw [readStatements_fail hkind hreply] at h
            cases h
        | endless =>
            rw [readStatements, if_pos (hasTokens_of_ne hkind), hreply] at h
            cases h

/-- A row is read wherever statements of the program are. -/
theorem Row.readStatements_eq (h : Row c ss last) (n : Nat) :
    standard.readStatements (ss.length + n) c =
      { standard.readStatements n last
        with body := ss ++ (standard.readStatements n last).body } := by
  induction h with
  | nil =>
      rw [List.length_nil, Nat.zero_add]
      rfl
  | @cons c next last s ss h _ ih =>
      have hkind : c.current.kind ≠ .eof :=
        fun heof => not_mem_of_stmt_eq_ok h (by rw [heof]; decide)
      rw [List.length_cons, Nat.succ_add, readStatements_ok hkind h, ih]
      rfl

/-! ### In a block -/

private theorem row_of_bodyLoop {n k : Nat} (hc : c.Terminated)
    (h : bodyLoop (standard.stmtWithin n) k c = .ok ss last) :
    Row c ss last := by
  induction k generalizing c ss with
  | zero => cases h
  | succ k ih =>
      rw [bodyLoop, current_bind] at h
      by_cases hclosed : c.current.kind = .eof ∨ c.current.kind = .closeCurly
      · rw [if_pos hclosed] at h
        cases h
        exact .nil
      · rw [if_neg hclosed] at h
        obtain ⟨s, next, hs, h⟩ := exists_of_bind_eq_ok h
        obtain ⟨rest, last', hrest, h⟩ := exists_of_bind_eq_ok h
        cases h
        have hstmt : standard.stmt c = .ok s next :=
          stmtWithin_congr_ok hc (lt_chainBound c) hs
        obtain ⟨ts, hts, -⟩ := exists_reaches_of_stmt hc hstmt
        exact .cons hstmt (ih (hts.terminated hc) hrest)

/-- What a block is read from: a row of statements between its braces. -/
theorem exists_row_of_block (hc : c.Terminated) (hkind : c.current.kind = .openCurly)
    (h : standard.stmt c = .ok s next) :
    ∃ ss span last, s = .block ss span ∧ Row c.advance ss last ∧
      last.current.kind = .closeCurly ∧
      next = last.advance := by
  rw [stmt_of_find? (by rw [hkind]; rfl)] at h
  change readBlock (standard.stmtWithin (innerBound c)) c = _ at h
  rw [readBlock, bind_of_eq_ok (expect_eq_ok hkind)] at h
  obtain ⟨ss, last, hbody, h⟩ := exists_of_bind_eq_ok h
  obtain ⟨closing, behind, hclosing, h⟩ := exists_of_bind_eq_ok h
  obtain ⟨hclosed, rfl⟩ := of_expectFor_eq_ok hclosing
  cases h
  exact ⟨ss, _, last, rfl, row_of_bodyLoop hc.advance hbody, hclosed, rfl⟩

/-- A block is given up where a statement in it is. -/
theorem Row.bodyLoop_eq_fail (h : Row c ss last) (hc : c.Terminated) {n k : Nat}
    {stop : Cursor} (hn : c.ahead.length + 1 < n) (hk : c.ahead.length < k)
    (hlast : last.current.kind ∉ [TokenKind.closeCurly, .elseWord, .eof])
    (hfail : standard.stmt last = .fail d stop) (hstop : stop.ahead ≠ []) :
    ∃ stop', bodyLoop (standard.stmtWithin n) k c = .fail d stop' ∧
      stop'.tokens = stop.tokens := by
  have hgoes {c : Cursor}
      (hkind : c.current.kind ∉ [TokenKind.closeCurly, .elseWord, .eof]) :
      ¬ (c.current.kind = .eof ∨ c.current.kind = .closeCurly) := by
    rintro (heq | heq) <;> exact hkind (by rw [heq]; decide)
  induction h generalizing k with
  | nil =>
      obtain ⟨k, rfl⟩ := Nat.exists_eq_succ_of_ne_zero (Nat.ne_zero_of_lt hk)
      -- The chain is another one than where the statement is read alone.
      obtain ⟨stop', hreply, htokens⟩ := stmtWithin_congr_fail hc hn hfail hstop
      rw [bodyLoop, current_bind, if_neg (hgoes hlast)]
      exact ⟨stop', bind_of_eq_fail hreply, htokens⟩
  | @cons c next last s ss h _ ih =>
      obtain ⟨k, rfl⟩ := Nat.exists_eq_succ_of_ne_zero (Nat.ne_zero_of_lt hk)
      obtain ⟨ts, hts, hne⟩ := exists_reaches_of_stmt hc h
      have hlength := hts.length_add
      have hpos := List.length_pos_iff.mpr hne
      obtain ⟨stop', hreply, htokens⟩ :=
        ih (k := k) (hts.terminated hc) (by omega) (by omega) hlast hfail
      rw [bodyLoop, current_bind, if_neg (hgoes (not_mem_of_stmt_eq_ok h)),
        bind_of_eq_ok (stmtWithin_congr_ok hc hn h)]
      exact ⟨stop', bind_of_eq_fail hreply, htokens⟩

/-! ## Places in nested blocks -/

/-- Whether a statement of the program can start at a cursor, or one directly in blocks
that are open there, the innermost of them first. -/
inductive Arrives (start : Cursor) : List Cursor → Cursor → Prop
  | first : Arrives start [] start
  | behind {opened : List Cursor} {c next : Cursor} {s : Stmt}
      (h : Arrives start opened c)
      (hs : standard.stmt c = .ok s next) : Arrives start opened next
  | inside {opened : List Cursor} {c : Cursor} (h : Arrives start opened c)
      (hkind : c.current.kind = .openCurly) :
      Arrives start (c :: opened) c.advance

/-- Whether a token is the brace that closes the block at a cursor. -/
def Closes (brace : Cursor) (t : Token) : Prop :=
  brace.current.kind = .openCurly ∧ t.kind = .closeCurly ∧
    ∃ s next ts, standard.stmt brace = .ok s next ∧ brace.Reaches (ts ++ [t]) next

/-- Whether only statements stand from a cursor on in the blocks that are open there, up
to their closing braces, and behind them in the program. -/
inductive Closing : List Cursor → Cursor → List Token → Prop
  | program {c last : Cursor} {ss : List Stmt} (h : Row c ss last)
      (heof : last.current.kind = .eof) : Closing [] c []
  | block {opened : List Cursor} {c last brace : Cursor} {closing : List Token}
      {ss : List Stmt} (h : Row c ss last)
      (hcloses : Closes brace last.current)
      (hrest : Closing opened last.advance closing) :
      Closing (brace :: opened) c (last.current :: closing)

private theorem Arrives.exists_reaches (h : Arrives start opened c)
    (hstart : start.Terminated) :
    ∃ ts, start.Reaches ts c := by
  induction h with
  | first => exact ⟨[], .refl⟩
  | @behind opened c next s _ hs ih =>
      obtain ⟨ts, hts⟩ := ih
      obtain ⟨us, hus, -⟩ := exists_reaches_of_stmt (hts.terminated hstart) hs
      exact ⟨ts ++ us, hts.trans hus⟩
  | @inside opened c _ hkind ih =>
      obtain ⟨ts, hts⟩ := ih
      have hne : c.current.kind ≠ .eof := by rw [hkind]; exact TokenKind.noConfusion
      exact ⟨ts ++ [c.current], hts.trans ((hts.terminated hstart).reaches_advance hne)⟩

namespace Closing

private theorem forall₂ (h : Closing opened c closing) :
    List.Forall₂ Closes opened closing := by
  induction h with
  | program => exact .nil
  | block _ hcloses _ ih => exact .cons hcloses ih

/-- Another statement stands there, or the end of the innermost block or of the
program. -/
theorem stmt_or_end (h : Closing opened c closing) :
    (∃ s next, standard.stmt c = .ok s next ∧ Closing opened next closing) ∨
      c.current.kind ∈ [TokenKind.closeCurly, .eof] := by
  cases h with
  | program h heof =>
      cases h with
      | nil => exact .inr (by rw [heof]; decide)
      | cons hs hrest => exact .inl ⟨_, _, hs, .program hrest heof⟩
  | block h hcloses hbehind =>
      cases h with
      | nil => exact .inr (by rw [hcloses.2.1]; decide)
      | cons hs hrest => exact .inl ⟨_, _, hs, .block hrest hcloses hbehind⟩

/-- Neither a statement of the program nor one in a block starts with an `else`. -/
theorem ne_elseWord (h : Closing opened c closing) : c.current.kind ≠ .elseWord := by
  intro helse
  rcases h.stmt_or_end with ⟨s, next, hs, -⟩ | hkind
  · exact not_mem_of_stmt_eq_ok hs (by rw [helse]; decide)
  · rw [helse] at hkind
    exact absurd hkind (by decide)

/-- Behind a statement, the others stand. -/
theorem behind (h : Closing opened c closing) (hs : standard.stmt c = .ok s next) :
    Closing opened next closing := by
  rcases h.stmt_or_end with ⟨s', next', hs', hrest⟩ | hkind
  · rw [hs] at hs'
    cases hs'
    exact hrest
  · have hsub : [TokenKind.closeCurly, .eof] ⊆
        [TokenKind.closeCurly, .elseWord, .eof] := by decide
    exact absurd (hsub hkind) (not_mem_of_stmt_eq_ok hs)

/-- A block stands as a row of statements up to its closing brace, and then the
statements behind it. -/
theorem inside (h : Closing opened c closing) (hc : c.Terminated)
    (hkind : c.current.kind = .openCurly) :
    ∃ t, Closing (c :: opened) c.advance (t :: closing) := by
  obtain ⟨s, next, hs, hbehind⟩ := h.stmt_or_end.resolve_right (by rw [hkind]; decide)
  obtain ⟨ss, span, last, rfl, hrow, hclosed, rfl⟩ := exists_row_of_block hc hkind hs
  have hopening := hc.reaches_advance (by rw [hkind]; exact TokenKind.noConfusion)
  obtain ⟨ts, hts, -⟩ := hrow.exists_reaches hc.advance
  have hclosing := (hts.terminated hc.advance).reaches_advance
    (by rw [hclosed]; exact TokenKind.noConfusion)
  have hcloses : Closes c last.current :=
    ⟨hkind, hclosed, _, _, _, hs, (hopening.trans hts).trans hclosing⟩
  exact ⟨last.current, .block hrow hcloses hbehind⟩

end Closing

private theorem Arrives.exists_closing (h : Arrives start opened c)
    (hstart : start.Terminated) (hrow : Row start ss last)
    (hlast : last.current.kind = .eof) : ∃ closing, Closing opened c closing := by
  induction h with
  | first => exact ⟨[], .program hrow hlast⟩
  | behind _ hs ih =>
      obtain ⟨closing, hclosing⟩ := ih
      exact ⟨closing, hclosing.behind hs⟩
  | inside h hkind ih =>
      obtain ⟨closing, hclosing⟩ := ih
      obtain ⟨ts, hts⟩ := h.exists_reaches hstart
      obtain ⟨t, hinside⟩ := hclosing.inside (hts.terminated hstart) hkind
      exact ⟨t :: closing, hinside⟩

/-! ### Statements of the tree -/

private theorem Arrives.exists_of_mem (h : Arrives start opened c)
    (hrow : Row c ss last) (hs : s ∈ ss) :
    ∃ c' next, Arrives start opened c' ∧ standard.stmt c' = .ok s next := by
  induction hrow with
  | nil => cases hs
  | @cons c next last s' ss hstmt _ ih =>
      rcases List.mem_cons.mp hs with rfl | hs
      · exact ⟨c, next, h, hstmt⟩
      · exact ih (h.behind hstmt) hs

/-- Reading comes to every statement in nested blocks. -/
theorem Arrives.exists_of_lies {depth : Nat} (hs : s.Lies depth ss)
    (hstart : start.Terminated) (h : Arrives start opened c) (hrow : Row c ss last) :
    ∃ opened' c' next, Arrives start opened' c' ∧
      opened'.length = opened.length + depth ∧ standard.stmt c' = .ok s next := by
  induction hs generalizing opened c last with
  | here hmem =>
      obtain ⟨c', next, h', hstmt⟩ := h.exists_of_mem hrow hmem
      exact ⟨opened, c', next, h', rfl, hstmt⟩
  | @inside body inner span depth hblock hs ih =>
      obtain ⟨brace, behind, hbrace, hstmt⟩ := h.exists_of_mem hrow hblock
      have hkind := openCurly_of_block hstmt hs.ne_nil
      obtain ⟨ts, hts⟩ := hbrace.exists_reaches hstart
      obtain ⟨inner', span', last', heq, hinner, -⟩ :=
        exists_row_of_block (hts.terminated hstart) hkind hstmt
      obtain ⟨rfl, -⟩ := Stmt.block.inj heq
      obtain ⟨opened', c', next, h', hlength, hstmt'⟩ := ih (hbrace.inside hkind) hinner
      refine ⟨opened', c', next, h', ?_, hstmt'⟩
      rw [hlength, List.length_cons, Nat.add_right_comm, Nat.add_assoc]

/-! ### Read without the blocks around -/

private theorem resume_of_closeCurly (hc : c.Terminated)
    (h : c.current.kind = .closeCurly) : c.resume = c.advance := by
  have hne : c.ahead ≠ [] := hc.ahead_ne_nil (by rw [h]; exact TokenKind.noConfusion)
  obtain ⟨previousEnd, current, ahead⟩ := c
  cases ahead with
  | nil => exact absurd rfl hne
  | cons t ts =>
      have heof : current.kind ≠ .eof := by
        intro heq
        rw [show current.kind = .closeCurly from h] at heq
        cases heq
      show Cursor.resumeFrom previousEnd current (t :: ts) = ⟨current.span.stop, t, ts⟩
      rw [Cursor.resumeFrom, if_neg heof, if_pos (.inr h)]

/-- What is left of blocks is read as statements, and its closing braces are
reported. -/
theorem Closing.readStatements_eq (h : Closing opened c closing) (hc : c.Terminated)
    {n : Nat} (hn : c.ahead.length < n) : ∃ ss stop, standard.readStatements n c =
      ⟨ss, closing.map Token.complaint, true, stop⟩ := by
  induction h generalizing n with
  | @program c last ss h heof =>
      obtain ⟨k, rfl, -, -⟩ := h.exists_steps hc hn
      rw [h.readStatements_eq, readStatements_eof heof]
      exact ⟨_, last, rfl⟩
  | @block opened c last brace closing ss h hcloses hrest ih =>
      have hclosed := hcloses.2.1
      obtain ⟨k, rfl, hk, hlast⟩ := h.exists_steps hc hn
      have hne : last.current.kind ≠ .eof := by
        rw [hclosed]; exact TokenKind.noConfusion
      have hadvance := hlast.length_advance hne
      obtain ⟨later, stop, hlater⟩ := ih hlast.advance (n := k) (by omega)
      -- The block of this brace is not open here, and the brace takes one step as a
      -- statement that fails.
      have hfail := stmt_eq_fail (c := last) (by rw [hclosed]; decide)
      rw [h.readStatements_eq, readStatements_fail hne hfail,
        resume_of_closeCurly hlast hclosed, hlater]
      exact ⟨_, stop, rfl⟩

/-! ## A statement that is given up -/

/-- Whether statements are read from a cursor on, up to one that is given up with
these tokens ahead. -/
def Breaks (c : Cursor) (d : Diagnostic) (rest : List Token) : Prop :=
  ∃ ss last stop, Row c ss last ∧
    last.current.kind ∉ [TokenKind.closeCurly, .elseWord, .eof] ∧
    standard.stmt last = .fail d stop ∧ stop.tokens = rest

/-- So is the block with that statement in it. -/
theorem Breaks.block (h : Breaks c.advance d rest) (hc : c.Terminated)
    (hkind : c.current.kind = .openCurly) (hrest : 1 < rest.length) :
    Breaks c d rest := by
  obtain ⟨ss, last, stop, hrow, hlast, hfail, rfl⟩ := h
  have hlength := hc.length_advance (by rw [hkind]; exact TokenKind.noConfusion)
  have hstop : stop.ahead ≠ [] := List.length_pos_iff.mp (Nat.lt_of_succ_lt_succ hrest)
  have hbound : c.advance.ahead.length + 1 < innerBound c := by
    unfold innerBound
    omega
  obtain ⟨stop', hbody, htokens⟩ :=
    hrow.bodyLoop_eq_fail hc.advance (k := c.advance.ahead.length + 1) hbound
      (Nat.lt_succ_self _) hlast hfail hstop
  refine ⟨[], c, stop', .nil, by rw [hkind]; decide, ?_, htokens⟩
  have hfind : standard.stmts.find? c.current.kind = some .block := by
    rw [hkind]
    rfl
  rw [stmt_of_find? hfind]
  show readBlock (standard.stmtWithin (innerBound c)) c = _
  rw [readBlock, bind_of_eq_ok (expect_eq_ok hkind)]
  exact bind_of_eq_fail hbody

/-- So is the statement of the program that it is in. -/
theorem Arrives.breaks (h : Arrives start opened c) (hstart : start.Terminated)
    (hbreaks : Breaks c d rest) (hrest : 1 < rest.length) : Breaks start d rest := by
  induction h with
  | first => exact hbreaks
  | behind _ hs ih =>
      obtain ⟨ss, last, stop, hrow, hlast⟩ := hbreaks
      exact ih ⟨_, last, stop, .cons hs hrow, hlast⟩
  | inside h hkind ih =>
      obtain ⟨ts, hts⟩ := h.exists_reaches hstart
      exact ih (hbreaks.block (hts.terminated hstart) hkind hrest)

/-- Where the tokens are the same up to a cut, reading comes to the same
places in front of it. -/
theorem Arrives.exists_beside {start' : Cursor} (h : Arrives start opened c)
    (hcut : Cut back back') (hstart : start.Terminated) (hstart' : start'.Terminated)
    (hbeside : start.Beside back back' False start')
    (hle : back.length ≤ c.tokens.length) :
    ∃ opened' c', Arrives start' opened' c' ∧ c.Beside back back' False c' := by
  induction h with
  | first => exact ⟨[], start', .first, hbeside⟩
  | @behind opened c next s h hs ih =>
      obtain ⟨front, hfront⟩ := h.exists_reaches hstart
      have hc := hfront.terminated hstart
      obtain ⟨ts, hts, -⟩ := exists_reaches_of_stmt hc hs
      have hlength : next.tokens.length ≤ c.tokens.length := by
        rw [hts.tokens_eq, List.length_append]
        exact Nat.le_add_left _ _
      obtain ⟨opened', c', h', hc'⟩ := ih (Nat.le_trans hle hlength)
      obtain ⟨front', hfront'⟩ := h'.exists_reaches hstart'
      obtain ⟨next', hs', hnext'⟩ :=
        exists_stmtWithin_eq_ok hcut hc (hfront'.terminated hstart') hc'
          (lt_chainBound c') hs hle
      exact ⟨opened', next', h'.behind hs', hnext'.imp fun _ => trivial⟩
  | @inside opened c h hkind ih =>
      obtain ⟨front, hfront⟩ := h.exists_reaches hstart
      have htokens := (hfront.terminated hstart).tokens_eq
        (by rw [hkind]; exact TokenKind.noConfusion)
      have hlength := congrArg List.length htokens
      rw [List.length_cons] at hlength
      obtain ⟨opened', c', h', hc'⟩ := ih (by omega)
      rcases hc'.cases with ⟨hback, -⟩ | ⟨hcurrent, ahead, hahead, hahead'⟩
      · rw [hback] at hlength
        omega
      · have hkind' : c'.current.kind = .openCurly := by rw [hcurrent, hkind]
        exact ⟨c' :: opened', c'.advance, h'.inside hkind',
          Cursor.beside_advance hcut hcurrent hahead hahead'⟩

/-- Tokens up to a semicolon that are given up alone are given up at every place, and
with them the statement of the program around them. -/
theorem Arrives.exists_breaks {start' alone : Cursor} {front : List Token}
    (h : Arrives start opened c) (hstart : start.Terminated)
    (hstart' : start'.Terminated) (hfront : start.Reaches front c)
    (htokens : start'.tokens = front ++ (flat ++ semi :: back'))
    (hkind : c.current.kind ≠ .elseWord) (hflat : Flat flat)
    (hsemi : semi.kind = .semicolon) (halone : alone.Terminated)
    (hmakes : Makes alone semi back (.error d))
    (htokens' : alone.tokens = flat ++ semi :: back) (hcut : Cut back back') :
    ∃ ahead, Flat ahead ∧ Breaks start' d (ahead ++ semi :: back') := by
  have hheads : ∀ t ∈ (flat ++ semi :: back').head?,
      t.kind ∉ [TokenKind.closeCurly, .elseWord, .eof] :=
    hflat.head hsemi
  -- The two runs are cut at the place itself, and so both come to it.
  have hcut' : Cut c.tokens (flat ++ semi :: back') := by
    refine ⟨List.cons_ne_nil _ _,
      List.append_ne_nil_of_right_ne_nil _ (List.cons_ne_nil _ _), ?_, ?_⟩
    · intro t ht
      cases ht
      exact hkind
    · exact fun t ht helse => hheads t ht (by rw [helse]; decide)
  have hbeside : start.Beside c.tokens (flat ++ semi :: back') False start' :=
    ⟨⟨front, hfront.tokens_eq, htokens⟩, False.elim⟩
  obtain ⟨opened', c', h', ⟨ahead, hahead, hahead'⟩, -⟩ :=
    h.exists_beside hcut' hstart hstart' hbeside (Nat.le_refl _)
  obtain rfl : ahead = [] := List.append_left_eq_self.mp hahead.symm
  obtain ⟨ts, hts⟩ := h'.exists_reaches hstart'
  -- From there on, the tokens are cut a second time behind the semicolon, beside a
  -- run on them alone.
  have hmakes' := hmakes.congr halone (hts.terminated hstart') htokens' hahead' hcut
  cases hmakes' with
  | @error d stop ahead hfail hahead hstop =>
      have hkind' :=
        hheads c'.current (by rw [← List.nil_append (flat ++ _), ← hahead']; rfl)
      have hbreaks : Breaks c' d (ahead ++ semi :: back') :=
        ⟨[], c', stop, .nil, hkind', hfail, hstop⟩
      have hlength : 1 < (ahead ++ semi :: back').length := by
        have hpos := List.length_pos_iff.mpr hcut.ne_nil'
        rw [List.length_append, List.length_cons]
        omega
      exact ⟨ahead, hahead, h'.breaks hstart' hbreaks hlength⟩

/-- Behind the semicolon of a flat statement that is given up, reading goes on. -/
theorem Breaks.readStatements_eq (h : Breaks c d (flat ++ semi :: back))
    (hc : c.Terminated) (hflat : Flat flat) (hsemi : semi.kind = .semicolon)
    (hback : back ≠ []) {n : Nat} (hn : c.ahead.length < n) :
    ∃ ss next k, next.tokens = back ∧ next.previousEnd = semi.span.stop ∧
      next.ahead.length < k ∧ standard.readStatements n c =
        ⟨ss ++ (standard.readStatements k next).body,
          d :: (standard.readStatements k next).errors,
          (standard.readStatements k next).finished,
          (standard.readStatements k next).stop⟩ := by
  obtain ⟨ss, last, stop, hrow, hlast, hfail, hstop⟩ := h
  obtain ⟨k, rfl, hk, hterminated⟩ := hrow.exists_steps hc hn
  have hstates := states_stmt hterminated
  rw [hfail] at hstates
  obtain ⟨us, hus, -⟩ := hstates
  have hlength' := congrArg List.length hus.tokens_eq
  rw [hstop] at hlength'
  simp only [List.length_append, List.length_cons, Cursor.tokens] at hlength'
  obtain ⟨hresume, hend⟩ := Cursor.resume_of_flat hstop hflat hsemi hback
  have hback' := congrArg List.length hresume
  rw [show stop.resume.tokens.length = stop.resume.ahead.length + 1 from rfl] at hback'
  have hne : last.current.kind ≠ .eof := fun heof => hlast (by rw [heof]; decide)
  refine ⟨ss, stop.resume, k, hresume, hend, by omega, ?_⟩
  rw [hrow.readStatements_eq, readStatements_fail hne hfail]
  rfl

end Rules

/-! ## The tokens of one statement, replaced -/

namespace Cursor

private theorem exists_ending (file : String) (tokens : List Token) :
    ∃ ending, (ofTokens file tokens).tokens = tokens ++ ending ∧
      ∀ t ∈ ending, t.kind = .eof := by
  cases tokens with
  | nil => exact ⟨[.eof (.first file)], rfl, List.forall_mem_singleton.mpr rfl⟩
  | cons t ts =>
      have htokens : (ofTokens file (t :: ts)).tokens = closed file (t :: ts) :=
        tokens_ofTokens file [] ts t
      rw [htokens]
      unfold closed
      cases hlast : (t :: ts).getLast? with
      | none => cases List.getLast?_eq_none_iff.mp hlast
      | some last =>
          dsimp only
          by_cases heof : last.kind = .eof
          · refine ⟨[], ?_, List.forall_mem_nil _⟩
            rw [List.append_nil]
            exact if_pos heof
          · exact ⟨[.eof last.span.stop], if_neg heof,
              List.forall_mem_singleton.mpr rfl⟩

/-- Tokens up to one that is not the end stand so with one for the end behind them as
well, and so do any others in their place. -/
theorem exists_back {file : String} {tokens front : List Token}
    (h : (ofTokens file tokens).tokens = front ++ semi :: rest)
    (hsemi : semi.kind ≠ .eof) :
    ∃ back, tokens = front ++ semi :: back ∧
      ∀ us, (ofTokens file (us ++ semi :: back)).tokens = us ++ semi :: rest := by
  obtain ⟨ending, hending, hkinds⟩ := exists_ending file tokens
  have hmem : semi ∉ ending := fun hmem => hsemi (hkinds semi hmem)
  obtain ⟨back, rfl⟩ : ∃ back, tokens = front ++ semi :: back := by
    rcases List.append_eq_append_iff.mp (hending.symm.trans h)
      with ⟨ahead, -, hahead⟩ | ⟨back, htokens, hback⟩
    · rw [hahead] at hmem
      exact absurd (List.mem_append_right _ List.mem_cons_self) hmem
    · cases back with
      | nil =>
          rw [List.nil_append] at hback
          rw [← hback] at hmem
          exact absurd List.mem_cons_self hmem
      | cons t back =>
          obtain ⟨rfl, -⟩ := List.cons.inj hback
          exact ⟨back, htokens⟩
  refine ⟨back, rfl, fun us => ?_⟩
  rw [tokens_ofTokens] at h ⊢
  rw [List.append_cancel_left h]

end Cursor

namespace Program

open Rules

private theorem exists_row {file : String} {tokens : List Token} {p : Program}
    (h : ofTokens file tokens = .ok p) :
    ∃ last, Row (.ofTokens file tokens) p.body last ∧ last.current.kind = .eof := by
  unfold ofTokens at h
  dsimp only at h
  by_cases hdone : (readTokens file tokens).finished &&
    (readTokens file tokens).errors.isEmpty
  · rw [if_pos hdone] at h
    cases h
    obtain ⟨hfinished, hempty⟩ := Bool.and_eq_true_iff.mp hdone
    generalize hread : readTokens file tokens = reading at hfinished hempty ⊢
    obtain ⟨body, errors, finished, stop⟩ := reading
    obtain rfl : errors = [] := List.isEmpty_iff.mp hempty
    obtain rfl : finished = true := hfinished
    obtain ⟨hrow, hlast⟩ := row_of_readStatements hread
    exact ⟨stop, hrow, hlast⟩
  · rw [if_neg hdone] at h
    cases h

variable {file : String} {tokens : List Token} {p : Program}

/-- Tokens of a flat statement that are no program are given up with one report. -/
theorem exists_complaint (hflat : Flat flat) (hsemi : semi.kind = .semicolon)
    (hnone : ∀ q, ofTokens file (flat ++ [semi]) ≠ .ok q) :
    ∃ d, ofTokens file (flat ++ [semi]) = .error [d] ∧
      Makes (.ofTokens file (flat ++ [semi])) semi [.eof semi.span.stop]
        (.error d) := by
  obtain ⟨made, hmade, stop, hreading⟩ := exists_made file hflat hsemi
  rcases complaints_of_made file hreading
    with ⟨d, rfl, hrejected, -⟩ | ⟨s, q, -, haccepted, -⟩
  · exact ⟨d, hrejected, hmade⟩
  · exact absurd haccepted (hnone q)

/-- A flat statement that is given up is reported, and behind it what is left of the
blocks around is. -/
theorem ofTokens_of_breaks
    (h : Breaks (.ofTokens file tokens) d (flat ++ semi :: next.tokens))
    (hflat : Flat flat) (hsemi : semi.kind = .semicolon)
    (hclosing : Closing opened next closing) (hnext : next.Terminated)
    (hend : next.previousEnd = semi.span.stop) :
    ofTokens file tokens = .error (d :: closing.map complaint) := by
  have hn : (Cursor.ofTokens file tokens).ahead.length < tokens.length + 2 :=
    Nat.lt_succ_of_le (Nat.le_succ_of_le (Cursor.length_ofTokens_le file tokens))
  obtain ⟨ss, next', k, hnext', hend', hk, hreading⟩ :=
    h.readStatements_eq (Cursor.terminated_ofTokens file tokens) hflat hsemi
      (List.cons_ne_nil _ _) hn
  rw [Cursor.eq_of_tokens_eq hnext' (hend'.trans hend.symm)] at hk hreading
  obtain ⟨ss', stop, hlater⟩ := hclosing.readStatements_eq hnext hk
  rw [hlater] at hreading
  have hread : readTokens file tokens =
      ⟨ss ++ ss', d :: closing.map complaint, true, stop⟩ := hreading
  have hfinished : (readTokens file tokens).finished = true := by rw [hread]
  have hrejected := (ofTokens_of_readTokens hfinished).1
  rw [hread] at hrejected
  exact hrejected (List.cons_ne_nil _ _)

/-- There is one report just where no block is open. -/
theorem exists_singleton_iff
    (h : ofTokens file tokens = .error (d :: closing.map complaint))
    (hclosing : Closing opened c closing) :
    (∃ d', ofTokens file tokens = .error [d']) ↔ opened = [] := by
  have hlength := hclosing.forall₂.length_eq
  rw [h]
  constructor
  · rintro ⟨d', hone⟩
    obtain ⟨-, hnil⟩ := List.cons.inj (Except.error.inj hone)
    rw [List.map_eq_nil_iff.mp hnil, List.length_nil] at hlength
    exact List.length_eq_zero_iff.mp hlength
  · rintro rfl
    rw [List.length_nil] at hlength
    rw [List.length_eq_zero_iff.mp hlength.symm]
    exact ⟨d, rfl⟩

/-- Reading comes to every statement in nested blocks. Where the tokens of one that
declares, reads, writes or is there for its effect are replaced in front of its
semicolon, by others that make no statement with it, there is the report on these, and
one on the closing brace of each of the blocks, and no other. So there is one report for
the one mistake just where no block is open. -/
theorem ofTokens_spoilt (h : ofTokens file tokens = .ok p) :
    (∀ s depth, s.Lies depth p.body →
      ∃ opened c next, Arrives (.ofTokens file tokens) opened c ∧
      opened.length = depth ∧ standard.stmt c = .ok s next) ∧
    ∀ opened c s next, Arrives (.ofTokens file tokens) opened c →
      standard.stmt c = .ok s next → s.Plain →
      ∃ front written semi back closing, tokens = front ++ (written ++ semi :: back) ∧
        semi.kind = .semicolon ∧
        (Cursor.ofTokens file tokens).Reaches front c ∧
        c.Reaches (written ++ [semi]) next ∧ List.Forall₂ Closes opened closing ∧
        ∀ flat, Flat flat → (∀ q, ofTokens file (flat ++ [semi]) ≠ .ok q) →
          ∃ d, ofTokens file (flat ++ [semi]) = .error [d] ∧
            ofTokens file (front ++ (flat ++ semi :: back)) =
              .error (d :: closing.map complaint) ∧
            ((∃ d', ofTokens file (front ++ (flat ++ semi :: back)) = .error [d']) ↔
              opened = []) := by
  have hstart := Cursor.terminated_ofTokens file tokens
  obtain ⟨last, hrow, hlast⟩ := exists_row h
  constructor
  · intro s depth hs
    obtain ⟨opened, c, next, hc, hlength, hstmt⟩ :=
      Arrives.exists_of_lies hs hstart .first hrow
    exact ⟨opened, c, next, hc, by rw [hlength, List.length_nil, Nat.zero_add], hstmt⟩
  intro opened c s next hc hs hplain
  obtain ⟨closing, hclosing⟩ := hc.exists_closing hstart hrow hlast
  obtain ⟨front, hfront⟩ := hc.exists_reaches hstart
  have hterminated := hfront.terminated hstart
  obtain ⟨ts, hts, written, semi, rfl, -, hsemi⟩ :=
    segment_of_plain hterminated hs hplain
  have htokens : (Cursor.ofTokens file tokens).tokens = (front ++ written) ++ semi ::
      next.tokens := by
    rw [hfront.tokens_eq, hts.tokens_eq, List.append_assoc, List.append_assoc]
    rfl
  obtain ⟨back, hback, hothers⟩ :=
    Cursor.exists_back htokens (by rw [hsemi]; exact TokenKind.noConfusion)
  rw [List.append_assoc] at hback
  refine ⟨front, written, semi, back, closing, hback, hsemi, hfront, hts,
    hclosing.forall₂, ?_⟩
  intro flat hflat hnone
  obtain ⟨d, hrejected, hmakes⟩ := exists_complaint hflat hsemi hnone
  have hbehind := hclosing.behind hs
  have hcut : Cut [.eof semi.span.stop] next.tokens := by
    refine ⟨List.cons_ne_nil _ _, List.cons_ne_nil _ _, head_of_eof rfl, ?_⟩
    intro t ht
    cases ht
    exact hbehind.ne_elseWord
  have htokens' : (Cursor.ofTokens file (front ++ (flat ++ semi :: back))).tokens =
      front ++ (flat ++ semi :: next.tokens) := by
    rw [← List.append_assoc, hothers, List.append_assoc]
  have helse : c.current.kind ≠ .elseWord :=
    fun heq => not_mem_of_stmt_eq_ok hs (by rw [heq]; decide)
  obtain ⟨ahead, hahead, hbreaks⟩ :=
    hc.exists_breaks hstart (Cursor.terminated_ofTokens _ _) hfront htokens' helse
    hflat hsemi (Cursor.terminated_ofTokens _ _) hmakes (tokens_segment file hsemi) hcut
  have hspoilt := ofTokens_of_breaks hbreaks hahead hsemi hbehind
    (hts.terminated hterminated) hts.previousEnd_eq
  exact ⟨d, hrejected, hspoilt, exists_singleton_iff hspoilt hclosing⟩

/-- A declaration in a block of a block, of which the variable is left out: there
are three reports. -/
theorem ofTokens_spoilt_in_two_blocks :
    ∃ (front written back closing : List Token) (word semi : Token) (d : Diagnostic),
      (front ++ (written ++ semi :: back)).map lexeme =
        [(.openCurly, "\x7b"), (.openCurly, "\x7b"), (.intType, "int"),
          (.identifier, "y"), (.semicolon, ";"), (.closeCurly, "\x7d"),
          (.closeCurly, "\x7d")] ∧
      (∃ p, ofTokens "a" (front ++ (written ++ semi :: back)) = .ok p) ∧
      lexeme word = (.intType, "int") ∧ ofTokens "a" ([word] ++ [semi]) = .error [d] ∧
      ofTokens "a" (front ++ ([word] ++ semi :: back)) =
        .error (d :: closing.map complaint) ∧
      closing.length = 2 := by
  let token (l : Lexeme) : Token := ⟨l.1, l.2, .at (.first "a")⟩
  let tokens : List Token :=
    [(.openCurly, "\x7b"), (.openCurly, "\x7b"), (.intType, "int"), (.identifier, "y"),
      (.semicolon, ";"), (.closeCurly, "\x7d"), (.closeCurly, "\x7d")].map token
  obtain ⟨p, hp⟩ : ∃ p, ofTokens "a" tokens = .ok p := ⟨_, rfl⟩
  obtain ⟨s, next, hs, hplain⟩ : ∃ s next,
      standard.stmt (Cursor.ofTokens "a" tokens).advance.advance = .ok s next ∧
      s.Plain := ⟨_, _, rfl, trivial⟩
  have hc :
      Arrives (.ofTokens "a" tokens) _ (Cursor.ofTokens "a" tokens).advance.advance :=
    .inside (.inside .first rfl) rfl
  obtain ⟨front, written, semi, back, closing, htokens, hsemi, -, -,
      hcloses, hspoilt⟩ :=
    (ofTokens_spoilt hp).2 _ _ s next hc hs hplain
  obtain rfl : semi = token (.semicolon, ";") := by
    have hmem : semi ∈ tokens := by rw [htokens]; simp
    simp only [tokens, List.map_cons, List.map_nil, List.mem_cons, List.not_mem_nil,
      or_false] at hmem
    rcases hmem with rfl | rfl | rfl | rfl | rfl | rfl | rfl <;>
      first | rfl | cases hsemi
  have hflat : Flat [token (.intType, "int")] := flat_singleton (by decide)
  obtain ⟨d, hrejected, hspoilt, -⟩ :=
    hspoilt [token (.intType, "int")] hflat fun q hq => by cases hq
  refine ⟨front, written, back, closing, token (.intType, "int"), _, d, ?_, ⟨p, ?_⟩,
    rfl, hrejected, hspoilt, ?_⟩
  · rw [← htokens]
    rfl
  · rw [← htokens]
    exact hp
  · exact hcloses.length_eq.symm

/-- One mistake in a block, and two reports: the second one is on the brace that closed
the block before. -/
theorem two_complaints_in_block :
    ∃ (front written flat back : List Token) (semi : Token),
      (front ++ (written ++ semi :: back)).map lexeme =
        [(.openCurly, "\x7b"), (.intType, "int"), (.identifier, "y"),
          (.semicolon, ";"), (.writeWord, "write"), (.identifier, "x"),
          (.semicolon, ";"), (.closeCurly, "\x7d")] ∧
      (front ++ (flat ++ semi :: back)).map lexeme =
        [(.openCurly, "\x7b"), (.intType, "int"), (.semicolon, ";"),
          (.writeWord, "write"), (.identifier, "x"), (.semicolon, ";"),
          (.closeCurly, "\x7d")] ∧
      (∃ p, ∃ s : Stmt, ofTokens "a" (front ++ (written ++ semi :: back)) = .ok p ∧
        s.Lies 1 p.body ∧ s.Plain) ∧
      Flat flat ∧
      (complaints "a" (flat ++ [semi])).map (·.cause) =
        [.unexpectedTokenDetailed ";" "expected identifier"] ∧
      (complaints "a" (front ++ (flat ++ semi :: back))).map (·.cause) =
        [.unexpectedTokenDetailed ";" "expected identifier",
          .unexpectedToken "\x7d"] := by
  let token (l : Lexeme) : Token := ⟨l.1, l.2, .at (.first "a")⟩
  let back : List Token := [token (.writeWord, "write"), token (.identifier, "x"),
    token (.semicolon, ";"), token (.closeCurly, "\x7d")]
  let whole : List Token :=
    token (.openCurly, "\x7b") :: token (.intType, "int") :: token (.identifier, "y") ::
    token (.semicolon, ";") :: back
  obtain ⟨p, hp⟩ : ∃ p, ofTokens "a" whole = .ok p := ⟨_, rfl⟩
  obtain ⟨s, ss, span, hbody, hplain⟩ :
      ∃ s ss span, statements "a" whole = [.block (s :: ss) span] ∧ s.Plain :=
    ⟨_, _, _, rfl, trivial⟩
  have hlies : s.Lies 1 p.body := by
    unfold statements at hbody
    rw [hp] at hbody
    rw [show p.body = [.block (s :: ss) span] from hbody]
    exact .inside List.mem_cons_self (.here List.mem_cons_self)
  refine ⟨[token (.openCurly, "\x7b")],
    [token (.intType, "int"), token (.identifier, "y")], [token (.intType, "int")],
    back, token (.semicolon, ";"), rfl, rfl, ⟨p, s, hp, hlies, hplain⟩,
    flat_singleton (by decide), ?_, ?_⟩
  · decide +kernel
  · decide +kernel

end Program

end ScalarLang
