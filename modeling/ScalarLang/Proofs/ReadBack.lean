import ScalarLang.Proofs.ReadBackExpr

/-!
# Written programs are read back

A statement is read from its lexemes wherever it stands, unless an alternative follows
that it would take (`Stmt.Follows`). Statements in a row and in braces come to no such
end: what follows is another statement, the closing brace or the end of the text.

## Main results

* `Stmt.reads_lexemes`: a statement that can be written is read from what
  is written for it.
* `Program.ofTokens_lexemes`: so is a program.
-/

namespace ScalarLang

open ScalarLang.Located ScalarLang.Parser

/-! ## Lists -/

private theorem Cursor.length_ahead_before (ls : List Lexeme) (m : Lexeme)
    (ms : List Lexeme) :
    (before (ls ++ m :: ms)).ahead.length = ls.length + ms.length := by
  cases ls with
  | nil => exact (List.length_map _).trans (Nat.zero_add _).symm
  | cons l ls =>
      show ((ls ++ m :: ms).map Lexeme.token).length = ls.length + 1 + ms.length
      rw [List.length_map, List.length_append, List.length_cons]
      omega

section

variable {γ : Type} (lexemes : γ → List Lexeme)

private theorem length_le_separated (x : γ) (xs : List γ) :
    xs.length ≤ (separated lexemes (x :: xs)).length := by
  induction xs generalizing x with
  | nil => exact Nat.zero_le _
  | cons y ys ih =>
      have hrest := ih y
      rw [separated, List.length_append, List.length_cons, List.length_cons]
      omega

private theorem length_lexemes_le_separated {x : γ} {xs : List γ} (h : x ∈ xs) :
    (lexemes x).length ≤ (separated lexemes xs).length := by
  induction xs with
  | nil => cases h
  | cons y ys ih =>
      cases ys with
      | nil =>
          rw [List.mem_singleton.mp h]
          exact Nat.le_refl _
      | cons z zs =>
          rw [separated, List.length_append, List.length_cons]
          cases List.mem_cons.mp h with
          | inl heq =>
              rw [heq]
              omega
          | inr hmem =>
              have hrest := ih hmem
              omega

variable {lexemes} {α : Type} {value : γ → α} {item : Parser α} {F : Lexeme → Prop}

private theorem Parser.reads_commaLoop (hcomma : F TokenKind.comma.lexeme) {x : γ}
    {xs : List γ} (h : ∀ y ∈ x :: xs, item.Reads (lexemes y) (value y) F) {n : Nat}
    (hn : xs.length < n) :
    (commaLoop item n).Reads (separated lexemes (x :: xs)) ((x :: xs).map value)
      (fun m => F m ∧ m.1 ≠ .comma) := by
  have hfirst := h x List.mem_cons_self
  induction xs generalizing x n with
  | nil =>
      obtain ⟨k, rfl⟩ : ∃ k, n = k + 1 := ⟨n - 1, by omega⟩
      rw [separated, ← List.append_nil (lexemes x), commaLoop]
      apply hfirst.bind (G := fun m => F m ∧ m.1 ≠ .comma)
      · intro m ms hm
        show (if m.1 = .comma then _ else pure [value x] : Parser (List α)) _ = _
        rw [if_neg hm.2]
        rfl
      · exact fun m hm => hm.1
  | cons y ys ih =>
      have hrest := fun z hz => h z (List.mem_cons_of_mem x hz)
      rw [List.length_cons] at hn
      obtain ⟨k, rfl⟩ : ∃ k, n = k + 1 := ⟨n - 1, by omega⟩
      have hlater := ih hrest (n := k) (by omega) (hrest y List.mem_cons_self)
      rw [separated, commaLoop]
      apply hfirst.bind
      · apply Reads.current
        rw [if_pos (show TokenKind.comma.lexeme.token.kind = .comma from rfl)]
        apply Reads.advance
        exact hlater.last
      · exact fun _ _ => hcomma

private theorem Parser.reads_commaSeparated (hcomma : F TokenKind.comma.lexeme)
    {xs : List γ} (hne : xs ≠ []) (h : ∀ y ∈ xs, item.Reads (lexemes y) (value y) F) :
    (commaSeparated item).Reads (separated lexemes xs) (xs.map value)
      (fun m => F m ∧ m.1 ≠ .comma) := by
  intro m ms hm
  obtain ⟨x, rest, rfl⟩ := List.exists_cons_of_ne_nil hne
  have hlength := length_le_separated lexemes x rest
  unfold commaSeparated
  rw [Cursor.length_ahead_before]
  exact reads_commaLoop hcomma h (by omega) m ms hm

end

/-! ## The rules for statements -/

/-- The semicolon at the end of a statement is the last that is read. -/
theorem reads_semicolon {f : Position → Stmt} {F : Lexeme → Prop} :
    (expect .semicolon >>= fun _ => previousEnd >>= fun stop => pure
      (f stop) : Parser Stmt).Reads
      [TokenKind.semicolon.lexeme] (f (.first "")) F := by
  apply Reads.expect
  apply Reads.previousEnd
  exact reads_pure

private theorem reads_readIdent (x : Ident) {F : Lexeme → Prop} :
    readIdent.Reads x.lexemes (unplaced x) F :=
  (reads_expectFor .identifier x.name _).last

private theorem reads_idents {xs : List Ident} (hne : xs ≠ []) :
    (commaSeparated readIdent).Reads (separated Ident.lexemes xs) (unplaced xs)
      (fun m => True ∧ m.1 ≠ .comma) :=
  reads_commaSeparated trivial hne fun x _ => reads_readIdent x

section

open ScalarLang.Rules

variable {e : Expr} {n : Nat} {F : Lexeme → Prop}

/-- What an expression in a statement is followed by. -/
theorem ends_lowest {m : Lexeme} (h : m.1.joinRank = 0) : m.Ends Power.lowest.rank :=
  Lexeme.ends_of_joinRank_eq_zero h _

private theorem reads_readCondition (he : e.Readable) (hn : e.inParens.length < n) :
    (readCondition (standard.exprWithin n)).Reads e.inParens (unplaced e) F := by
  have hlength : (e.lexemes (Power.lowest.rank + 1)).length < n := by
    rw [Expr.inParens, List.length_cons, List.length_append] at hn
    omega
  apply Reads.expect
  apply (he.reads hlength).bind
  · exact Reads.expect reads_pure
  · exact fun _ _ => ends_lowest rfl

private theorem reads_readDeclaration (t : Ty) {idents : List Ident} (hne : idents ≠ [])
    (span : Span) :
    readDeclaration.Reads (Stmt.declaration t idents span).lexemes
      (unplaced (Stmt.declaration t idents span)) F := by
  rw [Stmt.lexemes]
  apply Reads.advance
  rw [show t.word.lexeme.token.kind.ty? = some t from t.ty?_word]
  apply (reads_idents hne).bind
  · exact reads_semicolon
  · exact fun _ _ => ⟨trivial, TokenKind.noConfusion⟩

private theorem reads_readRead {idents : List Ident} (hne : idents ≠ []) (span : Span) :
    readRead.Reads (Stmt.read idents span).lexemes
      (unplaced (Stmt.read idents span)) F := by
  rw [Stmt.lexemes]
  apply Reads.advance
  apply (reads_idents hne).bind
  · exact reads_semicolon
  · exact fun _ _ => ⟨trivial, TokenKind.noConfusion⟩

private theorem reads_readWrite {values : List Expr} (hne : values ≠ [])
    (hvalues : ∀ e ∈ values, e.Readable) (span : Span)
    (hn : (Stmt.write values span).lexemes.length ≤ n) :
    (readWrite (standard.exprWithin n)).Reads (Stmt.write values span).lexemes
      (unplaced (Stmt.write values span)) F := by
  rw [Stmt.lexemes, List.length_cons, List.length_append] at hn
  rw [Stmt.lexemes]
  apply Reads.advance
  apply Reads.bind (a := unplaced values) (F := fun m => m.Ends Power.lowest.rank ∧
    m.1 ≠ .comma)
  · apply reads_commaSeparated (ends_lowest rfl) hne
    intro e he
    have hlength :=
      length_lexemes_le_separated (Expr.lexemes · (Power.lowest.rank + 1)) he
    exact (hvalues e he).reads (by omega)
  · exact reads_semicolon
  · exact fun _ _ => ⟨ends_lowest rfl, TokenKind.noConfusion⟩

private theorem reads_readEffect (he : e.Readable) (span : Span)
    (hn : (Stmt.effect e span).lexemes.length ≤ n) :
    (readEffect (standard.exprWithin n)).Reads (Stmt.effect e span).lexemes
      (unplaced (Stmt.effect e span)) F := by
  rw [Stmt.lexemes, List.length_append, List.length_singleton] at hn
  rw [Stmt.lexemes]
  apply (he.reads (by omega)).bind
  · rw [Expr.span_unplaced]
    exact reads_semicolon
  · exact fun _ _ => ends_lowest rfl

end

/-! ## Statements -/

namespace Stmt

open ScalarLang.Rules

/-- Whether a lexeme may follow a statement: an alternative may not if the
statement could take it. -/
def Follows (s : Stmt) (m : Lexeme) : Prop := s.endsOpen = true → m.1 ≠ .elseWord

/-- Whether a lexeme starts a statement: neither an alternative nor the end of
statements in a row. -/
structure Opens (l : Lexeme) : Prop where
  ne_else : l.1 ≠ .elseWord
  ne_close : l.1 ≠ .closeCurly
  ne_eof : l.1 ≠ .eof

private theorem opens_of_starts {l : Lexeme} (h : Expr.Starts l) : Opens l := by
  have hstart := h.start
  constructor <;> (intro heq; rw [heq] at hstart; cases hstart)

private theorem Readable.opens {s : Stmt} (h : s.Readable) :
    ∃ l ls, s.lexemes = l :: ls ∧ Opens l := by
  cases s with
  | declaration t idents span =>
      refine ⟨_, _, rfl, ?_⟩
      cases t <;> exact ⟨TokenKind.noConfusion, TokenKind.noConfusion,
        TokenKind.noConfusion⟩
  | effect e span =>
      rw [Stmt.Readable] at h
      obtain ⟨l, ls, hls, hl⟩ := h.starts (Power.lowest.rank + 1)
      rw [lexemes, hls]
      exact ⟨_, _, rfl, opens_of_starts hl⟩
  | block | read | write | branch | whileLoop | forLoop =>
      exact ⟨_, _, rfl, TokenKind.noConfusion, TokenKind.noConfusion,
        TokenKind.noConfusion⟩

theorem readableAll_iff {ss : List Stmt} : ReadableAll ss ↔ ∀ s ∈ ss, s.Readable := by
  induction ss with
  | nil =>
      constructor
      · intro _ s hs
        cases hs
      · exact fun _ => trivial
  | cons s rest ih => rw [ReadableAll, ih, List.forall_mem_cons]

private theorem length_le_lexemesAll {ss : List Stmt} (h : ReadableAll ss) :
    ss.length ≤ (lexemesAll ss).length := by
  induction ss with
  | nil => exact Nat.zero_le _
  | cons s rest ih =>
      obtain ⟨hs, hrest⟩ := h
      obtain ⟨l, ls, hls, -⟩ := hs.opens
      have hlength := ih hrest
      rw [lexemesAll, hls, List.length_append, List.length_cons, List.length_cons]
      omega

/-- What follows a statement in a row is the next one or what follows the row. -/
theorem follows_lexemesAll {ss : List Stmt} (h : ReadableAll ss) {m : Lexeme}
    (hm : m.1 ≠ .elseWord) (s : Stmt) :
    s.Follows ((lexemesAll ss).headD m) := by
  intro _
  cases ss with
  | nil => exact hm
  | cons t rest =>
      obtain ⟨l, ls, hls, hl⟩ := h.1.opens
      rw [lexemesAll, hls]
      exact hl.ne_else

section

variable {item : Parser Stmt} {ss : List Stmt}

private theorem reads_bodyLoop (hss : ReadableAll ss)
    (h : ∀ s ∈ ss, item.Reads s.lexemes (unplaced s) s.Follows) {n : Nat}
    (hn : ss.length < n) :
    (bodyLoop item n).Reads (lexemesAll ss) (unplaced ss)
      (fun m => m.1 = .closeCurly) := by
  induction ss generalizing n with
  | nil =>
      obtain ⟨k, rfl⟩ : ∃ k, n = k + 1 := ⟨n - 1, by omega⟩
      intro m ms hm
      show (if m.1 = .eof ∨ m.1 = .closeCurly then pure []
        else _ : Parser (List Stmt)) _ = _
      rw [if_pos (.inr hm)]
      rfl
  | cons s rest ih =>
      obtain ⟨hs, hrest⟩ := hss
      rw [List.length_cons] at hn
      obtain ⟨k, rfl⟩ : ∃ k, n = k + 1 := ⟨n - 1, by omega⟩
      have hlater :=
        ih hrest (fun t ht => h t (List.mem_cons_of_mem s ht)) (n := k) (by omega)
      have hwhole : (item >>= fun first => bodyLoop item k >>= fun rest =>
          pure (first :: rest)).Reads
          (lexemesAll (s :: rest)) (unplaced (s :: rest))
            (fun m => m.1 = .closeCurly) := by
        rw [lexemesAll]
        apply (h s List.mem_cons_self).bind hlater.last
        intro m hm
        apply follows_lexemesAll hrest
        rw [hm]
        exact TokenKind.noConfusion
      obtain ⟨l, ls, hls, hl⟩ := hs.opens
      rw [lexemesAll, hls, List.cons_append] at hwhole ⊢
      rw [bodyLoop]
      apply Reads.current
      have hkind : ¬ (l.token.kind = .eof ∨ l.token.kind = .closeCurly) :=
        not_or.mpr ⟨hl.ne_eof, hl.ne_close⟩
      rw [if_neg hkind]
      exact hwhole

private theorem reads_readBlock (hss : ReadableAll ss) (span : Span)
    (h : ∀ s ∈ ss, item.Reads s.lexemes (unplaced s) s.Follows) {F : Lexeme → Prop} :
    (readBlock item).Reads (block ss span).lexemes (unplaced (block ss span)) F := by
  have hbody : (untilClosed item).Reads (lexemesAll ss) (unplaced ss)
      (fun m => m.1 = .closeCurly) := by
    intro m ms hm
    have hlength := length_le_lexemesAll hss
    unfold untilClosed
    rw [Cursor.length_ahead_before]
    exact reads_bodyLoop hss h (by omega) m ms hm
  rw [lexemes]
  apply Reads.expect
  apply hbody.bind
  · apply Reads.expectFor
    apply Reads.previousEnd
    rw [show unplaced (block ss span) = block (unplaced ss) (.at (.first "")) from
      congrArg (block · _) (moveAll_eq _ ss)]
    exact reads_pure
  · exact fun _ _ => rfl

end

section

variable {n : Nat} {F : Lexeme → Prop} {stmt : Parser Stmt}

/-- An alternative is read where there is one, and none where none follows. -/
theorem reads_readAlternate {alternate : Option Stmt}
    (h : ∀ s ∈ alternate, stmt.Reads s.lexemes (unplaced s) s.Follows) :
    (readAlternate stmt).Reads (lexemesElse alternate) (unplaced alternate)
      (fun m => endsOpenElse alternate = true → m.1 ≠ .elseWord) := by
  cases alternate with
  | none =>
      intro m ms hm
      show (if m.1 = .elseWord then _ else pure none : Parser (Option Stmt)) _ = _
      rw [if_neg (hm rfl)]
      rfl
  | some s =>
      rw [lexemesElse]
      apply Reads.current
      rw [if_pos (show TokenKind.elseWord.lexeme.token.kind = .elseWord from rfl)]
      apply Reads.advance
      exact (h s rfl).last

private theorem unplaced_branch (condition : Expr) (consequent : Stmt)
    (alternate : Option Stmt) (span : Span) :
    unplaced (branch condition consequent alternate span) =
      branch (unplaced condition) (unplaced consequent) (unplaced alternate)
        (.at (.first "")) :=
  congrArg (branch _ _ · _) (moveOption_eq _ alternate)

private theorem reads_readBranch {condition : Expr} {consequent : Stmt}
    {alternate : Option Stmt} (span : Span) (hcondition : condition.Readable)
    (hn : (branch condition consequent alternate span).lexemes.length ≤ n)
    (hopen : alternate.isSome → consequent.endsOpen = false)
    (hconsequent : stmt.Reads consequent.lexemes (unplaced consequent)
      consequent.Follows)
    (halternate : ∀ s ∈ alternate, stmt.Reads s.lexemes (unplaced s) s.Follows) :
    (readBranch (standard.exprWithin n) stmt).Reads
      (branch condition consequent alternate span).lexemes
      (unplaced (branch condition consequent alternate span))
      (branch condition consequent alternate span).Follows := by
  rw [lexemes, List.length_cons, List.length_append] at hn
  have htest := reads_readCondition (F := fun _ => True) hcondition (n := n) (by omega)
  rw [lexemes, unplaced_branch]
  apply Reads.advance
  apply htest.bind
  · apply hconsequent.bind
    · exact (reads_readAlternate halternate).lastEnd
    · intro m hm hends
      cases alternate with
      | none => exact hm rfl
      | some s =>
          rw [hopen rfl] at hends
          cases hends
  · exact fun _ _ => trivial

private theorem reads_readWhile {condition : Expr} {body : Stmt} (span : Span)
    (hcondition : condition.Readable)
    (hn : (whileLoop condition body span).lexemes.length ≤ n)
    (hbody : stmt.Reads body.lexemes (unplaced body) body.Follows) :
    (readWhile (standard.exprWithin n) stmt).Reads
      (whileLoop condition body span).lexemes
      (unplaced (whileLoop condition body span))
        (whileLoop condition body span).Follows := by
  rw [lexemes, List.length_cons, List.length_append] at hn
  have htest := reads_readCondition (F := fun _ => True) hcondition (n := n) (by omega)
  rw [lexemes]
  apply Reads.advance
  apply htest.bind
  · exact hbody.lastEnd
  · exact fun _ _ => trivial

private theorem reads_readType? (induction : Option Induction) :
    readType?.Reads (Induction.lexemes induction) (induction.map (·.ty))
      (fun m => m.1.ty? = .none) := by
  cases induction with
  | none =>
      intro m ms hm
      have hty : (Cursor.before (Induction.lexemes .none ++ m :: ms)).current.kind.ty? =
          .none := hm
      rw [readType?, current_bind, hty]
      rfl
  | some i =>
      apply Reads.current
      rw [show i.ty.word.lexeme.token.kind.ty? = some i.ty from i.ty.ty?_word]
      exact Reads.advance reads_pure

private theorem inductionOf_unplaced {induction : Option Induction} {init : Expr}
    (h : ∀ i ∈ induction, ∃ target value span,
      init = .assignment target value span ∧ target.name = i.target.name) :
    inductionOf (induction.map (·.ty)) (unplaced init) = .ok (unplaced induction) := by
  cases induction with
  | none => rfl
  | some i =>
      obtain ⟨target, value, span, rfl, hname⟩ := h i rfl
      show Except.ok (some (⟨i.ty, ⟨target.name, .at (.first "")⟩⟩ : Induction)) = _
      rw [hname]
      rfl

private theorem ty?_of_starts {l : Lexeme} (h : Expr.Starts l) : l.1.ty? = .none := by
  have hstart := h.start
  cases hkind : l.1 <;> (rw [hkind] at hstart; first | rfl | cases hstart)

private theorem reads_readFor {induction : Option Induction}
    {init condition step : Expr} {body : Stmt} (span : Span)
    (hinduction : ∀ i ∈ induction, ∃ target value span,
      init = .assignment target value span ∧ target.name = i.target.name)
    (hinit : init.Readable) (hcondition : condition.Readable) (hstep : step.Readable)
    (hn : (forLoop induction init condition step body span).lexemes.length ≤ n)
    (hbody : stmt.Reads body.lexemes (unplaced body) body.Follows) :
    (readFor (standard.exprWithin n) stmt).Reads
      (forLoop induction init condition step body span).lexemes
      (unplaced (forLoop induction init condition step body span))
      (forLoop induction init condition step body span).Follows := by
  simp only [lexemes, List.length_cons, List.length_append] at hn
  rw [lexemes]
  apply Reads.advance
  apply Reads.expect
  apply (reads_readType? induction).bind
  · apply Reads.peek
    intro first
    apply (hinit.reads (by omega)).bind
    · rw [inductionOf_unplaced hinduction]
      apply Reads.expect
      apply (hcondition.reads (by omega)).bind
      · apply Reads.expect
        apply (hstep.reads (by omega)).bind
        · apply Reads.expect
          exact hbody.lastEnd
        · exact fun _ _ => ends_lowest rfl
      · exact fun _ _ => ends_lowest rfl
    · exact fun _ _ => ends_lowest rfl
  · intro m _
    obtain ⟨l, ls, hls, hl⟩ := hinit.starts (Power.lowest.rank + 1)
    rw [hls]
    exact ty?_of_starts hl

end

section

variable {k : Nat} {s : Stmt} {l : Lexeme} {ls : List Lexeme} {F : Lexeme → Prop}

/-- A statement is read by the rule for its first lexeme. -/
theorem reads_stmtWithin (rule : StmtRule)
    (hfind : standard.stmts.find? l.1 = some rule)
    (h : (rule.parse (standard.exprWithin k) (standard.stmtWithin k)).Reads
      (l :: ls) s F) :
    (standard.stmtWithin (k + 1)).Reads (l :: ls) s F := by
  rw [stmtWithin]
  apply Reads.current
  rw [show standard.stmts.find? l.token.kind = some rule from hfind]
  exact h

private theorem find?_stmts_of_starts (h : Expr.Starts l) :
    standard.stmts.find? l.1 = .none := by
  have hstart := h.start
  cases hkind : l.1 <;> (rw [hkind] at hstart; first | rfl | cases hstart)

/-- What starts an expression is read as an expression statement. -/
theorem reads_stmtWithin_effect (hl : Expr.Starts l)
    (h : (readEffect (standard.exprWithin k)).Reads (l :: ls) s F) :
    (standard.stmtWithin (k + 1)).Reads (l :: ls) s F := by
  rw [stmtWithin]
  apply Reads.current
  rw [show standard.stmts.find? l.token.kind = .none from find?_stmts_of_starts hl]
  exact h

end

mutual

/-- A statement is read from its lexemes. -/
theorem reads_lexemes (s : Stmt) (h : s.Readable) (n : Nat)
    (hn : s.lexemes.length < n) :
    (standard.stmtWithin n).Reads s.lexemes (unplaced s) s.Follows := by
  obtain ⟨k, rfl⟩ : ∃ k, n = k + 1 := ⟨n - 1, by omega⟩
  have hk : s.lexemes.length ≤ k := Nat.le_of_lt_succ hn
  cases s with
  | block body span =>
      rw [Readable] at h
      rw [lexemes, List.length_cons, List.length_append] at hk
      apply reads_stmtWithin .block rfl
      exact reads_readBlock h span (reads_lexemesAll body h k (by omega))
  | declaration t idents span =>
      rw [Readable] at h
      apply reads_stmtWithin .declaration (by cases t <;> rfl)
      exact reads_readDeclaration t h span
  | read idents span =>
      rw [Readable] at h
      apply reads_stmtWithin .read rfl
      exact reads_readRead h span
  | write values span =>
      rw [Readable] at h
      apply reads_stmtWithin .write rfl
      exact reads_readWrite h.1 h.2 span hk
  | branch condition consequent alternate span =>
      rw [Readable] at h
      obtain ⟨hcondition, hconsequent, halternate, hopen⟩ := h
      apply reads_stmtWithin .branch rfl
      apply reads_readBranch span hcondition hk hopen
      · rw [lexemes, List.length_cons, List.length_append, List.length_append] at hk
        exact reads_lexemes consequent hconsequent k (by omega)
      · rw [lexemes, List.length_cons, List.length_append, List.length_append] at hk
        exact reads_lexemesElse alternate halternate k (by omega)
  | whileLoop condition body span =>
      rw [Readable] at h
      obtain ⟨hcondition, hbody⟩ := h
      apply reads_stmtWithin .whileLoop rfl
      apply reads_readWhile span hcondition hk
      rw [lexemes, List.length_cons, List.length_append] at hk
      exact reads_lexemes body hbody k (by omega)
  | forLoop induction init condition step body span =>
      rw [Readable] at h
      obtain ⟨hinduction, hinit, hcondition, hstep, hbody⟩ := h
      apply reads_stmtWithin .forLoop rfl
      apply reads_readFor span hinduction hinit hcondition hstep hk
      simp only [lexemes, List.length_cons, List.length_append] at hk
      exact reads_lexemes body hbody k (by omega)
  | effect e span =>
      rw [Readable] at h
      have heffect := reads_readEffect (F := (effect e span).Follows) h span hk
      obtain ⟨l, ls, hls, hl⟩ := h.starts (Power.lowest.rank + 1)
      rw [lexemes, hls, List.cons_append] at heffect ⊢
      exact reads_stmtWithin_effect hl heffect

private theorem reads_lexemesElse (alternate : Option Stmt) (h : ReadableElse alternate)
    (n : Nat) (hn : (lexemesElse alternate).length < n) :
    ∀ s ∈ alternate,
      (standard.stmtWithin n).Reads s.lexemes (unplaced s) s.Follows := by
  cases alternate with
  | none => exact fun _ hs => nomatch hs
  | some s =>
    rw [lexemesElse, List.length_cons] at hn
    intro t ht
    cases ht
    exact reads_lexemes s h n (by omega)

private theorem reads_lexemesAll (ss : List Stmt) (h : ReadableAll ss) (n : Nat)
    (hn : (lexemesAll ss).length < n) :
    ∀ s ∈ ss, (standard.stmtWithin n).Reads s.lexemes (unplaced s) s.Follows := by
  cases ss with
  | nil => exact fun _ hs => nomatch hs
  | cons s rest =>
      rw [lexemesAll, List.length_append] at hn
      obtain ⟨hs, hrest⟩ := h
      intro t ht
      cases List.mem_cons.mp ht with
      | inl heq =>
          rw [heq]
          exact reads_lexemes s hs n (by omega)
      | inr hmem => exact reads_lexemesAll rest hrest n (by omega) t hmem

end

private theorem reads_stmt {s : Stmt} (h : s.Readable) :
    standard.stmt.Reads s.lexemes (unplaced s) s.Follows := by
  intro m ms hm
  unfold Rules.stmt chainBound
  rw [Cursor.length_ahead_before]
  exact reads_lexemes s h _ (by omega) m ms hm

/-- Statements in a row are read up to the end of the text. -/
theorem readStatements_lexemesAll {ss : List Stmt} (h : ReadableAll ss) {n : Nat}
    (hn : ss.length < n) :
    standard.readStatements n (.before (lexemesAll ss ++ [TokenKind.eof.lexeme])) =
      ⟨unplaced ss, [], true, .before [TokenKind.eof.lexeme]⟩ := by
  induction ss generalizing n with
  | nil =>
      obtain ⟨k, rfl⟩ : ∃ k, n = k + 1 := ⟨n - 1, by omega⟩
      rfl
  | cons s rest ih =>
      obtain ⟨hs, hrest⟩ := h
      rw [List.length_cons] at hn
      obtain ⟨k, rfl⟩ : ∃ k, n = k + 1 := ⟨n - 1, by omega⟩
      have hlater := ih hrest (n := k) (by omega)
      have hfirst :
          standard.stmt (.before (lexemesAll (s :: rest) ++ [TokenKind.eof.lexeme])) =
            .ok (unplaced s) (.before (lexemesAll rest ++ [TokenKind.eof.lexeme])) := by
        have hfollows :=
          follows_lexemesAll hrest (m := TokenKind.eof.lexeme) TokenKind.noConfusion s
        rw [lexemesAll, List.append_assoc]
        cases hls : lexemesAll rest with
        | nil =>
            rw [hls] at hfollows
            exact reads_stmt hs _ [] hfollows
        | cons l ls =>
            rw [hls] at hfollows
            exact reads_stmt hs l _ hfollows
      obtain ⟨l, ls, hls, hl⟩ := hs.opens
      have htokens :
          (Cursor.before (lexemesAll (s :: rest) ++ [TokenKind.eof.lexeme])).hasTokens =
            true := by
        rw [lexemesAll, hls]
        exact bne_iff_ne.mpr hl.ne_eof
      rw [readStatements, if_pos htokens, hfirst]
      dsimp only
      rw [hlater]
      rfl

end Stmt

/-! ## Programs -/

private theorem Cursor.ofTokens_unplaced {file : String} {tokens : List Token}
    {l : Lexeme} {ls : List Lexeme}
    (h : (closed file tokens).map Token.lexeme = l :: ls) :
    (ofTokens file tokens).move (fun _ => .first "") = before (l :: ls) := by
  unfold ofTokens
  cases hclosed : closed file tokens with
  | nil =>
      rw [hclosed] at h
      cases h
  | cons t ts =>
      rw [hclosed] at h
      obtain ⟨hfirst, hrest⟩ := List.cons.inj h
      show (⟨.first "", unplaced t, unplaced ts⟩ : Cursor) =
        ⟨.first "", l.token, ls.map Lexeme.token⟩
      rw [Token.unplaced_eq, hrest, ← hfirst]
      rfl

private theorem Cursor.length_closed_le (file : String) (tokens : List Token) :
    (closed file tokens).length ≤ tokens.length + 1 := by
  unfold closed
  cases tokens.getLast? with
  | none => exact Nat.le_add_left 1 _
  | some last =>
      dsimp only
      by_cases heof : last.kind = .eof
      · rw [if_pos heof]
        exact Nat.le_succ _
      · rw [if_neg heof, List.length_append]
        exact Nat.le_refl _

/-- A program that can be written is read from tokens with its lexemes,
wherever they stand. -/
theorem Program.ofTokens_lexemes {p : Program} (h : p.Readable) {file : String}
    {tokens : List Token}
    (htokens : (Cursor.closed file tokens).map Token.lexeme = p.lexemes) :
    ∃ q, Program.ofTokens file tokens = .ok q ∧ unplaced q = unplaced p := by
  have hcursor : (Cursor.ofTokens file tokens).move (fun _ => .first "") =
      .before p.lexemes := by
    cases hls : p.lexemes with
    | nil =>
        exact absurd hls (List.append_ne_nil_of_right_ne_nil _ (List.cons_ne_nil _ _))
    | cons l ls => exact Cursor.ofTokens_unplaced (htokens.trans hls)
  have hlength : p.body.length < tokens.length + 2 := by
    have hbody := Stmt.length_le_lexemesAll h
    have hclosed := Cursor.length_closed_le file tokens
    have heq := congrArg List.length htokens
    rw [List.length_map, Program.lexemes, List.length_append, List.length_singleton]
      at heq
    omega
  have hreading : (readTokens file tokens).move (fun _ => .first "") =
      ⟨unplaced p.body, [], true, .before [TokenKind.eof.lexeme]⟩ := by
    unfold readTokens
    rw [← Rules.readStatements_move, hcursor]
    exact Stmt.readStatements_lexemesAll h hlength
  unfold Program.ofTokens
  generalize readTokens file tokens = reading at hreading ⊢
  obtain ⟨body, errors, finished, stop⟩ := reading
  obtain ⟨hbody, herrors, hfinished, -⟩ := Rules.Reading.mk.inj hreading
  have hnone : errors = [] := List.map_eq_nil_iff.mp herrors
  subst hfinished hnone
  refine ⟨_, rfl, ?_⟩
  exact congrArg (Program.mk · (.at (.first ""))) hbody

end ScalarLang
