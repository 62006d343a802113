import ScalarLang.Proofs.Progress

/-!
# The grammar of statements

Statements are written around phrases of the expression grammar, with words,
parentheses, braces, commas and semicolons. `Stmt.Phrased` has a rule for each way to
write one, and each rule says which tokens the range of the statement is told by: it
starts where its first token does and stops where its last one does, save that a
statement made of an expression starts where the expression does, as parentheses in
front of that leave no trace.

The parser keeps neither the tokens nor where one statement ends and the next one
starts. It only remembers where the last token ended, which is where a statement that
has just been read stops (`Stmt.Closes`).

## Main results

* `Program.phrased_of_ofTokens`: the statements of a program derive from the grammar.
-/

namespace ScalarLang

open ScalarLang.Parser

/-! ## Rules -/

/-- Items with commas between them. -/
inductive Listed {α : Type} (Item : List Token → α → Prop) : List Token → List α → Prop
  | single {ts : List Token} {a : α} (h : Item ts a) : Listed Item ts [a]
  | cons {ts us : List Token} {comma : Token} {a : α} {as : List α} (h : Item ts a)
      (hcomma : comma.kind = .comma)
      (hrest : Listed Item us as) : Listed Item (ts ++ comma :: us) (a :: as)

/-- The variable that a token names. -/
inductive Ident.Phrased : List Token → Ident → Prop
  | name {t : Token} (hkind : t.kind = .identifier) : Phrased [t] ⟨t.value, t.span⟩

/-- A condition in its parentheses. -/
inductive Expr.Enclosed : List Token → Expr → Prop
  | parens {opening closing : Token} {ts : List Token} {e : Expr}
      (hopening : opening.kind = .openParen)
      (h : Tier.assignment.Derives ts e) (hclosing : closing.kind = .closeParen) :
      Enclosed (opening :: (ts ++ [closing])) e

/-- The type in front of the first expression of a loop, if there is one, and the
variable declared with it: it is the one that the expression assigns to. -/
inductive Induction.Phrased : List Token → Option Induction → Expr → Prop
  | untyped {init : Expr} : Phrased [] none init
  | typed {word : Token} {t : Ty} {target : Ident} {value : Expr} {span : Span}
      (hword : word.kind.ty? = some t) :
      Phrased [word] (some ⟨t, target⟩) (.assignment target value span)

/-- Statements in a row. -/
inductive Stmt.Phrased : List Token → List Stmt → Prop
  | nil : Phrased [] []
  | cons {ts us : List Token} {s : Stmt} {ss : List Stmt} (hfirst : Phrased ts [s])
      (hrest : Phrased us ss) :
      Phrased (ts ++ us) (s :: ss)
  | effect {ts : List Token} {value : Expr} {semi : Token}
      (hvalue : Tier.assignment.Derives ts value)
      (hsemi : semi.kind = .semicolon) :
      Phrased (ts ++ [semi]) [.effect value ⟨value.span.start, semi.span.stop⟩]
  | declaration {word semi : Token} {t : Ty} {ts : List Token} {idents : List Ident}
      (hword : word.kind.ty? = some t)
      (hidents : Listed Ident.Phrased ts idents) (hsemi : semi.kind = .semicolon) :
      Phrased (word :: (ts ++ [semi]))
        [.declaration t idents ⟨word.span.start, semi.span.stop⟩]
  | read {word semi : Token} {ts : List Token} {idents : List Ident}
      (hword : word.kind = .readWord)
      (hidents : Listed Ident.Phrased ts idents) (hsemi : semi.kind = .semicolon) :
      Phrased (word :: (ts ++ [semi])) [.read idents ⟨word.span.start, semi.span.stop⟩]
  | write {word semi : Token} {ts : List Token} {values : List Expr}
      (hword : word.kind = .writeWord)
      (hvalues : Listed Tier.assignment.Derives ts values)
      (hsemi : semi.kind = .semicolon) :
      Phrased (word :: (ts ++ [semi])) [.write values ⟨word.span.start, semi.span.stop⟩]
  | empty {semi : Token} (hsemi : semi.kind = .semicolon) :
      Phrased [semi] [.block [] semi.span]
  | block {opening closing : Token} {ts : List Token} {body : List Stmt}
      (hopening : opening.kind = .openCurly)
      (hbody : Phrased ts body) (hclosing : closing.kind = .closeCurly) :
      Phrased (opening :: (ts ++ [closing]))
        [.block body ⟨opening.span.start, closing.span.stop⟩]
  | branch {word : Token} {ts us : List Token} {condition : Expr} {consequent : Stmt}
      (hword : word.kind = .ifWord)
      (hcondition : Expr.Enclosed ts condition)
      (hconsequent : Phrased us [consequent]) :
      Phrased (word :: (ts ++ us))
        [.branch condition consequent none ⟨word.span.start, consequent.span.stop⟩]
  | alternative {word other : Token} {ts us vs : List Token} {condition : Expr}
      {consequent alternate : Stmt}
      (hword : word.kind = .ifWord) (hcondition : Expr.Enclosed ts condition)
      (hconsequent : Phrased us [consequent])
      (hother : other.kind = .elseWord) (halternate : Phrased vs [alternate]) :
      Phrased (word :: (ts ++ (us ++ other :: vs)))
        [.branch condition consequent (some alternate) ⟨word.span.start,
          alternate.span.stop⟩]
  | whileLoop {word : Token} {ts us : List Token} {condition : Expr} {body : Stmt}
      (hword : word.kind = .whileWord)
      (hcondition : Expr.Enclosed ts condition) (hbody : Phrased us [body]) :
      Phrased (word :: (ts ++ us))
        [.whileLoop condition body ⟨word.span.start, body.span.stop⟩]
  | forLoop {word opening first second closing : Token} {types ts us vs ws : List Token}
      {induction : Option Induction} {init condition step : Expr} {body : Stmt}
      (hword : word.kind = .forWord)
      (hopening : opening.kind = .openParen)
      (hinduction : Induction.Phrased types induction init)
      (hinit : Tier.assignment.Derives ts init) (hfirst : first.kind = .semicolon)
      (hcondition : Tier.assignment.Derives us condition)
      (hsecond : second.kind = .semicolon)
      (hstep : Tier.assignment.Derives vs step) (hclosing : closing.kind = .closeParen)
      (hbody : Phrased ws [body]) :
      Phrased (word :: opening ::
        (types ++ (ts ++ first :: (us ++ second :: (vs ++ closing :: ws)))))
        [.forLoop induction init condition step body ⟨word.span.start, body.span.stop⟩]

/-! ## Cursors and replies -/

private theorem Cursor.previousEnd_advance {c : Cursor} (hne : c.ahead ≠ []) :
    c.advance.previousEnd = c.current.span.stop := by
  unfold advance
  split
  · next hnil => exact absurd hnil hne
  · rfl

/-- Whether a reply, unless nothing was read, has a property with the tokens that were
taken and the cursor behind. -/
def Reply.Builds {α : Type} (c : Cursor) (P : List Token → α → Cursor → Prop) :
    Reply α → Prop
  | .ok a next => next.Terminated ∧ ∃ ts, c.tokens = ts ++ next.tokens ∧ P ts a next
  | .fail _ _ | .endless => True

namespace Parser

variable {α β : Type} {c : Cursor} {P : List Token → α → Cursor → Prop}
  {Q : List Token → β → Cursor → Prop}

theorem builds_pure {a : α} (hc : c.Terminated) (ha : P [] a c) :
    ((pure a : Parser α) c).Builds c P :=
  ⟨hc, [], rfl, ha⟩

private theorem builds_of_takes {R : List Token → α → Token → Prop} {reply : Reply α}
    (h : reply.Takes c R) (hR : ∀ ts a next, R ts a next.current → P ts a next) :
    reply.Builds c P := by
  cases reply with
  | ok a next =>
      obtain ⟨hnext, ts, hts, ha⟩ := h
      exact ⟨hnext, ts, hts, hR ts a next ha⟩
  | fail | endless => trivial

private theorem builds_behind {next : Cursor} {ts : List Token} {reply : Reply α}
    (h : reply.Builds next fun us => P (ts ++ us))
    (hts : c.tokens = ts ++ next.tokens) : reply.Builds c P := by
  cases reply with
  | ok a last =>
      obtain ⟨hlast, us, hus, ha⟩ := h
      exact ⟨hlast, ts ++ us, by rw [hts, hus, List.append_assoc], ha⟩
  | fail | endless => trivial

theorem builds_bind {p : Parser α} {g : α → Parser β} (hp : (p c).Builds c P)
    (hg : ∀ ts a next, next.Terminated → P ts a next →
      (g a next).Builds next fun us => Q (ts ++ us)) :
    ((p >>= g) c).Builds c Q := by
  show (Parser.bind p g c).Builds c Q
  unfold Parser.bind
  cases hreply : p c with
  | fail | endless => trivial
  | ok a next =>
      rw [hreply] at hp
      obtain ⟨hnext, ts, hts, ha⟩ := hp
      exact builds_behind (hg ts a next hnext ha) hts

/-- The current token is taken, and it is the one that ended last. -/
theorem builds_advance {g : Token → Parser β} (hc : c.Terminated)
    (hkind : c.current.kind ≠ .eof)
    (hg : c.advance.previousEnd = c.current.span.stop →
      (g c.current c.advance).Builds c.advance fun us => Q (c.current :: us)) :
    ((advance >>= g) c).Builds c Q := by
  have htokens : c.tokens = [c.current] ++ c.advance.tokens := hc.tokens_eq hkind
  exact builds_behind (hg (Cursor.previousEnd_advance (hc.ahead_ne_nil hkind))) htokens

/-- A token that was asked for by its kind is taken, or nothing is read. -/
theorem builds_ofKind {kind : TokenKind} {other : Parser Token} {g : Token → Parser β}
    (hc : c.Terminated) (heof : kind ≠ .eof) (hother : ∃ d stop, other c = .fail d stop)
    (hg : c.current.kind = kind → c.advance.previousEnd = c.current.span.stop →
      (g c.current c.advance).Builds c.advance fun us => Q (c.current :: us)) :
    (((if c.current.kind = kind then advance else other) >>= g) c).Builds c Q := by
  by_cases hkind : c.current.kind = kind
  · rw [if_pos hkind]
    exact builds_advance hc (fun h => heof (hkind.symm.trans h)) (hg hkind)
  · obtain ⟨d, stop, hfail⟩ := hother
    rw [if_neg hkind, bind_of_eq_fail hfail]
    trivial

theorem builds_expect {kind : TokenKind} {g : Token → Parser β} (hc : c.Terminated)
    (heof : kind ≠ .eof)
    (hg : c.current.kind = kind → c.advance.previousEnd = c.current.span.stop →
      (g c.current c.advance).Builds c.advance fun us => Q (c.current :: us)) :
    ((expect kind >>= g) c).Builds c Q :=
  builds_ofKind hc heof ⟨_, _, rfl⟩ hg

theorem builds_expectFor {kind : TokenKind} {message : String} {g : Token → Parser β}
    (hc : c.Terminated) (heof : kind ≠ .eof)
    (hg : c.current.kind = kind → c.advance.previousEnd = c.current.span.stop →
      (g c.current c.advance).Builds c.advance fun us => Q (c.current :: us)) :
    ((expectFor kind message >>= g) c).Builds c Q :=
  builds_ofKind hc heof ⟨_, _, rfl⟩ hg

/-- Where the last token ended is told by the place of the cursor. -/
theorem builds_previousEnd {f : Position → β} {position : Position} (hc : c.Terminated)
    (hend : c.previousEnd = position) (h : Q [] (f position) c) :
    ((previousEnd >>= fun stop => pure (f stop)) c).Builds c Q := by
  subst hend
  exact builds_pure hc h

/-! ### Repetition -/

private theorem builds_commaSeparated {item : Parser α} {Item : List Token → α → Prop}
    (hitem : ∀ c : Cursor, c.Terminated → (item c).Builds c fun ts a _ => Item ts a)
    (hc : c.Terminated) :
    (commaSeparated item c).Builds c fun ts as _ => Listed Item ts as := by
  have hloop (n : Nat) : ∀ c : Cursor, c.Terminated →
      (commaLoop item n c).Builds c fun ts as _ => Listed Item ts as := by
    induction n with
    | zero => exact fun c _ => trivial
    | succ n ih =>
        intro c hc
        rw [commaLoop]
        apply builds_bind (hitem c hc)
        intro ts first next hnext hfirst
        rw [current_bind]
        by_cases hcomma : next.current.kind = .comma
        · rw [if_pos hcomma]
          apply builds_advance hnext (by rw [hcomma]; exact TokenKind.noConfusion)
          intro _
          apply builds_bind (ih _ hnext.advance)
          intro us rest last hlast hrest
          apply builds_pure hlast
          rw [List.append_nil]
          exact .cons hfirst hcomma hrest
        · rw [if_neg hcomma]
          apply builds_pure hnext
          rw [List.append_nil]
          exact .single hfirst
  exact hloop _ c hc

end Parser

/-! ## What is read derives from the grammar -/

/-- Whether tokens are a statement that stops where the last token in front
of a cursor did. -/
def Stmt.Closes (ts : List Token) (s : Stmt) (next : Cursor) : Prop :=
  Phrased ts [s] ∧ next.previousEnd = s.span.stop

section

variable {expr : ExprParser} {stmt : Parser Stmt} {c : Cursor}

private theorem builds_readIdent (hc : c.Terminated) :
    (readIdent c).Builds c fun ts x _ => Ident.Phrased ts x := by
  rw [readIdent]
  apply builds_expectFor hc TokenKind.noConfusion
  intro hkind _
  exact builds_pure hc.advance (.name hkind)

private theorem builds_idents (hc : c.Terminated) :
    (commaSeparated readIdent c).Builds c fun ts xs _ => Listed Ident.Phrased ts xs :=
  builds_commaSeparated (fun _ => builds_readIdent) hc

private theorem builds_readDeclaration (hc : c.Terminated) :
    (readDeclaration c).Builds c Stmt.Closes := by
  rw [readDeclaration]
  by_cases hkind : c.current.kind = .eof
  · rw [advance_bind, hkind]
    trivial
  apply builds_advance hc hkind
  intro _
  cases hty : c.current.kind.ty? with
  | none => trivial
  | some t =>
      apply builds_bind (builds_idents hc.advance)
      intro ts idents next hnext hidents
      apply builds_expect hnext TokenKind.noConfusion
      intro hsemi hend
      exact builds_previousEnd hnext.advance hend ⟨.declaration hty hidents hsemi, hend⟩

private theorem builds_readRead (hc : c.Terminated)
    (hkind : c.current.kind = .readWord) :
    (readRead c).Builds c Stmt.Closes := by
  rw [readRead]
  apply builds_advance hc (by rw [hkind]; exact TokenKind.noConfusion)
  intro _
  apply builds_bind (builds_idents hc.advance)
  intro ts idents next hnext hidents
  apply builds_expect hnext TokenKind.noConfusion
  intro hsemi hend
  exact builds_previousEnd hnext.advance hend ⟨.read hkind hidents hsemi, hend⟩

private theorem builds_readEmpty (hc : c.Terminated)
    (hkind : c.current.kind = .semicolon) :
    (readEmpty c).Builds c Stmt.Closes := by
  rw [readEmpty]
  apply builds_advance hc (by rw [hkind]; exact TokenKind.noConfusion)
  intro hend
  exact builds_pure hc.advance ⟨.empty hkind, hend⟩

section

variable (hexpr : expr.Sound)

include hexpr

private theorem builds_lowest (hc : c.Terminated) :
    (expr .lowest c).Builds c fun ts e _ => Tier.assignment.Derives ts e :=
  builds_of_takes (hexpr .lowest c hc) fun _ _ _ h => h.2

private theorem builds_readCondition (hc : c.Terminated) :
    (readCondition expr c).Builds c fun ts e _ => Expr.Enclosed ts e := by
  rw [readCondition]
  apply builds_expect hc TokenKind.noConfusion
  intro hopening _
  apply builds_bind (builds_lowest hexpr hc.advance)
  intro ts condition next hnext hcondition
  apply builds_expect hnext TokenKind.noConfusion
  intro hclosing _
  exact builds_pure hnext.advance (.parens hopening hcondition hclosing)

private theorem builds_readEffect (hc : c.Terminated) :
    (readEffect expr c).Builds c Stmt.Closes := by
  rw [readEffect]
  apply builds_bind (builds_lowest hexpr hc)
  intro ts value next hnext hvalue
  apply builds_expect hnext TokenKind.noConfusion
  intro hsemi hend
  exact builds_previousEnd hnext.advance hend ⟨.effect hvalue hsemi, hend⟩

private theorem builds_readWrite (hc : c.Terminated)
    (hkind : c.current.kind = .writeWord) :
    (readWrite expr c).Builds c Stmt.Closes := by
  rw [readWrite]
  apply builds_advance hc (by rw [hkind]; exact TokenKind.noConfusion)
  intro _
  apply builds_bind (builds_commaSeparated (fun _ => builds_lowest hexpr) hc.advance)
  intro ts values next hnext hvalues
  apply builds_expect hnext TokenKind.noConfusion
  intro hsemi hend
  exact builds_previousEnd hnext.advance hend ⟨.write hkind hvalues hsemi, hend⟩

end

/-- Whether what is read is a statement that stops where the last token in front of the
cursor behind it did. -/
def StmtParser.Sound (stmt : Parser Stmt) : Prop :=
  ∀ c : Cursor, c.Terminated → (stmt c).Builds c Stmt.Closes

variable (hstmt : StmtParser.Sound stmt)

section

include hstmt

private theorem builds_body (hc : c.Terminated) :
    (untilClosed stmt c).Builds c fun ts ss _ => Stmt.Phrased ts ss := by
  have hloop (n : Nat) : ∀ c : Cursor, c.Terminated →
      (bodyLoop stmt n c).Builds c fun ts ss _ => Stmt.Phrased ts ss := by
    induction n with
    | zero => exact fun c _ => trivial
    | succ n ih =>
        intro c hc
        rw [bodyLoop, current_bind]
        by_cases hend : c.current.kind = .eof ∨ c.current.kind = .closeCurly
        · rw [if_pos hend]
          exact builds_pure hc .nil
        · rw [if_neg hend]
          apply builds_bind (hstmt c hc)
          intro ts first next hnext hfirst
          apply builds_bind (ih next hnext)
          intro us rest last hlast hrest
          apply builds_pure hlast
          rw [List.append_nil]
          exact .cons hfirst.1 hrest
  exact hloop _ c hc

private theorem builds_readBlock (hc : c.Terminated) :
    (readBlock stmt c).Builds c Stmt.Closes := by
  rw [readBlock]
  apply builds_expect hc TokenKind.noConfusion
  intro hopening _
  apply builds_bind (builds_body hstmt hc.advance)
  intro ts body next hnext hbody
  apply builds_expectFor hnext TokenKind.noConfusion
  intro hclosing hend
  exact builds_previousEnd hnext.advance hend ⟨.block hopening hbody hclosing, hend⟩

end

variable (hexpr : expr.Sound)

include hstmt hexpr

private theorem builds_readWhile (hc : c.Terminated)
    (hkind : c.current.kind = .whileWord) :
    (readWhile expr stmt c).Builds c Stmt.Closes := by
  rw [readWhile]
  apply builds_advance hc (by rw [hkind]; exact TokenKind.noConfusion)
  intro _
  apply builds_bind (builds_readCondition hexpr hc.advance)
  intro ts condition next hnext hcondition
  apply builds_bind (hstmt next hnext)
  intro us body last hlast hbody
  apply builds_previousEnd hlast hbody.2
  rw [List.append_nil]
  exact ⟨.whileLoop hkind hcondition hbody.1, hbody.2⟩

/-- Without an alternative no token is taken behind the consequent. -/
theorem builds_readBranch (hc : c.Terminated) (hkind : c.current.kind = .ifWord) :
    (readBranch expr stmt c).Builds c Stmt.Closes := by
  rw [readBranch]
  apply builds_advance hc (by rw [hkind]; exact TokenKind.noConfusion)
  intro _
  apply builds_bind (builds_readCondition hexpr hc.advance)
  intro ts condition next hnext hcondition
  apply builds_bind (hstmt next hnext)
  intro us consequent behind hbehind hconsequent
  rw [readAlternate, Parser.bind_assoc, current_bind]
  by_cases helse : behind.current.kind = .elseWord
  · rw [if_pos helse, Parser.bind_assoc]
    apply builds_advance hbehind (by rw [helse]; exact TokenKind.noConfusion)
    intro _
    rw [Parser.bind_assoc]
    apply builds_bind (hstmt _ hbehind.advance)
    intro vs alternate last hlast halternate
    rw [Parser.pure_bind]
    apply builds_previousEnd hlast halternate.2
    rw [List.append_nil]
    exact ⟨.alternative hkind hcondition hconsequent.1 helse halternate.1, halternate.2⟩
  · rw [if_neg helse, Parser.pure_bind]
    apply builds_previousEnd hbehind hconsequent.2
    rw [List.append_nil]
    exact ⟨.branch hkind hcondition hconsequent.1, hconsequent.2⟩

omit hstmt hexpr in
private theorem builds_readType? (hc : c.Terminated) :
    (readType? c).Builds c fun ts declared _ =>
      ∀ init induction, inductionOf declared init = .ok induction →
        Induction.Phrased ts induction init := by
  rw [readType?, current_bind]
  cases hty : c.current.kind.ty? with
  | none =>
      apply builds_pure hc
      intro init induction h
      cases h
      exact .untyped
  | some t =>
      have hkind : c.current.kind ≠ .eof := by
        intro heof
        rw [heof] at hty
        cases hty
      apply builds_advance hc hkind
      intro _
      apply builds_pure hc.advance
      intro init induction h
      cases init with
      | assignment =>
          cases h
          exact .typed hty
      | _ => cases h

private theorem builds_readFor (hc : c.Terminated) (hkind : c.current.kind = .forWord) :
    (readFor expr stmt c).Builds c Stmt.Closes := by
  rw [readFor]
  apply builds_advance hc (by rw [hkind]; exact TokenKind.noConfusion)
  intro _
  apply builds_expect hc.advance TokenKind.noConfusion
  intro hopening _
  apply builds_bind (builds_readType? hc.advance.advance)
  intro types declared typed htyped hdeclared
  rw [current_bind]
  apply builds_bind (builds_lowest hexpr htyped)
  intro ts init behind hbehind hinit
  cases hinduction : inductionOf declared init with
  | error cause => trivial
  | ok induction =>
      apply builds_expect hbehind TokenKind.noConfusion
      intro hfirst _
      apply builds_bind (builds_lowest hexpr hbehind.advance)
      intro us condition behind' hbehind' hcondition
      apply builds_expect hbehind' TokenKind.noConfusion
      intro hsecond _
      apply builds_bind (builds_lowest hexpr hbehind'.advance)
      intro vs step behind'' hbehind'' hstep
      apply builds_expect hbehind'' TokenKind.noConfusion
      intro hclosing _
      apply builds_bind (hstmt _ hbehind''.advance)
      intro ws body last hlast hbody
      apply builds_previousEnd hlast hbody.2
      rw [List.append_nil]
      have hphrased := hdeclared init induction hinduction
      exact ⟨.forLoop hkind hopening hphrased hinit hfirst hcondition hsecond hstep
        hclosing hbody.1, hbody.2⟩

private theorem StmtRule.builds_parse {rule : StmtRule} (hc : c.Terminated)
    (hstarts : rule.Starts c.current.kind) :
    (rule.parse expr stmt c).Builds c Stmt.Closes := by
  cases rule with
  | any => exact hstarts.elim
  | declaration => exact builds_readDeclaration hc
  | read => exact builds_readRead hc hstarts
  | write => exact builds_readWrite hexpr hc hstarts
  | block => exact builds_readBlock hstmt hc
  | empty => exact builds_readEmpty hc hstarts
  | branch => exact builds_readBranch hstmt hexpr hc hstarts
  | whileLoop => exact builds_readWhile hstmt hexpr hc hstarts
  | forLoop => exact builds_readFor hstmt hexpr hc hstarts

end

namespace Rules

private theorem sound_stmtWithin (n : Nat) :
    StmtParser.Sound (standard.stmtWithin n) := by
  induction n with
  | zero => exact fun c _ => trivial
  | succ n ih =>
      intro c hc
      have hexpr := (takes_within n).1
      rw [stmtWithin, current_bind]
      cases hfind : standard.stmts.find? c.current.kind with
      | none => exact builds_readEffect hexpr hc
      | some rule =>
          exact StmtRule.builds_parse ih hexpr hc (starts_of_find?_stmts hfind)

/-- A reading without reports that came to the end took the tokens of its statements,
and stands on the end. -/
theorem phrased_of_readStatements (n : Nat) {c : Cursor} (hc : c.Terminated)
    (hfinished : (standard.readStatements n c).finished = true)
    (herrors : (standard.readStatements n c).errors = []) :
    (standard.readStatements n c).stop.current.kind = .eof ∧
      ∃ ts, c.tokens = ts ++ (standard.readStatements n c).stop.tokens ∧
        Stmt.Phrased ts (standard.readStatements n c).body := by
  induction n generalizing c with
  | zero => cases hfinished
  | succ n ih =>
      have hreply : (standard.stmt c).Builds c Stmt.Closes := sound_stmtWithin _ c hc
      unfold readStatements at hfinished herrors ⊢
      by_cases htokens : c.hasTokens = true
      · rw [if_pos htokens] at hfinished herrors ⊢
        cases hread : standard.stmt c with
        | ok s next =>
            rw [hread] at hreply hfinished herrors
            obtain ⟨hnext, ts, hts, hs, -⟩ := hreply
            obtain ⟨heof, us, hus, hrest⟩ := ih hnext hfinished herrors
            refine ⟨heof, ts ++ us, ?_, .cons hs hrest⟩
            rw [hts, hus, List.append_assoc]
        | fail d stop =>
            rw [hread] at herrors
            cases herrors
        | endless =>
            rw [hread] at hfinished
            cases hfinished
      · rw [if_neg htokens]
        refine ⟨?_, [], rfl, .nil⟩
        unfold Cursor.hasTokens at htokens
        simpa using htokens

end Rules

/-- The tokens of a program are those of its statements, and the end behind them. -/
theorem Program.phrased_of_ofTokens {file : String} {tokens : List Token} {p : Program}
    (h : ofTokens file tokens = .ok p) :
    ∃ (ts : List Token) (stop : Cursor),
      (Cursor.ofTokens file tokens).tokens = ts ++ stop.tokens ∧
      stop.current.kind = .eof ∧ Stmt.Phrased ts p.body ∧
        p.span = ⟨(Cursor.ofTokens file tokens).position, stop.position⟩ := by
  unfold ofTokens at h
  dsimp only at h
  split at h
  · next hread =>
      rw [Bool.and_eq_true, List.isEmpty_iff] at hread
      obtain ⟨heof, ts, hts, hphrased⟩ :=
        Rules.phrased_of_readStatements _ (Cursor.terminated_ofTokens file tokens)
          hread.1 hread.2
      cases h
      exact ⟨ts, _, hts, heof, hphrased, rfl⟩
  · cases h

end ScalarLang
