import ScalarLang.Grammar.Program

/-!
# The trees of program texts

A tree may be put together in any way, and the walks over trees have branches for trees
that no text has. This module says which trees a text can have (`Expr.Grammatical`,
`Stmt.Grammatical`): each node between two operands is labelled with the precedence
level of its operator, and the names and float literals in the tree are those of
tokens. What the tokens of a text can be is not a matter of the grammar and is a
parameter here, the `Lexicon`.

Every rule of the grammar is a parser over the parsers for its parts, so the proof has
one lemma for each way of putting parsers together and one for each rule
(`Parser.Yields`): a parser that starts among tokens of the lexicon yields such a tree,
and leaves off among such tokens, where it gives up too. The tables that tie the rules
together play no part in it.

## Main results

* `Program.grammatical_of_ofTokens`: a program that was read from tokens has a
  grammatical tree.
-/

namespace ScalarLang

/-! ## What texts are made of -/

/-- What the names and the float literals in a text can be. -/
structure Lexicon where
  name : String → Prop
  float : Float → Prop

/-- The lexicon that has all names and all floats. -/
def Lexicon.full : Lexicon := ⟨fun _ => True, fun _ => True⟩

/-- Whether a token belongs to a lexicon. -/
def Lexicon.Has (L : Lexicon) (t : Token) : Prop :=
  (t.kind = .identifier → L.name t.value) ∧
    (t.kind = .floatLiteral → ∀ x, Decimal.read? t.value.toList = some x → L.float x)

private theorem Lexicon.full_has (t : Token) : Lexicon.full.Has t :=
  ⟨fun _ => trivial, fun _ _ _ => trivial⟩

theorem Lexicon.has_eof (L : Lexicon) (p : Position) : L.Has (.eof p) :=
  ⟨TokenKind.noConfusion, TokenKind.noConfusion⟩

/-- The expressions that a text can have. -/
inductive Expr.Grammatical (L : Lexicon) : Expr → Prop where
  | int {n : Int32} {span : Span} : Grammatical L (.int n span)
  | float {x : Float} {span : Span} (hx : L.float x) : Grammatical L (.float x span)
  | bool {b : Bool} {span : Span} : Grammatical L (.bool b span)
  | string {s : String} {span : Span} : Grammatical L (.string s span)
  | symbol {name : String} {span : Span} (hname : L.name name) :
      Grammatical L (.symbol name span)
  | assignment {target : Ident} {value : Expr} {span : Span}
      (htarget : L.name target.name)
      (hvalue : Grammatical L value) : Grammatical L (.assignment target value span)
  | unary {operator : Token} {operand : Expr} {span : Span}
      (hoperand : Grammatical L operand) :
      Grammatical L (.unary operator operand span)
  | binary {l : Level} {operator : Token} {left right : Expr} {span : Span}
      (hlevel : Level.ofOperator? operator.kind = some l) (hleft : Grammatical L left)
      (hright : Grammatical L right) :
      Grammatical L (.binary (.level l) operator left right span)

/-- The statements in a row that a text can have. -/
inductive Stmt.Grammatical (L : Lexicon) : List Stmt → Prop where
  | nil : Grammatical L []
  | cons {s next : Stmt} {rest : List Stmt} (hs : Grammatical L [s])
      (hrest : Grammatical L (next :: rest)) : Grammatical L (s :: next :: rest)
  | block {body : List Stmt} {span : Span} (hbody : Grammatical L body) :
      Grammatical L [.block body span]
  | declaration {t : Ty} {idents : List Ident} {span : Span}
      (hidents : ∀ x ∈ idents, L.name x.name) :
      Grammatical L [.declaration t idents span]
  | read {idents : List Ident} {span : Span} (hidents : ∀ x ∈ idents, L.name x.name) :
      Grammatical L [.read idents span]
  | write {values : List Expr} {span : Span} (hvalues : ∀ e ∈ values, e.Grammatical L) :
      Grammatical L [.write values span]
  | branch {condition : Expr} {consequent : Stmt}
      {alternate : Option Stmt} {span : Span}
      (htest : condition.Grammatical L) (hconsequent : Grammatical L [consequent])
      (halternate : Grammatical L alternate.toList) :
      Grammatical L [.branch condition consequent alternate span]
  | whileLoop {condition : Expr} {body : Stmt} {span : Span}
      (htest : condition.Grammatical L)
      (hbody : Grammatical L [body]) : Grammatical L [.whileLoop condition body span]
  | forLoop {induction : Option Induction} {init condition step : Expr}
      {body : Stmt} {span : Span}
      (hinduction : ∀ i ∈ induction, L.name i.target.name) (hinit : init.Grammatical L)
      (htest : condition.Grammatical L) (hstep : step.Grammatical L)
      (hbody : Grammatical L [body]) :
      Grammatical L [.forLoop induction init condition step body span]
  | effect {e : Expr} {span : Span} (he : e.Grammatical L) :
      Grammatical L [.effect e span]

theorem Stmt.Grammatical.of_forall {L : Lexicon} {ss : List Stmt}
    (h : ∀ s ∈ ss, Grammatical L [s]) :
    Grammatical L ss := by
  induction ss with
  | nil => exact .nil
  | cons s rest ih =>
      have hs := h s List.mem_cons_self
      have hrest := ih fun s hs => h s (List.mem_cons_of_mem _ hs)
      cases rest with
      | nil => exact hs
      | cons next rest => exact .cons hs hrest

theorem Stmt.Grammatical.mem {L : Lexicon} {ss : List Stmt} (h : Grammatical L ss) :
    ∀ s ∈ ss, Grammatical L [s] := by
  induction ss with
  | nil => simp
  | cons s rest ih =>
      cases rest with
      | nil =>
          intro t ht
          rwa [List.mem_singleton.mp ht]
      | cons next rest =>
          cases h with
          | cons hs hrest => exact List.forall_mem_cons.mpr ⟨hs, ih hrest⟩

/-! ## Cursors -/

section

variable {P : Token → Prop}

theorem Cursor.forall_advance {c : Cursor} (h : P c.current ∧ ∀ t ∈ c.ahead, P t) :
    P c.advance.current ∧ ∀ t ∈ c.advance.ahead, P t := by
  obtain ⟨hcurrent, hahead⟩ := h
  unfold Cursor.advance
  split
  · exact ⟨hcurrent, hahead⟩
  · next t ts heq =>
      rw [heq] at hahead
      exact ⟨hahead t List.mem_cons_self,
        fun u hu => hahead u (List.mem_cons_of_mem t hu)⟩

theorem Cursor.forall_ofTokens {tokens : List Token} (hend : ∀ p, P (.eof p))
    (h : ∀ t ∈ tokens, P t) (file : String) :
    P (ofTokens file tokens).current ∧ ∀ t ∈ (ofTokens file tokens).ahead, P t := by
  have hclosed : ∀ t ∈ closed file tokens, P t := by
    unfold closed
    intro t ht
    split at ht
    · rw [List.mem_singleton.mp ht]
      exact hend _
    split at ht
    · exact h t ht
    · rcases List.mem_append.mp ht with ht | ht
      · exact h t ht
      · rw [List.mem_singleton.mp ht]
        exact hend _
  unfold ofTokens
  split
  · exact ⟨hend _, by simp⟩
  · next t ts heq =>
      rw [heq] at hclosed
      exact ⟨hclosed t List.mem_cons_self,
        fun u hu => hclosed u (List.mem_cons_of_mem t hu)⟩

end

/-- Whether a cursor stands among tokens of a lexicon. -/
def Cursor.Within (L : Lexicon) (c : Cursor) : Prop :=
  L.Has c.current ∧ ∀ t ∈ c.ahead, L.Has t

namespace Cursor.Within

variable {L : Lexicon} {c : Cursor}

theorem advance (h : c.Within L) : c.advance.Within L := forall_advance h

private theorem resume (h : c.Within L) : c.resume.Within L := by
  obtain ⟨previousEnd, current, ahead⟩ := c
  obtain ⟨hcurrent, hahead⟩ := h
  show (Cursor.resumeFrom previousEnd current ahead).Within L
  induction ahead generalizing previousEnd current with
  | nil => exact ⟨hcurrent, hahead⟩
  | cons t ts ih =>
      have ht : L.Has t := hahead t List.mem_cons_self
      have hts : ∀ u ∈ ts, L.Has u := fun u hu => hahead u (List.mem_cons_of_mem t hu)
      unfold Cursor.resumeFrom
      split
      · exact ⟨hcurrent, hahead⟩
      split
      · exact ⟨ht, hts⟩
      · exact ih _ t ht hts

private theorem ofTokens {file : String} {tokens : List Token}
    (h : ∀ t ∈ tokens, L.Has t) :
    (Cursor.ofTokens file tokens).Within L := forall_ofTokens L.has_eof h file

end Cursor.Within

/-! ## Parsers -/

/-- Whether a reply is something with a property, and leaves off within a lexicon. -/
def Reply.Keeps {α : Type} (L : Lexicon) (P : α → Prop) : Reply α → Prop
  | .ok a next => P a ∧ next.Within L
  | .fail _ stop => stop.Within L
  | .endless => True

namespace Parser

variable {α β : Type} {L : Lexicon} {P : α → Prop} {Q : β → Prop}

/-- Whether what a parser reads within a lexicon has a property. -/
def Yields (L : Lexicon) (P : α → Prop) (p : Parser α) : Prop :=
  ∀ c : Cursor, c.Within L → (p c).Keeps L P

theorem yields_pure {a : α} (ha : P a) : Yields L P (pure a : Parser α) :=
  fun _ hc => ⟨ha, hc⟩

theorem Yields.bind {p : Parser α} {f : α → Parser β} (hp : Yields L P p)
    (hf : ∀ a, P a → Yields L Q (f a)) : Yields L Q (p >>= f) := by
  intro c hc
  have hreply := hp c hc
  show Reply.Keeps L Q (Parser.bind p f c)
  unfold Parser.bind
  cases h : p c with
  | ok a next =>
      rw [h] at hreply
      exact hf a hreply.1 next hreply.2
  | fail error stop =>
      rw [h] at hreply
      exact hreply
  | endless => trivial

theorem yields_current : Yields L L.Has current := fun _ hc => ⟨hc.1, hc⟩

theorem yields_advance : Yields L L.Has advance := fun _ hc => ⟨hc.1, hc.advance⟩

theorem yields_previousEnd : Yields L (fun _ => True) previousEnd :=
  fun _ hc => ⟨trivial, hc⟩

theorem yields_fail {cause : Cause} {position : Position} :
    Yields L P (fail cause position : Parser α) := fun _ hc => hc

theorem yields_endless : Yields L P (endless : Parser α) := fun _ _ => trivial

theorem yields_unexpected : Yields L P (unexpected : Parser α) :=
  yields_current.bind fun _ _ => yields_fail

theorem yields_unexpectedFor {message : String} :
    Yields L P (unexpectedFor message : Parser α) :=
  yields_current.bind fun _ _ => yields_fail

/-- A token that is due is read with its kind. -/
theorem yields_expectFor {kind : TokenKind} {message : String} :
    Yields L (fun t => L.Has t ∧ t.kind = kind) (expectFor kind message) := by
  intro c hc
  by_cases hkind : c.current.kind = kind
  · have hreply : expectFor kind message c = .ok c.current c.advance := by
      show (if c.current.kind = kind then advance else unexpectedFor message) c = _
      rw [if_pos hkind]
      rfl
    rw [hreply]
    exact ⟨⟨hc.1, hkind⟩, hc.advance⟩
  · have hreply : expectFor kind message c = unexpectedFor message c := by
      show (if c.current.kind = kind then advance else unexpectedFor message) c = _
      rw [if_neg hkind]
    rw [hreply]
    exact yields_unexpectedFor c hc

theorem yields_expect {kind : TokenKind} : Yields L (fun _ => True) (expect kind) := by
  refine yields_current.bind fun token _ => ?_
  split
  · exact fun c hc => ⟨trivial, hc.advance⟩
  · exact yields_unexpected

/-! ### Repetition -/

private theorem yields_commaLoop {item : Parser α} (hitem : Yields L P item) (n : Nat) :
    Yields L (fun as => ∀ a ∈ as, P a) (commaLoop item n) := by
  induction n with
  | zero => exact yields_endless
  | succ n ih =>
      refine hitem.bind fun first hfirst => yields_current.bind fun token _ => ?_
      split
      · refine yields_advance.bind fun _ _ => ih.bind fun rest hrest => yields_pure ?_
        exact List.forall_mem_cons.mpr ⟨hfirst, hrest⟩
      · exact yields_pure (by simpa using hfirst)

private theorem yields_commaSeparated {item : Parser α} (hitem : Yields L P item) :
    Yields L (fun as => ∀ a ∈ as, P a) (commaSeparated item) :=
  fun c hc => yields_commaLoop hitem _ c hc

private theorem yields_bodyLoop {item : Parser α} (hitem : Yields L P item) (n : Nat) :
    Yields L (fun as => ∀ a ∈ as, P a) (bodyLoop item n) := by
  induction n with
  | zero => exact yields_endless
  | succ n ih =>
      refine yields_current.bind fun token _ => ?_
      split
      · exact yields_pure (by simp)
      · refine hitem.bind fun first hfirst => ih.bind fun rest hrest => yields_pure ?_
        exact List.forall_mem_cons.mpr ⟨hfirst, hrest⟩

private theorem yields_untilClosed {item : Parser α} (hitem : Yields L P item) :
    Yields L (fun as => ∀ a ∈ as, P a) (untilClosed item) :=
  fun c hc => yields_bodyLoop hitem _ c hc

end Parser

open ScalarLang.Parser

/-! ## Expressions -/

section

variable {L : Lexicon} {expr : ExprParser}

private theorem grammatical_of_primaryOf {t : Token} {e : Expr} (ht : L.Has t)
    (h : primaryOf t = .ok e) :
    e.Grammatical L := by
  unfold primaryOf at h
  split at h
  · split at h <;> cases h
    exact .int
  · next hkind =>
      split at h <;> cases h
      next x hread => exact .float (ht.2 hkind x hread)
  · cases h
    exact .bool
  · cases h
    exact .bool
  · next hkind =>
      cases h
      exact .symbol (ht.1 hkind)
  · cases h
    exact .string
  · cases h

private theorem yields_readPrimary : Yields L (Expr.Grammatical L) readPrimary := by
  refine yields_current.bind fun token htoken => ?_
  split
  · next e he => exact yields_advance.bind fun _ _ =>
      yields_pure (grammatical_of_primaryOf htoken he)
  · exact yields_fail

variable (hexpr : ∀ power, Yields L (Expr.Grammatical L) (expr power))

include hexpr

private theorem yields_readOperator :
    Yields L (Expr.Grammatical L) (readOperator expr) := by
  refine yields_advance.bind fun operator _ => yields_current.bind fun token _ => ?_
  dsimp only
  split
  · exact yields_advance.bind fun _ _ => yields_pure .int
  · exact (hexpr _).bind fun operand hoperand => yields_pure (.unary hoperand)

private theorem yields_readGrouping :
    Yields L (Expr.Grammatical L) (readGrouping expr) := by
  refine yields_advance.bind fun _ _ => (hexpr _).bind fun inner hinner => ?_
  exact yields_expect.bind fun _ _ => yields_pure hinner

private theorem StartRule.yields_parse (rule : StartRule) :
    Yields L (Expr.Grammatical L) (rule.parse expr) := by
  cases rule with
  | primary => exact yields_readPrimary
  | operator => exact yields_readOperator hexpr
  | grouping => exact yields_readGrouping hexpr

private theorem yields_readBinary {left : Expr} (hleft : left.Grammatical L)
    (power : Power) :
    Yields L (Expr.Grammatical L) (readBinary expr left power) := by
  refine yields_advance.bind fun operator _ => ?_
  split
  · exact yields_fail
  · next level hlevel =>
      exact (hexpr _).bind fun right hright => yields_pure (.binary hlevel hleft hright)

private theorem yields_readAssignment {left : Expr} (hleft : left.Grammatical L) :
    Yields L (Expr.Grammatical L) (readAssignment expr left) := by
  refine yields_advance.bind fun operator _ => ?_
  split
  · cases hleft with
    | symbol hname =>
        exact (hexpr _).bind fun value hvalue => yields_pure (.assignment hname hvalue)
  · exact yields_fail

private theorem JoinRule.yields_parse (rule : JoinRule) {left : Expr}
    (hleft : left.Grammatical L) (power : Power) :
    Yields L (Expr.Grammatical L) (rule.parse expr left power) := by
  cases rule with
  | binary => exact yields_readBinary hexpr hleft power
  | assignment => exact yields_readAssignment hexpr hleft

end

/-! ## Statements -/

private theorem yields_readIdent {L : Lexicon} :
    Yields L (fun x : Ident => L.name x.name) readIdent :=
  yields_expectFor.bind fun _ ht => yields_pure (ht.1.1 ht.2)

section

variable {L : Lexicon} {expr : ExprParser} {stmt : Parser Stmt}

private theorem yields_idents :
    Yields L (fun xs : List Ident => ∀ x ∈ xs, L.name x.name)
    (commaSeparated readIdent) := yields_commaSeparated yields_readIdent

private theorem yields_readDeclaration :
    Yields L (fun s => Stmt.Grammatical L [s]) readDeclaration := by
  refine yields_advance.bind fun word _ => ?_
  split
  · exact yields_unexpectedFor
  · refine yields_idents.bind fun idents hidents => yields_expect.bind fun _ _ => ?_
    exact yields_previousEnd.bind fun _ _ => yields_pure (.declaration hidents)

private theorem yields_readRead :
    Yields L (fun s => Stmt.Grammatical L [s]) readRead := by
  refine yields_advance.bind fun word _ => yields_idents.bind fun idents hidents => ?_
  refine yields_expect.bind fun _ _ => ?_
  exact yields_previousEnd.bind fun _ _ => yields_pure (.read hidents)

private theorem yields_readEmpty :
    Yields L (fun s => Stmt.Grammatical L [s]) readEmpty :=
  yields_advance.bind fun _ _ => yields_pure (.block .nil)

private theorem yields_readType? : Yields L (fun _ => True) readType? := by
  refine yields_current.bind fun token _ => ?_
  split
  · exact yields_advance.bind fun _ _ => yields_pure trivial
  · exact yields_pure trivial

variable (hexpr : ∀ power, Yields L (Expr.Grammatical L) (expr power))
  (hstmt : Yields L (fun s => Stmt.Grammatical L [s]) stmt)

section

include hexpr

private theorem yields_readCondition :
    Yields L (Expr.Grammatical L) (readCondition expr) := by
  refine yields_expect.bind fun _ _ => (hexpr _).bind fun condition hcondition => ?_
  exact yields_expect.bind fun _ _ => yields_pure hcondition

private theorem yields_readEffect :
    Yields L (fun s => Stmt.Grammatical L [s]) (readEffect expr) := by
  refine (hexpr _).bind fun value hvalue => yields_expect.bind fun _ _ => ?_
  exact yields_previousEnd.bind fun _ _ => yields_pure (.effect hvalue)

private theorem yields_readWrite :
    Yields L (fun s => Stmt.Grammatical L [s]) (readWrite expr) := by
  refine yields_advance.bind fun word _ => ?_
  refine (yields_commaSeparated (hexpr _)).bind fun values hvalues => ?_
  refine yields_expect.bind fun _ _ => ?_
  exact yields_previousEnd.bind fun _ _ => yields_pure (.write hvalues)

end

section

include hstmt

private theorem yields_readBlock :
    Yields L (fun s => Stmt.Grammatical L [s]) (readBlock stmt) := by
  refine yields_expect.bind fun brace _ => ?_
  refine (yields_untilClosed hstmt).bind fun body hbody =>
    yields_expectFor.bind fun _ _ => ?_
  exact yields_previousEnd.bind fun _ _ => yields_pure (.block (.of_forall hbody))

private theorem yields_readAlternate :
    Yields L (fun s => Stmt.Grammatical L s.toList) (readAlternate stmt) := by
  refine yields_current.bind fun token _ => ?_
  split
  · exact yields_advance.bind fun _ _ => hstmt.bind fun s hs => yields_pure hs
  · exact yields_pure .nil

end

/-- The variable that a loop declares is the one that its first expression assigns. -/
theorem name_of_inductionOf {declared : Option Ty} {init : Expr}
    {induction : Option Induction} (hinit : init.Grammatical L)
    (h : inductionOf declared init = .ok induction) :
    ∀ i ∈ induction, L.name i.target.name := by
  unfold inductionOf at h
  split at h
  · cases h
    simp
  · cases h
    cases hinit with
    | assignment htarget _ => simpa using htarget
  · cases h

include hexpr hstmt

private theorem yields_readBranch :
    Yields L (fun s => Stmt.Grammatical L [s]) (readBranch expr stmt) := by
  refine yields_advance.bind fun word _ => ?_
  refine (yields_readCondition hexpr).bind fun condition htest => ?_
  refine hstmt.bind fun consequent hconsequent => ?_
  refine (yields_readAlternate hstmt).bind fun alternate halternate => ?_
  exact yields_previousEnd.bind fun _ _ =>
    yields_pure (.branch htest hconsequent halternate)

private theorem yields_readWhile :
    Yields L (fun s => Stmt.Grammatical L [s]) (readWhile expr stmt) := by
  refine yields_advance.bind fun word _ => ?_
  refine (yields_readCondition hexpr).bind fun condition htest =>
    hstmt.bind fun body hbody => ?_
  exact yields_previousEnd.bind fun _ _ => yields_pure (.whileLoop htest hbody)

private theorem yields_readFor :
    Yields L (fun s => Stmt.Grammatical L [s]) (readFor expr stmt) := by
  refine yields_advance.bind fun word _ => yields_expect.bind fun _ _ => ?_
  refine yields_readType?.bind fun declared _ => yields_current.bind fun first _ => ?_
  refine (hexpr _).bind fun init hinit => ?_
  split
  · exact yields_fail
  next induction hdeclared =>
  refine yields_expect.bind fun _ _ => (hexpr _).bind fun condition htest => ?_
  refine yields_expect.bind fun _ _ => (hexpr _).bind fun step hstep => ?_
  refine yields_expect.bind fun _ _ => hstmt.bind fun body hbody => ?_
  have hinduction := name_of_inductionOf hinit hdeclared
  exact yields_previousEnd.bind fun _ _ =>
    yields_pure (.forLoop hinduction hinit htest hstep hbody)

private theorem StmtRule.yields_parse (rule : StmtRule) :
    Yields L (fun s => Stmt.Grammatical L [s]) (rule.parse expr stmt) := by
  cases rule with
  | any => exact hstmt
  | declaration => exact yields_readDeclaration
  | read => exact yields_readRead
  | write => exact yields_readWrite hexpr
  | block => exact yields_readBlock hstmt
  | empty => exact yields_readEmpty
  | branch => exact yields_readBranch hexpr hstmt
  | whileLoop => exact yields_readWhile hexpr hstmt
  | forLoop => exact yields_readFor hexpr hstmt

end

/-! ## Whatever the rules are -/

namespace Rules

variable {L : Lexicon}

/-- Along a chain of any length expressions and what goes on behind them
are grammatical. -/
theorem yields_within (r : Rules) (n : Nat) :
    (∀ power, Yields L (Expr.Grammatical L) (r.exprWithin n power)) ∧
      ∀ power left, left.Grammatical L →
        Yields L (Expr.Grammatical L) (r.operatorsWithin n power left) := by
  induction n with
  | zero =>
      refine ⟨fun power => ?_, fun power left _ => ?_⟩
      · rw [exprWithin]
        exact yields_endless
      · rw [operatorsWithin]
        exact yields_endless
  | succ n ih =>
      obtain ⟨hexpr, hoperators⟩ := ih
      refine ⟨fun power => ?_, fun power left hleft => ?_⟩
      · rw [exprWithin]
        refine yields_current.bind fun token _ => ?_
        split
        · exact yields_unexpected
        · next rule _ =>
            exact (rule.yields_parse hexpr).bind fun left hleft =>
              hoperators power left hleft
      · rw [operatorsWithin]
        refine yields_current.bind fun token _ => ?_
        split
        · exact yields_pure hleft
        · next rule own _ =>
            split
            · exact yields_pure hleft
            · exact (rule.yields_parse hexpr hleft own).bind fun joined hjoined =>
                hoperators power joined hjoined

private theorem yields_stmtWithin (r : Rules) (n : Nat) :
    Yields L (fun s => Stmt.Grammatical L [s]) (r.stmtWithin n) := by
  induction n with
  | zero =>
      rw [stmtWithin]
      exact yields_endless
  | succ n ih =>
      have hexpr := (r.yields_within (L := L) n).1
      rw [stmtWithin]
      refine yields_current.bind fun token _ => ?_
      split
      · next rule _ => exact rule.yields_parse hexpr ih
      · exact yields_readEffect hexpr

/-- All statements that were read are grammatical, those behind a statement that
does not fit too. -/
theorem grammatical_readStatements (r : Rules) (n : Nat) {c : Cursor}
    (hc : c.Within L) :
    ∀ s ∈ (r.readStatements n c).body, Stmt.Grammatical L [s] := by
  induction n generalizing c with
  | zero => simp [readStatements]
  | succ n ih =>
      have hreply : (r.stmt c).Keeps L fun s => Stmt.Grammatical L [s] :=
        r.yields_stmtWithin _ c hc
      unfold readStatements
      split
      · cases h : r.stmt c with
        | ok statement next =>
            rw [h] at hreply
            exact List.forall_mem_cons.mpr ⟨hreply.1, ih hreply.2⟩
        | fail error stop =>
            rw [h] at hreply
            exact ih hreply.resume
        | endless => simp
      · simp

end Rules

/-- A program that was read from tokens has a grammatical tree. -/
theorem Program.grammatical_of_ofTokens {L : Lexicon} {file : String}
    {tokens : List Token} {p : Program} (htokens : ∀ t ∈ tokens, L.Has t)
    (h : Program.ofTokens file tokens = .ok p) :
    Stmt.Grammatical L p.body := by
  simp only [Program.ofTokens] at h
  split at h
  · cases h
    exact .of_forall
      (Rules.standard.grammatical_readStatements _ (Cursor.Within.ofTokens htokens))
  · cases h

theorem Program.grammatical_full {file : String} {tokens : List Token} {p : Program}
    (h : Program.ofTokens file tokens = .ok p) : Stmt.Grammatical .full p.body :=
  grammatical_of_ofTokens (fun t _ => Lexicon.full_has t) h

/-- A program of a source text was read from tokens. -/
theorem Program.exists_tokens_of_ofSource {file source : String} {p : Program}
    (h : Program.ofSource file source = .ok p) :
    ∃ tokens, Token.scan file source = .ok tokens ∧
      Program.ofTokens file tokens = .ok p := by
  unfold ofSource at h
  cases hscan : Token.scan file source with
  | error reports =>
      rw [hscan] at h
      cases h
  | ok tokens =>
      rw [hscan] at h
      exact ⟨tokens, rfl, h⟩

end ScalarLang
