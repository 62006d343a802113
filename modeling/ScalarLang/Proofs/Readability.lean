import ScalarLang.Proofs.Parsing
import ScalarLang.Proofs.ReadBack

/-!
# Programs of texts can be written

What is read from the tokens of a text is a tree that can be written. Two
things see to that.

* A number in a text starts with a digit (`Token.Unsigned`), so that a literal is not
  negative, save for the smallest int, which is read together with its sign.
* A choice that takes no alternative is not followed by one. So a statement that ends
  in such a choice is not (`Stmt.Complete`), and a choice with an alternative has
  none in front of it.

As a statement is about the token behind it, the rules are followed from cursor to
cursor here: a reply has to meet something that depends on the token where reading left
off (`Reply.Meets`).

## Main results

* `Program.readable_of_ofTokens`: a program of a text can be written.
* `Program.read_back`: the programs that texts have are among those that can be written,
  and all of these are read from what is written for them.
-/

namespace ScalarLang

open ScalarLang.Parser

/-! ## Numbers in texts -/

/-- Whether a token starts with a digit if it is a number. -/
def Token.Unsigned (t : Token) : Prop :=
  t.kind = .integer ∨ t.kind = .floatLiteral → ∃ c cs, t.value.toList = c :: cs ∧
  c.isDigit = true

private theorem Token.unsigned_of_kind {t : Token} (hinteger : t.kind ≠ .integer)
    (hfloat : t.kind ≠ .floatLiteral) :
    t.Unsigned := fun h => (h.elim hinteger hfloat).elim

private theorem Token.unsigned_eof (p : Position) : (Token.eof p).Unsigned :=
  unsigned_of_kind TokenKind.noConfusion TokenKind.noConfusion

private theorem Piece.unsigned_of_front {p : Position} {c : Char} {cs : List Char}
    {t : Token} (h : token? (p, front c cs) = some t) : t.Unsigned := by
  unfold front at h
  split at h
  · cases h
    unfold TokenKind.reserved?
    apply Token.unsigned_of_kind
    · dsimp only
      split <;> exact TokenKind.noConfusion
    · dsimp only
      split <;> exact TokenKind.noConfusion
  split at h
  · next hdigit =>
    unfold number at h
    dsimp only at h
    split at h
    · cases h
      exact fun _ => ⟨c, _, String.toList_ofList, hdigit⟩
    · cases h
      exact fun _ => ⟨c, _, String.toList_ofList, hdigit⟩
  split at h
  · cases h
  split at h
  · unfold quotedString at h
    split at h
    · cases h
      exact Token.unsigned_of_kind TokenKind.noConfusion TokenKind.noConfusion
    · cases h
  split at h
  · cases h
  · unfold fixed at h
    split at h <;> cases h <;>
      exact Token.unsigned_of_kind TokenKind.noConfusion TokenKind.noConfusion

private theorem Token.unsigned_of_scan {file source : String} {tokens : List Token}
    (h : scan file source = .ok tokens) : ∀ t ∈ tokens, t.Unsigned := by
  intro t ht
  rcases eof_or_front_of_scan h ht with ⟨p, rfl⟩ | ⟨p, c, cs, htoken⟩
  · exact unsigned_eof p
  · exact Piece.unsigned_of_front htoken

/-! ## What numbers are read as -/

namespace Text

variable {c : Char} {cs : List Char}

theorem readInt32?_digit (hc : c.isDigit = true) :
    readInt32? (c :: cs) =
      ((readDigits? (c :: cs)).filter (· ≤ 2147483647)).map fun m : Nat =>
        Int32.ofInt m := by
  have hplus : c ≠ '+' := by rintro rfl; cases hc
  have hminus : c ≠ '-' := by rintro rfl; cases hc
  have hmax : Int32.maxValue.toInt = 2147483647 := rfl
  cases hread : readDigits? (c :: cs) with
  | none => simp [readInt32?, hplus, hminus, hread]
  | some m =>
      have hmin : (-2147483648 : Int) ≤ m := by omega
      by_cases hm : m ≤ 2147483647
      · have hle : (m : Int) ≤ 2147483647 := by omega
        simp [readInt32?, hplus, hminus, hread, hm, hmax, hle, hmin, Option.filter]
      · simp [readInt32?, hplus, hminus, hread, hm, hmax, Option.filter]

theorem readInt32?_minus : readInt32? ('-' :: cs) =
    ((readDigits? cs).filter (· ≤ 2147483648)).map fun m : Nat => Int32.ofInt (-m) := by
  have hmax : Int32.maxValue.toInt = 2147483647 := rfl
  cases hread : readDigits? cs with
  | none => simp [readInt32?, hread]
  | some m =>
      have hle : -(m : Int) ≤ 2147483647 := by omega
      by_cases hm : m ≤ 2147483648
      · have hmin : (-2147483648 : Int) ≤ -m := by omega
        simp [readInt32?, hread, hm, hmax, hle, hmin, Option.filter]
      · have hmin : ¬ (-2147483648 : Int) ≤ -m := by omega
        simp [readInt32?, hread, hm, hmin, Option.filter]

end Text

section

variable {value : String} {n : Int32}

private theorem nonneg_of_intOf?
    (hvalue : ∃ c cs, value.toList = c :: cs ∧ c.isDigit = true)
    (h : intOf? value = some n) : 0 ≤ n.toInt := by
  obtain ⟨c, cs, hcs, hc⟩ := hvalue
  unfold intOf? at h
  rw [hcs, Text.readInt32?_digit hc] at h
  obtain ⟨m, hm, rfl⟩ := Option.map_eq_some_iff.mp h
  have hle : m ≤ 2147483647 := of_decide_eq_true (Option.filter_eq_some_iff.mp hm).2
  rw [Int32.toInt_ofInt_of_le (by omega) (by omega)]
  exact Int.natCast_nonneg m

/-- Only one number fits behind a sign and not without it. -/
theorem eq_minValue_of_oppositeOf?
    (hvalue : ∃ c cs, value.toList = c :: cs ∧ c.isDigit = true)
    (h : oppositeOf? value = some n) : n = Int32.minValue := by
  obtain ⟨c, cs, hcs, hc⟩ := hvalue
  unfold oppositeOf? intOf? at h
  rw [hcs, Text.readInt32?_digit hc, Text.readInt32?_minus] at h
  cases hread : Text.readDigits? (c :: cs) with
  | none => simp [hread] at h
  | some m =>
      by_cases hfits : m ≤ 2147483647
      · simp [hread, hfits, Option.filter] at h
      · by_cases hopposite : m ≤ 2147483648
        · have hm : m = 2147483648 := by omega
          simp [hread, hm, Option.filter] at h
          rw [← h]
          rfl
        · simp [hread, hfits, hopposite, Option.filter] at h

private theorem Expr.readable_of_primaryOf {t : Token} {e : Expr} (ht : t.Unsigned)
    (h : primaryOf t = .ok e) :
    e.Readable := by
  unfold primaryOf at h
  split at h
  · next hkind =>
      split at h <;> cases h
      next hread => exact .inl (nonneg_of_intOf? (ht (.inl hkind)) hread)
  · next hkind =>
      split at h <;> cases h
      next hread =>
        obtain ⟨c, cs, hcs, hc⟩ := ht (.inr hkind)
        rw [hcs] at hread
        exact ⟨Decimal.isNegative_of_read? hc hread, Decimal.ne_nan_of_read? hc hread⟩
  all_goals
    cases h
    try trivial

end

/-! ## Replies -/

/-- Whether all tokens from a cursor on start with a digit if they are numbers. -/
def Cursor.Unsigned (c : Cursor) : Prop :=
  c.current.Unsigned ∧ ∀ t ∈ c.ahead, t.Unsigned

theorem Cursor.Unsigned.advance {c : Cursor} (h : c.Unsigned) : c.advance.Unsigned :=
  forall_advance h

/-- Whether a reply, unless nothing was read, has a property together with the
token behind it. -/
def Reply.Meets {α : Type} (P : α → Token → Prop) : Reply α → Prop
  | .ok a next => next.Unsigned ∧ P a next.current
  | .fail _ _ | .endless => True

theorem Reply.Meets.imp {α : Type} {P Q : α → Token → Prop} {reply : Reply α}
    (hreply : reply.Meets P) (h : ∀ a t, P a t → Q a t) : reply.Meets Q := by
  cases reply with
  | ok a next => exact ⟨hreply.1, h a _ hreply.2⟩
  | fail | endless => trivial

namespace Parser

variable {α β : Type} {P : α → Token → Prop} {Q : β → Token → Prop} {c : Cursor}

theorem meets_pure {a : α} (hc : c.Unsigned) (ha : P a c.current) :
    ((pure a : Parser α) c).Meets P :=
  ⟨hc, ha⟩

theorem meets_bind {p : Parser α} {g : α → Parser β} (hp : (p c).Meets P)
    (hg : ∀ a next, next.Unsigned → P a next.current → (g a next).Meets Q) :
    ((p >>= g) c).Meets Q := by
  show (Parser.bind p g c).Meets Q
  unfold Parser.bind
  cases hreply : p c with
  | ok a next =>
      rw [hreply] at hp
      exact hg a next hp.1 hp.2
  | fail error stop => trivial
  | endless => trivial

/-- A token that is due is read, and what is read on has the property. -/
theorem meets_expect {kind : TokenKind} {g : Token → Parser β} (hc : c.Unsigned)
    (hg : ∀ t next, next.Unsigned → (g t next).Meets Q) :
    ((expect kind >>= g) c).Meets Q := by
  have hexpect : (expect kind c).Meets fun _ _ => True := by
    show ((if c.current.kind = kind then advance else unexpected) c).Meets _
    split
    · exact ⟨hc.advance, trivial⟩
    · trivial
  exact meets_bind hexpect fun t next hnext _ => hg t next hnext

theorem meets_expectFor {kind : TokenKind} {message : String} {g : Token → Parser β}
    (hc : c.Unsigned) (hg : ∀ t next, next.Unsigned → (g t next).Meets Q) :
    ((expectFor kind message >>= g) c).Meets Q := by
  have hexpect : (expectFor kind message c).Meets fun _ _ => True := by
    show ((if c.current.kind = kind then advance else unexpectedFor message) c).Meets _
    split
    · exact ⟨hc.advance, trivial⟩
    · trivial
  exact meets_bind hexpect fun t next hnext _ => hg t next hnext

/-- Whether all that a parser reads has a property together with the token behind it. -/
def Ensures (p : Parser α) (P : α → Token → Prop) : Prop :=
  ∀ c : Cursor, c.Unsigned → (p c).Meets P

/-- Items with commas between them are at least one. -/
theorem ensures_commaSeparated {P : α → Prop} {item : Parser α}
    (hitem : item.Ensures fun a _ => P a) :
    (commaSeparated item).Ensures fun as _ => as ≠ [] ∧ ∀ a ∈ as, P a := by
  have hloop : ∀ n, (commaLoop item n).Ensures fun as _ => as ≠ [] ∧ ∀ a ∈ as, P a := by
    intro n
    induction n with
    | zero => exact fun _ _ => trivial
    | succ n ih =>
        intro c hc
        apply meets_bind (hitem c hc)
        intro first c hc hfirst
        show ((if c.current.kind = .comma then _ else _ : Parser (List α)) c).Meets _
        split
        · apply meets_bind (ih c.advance hc.advance)
          intro rest c hc hrest
          exact meets_pure hc ⟨List.cons_ne_nil _ _,
            List.forall_mem_cons.mpr ⟨hfirst, hrest.2⟩⟩
        · exact meets_pure hc ⟨List.cons_ne_nil _ _,
            List.forall_mem_singleton.mpr hfirst⟩
  exact fun c hc => hloop _ c hc

private theorem ensures_untilClosed {P : α → Prop} {item : Parser α}
    (hitem : item.Ensures fun a _ => P a) :
    (untilClosed item).Ensures fun as _ => ∀ a ∈ as, P a := by
  have hloop : ∀ n, (bodyLoop item n).Ensures fun as _ => ∀ a ∈ as, P a := by
    intro n
    induction n with
    | zero => exact fun _ _ => trivial
    | succ n ih =>
        intro c hc
        show ((if c.current.kind = .eof ∨ c.current.kind = .closeCurly then _ else _ :
          Parser (List α)) c).Meets _
        split
        · exact meets_pure hc (fun _ ha => nomatch ha)
        · apply meets_bind (hitem c hc)
          intro first c hc hfirst
          apply meets_bind (ih c hc)
          intro rest c hc hrest
          exact meets_pure hc (List.forall_mem_cons.mpr ⟨hfirst, hrest⟩)
  exact fun c hc => hloop _ c hc

end Parser

/-! ## Expressions -/

section

variable {expr : ExprParser} {c : Cursor}

private theorem ensures_readPrimary : readPrimary.Ensures fun e _ => e.Readable := by
  intro c hc
  rw [readPrimary, current_bind]
  cases he : primaryOf c.current with
  | ok e => exact meets_pure hc.advance (Expr.readable_of_primaryOf hc.1 he)
  | error cause => trivial

variable (hexpr : ∀ power, (expr power).Ensures fun e _ => e.Readable)

include hexpr

private theorem meets_readOperator (hc : c.Unsigned)
    (hkind : c.current.kind = .dash ∨ c.current.kind = .not) :
    (readOperator expr c).Meets fun e _ => e.Readable := by
  have hnext := hc.advance
  rw [readOperator, advance_bind, current_bind]
  cases hfolded : (if c.current.kind = .dash ∧ c.advance.current.kind = .integer
      then oppositeOf? c.advance.current.value else .none) with
  | some n =>
      split at hfolded
      · next hkinds =>
          have hmin := eq_minValue_of_oppositeOf? (hnext.1 (.inl hkinds.2)) hfolded
          exact meets_pure hnext.advance (.inr hmin)
      · cases hfolded
  | none =>
      apply meets_bind (hexpr _ _ hnext)
      intro operand next hnext hoperand
      exact meets_pure hnext ⟨hkind, hoperand⟩

private theorem ensures_readGrouping :
    (readGrouping expr).Ensures fun e _ => e.Readable := by
  intro c hc
  apply meets_bind (hexpr _ _ hc.advance)
  intro inner c hc hinner
  apply meets_expect hc
  intro _ c hc
  exact meets_pure hc hinner

private theorem ensures_readBinary {left : Expr} (hleft : left.Readable)
    (power : Power) :
    (readBinary expr left power).Ensures fun e _ => e.Readable := by
  intro c hc
  rw [readBinary, advance_bind]
  cases hlevel : Level.ofOperator? c.current.kind with
  | none => trivial
  | some level =>
      apply meets_bind (hexpr _ _ hc.advance)
      intro right next hnext hright
      exact meets_pure hnext ⟨⟨level, rfl, hlevel⟩, hleft, hright⟩

private theorem ensures_readAssignment (left : Expr) :
    (readAssignment expr left).Ensures fun e _ => e.Readable := by
  intro c hc
  cases left with
  | symbol name span =>
      apply meets_bind (hexpr _ _ hc.advance)
      intro value next hnext hvalue
      exact meets_pure hnext hvalue
  | _ => trivial

private theorem JoinRule.ensures_parse (rule : JoinRule) {left : Expr}
    (hleft : left.Readable) (power : Power) :
    (rule.parse expr left power).Ensures fun e _ => e.Readable := by
  cases rule with
  | binary => exact ensures_readBinary hexpr hleft power
  | assignment => exact ensures_readAssignment hexpr left

end

namespace Rules

theorem kind_of_find?_operator {k : TokenKind}
    (h : standard.starts.find? k = some .operator) :
    k = .dash ∨ k = .not := by
  revert h
  cases k <;> decide

/-- Along a chain of any length expressions and what goes on behind them can be
written. -/
theorem ensures_within (n : Nat) :
    (∀ power, (standard.exprWithin n power).Ensures fun e _ => e.Readable) ∧
      ∀ power left, left.Readable →
        (standard.operatorsWithin n power left).Ensures fun e _ => e.Readable := by
  induction n with
  | zero =>
      constructor
      · intro power c hc
        rw [exprWithin]
        trivial
      · intro power left _ c hc
        rw [operatorsWithin]
        trivial
  | succ n ih =>
      obtain ⟨hexpr, hoperators⟩ := ih
      constructor
      · intro power c hc
        rw [exprWithin]
        dsimp only
        rw [current_bind]
        cases hrule : standard.starts.find? c.current.kind with
        | none => trivial
        | some rule =>
            have hleft : (rule.parse (standard.exprWithin n) c).Meets fun e _ =>
                e.Readable := by
              cases rule with
              | primary => exact ensures_readPrimary c hc
              | operator =>
                  exact meets_readOperator hexpr hc (kind_of_find?_operator hrule)
              | grouping => exact ensures_readGrouping hexpr c hc
            apply meets_bind hleft
            exact fun left next hnext hleft => hoperators power left hleft next hnext
      · intro power left hleft c hc
        rw [operatorsWithin]
        dsimp only
        rw [current_bind]
        cases standard.joins.find? c.current.kind with
        | none => exact meets_pure hc hleft
        | some join =>
            dsimp only
            split
            · exact meets_pure hc hleft
            · apply meets_bind (join.1.ensures_parse hexpr hleft join.2 c hc)
              exact fun joined next hnext hjoined =>
                hoperators power joined hjoined next hnext

end Rules

/-! ## Statements -/

/-- Whether a statement can be written and the token behind it may follow it. -/
def Stmt.Complete (s : Stmt) (t : Token) : Prop := s.Readable ∧ s.Follows t.lexeme

/-- Anything may follow a statement that does not end in a choice
without an alternative. -/
theorem Stmt.Readable.complete {s : Stmt} {t : Token} (h : s.Readable)
    (hends : s.endsOpen = false) :
    s.Complete t := by
  refine ⟨h, fun hopen => ?_⟩
  rw [hends] at hopen
  cases hopen

private theorem ensures_readIdent : readIdent.Ensures fun _ _ => True := by
  intro c hc
  apply meets_expectFor hc
  exact fun _ c hc => meets_pure hc trivial

private theorem ensures_idents :
    (commaSeparated readIdent).Ensures fun idents _ => idents ≠ [] := by
  intro c hc
  have hidents := ensures_commaSeparated (P := fun _ => True) ensures_readIdent c hc
  exact hidents.imp fun _ _ h => h.1

private theorem ensures_readDeclaration : readDeclaration.Ensures Stmt.Complete := by
  intro c hc
  rw [readDeclaration, advance_bind]
  cases c.current.kind.ty? with
  | none => trivial
  | some t =>
      apply meets_bind (ensures_idents _ hc.advance)
      intro idents next hnext hidents
      apply meets_expect hnext
      intro _ next hnext
      exact meets_pure hnext (Stmt.Readable.complete hidents rfl)

private theorem ensures_readRead : readRead.Ensures Stmt.Complete := by
  intro c hc
  apply meets_bind (ensures_idents _ hc.advance)
  intro idents next hnext hidents
  apply meets_expect hnext
  intro _ next hnext
  exact meets_pure hnext (Stmt.Readable.complete hidents rfl)

private theorem ensures_readEmpty : readEmpty.Ensures Stmt.Complete := by
  intro c hc
  have hempty : (Stmt.block [] c.current.span).Readable := trivial
  exact meets_pure hc.advance (hempty.complete rfl)

private theorem ensures_readType? : readType?.Ensures fun _ _ => True := by
  intro c hc
  rw [readType?, current_bind]
  cases c.current.kind.ty? with
  | none => exact meets_pure hc trivial
  | some t => exact meets_pure hc.advance trivial

/-- The variable that a loop declares is the one that its first expression assigns. -/
theorem assigns_of_inductionOf {declared : Option Ty} {init : Expr}
    {induction : Option Induction} (h : inductionOf declared init = .ok induction) :
    ∀ i ∈ induction, ∃ target value span, init = .assignment target value span ∧
      target.name = i.target.name := by
  unfold inductionOf at h
  split at h
  · cases h
    exact fun _ hi => nomatch hi
  · cases h
    intro i hi
    cases hi
    exact ⟨_, _, _, rfl, rfl⟩
  · cases h

section

variable {expr : ExprParser} {stmt : Parser Stmt}
  (hexpr : ∀ power, (expr power).Ensures fun e _ => e.Readable)
  (hstmt : stmt.Ensures Stmt.Complete)

section

include hexpr

private theorem ensures_readCondition :
    (readCondition expr).Ensures fun e _ => e.Readable := by
  intro c hc
  apply meets_expect hc
  intro _ c hc
  apply meets_bind (hexpr _ c hc)
  intro condition c hc hcondition
  apply meets_expect hc
  intro _ c hc
  exact meets_pure hc hcondition

private theorem ensures_readEffect : (readEffect expr).Ensures Stmt.Complete := by
  intro c hc
  apply meets_bind (hexpr _ c hc)
  intro value c hc hvalue
  apply meets_expect hc
  intro _ c hc
  exact meets_pure hc (Stmt.Readable.complete hvalue rfl)

private theorem ensures_readWrite : (readWrite expr).Ensures Stmt.Complete := by
  intro c hc
  apply meets_bind (ensures_commaSeparated (hexpr _) _ hc.advance)
  intro values c hc hvalues
  apply meets_expect hc
  intro _ c hc
  exact meets_pure hc (Stmt.Readable.complete hvalues rfl)

end

section

include hstmt

private theorem ensures_readBlock : (readBlock stmt).Ensures Stmt.Complete := by
  have hitem : stmt.Ensures fun s _ => s.Readable :=
    fun c hc => (hstmt c hc).imp fun _ _ hs => hs.1
  intro c hc
  apply meets_expect hc
  intro brace c hc
  apply meets_bind (ensures_untilClosed hitem c hc)
  intro body c hc hbody
  apply meets_expectFor hc
  intro _ c hc
  have hblock : (Stmt.block body ⟨brace.span.start, c.previousEnd⟩).Readable :=
    Stmt.readableAll_iff.mpr hbody
  exact meets_pure hc (hblock.complete rfl)

/-- Behind a statement to which an alternative would go there is none, so that it
goes to the choice. -/
theorem meets_readAlternate {c : Cursor} (hc : c.Unsigned) {consequent : Stmt}
    (hfollows : consequent.Follows c.current.lexeme) :
    (readAlternate stmt c).Meets fun alternate t => Stmt.ReadableElse alternate ∧
      (alternate.isSome → consequent.endsOpen = false) ∧
      (Stmt.endsOpenElse alternate = true → t.kind ≠ .elseWord) := by
  show ((if c.current.kind = .elseWord then _ else _ : Parser (Option Stmt)) c).Meets _
  split
  · next helse =>
      have hclosed : consequent.endsOpen = false :=
        Bool.eq_false_iff.mpr fun hopen => hfollows hopen helse
      apply meets_bind (hstmt _ hc.advance)
      intro s next hnext hs
      exact meets_pure hnext ⟨hs.1, fun _ => hclosed, hs.2⟩
  · next hnone =>
      have hnothing : (none : Option Stmt).isSome → consequent.endsOpen = false :=
        fun h => absurd h Bool.false_ne_true
      exact meets_pure hc ⟨trivial, hnothing, fun _ => hnone⟩

end

include hexpr hstmt

private theorem ensures_readBranch : (readBranch expr stmt).Ensures Stmt.Complete := by
  intro c hc
  apply meets_bind (ensures_readCondition hexpr _ hc.advance)
  intro condition c hc hcondition
  apply meets_bind (hstmt c hc)
  intro consequent c hc hconsequent
  apply meets_bind (meets_readAlternate hstmt hc hconsequent.2)
  intro alternate c hc halternate
  obtain ⟨hreadable, hclosed, hends⟩ := halternate
  exact meets_pure hc ⟨⟨hcondition, hconsequent.1, hreadable, hclosed⟩, hends⟩

private theorem ensures_readWhile : (readWhile expr stmt).Ensures Stmt.Complete := by
  intro c hc
  apply meets_bind (ensures_readCondition hexpr _ hc.advance)
  intro condition c hc hcondition
  apply meets_bind (hstmt c hc)
  intro body c hc hbody
  exact meets_pure hc ⟨⟨hcondition, hbody.1⟩, hbody.2⟩

private theorem ensures_readFor : (readFor expr stmt).Ensures Stmt.Complete := by
  intro c hc
  apply meets_expect hc.advance
  intro _ c hc
  apply meets_bind (ensures_readType? c hc)
  intro declared c hc _
  apply meets_bind (hexpr _ c hc)
  intro init c hc hinit
  cases hdeclared : inductionOf declared init with
  | error cause => trivial
  | ok induction =>
      apply meets_expect hc
      intro _ c hc
      apply meets_bind (hexpr _ c hc)
      intro condition c hc hcondition
      apply meets_expect hc
      intro _ c hc
      apply meets_bind (hexpr _ c hc)
      intro step c hc hstep
      apply meets_expect hc
      intro _ c hc
      apply meets_bind (hstmt c hc)
      intro body c hc hbody
      have hinduction := assigns_of_inductionOf hdeclared
      exact meets_pure hc ⟨⟨hinduction, hinit, hcondition, hstep, hbody.1⟩, hbody.2⟩

private theorem StmtRule.ensures_parse (rule : StmtRule) :
    (rule.parse expr stmt).Ensures Stmt.Complete := by
  cases rule with
  | any => exact hstmt
  | declaration => exact ensures_readDeclaration
  | read => exact ensures_readRead
  | write => exact ensures_readWrite hexpr
  | block => exact ensures_readBlock hstmt
  | empty => exact ensures_readEmpty
  | branch => exact ensures_readBranch hexpr hstmt
  | whileLoop => exact ensures_readWhile hexpr hstmt
  | forLoop => exact ensures_readFor hexpr hstmt

end

namespace Rules

private theorem ensures_stmtWithin (n : Nat) :
    (standard.stmtWithin n).Ensures Stmt.Complete := by
  induction n with
  | zero =>
      intro c _
      rw [stmtWithin]
      trivial
  | succ n ih =>
      intro c hc
      have hexpr := (ensures_within n).1
      rw [stmtWithin, current_bind]
      cases standard.stmts.find? c.current.kind with
      | none => exact ensures_readEffect hexpr c hc
      | some rule => exact rule.ensures_parse hexpr ih c hc

/-- Statements that were read without a report can be written. -/
theorem readableAll_readStatements (n : Nat) {c : Cursor} (hc : c.Unsigned)
    (herrors : (standard.readStatements n c).errors = []) :
    Stmt.ReadableAll (standard.readStatements n c).body := by
  induction n generalizing c with
  | zero => trivial
  | succ n ih =>
      have hreply : (standard.stmt c).Meets Stmt.Complete := ensures_stmtWithin _ c hc
      unfold readStatements at herrors ⊢
      split
      · next htokens =>
        rw [if_pos htokens] at herrors
        cases hstmt : standard.stmt c with
        | ok s next =>
            rw [hstmt] at hreply herrors
            obtain ⟨hnext, hs⟩ := hreply
            exact ⟨hs.1, ih hnext herrors⟩
        | fail error stop =>
            rw [hstmt] at herrors
            cases herrors
        | endless => trivial
      · trivial

end Rules

/-! ## Programs -/

/-- A program that is read from the tokens of a text can be written. -/
theorem Program.readable_of_ofTokens {file source : String} {tokens : List Token}
    {p : Program} (hscan : Token.scan file source = .ok tokens)
    (h : Program.ofTokens file tokens = .ok p) :
    p.Readable := by
  have hcursor : (Cursor.ofTokens file tokens).Unsigned :=
    Cursor.forall_ofTokens Token.unsigned_eof (Token.unsigned_of_scan hscan) file
  simp only [Program.ofTokens] at h
  split at h
  · next hclean =>
      cases h
      have herrors : (readTokens file tokens).errors = [] :=
        List.isEmpty_iff.mp (Bool.and_eq_true_iff.mp hclean).2
      exact Rules.readableAll_readStatements _ hcursor herrors
  · cases h

/-- A program that can be written is read back from tokens with its lexemes, with or
without the one for the end of the text and wherever they stand, as the same program
in other places. Every program that is read from the tokens of a text can be
written, so that none of its choices with an alternative has one without in front of
the alternative. -/
theorem Program.read_back :
    (∀ p : Program, p.Readable → ∀ file tokens,
      (Cursor.closed file tokens).map Token.lexeme = p.lexemes →
        ∃ q, Program.ofTokens file tokens = .ok q ∧
          Located.unplaced q = Located.unplaced p) ∧
      ∀ file source tokens p, Token.scan file source = .ok tokens →
        Program.ofTokens file tokens = .ok p → p.Readable :=
  ⟨fun _ hp _ _ htokens => ofTokens_lexemes hp htokens,
    fun _ _ _ _ => readable_of_ofTokens⟩

/-- There are tokens with the lexemes of a program. -/
theorem Program.lexemes_closed (p : Program) (file : String) :
    (Cursor.closed file (p.lexemes.map Lexeme.token)).map Token.lexeme = p.lexemes := by
  have hlast : (p.lexemes.map Lexeme.token).getLast? =
      some TokenKind.eof.lexeme.token := by
    rw [lexemes, List.map_append]
    exact List.getLast?_concat
  unfold Cursor.closed
  rw [hlast]
  exact (List.map_map).trans (List.map_id _)

/-- An alternative behind two choices, the smallest int, parentheses that are needed and
such that are not. -/
theorem Program.read_back_at_alternative :
    ∃ p q, Program.ofSource "a"
      "if (b) while (c) if (d) ; else x = y = -2147483648 - (1 - (2 * 3));" = .ok p ∧
      p.Readable ∧ Program.ofTokens "b" (p.lexemes.map Lexeme.token) = .ok q ∧
        Located.unplaced q = Located.unplaced p := by
  have hsource : Program.ofSource "a"
      "if (b) while (c) if (d) ; else x = y = -2147483648 - (1 - (2 * 3));" = .ok _ :=
        rfl
  obtain ⟨tokens, hscan, hread⟩ := Program.exists_tokens_of_ofSource hsource
  have hreadable := Program.read_back.2 _ _ _ _ hscan hread
  obtain ⟨q, hq, hplaces⟩ :=
    Program.read_back.1 _ hreadable "b" _ (lexemes_closed _ "b")
  exact ⟨_, q, hsource, hreadable, hq, hplaces⟩

end ScalarLang
