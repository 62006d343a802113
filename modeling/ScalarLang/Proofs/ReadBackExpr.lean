import ScalarLang.Proofs.Moving
import ScalarLang.Proofs.Unparsing

/-!
# Written expressions are read back

Positions do not matter to what is read (`Program.ofTokens_move`), so everything here is
about lexemes that stand nowhere, and the trees read from them stand nowhere either.

What a rule reads is told by the lexemes it takes, by what it makes of them and by the
lexemes that may follow (`Parser.Reads`). A rule looks at one lexeme beyond those it
takes, and leaves an operator alone that holds less tightly.

An operator is joined to all that stands in front of it in its expression, so that a
left operand is never read as an expression by itself. What is true of every expression
is that reading its lexemes leads to the place where operators are read on behind it
(`Expr.Leads`). A chain of rules needs a step for each lexeme at most.

## Main results

* `Expr.Readable.reads`: an expression that can be written is read from what
  is written for it.
-/

namespace ScalarLang

open ScalarLang.Located ScalarLang.Parser

/-! ## Cursors before lexemes -/

/-- The cursor before lexemes that stand nowhere. -/
def Cursor.before : List Lexeme → Cursor
  | [] => ⟨.first "", .eof (.first ""), []⟩
  | l :: ls => ⟨.first "", l.token, ls.map Lexeme.token⟩

/-! ## What parsers read -/

namespace Parser

variable {α β : Type} {a : α} {b : β} {l : Lexeme} {ls ls' : List Lexeme}
  {F G : Lexeme → Prop}

/-- Whether a parser reads something from lexemes, and nothing else, before every lexeme
that may follow. -/
def Reads (p : Parser α) (ls : List Lexeme) (a : α) (next : Lexeme → Prop) : Prop :=
  ∀ m ms, next m → p (.before (ls ++ m :: ms)) = .ok a (.before (m :: ms))

theorem reads_pure : (pure a : Parser α).Reads [] a F := fun _ _ _ => rfl

/-- The second parser may start with the first lexeme it takes, or takes none and is
followed itself. -/
theorem Reads.bind {p : Parser α} {g : α → Parser β} (hp : p.Reads ls a F)
    (hg : (g a).Reads ls' b G) (hnext : ∀ m, G m → F (ls'.headD m)) :
    (p >>= g).Reads (ls ++ ls') b G := by
  intro m ms hm
  have hfirst : p (.before (ls ++ (ls' ++ m :: ms))) =
      .ok a (.before (ls' ++ m :: ms)) := by
    cases ls' with
    | nil => exact hp m ms (hnext m hm)
    | cons l rest => exact hp l (rest ++ m :: ms) (hnext m hm)
  show Parser.bind p g (.before (ls ++ ls' ++ m :: ms)) = _
  unfold Parser.bind
  rw [List.append_assoc, hfirst]
  exact hg m ms hm

/-- Nothing is read behind the last parser. -/
theorem Reads.last {p : Parser α} {f : α → β} (hp : p.Reads ls a F) :
    (p >>= fun a => pure (f a) : Parser β).Reads ls (f a) F := by
  intro m ms hm
  show Parser.bind p _ _ = _
  unfold Parser.bind
  rw [hp m ms hm]
  rfl

theorem Reads.current {g : Token → Parser β} (h : (g l.token).Reads (l :: ls) b G) :
    (Parser.current >>= g).Reads (l :: ls) b G := h

/-- What is done with the next lexeme may not matter. -/
theorem Reads.peek {g : Token → Parser β} (h : ∀ t, (g t).Reads ls b G) :
    (Parser.current >>= g).Reads ls b G := fun m ms hm => h _ m ms hm

theorem Reads.previousEnd {g : Position → Parser β} (h : (g (.first "")).Reads ls b G) :
    (Parser.previousEnd >>= g).Reads ls b G := by
  intro m ms hm
  have hend : (Cursor.before (ls ++ m :: ms)).previousEnd = .first "" := by
    cases ls <;> rfl
  show g (Cursor.before (ls ++ m :: ms)).previousEnd _ = _
  rw [hend]
  exact h m ms hm

/-- The end of what was read last is looked up behind the last parser. -/
theorem Reads.lastEnd {p : Parser α} {f : α → Position → β} (hp : p.Reads ls a F) :
    (p >>= fun a => Parser.previousEnd >>= fun stop => pure
      (f a stop) : Parser β).Reads ls
      (f a (.first "")) F := by
  rw [← List.append_nil ls]
  apply hp.bind (G := F)
  · exact Reads.previousEnd reads_pure
  · exact fun m hm => hm

theorem reads_advance : Parser.advance.Reads [l] l.token F := fun _ _ _ => rfl

private theorem reads_expect (kind : TokenKind) (value : String) :
    (Parser.expect kind).Reads [(kind, value)] (Lexeme.token (kind, value)) F := by
  intro m ms hm
  show (if kind = kind then Parser.advance else unexpected) _ = _
  rw [if_pos rfl]
  exact reads_advance m ms hm

theorem reads_expectFor (kind : TokenKind) (value message : String) :
    (expectFor kind message).Reads [(kind, value)] (Lexeme.token (kind, value)) F := by
  intro m ms hm
  show (if kind = kind then Parser.advance else unexpectedFor message) _ = _
  rw [if_pos rfl]
  exact reads_advance m ms hm

theorem Reads.advance {g : Token → Parser β} (h : (g l.token).Reads ls b G) :
    (Parser.advance >>= g).Reads (l :: ls) b G :=
  (reads_advance (F := fun _ => True)).bind h fun _ _ => trivial

theorem Reads.expect {kind : TokenKind} {value : String} {g : Token → Parser β}
    (h : (g (Lexeme.token (kind, value))).Reads ls b G) :
    (Parser.expect kind >>= g).Reads ((kind, value) :: ls) b G :=
  (reads_expect (F := fun _ => True) kind value).bind h fun _ _ => trivial

theorem Reads.expectFor {kind : TokenKind} {value message : String}
    {g : Token → Parser β} (h : (g (Lexeme.token (kind, value))).Reads ls b G) :
    (Parser.expectFor kind message >>= g).Reads ((kind, value) :: ls) b G :=
  (reads_expectFor (F := fun _ => True) kind value message).bind h fun _ _ => trivial

end Parser

/-! ## Where operators stop -/

/-- How tightly a lexeme of a kind holds what stands in front of it; not at all if
it joins nothing. -/
def TokenKind.joinRank (k : TokenKind) : Nat :=
  match Rules.standard.joins.find? k with
  | some (_, power) => power.rank
  | none => 0

theorem TokenKind.joinRank_lt_unary (k : TokenKind) :
    k.joinRank < Power.unary.rank := by
  cases k <;> decide

private theorem TokenKind.joinRank_eq_zero {k : TokenKind}
    (h : k.joinRank ≤ Power.assignment.rank) (hne : k ≠ .assignment) :
    k.joinRank = 0 := by
  revert h hne
  cases k <;> decide

/-- The operators of a level join at the power of the level. -/
theorem Level.find?_joins {k : TokenKind} {l : Level}
    (h : Level.ofOperator? k = some l) :
    Rules.standard.joins.find? k = some (.binary, l.power) := by
  revert h
  cases k <;> intro h <;> cases h <;> rfl

theorem Level.joinRank_eq {k : TokenKind} {l : Level}
    (h : Level.ofOperator? k = some l) :
    k.joinRank = l.power.rank := by
  unfold TokenKind.joinRank
  rw [Level.find?_joins h]

private theorem Level.assignment_lt_rank (l : Level) :
    Power.assignment.rank < l.power.rank := by
  cases l <;> decide

/-- Whether an expression that holds together this tightly ends before a lexeme. -/
def Lexeme.Ends (rank : Nat) (m : Lexeme) : Prop :=
  m.1.joinRank ≤ rank ∧ m.1 ≠ .assignment

/-- Whether nothing goes on behind any expression with a lexeme. -/
theorem Lexeme.ends_of_joinRank_eq_zero {m : Lexeme} (h : m.1.joinRank = 0)
    (rank : Nat) : m.Ends rank := by
  constructor
  · rw [h]
    exact Nat.zero_le rank
  · intro heq
    rw [heq] at h
    cases h

namespace Rules

variable {power : Power} {l : Lexeme} {ls : List Lexeme}

private theorem operatorsWithin_before (left : Expr) (k : Nat) :
    standard.operatorsWithin (k + 1) power left (.before (l :: ls)) =
      (match standard.joins.find? l.1 with
        | .none => pure left
        | some (rule, own) =>
          if own.rank ≤ power.rank then pure left
          else rule.parse (standard.exprWithin k) left own >>=
            standard.operatorsWithin k power)
        (.before (l :: ls)) := by
  rw [operatorsWithin]
  rfl

private theorem operatorsWithin_end (left : Expr) (h : l.1.joinRank ≤ power.rank)
    (k : Nat) :
    standard.operatorsWithin (k + 1) power left (.before (l :: ls)) =
      .ok left (.before (l :: ls)) := by
  rw [operatorsWithin_before]
  unfold TokenKind.joinRank at h
  cases hjoin : standard.joins.find? l.1 with
  | none => rfl
  | some join =>
      rw [hjoin] at h
      have hown : join.2.rank ≤ power.rank := h
      dsimp only
      rw [if_pos hown]
      rfl

private theorem operatorsWithin_join {rule : JoinRule} {own : Power}
    (h : standard.joins.find? l.1 = some (rule, own)) (hpower : power.rank < own.rank)
    (left : Expr) (k : Nat) :
    standard.operatorsWithin (k + 1) power left (.before (l :: ls)) =
      (rule.parse (standard.exprWithin k) left own >>= standard.operatorsWithin k power)
        (.before (l :: ls)) := by
  rw [operatorsWithin_before, h]
  dsimp only
  rw [if_neg (Nat.not_le.mpr hpower)]

private theorem exprWithin_start {rule : StartRule}
    (h : standard.starts.find? l.1 = some rule) (power : Power) (k : Nat) :
    standard.exprWithin (k + 1) power (.before (l :: ls)) =
      (rule.parse (standard.exprWithin k) >>= standard.operatorsWithin k power)
        (.before (l :: ls)) := by
  have hfind : standard.starts.find? (Cursor.before (l :: ls)).current.kind =
      some rule := h
  rw [exprWithin]
  dsimp only
  rw [current_bind, hfind]

end Rules

/-! ## Expressions -/

namespace Expr

open ScalarLang.Rules

/-- Whether reading lexemes as an expression that holds together this tightly leads
to the place where the operators behind it are read, with a step of the chain for
each lexeme at most. -/
def Leads (ls : List Lexeme) (e : Expr) (least : Nat) : Prop :=
  ∀ n power m ms, power.rank < least → m.Ends least → ls.length < n →
    ∃ k, n ≤ k + ls.length ∧ standard.exprWithin n power (.before (ls ++ m :: ms)) =
      standard.operatorsWithin k power e (.before (m :: ms))

variable {e : Expr} {l : Lexeme} {ls : List Lexeme} {least : Nat}

/-- Where no operator goes on, the expression is what is read. -/
theorem Leads.reads {power : Power} (h : Leads ls e (power.rank + 1)) {n : Nat}
    (hn : ls.length < n) :
    (standard.exprWithin n power).Reads ls e (Lexeme.Ends power.rank) := by
  intro m ms hm
  obtain ⟨k, hk, hread⟩ :=
    h n power m ms (Nat.lt_succ_self _) ⟨Nat.le_succ_of_le hm.1, hm.2⟩ hn
  obtain ⟨j, rfl⟩ : ∃ j, k = j + 1 := ⟨k - 1, by omega⟩
  rw [hread, operatorsWithin_end e hm.1]

/-- What a rule reads leads on, if it starts an expression and takes nothing
behind its lexemes. -/
theorem leads_of_start (rule : StartRule)
    (hfind : standard.starts.find? l.1 = some rule)
    (h : ∀ k, ls.length < k →
      (rule.parse (standard.exprWithin k)).Reads (l :: ls) e
        (Lexeme.Ends Power.unary.rank)) :
    Leads (l :: ls) e least := by
  intro n power m ms hpower hm hn
  obtain ⟨k, rfl⟩ : ∃ k, n = k + 1 := ⟨n - 1, by omega⟩
  have hk : ls.length < k := by
    rw [List.length_cons] at hn
    omega
  have hends : m.Ends Power.unary.rank := ⟨Nat.le_of_lt m.1.joinRank_lt_unary, hm.2⟩
  refine ⟨k, by rw [List.length_cons]; omega, ?_⟩
  rw [List.cons_append, exprWithin_start hfind]
  show Parser.bind _ _ (Cursor.before (l :: ls ++ m :: ms)) = _
  unfold Parser.bind
  rw [h k hk m ms hends]

/-- A literal or a variable leads on. -/
theorem leads_of_primary (hfind : standard.starts.find? l.1 = some .primary)
    (h : primaryOf l.token = .ok e) : Leads [l] e least := by
  apply leads_of_start _ hfind
  intro k _
  apply Reads.current
  rw [h]
  exact Reads.advance reads_pure

/-- Parentheses lead on wherever what is in them does. -/
theorem Leads.parens (h : Leads ls e (Power.lowest.rank + 1)) :
    Leads (TokenKind.openParen.lexeme ::
      (ls ++ [TokenKind.closeParen.lexeme])) e least := by
  apply leads_of_start .grouping rfl
  intro k hk
  have hn : ls.length < k := by
    rw [List.length_append, List.length_singleton] at hk
    omega
  apply Reads.advance
  apply (h.reads hn).bind
  · exact Reads.expect reads_pure
  · intro m _
    exact Lexeme.ends_of_joinRank_eq_zero rfl _

/-- What leads on where operators stop early does so where they stop later. -/
theorem Leads.mono {rank : Nat} (h : Leads ls e rank) (hle : least ≤ rank) :
    Leads ls e least :=
  fun n power m ms hpower hm hn =>
    h n power m ms (Nat.lt_of_lt_of_le hpower hle) ⟨Nat.le_trans hm.1 hle, hm.2⟩ hn

private theorem Leads.bracketed {rank : Nat} (h : Leads ls e rank)
    (hrank : Power.lowest.rank < rank) :
    Leads (bracketed (rank < least) ls) e least := by
  unfold ScalarLang.bracketed
  by_cases hneeded : rank < least
  · rw [if_pos (decide_eq_true hneeded)]
    exact (h.mono hrank).parens
  · rw [if_neg (by rwa [decide_eq_true_eq])]
    exact h.mono (Nat.le_of_not_lt hneeded)

/-! ### How expressions start -/

/-- Whether an expression can start with a lexeme, and the lexeme is no int that a sign
makes another one. -/
structure Starts (l : Lexeme) : Prop where
  start : (standard.starts.find? l.1).isSome
  literal : l.1 = .integer → oppositeOf? l.2 = .none

theorem Starts.of_kind {l : Lexeme} (h : (standard.starts.find? l.1).isSome)
    (hkind : l.1 ≠ .integer) :
    Starts l := ⟨h, fun heq => absurd heq hkind⟩

theorem find?_starts_operator {k : TokenKind} (h : k = .dash ∨ k = .not) :
    standard.starts.find? k = some .operator := by
  cases h with
  | inl hdash => rw [hdash]; rfl
  | inr hnot => rw [hnot]; rfl

private theorem intOf?_int32Text (n : Int32) : intOf? (Text.int32Text n) = some n :=
  Text.readInt32?_int32Text n

private theorem intLexemes_minValue :
    intLexemes Int32.minValue = [TokenKind.dash.lexeme, (.integer, "2147483648")] := by
  decide +kernel

private theorem intLexemes_of_nonneg {n : Int32} (h : 0 ≤ n.toInt) :
    intLexemes n = [(.integer, Text.int32Text n)] :=
  if_neg (Int.not_lt.mpr h)

private theorem starts_intLexemes {n : Int32} (h : 0 ≤ n.toInt ∨ n = Int32.minValue) :
    ∃ l ls, intLexemes n = l :: ls ∧ Starts l := by
  cases h with
  | inl hnonneg =>
      refine ⟨_, _, intLexemes_of_nonneg hnonneg, rfl, fun _ => ?_⟩
      unfold oppositeOf?
      rw [intOf?_int32Text]
      rfl
  | inr hmin =>
      rw [hmin]
      exact ⟨_, _, intLexemes_minValue, .of_kind rfl (by decide)⟩

private theorem starts_bracketed {needed : Bool}
    (h : ∃ l' ls', ls = l' :: ls' ∧ Starts l') :
    ∃ l' ls', bracketed needed ls = l' :: ls' ∧ Starts l' := by
  cases needed with
  | true => exact ⟨_, _, rfl, .of_kind rfl (by decide)⟩
  | false => exact h

/-- An expression that can be written starts with what can start an expression. -/
theorem Readable.starts (he : e.Readable) (least : Nat) :
    ∃ l ls, e.lexemes least = l :: ls ∧ Starts l := by
  induction e generalizing least with
  | int n span => exact starts_intLexemes he
  | float | string | symbol => exact ⟨_, _, rfl, .of_kind rfl TokenKind.noConfusion⟩
  | bool b span => cases b <;> exact ⟨_, _, rfl, .of_kind rfl TokenKind.noConfusion⟩
  | assignment target value span =>
      exact starts_bracketed ⟨_, _, rfl, .of_kind rfl TokenKind.noConfusion⟩
  | unary operator operand span =>
      obtain ⟨hkind, -⟩ := he
      have hinteger : operator.kind ≠ .integer := by
        intro heq
        rw [heq] at hkind
        exact hkind.elim TokenKind.noConfusion TokenKind.noConfusion
      exact ⟨_, _, rfl,
        .of_kind (Option.isSome_of_eq_some (find?_starts_operator hkind)) hinteger⟩
  | binary label operator left right span ihleft ihright =>
      obtain ⟨-, hleft, -⟩ := he
      obtain ⟨l, ls, hls, hl⟩ := ihleft hleft label.rank
      apply starts_bracketed
      rw [hls]
      exact ⟨_, _, rfl, hl⟩

/-! ### What expressions are read as -/

private theorem leads_intLexemes {n : Int32} (h : 0 ≤ n.toInt ∨ n = Int32.minValue) :
    Leads (intLexemes n) (int n (.at (.first ""))) least := by
  cases h with
  | inl hnonneg =>
      rw [intLexemes_of_nonneg hnonneg]
      apply leads_of_primary rfl
      unfold primaryOf Lexeme.token
      dsimp only
      rw [intOf?_int32Text]
  | inr hmin =>
      rw [hmin, intLexemes_minValue]
      apply leads_of_start .operator rfl
      intro k _
      apply Reads.advance
      apply Reads.current
      have hfolded : oppositeOf? "2147483648" = some Int32.minValue := by decide +kernel
      have hliteral : TokenKind.dash.lexeme.token.kind = .dash ∧
          (Lexeme.token (.integer, "2147483648")).kind = .integer := ⟨rfl, rfl⟩
      dsimp only
      rw [if_pos hliteral, show (Lexeme.token (.integer, "2147483648")).value =
        "2147483648" from rfl, hfolded]
      exact Reads.advance reads_pure

/-- A binary operator leads on if its operands do. -/
theorem leads_binary {l : Level} {operator : Token} {left right : Expr}
    {ls rs : List Lexeme} (hlevel : Level.ofOperator? operator.kind = some l)
    (hleft : Leads ls left l.power.rank) (hright : Leads rs right (l.power.rank + 1)) :
    Leads (ls ++ operator.lexeme :: rs)
      (binary (.level l) (unplaced operator) left right ⟨left.span.start,
        right.span.stop⟩)
      l.power.rank := by
  intro n power m ms hpower hm hn
  rw [List.length_append, List.length_cons] at hn
  have hends : operator.lexeme.Ends l.power.rank := by
    refine ⟨Nat.le_of_eq (Level.joinRank_eq hlevel), ?_⟩
    intro heq
    have hkind : operator.kind = .assignment := heq
    rw [hkind] at hlevel
    cases hlevel
  obtain ⟨k, hk, hreadleft⟩ :=
    hleft n power operator.lexeme (rs ++ m :: ms) hpower hends (by omega)
  obtain ⟨j, rfl⟩ : ∃ j, k = j + 1 := ⟨k - 1, by omega⟩
  have hbinary :
      (readBinary (standard.exprWithin j) left l.power).Reads (operator.lexeme :: rs)
        (binary (.level l) (unplaced operator) left right ⟨left.span.start,
          right.span.stop⟩)
        (Lexeme.Ends l.power.rank) := by
    apply Reads.advance
    rw [show operator.lexeme.token.kind = operator.kind from rfl, hlevel]
    have hn : rs.length < j := by omega
    exact (hright.reads hn).last
  refine ⟨j, ?_, ?_⟩
  · rw [List.length_append, List.length_cons]
    omega
  · rw [List.append_assoc, List.cons_append, hreadleft,
      operatorsWithin_join (Level.find?_joins hlevel) hpower]
    show Parser.bind (readBinary _ _ _) _ (.before (operator.lexeme :: rs ++ m :: ms)) =
      _
    unfold Parser.bind
    rw [hbinary m ms hm]

/-- An operator in front leads on if its operand does and starts like an expression. -/
theorem leads_unary (least : Nat) {operator : Token} {operand : Expr}
    (hkind : operator.kind = .dash ∨ operator.kind = .not)
    (hstarts : ∃ l ls', ls = l :: ls' ∧ Starts l)
    (h : Leads ls operand (Power.unary.rank + 1)) :
    Leads (operator.lexeme :: ls)
      (unary (unplaced operator) operand ⟨.first "", operand.span.stop⟩)
      least := by
  apply leads_of_start .operator (find?_starts_operator hkind)
  intro k hk
  have hoperand := (h.reads hk).last (f := fun operand =>
    unary (unplaced operator) operand ⟨.first "", operand.span.stop⟩)
  obtain ⟨l, ls', rfl, hl⟩ := hstarts
  apply Reads.advance
  apply Reads.current
  dsimp only
  by_cases hliteral : operator.lexeme.token.kind = .dash ∧ l.token.kind = .integer
  · rw [if_pos hliteral, show l.token.value = l.2 from rfl, hl.literal hliteral.2]
    exact hoperand
  · rw [if_neg hliteral]
    exact hoperand

/-- An assignment leads on if its value does. -/
theorem leads_assignment (name : String) {value : Expr}
    (h : Leads ls value (Power.lowest.rank + 1)) :
    Leads ((.identifier, name) :: TokenKind.assignment.lexeme :: ls)
      (assignment ⟨name, .at (.first "")⟩ value ⟨.first "", value.span.stop⟩)
        Power.assignment.rank := by
  intro n power m ms hpower hm hn
  rw [List.length_cons, List.length_cons] at hn
  obtain ⟨k, rfl⟩ : ∃ k, n = k + 2 := ⟨n - 2, by omega⟩
  have hassignment :
      (readAssignment (standard.exprWithin k) (symbol name (.at (.first "")))).Reads
        (TokenKind.assignment.lexeme :: ls)
        (assignment ⟨name, .at (.first "")⟩ value ⟨.first "", value.span.stop⟩)
        (Lexeme.Ends Power.lowest.rank) := by
    have hn : ls.length < k := by omega
    apply Reads.advance
    exact (h.reads hn).last
  have hends : m.Ends Power.lowest.rank :=
    Lexeme.ends_of_joinRank_eq_zero (TokenKind.joinRank_eq_zero hm.1 hm.2) _
  refine ⟨k, ?_, ?_⟩
  · rw [List.length_cons, List.length_cons]
    omega
  · rw [List.cons_append, exprWithin_start (show standard.starts.find? .identifier =
      some .primary from rfl)]
    show standard.operatorsWithin (k + 1) power (symbol name (.at (.first "")))
      (.before (TokenKind.assignment.lexeme :: (ls ++ m :: ms))) = _
    have hjoin : standard.joins.find? .assignment = some (.assignment, .assignment) :=
      rfl
    rw [operatorsWithin_join hjoin hpower]
    show Parser.bind
      (readAssignment (standard.exprWithin k) (symbol name (.at (.first "")))) _
      (.before (TokenKind.assignment.lexeme :: ls ++ m :: ms)) = _
    unfold Parser.bind
    rw [hassignment m ms hends]

theorem span_unplaced (e : Expr) : (unplaced e).span = .at (.first "") := e.span_move _

/-- The lexemes of an expression lead on behind the expression. -/
theorem Readable.leads (he : e.Readable) (least : Nat) :
    Leads (e.lexemes least) (unplaced e) least := by
  induction e generalizing least with
  | int n span => exact leads_intLexemes he
  | float x span =>
      apply leads_of_primary rfl
      unfold primaryOf Lexeme.token
      dsimp only
      rw [Decimal.read?_literal he.1 he.2]
      rfl
  | bool b span => cases b <;> exact leads_of_primary rfl rfl
  | string s span => exact leads_of_primary rfl rfl
  | symbol name span => exact leads_of_primary rfl rfl
  | assignment target value span ih =>
      have hvalue := leads_assignment target.name (ih he (Power.lowest.rank + 1))
      rw [span_unplaced] at hvalue
      exact hvalue.bracketed (by decide)
  | unary operator operand span ih =>
      obtain ⟨hkind, hoperand⟩ := he
      have hwhole := leads_unary least hkind (hoperand.starts _) (ih hoperand _)
      rwa [span_unplaced] at hwhole
  | binary label operator left right span ihleft ihright =>
      obtain ⟨⟨l, rfl, hlevel⟩, hleft, hright⟩ := he
      have hwhole := leads_binary hlevel (ihleft hleft _) (ihright hright _)
      rw [span_unplaced, span_unplaced] at hwhole
      exact hwhole.bracketed (Nat.lt_of_le_of_lt (by decide) l.assignment_lt_rank)

/-- An expression is read from its lexemes wherever any expression may stand. -/
theorem Readable.reads (he : e.Readable) {n : Nat}
    (hn : (e.lexemes (Power.lowest.rank + 1)).length < n) :
    (standard.exprWithin n .lowest).Reads
      (e.lexemes (Power.lowest.rank + 1)) (unplaced e)
      (Lexeme.Ends Power.lowest.rank) :=
  Leads.reads (he.leads _) hn

end Expr

end ScalarLang
