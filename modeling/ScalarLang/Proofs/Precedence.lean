import ScalarLang.Proofs.Derivations

/-!
# Expressions are read by the grammar

What is read as an expression derives from the grammar (`Rules.takes_within`). The other
way round, the tokens of a phrase lead to the place where operators are read on behind
an expression, with the tree of the phrase for that expression (`Tier.Leads`). There the
loop goes on or ends by the next token alone: an operator of the level of a phrase may
follow it, and one that is due in its context is left to that.

The grammar is unambiguous, so that the tree that is read is the one of the
only derivation.

## Main results

* `expr_iff_phrase`: tokens are read as an expression if and only if they derive
  from the grammar.
-/

namespace ScalarLang

open ScalarLang.Parser ScalarLang.Rules

/-! ## What derives from the grammar is read -/

namespace Parser

variable {α β : Type} {p : Parser α} {g : α → Parser β} {a : α} {c c' : Cursor}

theorem bind_of_eq_ok (h : p c = .ok a c') : (p >>= g) c = g a c' := by
  show Parser.bind p g c = _
  unfold Parser.bind
  rw [h]

theorem bind_of_eq_fail {d : Diagnostic} {stop : Cursor} (h : p c = .fail d stop) :
    (p >>= g) c = .fail d stop := by
  show Parser.bind p g c = _
  unfold Parser.bind
  rw [h]

theorem expect_eq_ok {kind : TokenKind} (h : c.current.kind = kind) :
    expect kind c = .ok c.current c.advance := by
  show (if c.current.kind = kind then advance else unexpected) c = _
  rw [if_pos h]
  rfl

end Parser

namespace Rules

variable {power : Power} {c c' : Cursor} {e left : Expr} {n : Nat}

private theorem exprWithin_of_parse {rule : StartRule}
    (hfind : standard.starts.find? c.current.kind = some rule)
    (h : rule.parse (standard.exprWithin n) c = .ok e c') :
    standard.exprWithin (n + 1) power c = standard.operatorsWithin n power e c' := by
  rw [exprWithin]
  dsimp only
  rw [current_bind, hfind]
  exact bind_of_eq_ok h

private theorem operatorsWithin_of_parse {rule : JoinRule} {own : Power}
    (hfind : standard.joins.find? c.current.kind = some (rule, own))
    (hpower : power.rank < own.rank)
    (h : rule.parse (standard.exprWithin n) left own c = .ok e c') :
    standard.operatorsWithin (n + 1) power left c =
      standard.operatorsWithin n power e c' := by
  rw [operatorsWithin]
  dsimp only
  rw [current_bind, hfind]
  dsimp only
  rw [if_neg (Nat.not_le.mpr hpower)]
  exact bind_of_eq_ok h

private theorem operatorsWithin_stop (h : c.current.kind.joinRank ≤ power.rank) :
    standard.operatorsWithin (n + 1) power e c = .ok e c := by
  rw [operatorsWithin]
  dsimp only
  rw [current_bind]
  unfold TokenKind.joinRank at h
  cases hfind : standard.joins.find? c.current.kind with
  | none => rfl
  | some join =>
      rw [hfind] at h
      have hown : join.2.rank ≤ power.rank := h
      dsimp only
      rw [if_pos hown]
      rfl

end Rules

/-- Whether all operators between operands that phrases of a tier may have hold more
tightly than a context. -/
def Tier.Within (tier : Tier) (power : Power) : Prop :=
  ∀ k : TokenKind, tier.rank ≤ k.joinRank → power.rank < k.joinRank

/-- Whether reading tokens as an expression leads to the place where operators are read
on behind it, with a step of the chain for each token at most. -/
def Tier.Leads (tier : Tier) (ts : List Token) (e : Expr) : Prop :=
  ∀ c t rest n power, c.tokens = ts ++ t :: rest → t.kind.joinRank ≤ tier.behind →
    tier.Within power → ts.length < n →
    ∃ k c', n ≤ k + ts.length ∧ c'.tokens = t :: rest ∧
      standard.exprWithin n power c = standard.operatorsWithin k power e c'

namespace Tier.Leads

variable {tier : Tier} {ts us : List Token} {t : Token} {e : Expr}

/-- Where no operator goes on, the expression is what is read. -/
theorem reads (h : tier.Leads ts e) {c : Cursor} {rest : List Token} {n : Nat}
    {power : Power} (hc : c.tokens = ts ++ t :: rest)
    (hbehind : t.kind.joinRank ≤ tier.behind) (hwithin : tier.Within power)
    (hends : t.kind.joinRank ≤ power.rank) (hn : ts.length < n) :
    ∃ c', c'.tokens = t :: rest ∧ standard.exprWithin n power c = .ok e c' := by
  obtain ⟨k, c', hk, hc', hread⟩ := h c t rest n power hc hbehind hwithin hn
  obtain ⟨j, rfl⟩ : ∃ j, k = j + 1 := ⟨k - 1, by omega⟩
  have hcurrent : c'.current = t := (List.cons.inj hc').1
  rw [← hcurrent] at hends
  exact ⟨c', hc', hread.trans (operatorsWithin_stop hends)⟩

private theorem step {next : Tier} (hnext : tier.next? = some next)
    (h : next.Leads ts e) :
    tier.Leads ts e := by
  intro c t rest n power hc hbehind hwithin hn
  have hrank := Tier.rank_next hnext
  refine h c t rest n power hc (Nat.le_trans hbehind (Tier.behind_le_next hnext)) ?_ hn
  exact fun k hk => hwithin k (by omega)

/-- What a rule reads leads on, if it starts an expression. -/
theorem of_parse {rule : StartRule} (hfind : standard.starts.find? t.kind = some rule)
    (h : ∀ c u rest n, c.tokens = t :: (ts ++ u :: rest) → ts.length < n →
      ∃ c', c'.tokens = u :: rest ∧ rule.parse (standard.exprWithin n) c = .ok e c') :
    tier.Leads (t :: ts) e := by
  intro c u rest n power hc hbehind hwithin hn
  obtain ⟨m, rfl⟩ : ∃ m, n = m + 1 := ⟨n - 1, by omega⟩
  have hcurrent : c.current = t := (List.cons.inj hc).1
  rw [List.length_cons] at hn
  obtain ⟨c', hc', hread⟩ := h c u rest m hc (by omega)
  rw [← hcurrent] at hfind
  exact ⟨m, c', by rw [List.length_cons]; omega, hc', exprWithin_of_parse hfind hread⟩

theorem single (h : primaryOf t = .ok e) : tier.Leads [t] e := by
  have hfind : standard.starts.find? t.kind = some .primary := by
    unfold primaryOf at h
    split at h <;> simp_all <;> rfl
  apply of_parse hfind
  intro c u rest n hc _
  obtain ⟨hcurrent, hadvance⟩ :=
    Cursor.advance_of_tokens_eq hc (List.cons_ne_nil u rest)
  refine ⟨c.advance, hadvance, ?_⟩
  show readPrimary c = _
  rw [readPrimary, current_bind, hcurrent, h]
  rfl

theorem least {sign digits : Token} {n : Int32} (hsign : sign.kind = .dash)
    (hkind : digits.kind = .integer) (h : oppositeOf? digits.value = some n) :
    tier.Leads [sign, digits] (.int n ⟨sign.span.start, digits.span.stop⟩) := by
  apply of_parse (Expr.find?_starts_operator (.inl hsign))
  intro c u rest m hc _
  obtain ⟨hcurrent, hadvance⟩ := Cursor.advance_of_tokens_eq hc (List.cons_ne_nil _ _)
  obtain ⟨hcurrent', hadvance'⟩ :=
    Cursor.advance_of_tokens_eq hadvance (List.cons_ne_nil u rest)
  refine ⟨c.advance.advance, hadvance', ?_⟩
  show readOperator _ c = _
  rw [readOperator, advance_bind, current_bind, hcurrent, hcurrent',
    if_pos ⟨hsign, hkind⟩, h]
  rfl

private theorem group {opening closing : Token} (hopening : opening.kind = .openParen)
    (h : Tier.assignment.Leads ts e) (hclosing : closing.kind = .closeParen) :
    tier.Leads (opening :: (ts ++ [closing])) e := by
  have hfind : standard.starts.find? opening.kind = some .grouping := by
    rw [hopening]
    rfl
  apply of_parse hfind
  intro c u rest n hc hn
  rw [List.length_append] at hn
  rw [List.append_assoc, List.singleton_append] at hc
  obtain ⟨hcurrent, hadvance⟩ := Cursor.advance_of_tokens_eq hc (by simp)
  have hends : closing.kind.joinRank = 0 := by rw [hclosing]; rfl
  have hlowest : Tier.assignment.Within .lowest := fun k hk => hk
  obtain ⟨c', hc', hread⟩ :=
    h.reads hadvance (Nat.le_of_eq hends) hlowest (Nat.le_of_eq hends)
    (show ts.length < n by omega)
  obtain ⟨hcurrent', hadvance'⟩ :=
    Cursor.advance_of_tokens_eq hc' (List.cons_ne_nil u rest)
  refine ⟨c'.advance, hadvance', ?_⟩
  show readGrouping _ c = _
  rw [readGrouping, advance_bind, bind_of_eq_ok hread,
    bind_of_eq_ok (expect_eq_ok (hcurrent' ▸ hclosing))]
  rfl

/-- An operator in front leads on if its operand does, and a minus sign makes no
other int of it. -/
theorem unary {operator : Token}
    (hoperator : operator.kind = .dash ∨ operator.kind = .not) (hne : ts ≠ [])
    (hfirst : ∀ u ∈ ts.head?, u.kind = .integer → oppositeOf? u.value = Option.none)
    (h : prefixed.Leads ts e) :
    tier.Leads (operator :: ts)
      (.unary operator e ⟨operator.span.start, e.span.stop⟩) := by
  apply of_parse (Expr.find?_starts_operator hoperator)
  intro c u rest n hc hn
  obtain ⟨hcurrent, hadvance⟩ := Cursor.advance_of_tokens_eq hc (by simp)
  have hends := Nat.le_of_lt u.kind.joinRank_lt_unary
  have hunary : prefixed.Within .unary := by
    intro k hk
    exact absurd k.joinRank_lt_unary (Nat.not_lt.mpr hk)
  obtain ⟨c', hc', hread⟩ := h.reads hadvance hends hunary hends hn
  have hfolded : (if operator.kind = .dash ∧ c.advance.current.kind = .integer
      then oppositeOf? c.advance.current.value else Option.none) = Option.none := by
    by_cases hkinds : operator.kind = .dash ∧ c.advance.current.kind = .integer
    · have hhead : c.advance.current ∈ ts.head? := by
        cases ts with
        | nil => exact absurd rfl hne
        | cons v vs => exact congrArg some (List.cons.inj hadvance).1.symm
      rw [if_pos hkinds]
      exact hfirst _ hhead hkinds.2
    · rw [if_neg hkinds]
  refine ⟨c', hc', ?_⟩
  show readOperator _ c = _
  rw [readOperator, advance_bind, current_bind, hcurrent, hfolded]
  dsimp only
  rw [bind_of_eq_ok hread]
  rfl

private theorem binary {l : Level} {operator : Token} {e' : Expr}
    (h : (level l).Leads ts e) (hoperator : operator.kind ∈ l.operators)
    (h' : (above l.power).Leads us e') :
    (level l).Leads (ts ++ operator :: us)
      (.binary (.level l) operator e e' ⟨e.span.start, e'.span.stop⟩) := by
  intro c t rest n power hc hbehind hwithin hn
  have hlevel : Level.ofOperator? operator.kind = some l :=
    Level.ofOperator?_eq_some_iff.mpr hoperator
  have hrank : operator.kind.joinRank = (level l).rank := by
    rw [Level.joinRank_eq hlevel, l.rank_power]
  have hpower : power.rank < l.power.rank := by
    rw [← Level.joinRank_eq hlevel]
    exact hwithin operator.kind (Nat.le_of_eq hrank.symm)
  rw [List.append_assoc, List.cons_append] at hc
  rw [List.length_append, List.length_cons] at hn ⊢
  obtain ⟨k, c', hk, hc', hread⟩ :=
    h c operator (us ++ t :: rest) n power hc (Nat.le_of_eq hrank) hwithin (by omega)
  obtain ⟨j, rfl⟩ : ∃ j, k = j + 1 := ⟨k - 1, by omega⟩
  obtain ⟨hcurrent, hadvance⟩ := Cursor.advance_of_tokens_eq hc' (by simp)
  have hright : (above l.power).Within l.power := by
    intro k hk
    have hnext := Tier.rank_next (next?_level l)
    rw [l.rank_power]
    omega
  have hends : t.kind.joinRank ≤ l.power.rank := by
    rw [l.rank_power]
    exact hbehind
  obtain ⟨c'', hc'', hread'⟩ :=
    h'.reads hadvance (Nat.le_trans hbehind (behind_le_next (next?_level l))) hright
      hends
    (show us.length < j by omega)
  refine ⟨j, c'', by omega, hc'', hread.trans ?_⟩
  apply operatorsWithin_of_parse
    (by rw [hcurrent]; exact Level.find?_joins hlevel) hpower
  show readBinary _ e l.power c' = _
  rw [readBinary, advance_bind, hcurrent, hlevel]
  dsimp only
  rw [bind_of_eq_ok hread']
  rfl

private theorem assignment {name : String} {span : Span} {sign : Token} {value : Expr}
    (h : primary.Leads ts (.symbol name span)) (hsign : sign.kind = .assignment)
    (hvalue : Tier.assignment.Leads us value) :
    Tier.assignment.Leads (ts ++ sign :: us)
      (.assignment ⟨name, span⟩ value ⟨span.start, value.span.stop⟩) := by
  intro c t rest n power hc hbehind hwithin hn
  have hrank : sign.kind.joinRank = Power.assignment.rank := by rw [hsign]; rfl
  have hpower : power.rank < Power.assignment.rank :=
    hrank ▸ hwithin sign.kind (Nat.le_of_eq hrank.symm)
  rw [List.append_assoc, List.cons_append] at hc
  rw [List.length_append, List.length_cons] at hn ⊢
  have hfollows : sign.kind.joinRank ≤ primary.behind := by rw [hsign]; decide
  have hprimary : primary.Within power := by
    intro k hk
    have hjoin := k.joinRank_lt_unary
    have hunary : Power.unary.rank < primary.rank := by decide
    omega
  obtain ⟨k, c', hk, hc', hread⟩ :=
    h c sign (us ++ t :: rest) n power hc hfollows hprimary (by omega)
  obtain ⟨j, rfl⟩ : ∃ j, k = j + 1 := ⟨k - 1, by omega⟩
  obtain ⟨hcurrent, hadvance⟩ := Cursor.advance_of_tokens_eq hc' (by simp)
  have hlowest : Tier.assignment.Within .lowest := fun k hk => hk
  obtain ⟨c'', hc'', hread'⟩ :=
    hvalue.reads hadvance hbehind hlowest hbehind (show us.length < j by omega)
  refine ⟨j, c'', by omega, hc'', hread.trans ?_⟩
  have hfind : standard.joins.find? c'.current.kind =
      some (.assignment, .assignment) := by
    rw [hcurrent, hsign]
    rfl
  apply operatorsWithin_of_parse hfind hpower
  show readAssignment _ (.symbol name span) c' = _
  rw [readAssignment, advance_bind]
  dsimp only
  rw [bind_of_eq_ok hread']
  rfl

end Tier.Leads

/-- What leads on inside of all tiers leads on in the loosest one. -/
theorem Tier.Leads.loosen {ts : List Token} {e : Expr} (h : Tier.primary.Leads ts e) :
    Tier.assignment.Leads ts e := by
  have hprefixed : prefixed.Leads ts e := h.step rfl
  have hmultiplication : (level .multiplication).Leads ts e := hprefixed.step rfl
  have haddition : (level .addition).Leads ts e := hmultiplication.step rfl
  have hcomparison : (level .comparison).Leads ts e := haddition.step rfl
  have hequality : (level .equality).Leads ts e := hcomparison.step rfl
  have hand : (level .logicAnd).Leads ts e := hequality.step rfl
  have hor : (level .logicOr).Leads ts e := hand.step rfl
  exact hor.step rfl

private theorem Target.leads (target : Target) :
    Tier.primary.Leads target.tokens (.symbol target.ident.name target.ident.span) := by
  induction target with
  | single t hkind =>
      apply Tier.Leads.single
      unfold primaryOf
      rw [hkind]
      rfl
  | group opening hopening inner closing hclosing ih =>
      exact .group hopening ih.loosen hclosing

/-- An int in front of a phrase without operators between operands is a
literal by itself. -/
theorem Phrase.number_le_of_head {p : Phrase .prefixed} {u : Token}
    (hu : u ∈ p.tokens.head?) (hkind : u.kind = .integer) : u.number ≤ 2147483647 := by
  cases p with
  | unary operator hoperator operand =>
      cases hu
      rw [hkind] at hoperator
      exact hoperator.elim TokenKind.noConfusion TokenKind.noConfusion
  | step hnext inner =>
      cases hnext
      cases inner with
      | step hnext => cases hnext
      | single t e hdenotes =>
          cases hu
          exact hdenotes.number_le hkind
      | least sign hsign =>
          cases hu
          rw [hkind] at hsign
          cases hsign
      | group opening hopening =>
          cases hu
          rw [hkind] at hopening
          cases hopening

/-- The tokens of a phrase lead to the place behind the phrase. -/
theorem Phrase.leads {tier : Tier} (p : Phrase tier) (hp : ∀ t ∈ p.tokens, t.Numeral) :
    tier.Leads p.tokens p.tree := by
  induction p with
  | assignment target sign hsign value ih =>
      have hvalue := ih fun t ht =>
        hp t (List.mem_append_right _ (List.mem_cons_of_mem _ ht))
      exact target.leads.assignment hsign hvalue
  | step hnext inner ih => exact (ih hp).step hnext
  | binary left operator hoperator hnext right ihleft ihright =>
      have hleft := ihleft fun t ht => hp t (List.mem_append_left _ ht)
      have hright := ihright fun t ht =>
        hp t (List.mem_append_right _ (List.mem_cons_of_mem _ ht))
      cases Option.some.inj (hnext.symm.trans (Tier.next?_level _))
      exact hleft.binary hoperator hright
  | unary operator hoperator operand ih =>
      have htokens : ∀ t ∈ operand.tokens, t.Numeral :=
        fun t ht => hp t (List.mem_cons_of_mem _ ht)
      have hne : operand.tokens ≠ [] := List.length_pos_iff.mp operand.length_tokens_pos
      apply (ih htokens).unary hoperator hne
      intro u hu hkind
      have hfits := number_le_of_head hu hkind
      have hnumber : u.number ≠ 2147483648 := by omega
      rw [Token.oppositeOf?_number (htokens u (List.mem_of_mem_head? hu)) hkind,
        if_neg hnumber]
  | single t e hdenotes =>
      exact .single ((Token.primaryOf_eq_ok_iff (hp t List.mem_cons_self)).mpr hdenotes)
  | least sign hsign digits hkind hnumber =>
      have hdigits : digits.Numeral :=
        hp digits (List.mem_cons_of_mem _ List.mem_cons_self)
      apply Tier.Leads.least hsign hkind
      rw [Token.oppositeOf?_number hdigits hkind, if_pos hnumber]
  | group opening hopening inner closing hclosing ih =>
      have hinner := ih fun t ht =>
        hp t (List.mem_cons_of_mem _ (List.mem_append_left _ ht))
      exact .group hopening hinner hclosing

/-! ## The parser and the grammar -/

namespace Cursor

private theorem closed_append (file : String) (ts rest : List Token) (t : Token) :
    closed file (ts ++ t :: rest) = ts ++ closed file (t :: rest) := by
  have hlast : (ts ++ t :: rest).getLast? = (t :: rest).getLast? := by
    rw [List.getLast?_append_of_ne_nil _ (List.cons_ne_nil t rest)]
  unfold closed
  rw [hlast]
  cases hcase : (t :: rest).getLast? with
  | none => cases List.getLast?_eq_none_iff.mp hcase
  | some last =>
      dsimp only
      by_cases heof : last.kind = .eof
      · rw [if_pos heof, if_pos heof]
      · rw [if_neg heof, if_neg heof, List.append_assoc]

theorem exists_closed_cons (file : String) (t : Token) (rest : List Token) :
    ∃ rest', closed file (t :: rest) = t :: rest' := by
  unfold closed
  cases hcase : (t :: rest).getLast? with
  | none => cases List.getLast?_eq_none_iff.mp hcase
  | some last =>
      dsimp only
      by_cases heof : last.kind = .eof
      · exact ⟨rest, if_pos heof⟩
      · exact ⟨rest ++ [.eof last.span.stop], if_neg heof⟩

theorem tokens_ofTokens (file : String) (ts rest : List Token) (t : Token) :
    (ofTokens file (ts ++ t :: rest)).tokens = ts ++ closed file (t :: rest) := by
  unfold ofTokens
  rw [closed_append]
  split
  · next hnil =>
      obtain ⟨rest', hclosed⟩ := exists_closed_cons file t rest
      rw [hclosed] at hnil
      cases (List.append_eq_nil_iff.mp hnil).2
  · next hcons => exact hcons.symm

theorem tokens_ofTokens_of_last (file : String) (ts : List Token) {last : Token}
    (hlast : last.kind = .eof) :
    (ofTokens file (ts ++ [last])).tokens = ts ++ [last] := by
  have hclosed : closed file [last] = [last] := if_pos hlast
  rw [tokens_ofTokens, hclosed]

end Cursor

private theorem TokenKind.joinRank_of_not_mem {k : TokenKind}
    (hassignment : k ≠ .assignment) (hoperator : ∀ l : Level, k ∉ l.operators) :
    k.joinRank = 0 := by
  unfold TokenKind.joinRank
  cases hfind : standard.joins.find? k with
  | none => rfl
  | some join =>
      cases of_find?_joins hfind with
      | inl hbinary =>
          obtain ⟨l, hmem, -⟩ := hbinary
          exact absurd hmem (hoperator l)
      | inr h => exact absurd h.1 hassignment

/-- What is read as an expression derives from the grammar. -/
theorem derives_of_expr {c next : Cursor} {e : Expr} (hc : c.Terminated)
    (h : standard.expr .lowest c = .ok e next) :
    ∃ ts, c.tokens = ts ++ next.tokens ∧ Tier.assignment.Derives ts e := by
  have hsound := (takes_within (chainBound c)).1 .lowest c hc
  unfold Rules.expr at h
  rw [h] at hsound
  obtain ⟨-, ts, hts, -, hderives⟩ := hsound
  exact ⟨ts, hts, hderives⟩

/-- A phrase is read as an expression, up to a token that is no operator
between operands. -/
theorem Phrase.exists_expr (p : Phrase .assignment) (hp : ∀ t ∈ p.tokens, t.Numeral)
    {c : Cursor} {t : Token} {rest : List Token} (hc : c.tokens = p.tokens ++ t :: rest)
    (ht : t.kind.joinRank = 0) :
    ∃ next, next.tokens = t :: rest ∧ standard.expr .lowest c = .ok p.tree next := by
  have hlowest : Tier.assignment.Within .lowest := fun k hk => hk
  have hbound : p.tokens.length < chainBound c := by
    have hlength := congrArg List.length hc
    rw [Cursor.tokens, List.length_cons, List.length_append, List.length_cons]
      at hlength
    unfold chainBound
    omega
  exact (p.leads hp).reads hc (Nat.le_of_eq ht) hlowest (Nat.le_of_eq ht) hbound

/-- Tokens in front of one that is no operator between operands are read as an
expression, up to that token, if and only if they derive from the grammar. The tree is
that of the derivation, and there is only one. -/
theorem expr_iff_phrase (file : String) {ts rest : List Token} {t : Token}
    (hassignment : t.kind ≠ .assignment) (hoperator : ∀ l : Level, t.kind ∉ l.operators)
    (hts : ∀ u ∈ ts, u.Numeral) :
    (∀ e, (∃ next,
      standard.expr .lowest (.ofTokens file (ts ++ t :: rest)) = .ok e next ∧
        next.tokens = Cursor.closed file (t :: rest)) ↔
      ∃ p : Phrase .assignment, p.tokens = ts ∧ p.tree = e) ∧
      ∀ p q : Phrase .assignment, p.tokens = ts → q.tokens = ts → p = q := by
  have hc := Cursor.terminated_ofTokens file (ts ++ t :: rest)
  have htokens := Cursor.tokens_ofTokens file ts rest t
  constructor
  · intro e
    constructor
    · intro ⟨next, hread, hnext⟩
      obtain ⟨ts', hts', hderives⟩ := derives_of_expr hc hread
      rw [htokens, hnext] at hts'
      rw [← List.append_cancel_right hts'] at hderives
      exact hderives hts
    · intro ⟨p, hp, htree⟩
      obtain ⟨rest', hclosed⟩ := Cursor.exists_closed_cons file t rest
      rw [← hp] at hts
      rw [hclosed, ← hp] at htokens
      have hends := TokenKind.joinRank_of_not_mem hassignment hoperator
      obtain ⟨next, hnext, hread⟩ := p.exists_expr hts htokens hends
      rw [htree, hp] at hread
      exact ⟨next, hread, hnext.trans hclosed.symm⟩
  · intro p q hp hq
    exact p.unique q (hp.trans hq.symm)

/-- A target in parentheses, and the least int in front of operators that
associate to the left. -/
theorem expr_iff_phrase_of_least :
    ∃ ts t rest e next, Token.scan "a" "(x) = -2147483648 - 2 - y;" =
      .ok (ts ++ t :: rest) ∧
      ts.map Token.value = ["(", "x", ")", "=", "-", "2147483648", "-", "2", "-", "y"] ∧
      t.kind = .semicolon ∧
      standard.expr .lowest (.ofTokens "a" (ts ++ t :: rest)) = .ok e next ∧
      ∃ p : Phrase .assignment, (p.tokens = ts ∧ p.tree = e) ∧
        ∀ q : Phrase .assignment, q.tokens = ts → q = p := by
  obtain ⟨ts, t, rest, hscan, hvalues, hkind, hreply⟩ : ∃ ts t rest,
      Token.scan "a" "(x) = -2147483648 - 2 - y;" = .ok (ts ++ t :: rest) ∧
      ts.map Token.value = ["(", "x", ")", "=", "-", "2147483648", "-", "2", "-", "y"] ∧
      t.kind = .semicolon ∧
      (match standard.expr .lowest (.ofTokens "a" (ts ++ t :: rest)) with
        | .ok _ next => decide (next.tokens = Cursor.closed "a" (t :: rest))
        | _ => false) = true :=
    ⟨[_, _, _, _, _, _, _, _, _, _], _, [_], rfl, by decide +kernel, by decide +kernel,
      by decide +kernel⟩
  obtain ⟨e, next, hread, hnext⟩ :
      ∃ e next, standard.expr .lowest (.ofTokens "a" (ts ++ t :: rest)) = .ok e next ∧
        next.tokens = Cursor.closed "a" (t :: rest) := by
    cases hcase : standard.expr .lowest (.ofTokens "a" (ts ++ t :: rest)) with
    | ok e next =>
        rw [hcase] at hreply
        exact ⟨e, next, rfl, of_decide_eq_true hreply⟩
    | fail | endless =>
        rw [hcase] at hreply
        cases hreply
  have hassignment : t.kind ≠ .assignment := by
    rw [hkind]
    decide
  have hoperator : ∀ l : Level, t.kind ∉ l.operators := by
    rw [hkind]
    intro l
    cases l <;> decide
  have hts : ∀ u ∈ ts, u.Numeral :=
    fun u hu => Token.numeral_of_scan hscan u (List.mem_append_left _ hu)
  obtain ⟨hderived, hunique⟩ := @expr_iff_phrase "a" ts rest t hassignment hoperator hts
  obtain ⟨p, hp⟩ := (hderived e).mp ⟨next, hread, hnext⟩
  exact ⟨ts, t, rest, e, next, hscan, hvalues, hkind, hread, p, hp,
    fun q hq => hunique q p hq hp.1⟩

end ScalarLang
