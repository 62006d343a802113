import ScalarLang.Proofs.Extent
import ScalarLang.Proofs.Phrases
import ScalarLang.Proofs.Readability

/-!
# What is read derives from the grammar

Nothing in the parser mentions the tiers of the grammar. It has powers, and it reads on
behind an expression while the operators there hold more tightly than its context. Still
all it reads are phrases: in a context, phrases of the tier above it (`Tier.above`).

The invariant of the loop behind an expression is that what has been read so far is a
phrase of some tier, and that the operator that comes next holds no more tightly than
this tier lets follow (`Tier.behind`). An operator leaves operators of its own level
over to the loop, so that they take it as their left operand; an assignment leaves none.

A tree tells nothing of the parentheses in its tokens, so that what is kept along a
parser is which tokens it took (`Reply.Takes`).

## Main results

* `Rules.takes_within`: what is read derives from the grammar.
* `Token.numeral_of_scan`: integer literals in the tokens of a text are made of digits.
-/

namespace ScalarLang

open ScalarLang.Parser

/-! ## Literals -/

/-- Whether a token is made of digits if it is an integer literal. -/
def Token.Numeral (t : Token) : Prop :=
  t.kind = .integer → t.value.toList ≠ [] ∧ ∀ c ∈ t.value.toList, c.isDigit = true

namespace Token

variable {t : Token} {e : Expr}

private theorem readDigits?_number (h : t.Numeral) (hkind : t.kind = .integer) :
    Text.readDigits? t.value.toList = some t.number :=
  Text.readDigits?_eq_some (h hkind).1 (h hkind).2

private theorem exists_digit (h : t.Numeral) (hkind : t.kind = .integer) :
    ∃ c cs, t.value.toList = c :: cs ∧ c.isDigit = true := by
  obtain ⟨c, cs, hvalue⟩ := List.exists_cons_of_ne_nil (h hkind).1
  exact ⟨c, cs, hvalue, (h hkind).2 c (hvalue ▸ List.mem_cons_self)⟩

theorem intOf?_number (h : t.Numeral) (hkind : t.kind = .integer) :
    intOf? t.value = if t.number ≤ 2147483647 then some (.ofNat t.number)
      else none := by
  obtain ⟨c, cs, hvalue, hc⟩ := exists_digit h hkind
  have hread := readDigits?_number h hkind
  unfold intOf?
  rw [hvalue] at hread ⊢
  rw [Text.readInt32?_digit hc, hread]
  by_cases hfits : t.number ≤ 2147483647
  · rw [if_pos hfits, ← Int32.ofInt_eq_ofNat]
    simp [Option.filter, hfits]
  · rw [if_neg hfits]
    simp [Option.filter, hfits]

theorem oppositeOf?_number (h : t.Numeral) (hkind : t.kind = .integer) :
    oppositeOf? t.value = if t.number = 2147483648 then some Int32.minValue
      else none := by
  have hread := readDigits?_number h hkind
  unfold oppositeOf?
  rw [intOf?_number h hkind, Text.readInt32?_minus, hread]
  by_cases hfits : t.number ≤ 2147483647
  · have hne : t.number ≠ 2147483648 := by omega
    rw [if_pos hfits, if_neg hne]
    rfl
  · rw [if_neg hfits]
    by_cases heq : t.number = 2147483648
    · rw [if_pos heq, heq]
      rfl
    · have hgt : ¬ t.number ≤ 2147483648 := by omega
      rw [if_neg heq]
      simp [Option.filter, hgt]

/-- A token is read by itself as what it denotes. -/
theorem primaryOf_eq_ok_iff (h : t.Numeral) : primaryOf t = .ok e ↔ t.Denotes e := by
  constructor
  · intro hread
    unfold primaryOf at hread
    split at hread
    · next hkind =>
        rw [intOf?_number h hkind] at hread
        by_cases hfits : t.number ≤ 2147483647
        · rw [if_pos hfits] at hread
          cases hread
          exact .int hkind hfits
        · rw [if_neg hfits] at hread
          cases hread
    · next hkind =>
        split at hread <;> cases hread
        next hfits => exact .float hkind hfits
    · cases hread
      exact .isTrue ‹_›
    · cases hread
      exact .isFalse ‹_›
    · cases hread
      exact .symbol ‹_›
    · cases hread
      exact .string ‹_›
    · cases hread
  · intro hdenotes
    unfold primaryOf
    cases hdenotes with
    | int hkind hfits =>
        rw [hkind]
        dsimp only
        rw [intOf?_number h hkind, if_pos hfits]
    | float hkind hfits =>
        rw [hkind]
        dsimp only
        rw [hfits]
    | isTrue hkind | isFalse hkind | string hkind | symbol hkind => rw [hkind]

private theorem numeral_of_kind (h : t.kind ≠ .integer) : t.Numeral :=
  fun hkind => absurd hkind h

end Token

private theorem Piece.numeral_of_front {p : Position} {c : Char} {cs : List Char}
    {t : Token} (h : token? (p, front c cs) = some t) : t.Numeral := by
  unfold front at h
  split at h
  · cases h
    apply Token.numeral_of_kind
    unfold TokenKind.reserved?
    dsimp only
    split <;> exact TokenKind.noConfusion
  split at h
  · next hdigit =>
    unfold number at h
    dsimp only at h
    split at h
    · cases h
      intro _
      have hvalue : (value .integer (c :: cs.takeWhile Char.isDigit)).toList = c ::
          cs.takeWhile Char.isDigit :=
        String.toList_ofList
      dsimp only
      rw [hvalue]
      refine ⟨List.cons_ne_nil _ _, List.forall_mem_cons.mpr ⟨hdigit, ?_⟩⟩
      exact fun d hd => List.mem_takeWhile_imp hd
    · cases h
      exact Token.numeral_of_kind TokenKind.noConfusion
  split at h
  · cases h
  split at h
  · unfold quotedString at h
    split at h
    · cases h
      exact Token.numeral_of_kind TokenKind.noConfusion
    · cases h
  split at h
  · cases h
  · unfold fixed at h
    split at h <;> cases h <;> exact Token.numeral_of_kind TokenKind.noConfusion

/-- Integer literals in the tokens of a text are made of digits. -/
theorem Token.numeral_of_scan {file source : String} {tokens : List Token}
    (h : scan file source = .ok tokens) :
    ∀ t ∈ tokens, t.Numeral := by
  intro t ht
  cases eof_or_front_of_scan h ht with
  | inl heof =>
      obtain ⟨p, rfl⟩ := heof
      exact numeral_of_kind TokenKind.noConfusion
  | inr hfront =>
      obtain ⟨p, c, cs, htoken⟩ := hfront
      exact Piece.numeral_of_front htoken

/-! ## Powers and tiers -/

theorem Level.ofOperator?_eq_some_iff {k : TokenKind} {l : Level} :
    Level.ofOperator? k = some l ↔ k ∈ l.operators := by
  cases k <;> cases l <;> decide

theorem Level.rank_power (l : Level) : l.power.rank = (Tier.level l).rank := by
  cases l <;> rfl

namespace Tier

/-- The tier of what is read in a context. -/
def above : Power → Tier
  | .lowest => assignment
  | .assignment => level .logicOr
  | .logicalOr => level .logicAnd
  | .logicalAnd => level .equality
  | .equality => level .comparison
  | .relational => level .addition
  | .additive => level .multiplication
  | .multiplicative | .unary | .primary => prefixed

/-- How tightly an operator behind a phrase of a tier may hold. -/
def behind : Tier → Nat
  | assignment => 0
  | tier => tier.rank

theorem next?_level (l : Level) : (level l).next? = some (above l.power) := by
  cases l <;> rfl

private theorem rank_above_le (power : Power) :
    (above power).rank ≤ power.rank + 1 := by
  cases power <;> decide

private theorem behind_le_rank (tier : Tier) : tier.behind ≤ tier.rank := by
  cases tier with
  | assignment => exact Nat.zero_le _
  | level | prefixed | primary => exact Nat.le_refl _

theorem behind_le_next {tier next : Tier} (h : tier.next? = some next) :
    tier.behind ≤ next.behind := by
  cases tier with
  | assignment => exact Nat.zero_le _
  | level l => cases l <;> cases h <;> decide
  | prefixed | primary => cases h <;> decide

private theorem eq_of_rank_eq {tier tier' : Tier} (h : tier.rank = tier'.rank) :
    tier = tier' := by
  cases tier with
  | level l => cases tier' with
    | level l' => cases l <;> cases l' <;> first | rfl | cases h
    | assignment | prefixed | primary => cases l <;> cases h
  | assignment | prefixed | primary => cases tier' with
    | level l' => cases l' <;> cases h
    | assignment | prefixed | primary => first | rfl | cases h

private theorem rank_le_primary (tier : Tier) : tier.rank ≤ primary.rank := by
  cases tier with
  | level l => cases l <;> decide
  | assignment | prefixed | primary => decide

private theorem exists_next {tier : Tier} (h : tier.rank < primary.rank) :
    ∃ next, tier.next? = some next := by
  cases tier with
  | level l => exact ⟨_, next?_level l⟩
  | assignment | prefixed => exact ⟨_, rfl⟩
  | primary => exact absurd h (Nat.lt_irrefl _)

end Tier

/-- A phrase is one of every tier that holds together less tightly. -/
theorem Phrase.exists_lift {tier tier' : Tier} (p : Phrase tier')
    (h : tier.rank ≤ tier'.rank) :
    ∃ q : Phrase tier, q.tokens = p.tokens ∧ q.tree = p.tree := by
  induction hd : tier'.rank - tier.rank generalizing tier with
  | zero =>
      cases Tier.eq_of_rank_eq (Nat.le_antisymm h (Nat.sub_eq_zero_iff_le.mp hd))
      exact ⟨p, rfl, rfl⟩
  | succ d ih =>
      have hprimary := tier'.rank_le_primary
      have hbelow : tier.rank < Tier.primary.rank := by omega
      obtain ⟨next, hnext⟩ := Tier.exists_next hbelow
      have hrank := Tier.rank_next hnext
      have hle : next.rank ≤ tier'.rank := by omega
      obtain ⟨q, hq⟩ := ih hle (by omega)
      exact ⟨.step hnext q, hq⟩

/-! ## Cursors -/

/-- The tokens from a cursor on. -/
def Cursor.tokens (c : Cursor) : List Token := c.current :: c.ahead

namespace Cursor

variable {c : Cursor}

theorem Terminated.tokens_eq (h : c.Terminated) (hkind : c.current.kind ≠ .eof) :
    c.tokens = c.current :: c.advance.tokens := by
  have hlength := h.length_advance hkind
  unfold tokens
  unfold Cursor.advance at hlength ⊢
  cases hahead : c.ahead with
  | nil => simp [hahead] at hlength
  | cons t ts => rfl

theorem advance_of_tokens_eq {t : Token} {ts : List Token} (h : c.tokens = t :: ts)
    (hne : ts ≠ []) :
    c.current = t ∧ c.advance.tokens = ts := by
  obtain ⟨hcurrent, hahead⟩ := List.cons.inj h
  refine ⟨hcurrent, ?_⟩
  unfold Cursor.advance
  rw [hahead]
  cases ts with
  | nil => exact absurd rfl hne
  | cons u us => rfl

end Cursor

/-! ## What is read derives from the grammar -/

/-- Whether a reply, unless nothing was read, has a property with the tokens that were
taken and the one behind. -/
def Reply.Takes {α : Type} (c : Cursor) (P : List Token → α → Token → Prop) :
    Reply α → Prop
  | .ok a next =>
      next.Terminated ∧ ∃ ts, c.tokens = ts ++ next.tokens ∧ P ts a next.current
  | .fail _ _ | .endless => True

theorem Reply.Takes.imp {α : Type} {c : Cursor} {P Q : List Token → α → Token → Prop}
    {reply : Reply α} (hreply : reply.Takes c P) (h : ∀ ts a t, P ts a t → Q ts a t) :
    reply.Takes c Q := by
  cases reply with
  | ok a next =>
      obtain ⟨hnext, ts, hts, ha⟩ := hreply
      exact ⟨hnext, ts, hts, h ts a _ ha⟩
  | fail | endless => trivial

/-- What is read behind tokens takes them too. -/
theorem Reply.Takes.behind {α : Type} {c next : Cursor} {ts : List Token}
    {P : List Token → α → Token → Prop} {reply : Reply α}
    (h : reply.Takes next fun us a t => P (ts ++ us) a t)
    (hts : c.tokens = ts ++ next.tokens) :
    reply.Takes c P := by
  cases reply with
  | ok a next' =>
      obtain ⟨hnext', us, hus, ha⟩ := h
      exact ⟨hnext', ts ++ us, by rw [hts, hus, List.append_assoc], ha⟩
  | fail | endless => trivial

namespace Parser

variable {α β : Type} {c : Cursor} {P : List Token → α → Token → Prop}
  {Q : List Token → β → Token → Prop}

theorem takes_pure {a : α} (hc : c.Terminated) (ha : P [] a c.current) :
    ((pure a : Parser α) c).Takes c P :=
  ⟨hc, [], rfl, ha⟩

theorem takes_bind {p : Parser α} {g : α → Parser β} (hp : (p c).Takes c P)
    (hg : ∀ ts a next, next.Terminated → P ts a next.current →
      (g a next).Takes next fun us b t => Q (ts ++ us) b t) :
    ((p >>= g) c).Takes c Q := by
  show (Parser.bind p g c).Takes c Q
  unfold Parser.bind
  cases hreply : p c with
  | fail | endless => trivial
  | ok a next =>
      rw [hreply] at hp
      obtain ⟨hnext, ts, hts, ha⟩ := hp
      exact (hg ts a next hnext ha).behind hts

/-- The current token is taken, and what is read on has the property with it in
front. -/
theorem takes_advance {g : Token → Parser β} (hc : c.Terminated)
    (hkind : c.current.kind ≠ .eof)
    (hg : (g c.current c.advance).Takes c.advance fun us b t =>
      Q (c.current :: us) b t) :
    ((advance >>= g) c).Takes c Q := by
  have htokens : c.tokens = [c.current] ++ c.advance.tokens := hc.tokens_eq hkind
  exact hg.behind htokens

private theorem takes_expect {kind : TokenKind} {g : Token → Parser β}
    (hc : c.Terminated) (heof : kind ≠ .eof)
    (hg : c.current.kind = kind →
      (g c.current c.advance).Takes c.advance fun us b t => Q (c.current :: us) b t) :
    ((expect kind >>= g) c).Takes c Q := by
  show (((if c.current.kind = kind then advance else unexpected) >>= g) c).Takes c Q
  by_cases hkind : c.current.kind = kind
  · rw [if_pos hkind]
    exact takes_advance hc (fun h => heof (hkind.symm.trans h)) (hg hkind)
  · rw [if_neg hkind]
    trivial

end Parser

/-- Whether tokens derive from the grammar as a phrase of a tier with this tree. -/
def Tier.Derives (tier : Tier) (ts : List Token) (e : Expr) : Prop :=
  (∀ t ∈ ts, t.Numeral) → ∃ p : Phrase tier, p.tokens = ts ∧ p.tree = e

namespace Tier.Derives

variable {tier tier' : Tier} {ts us : List Token} {e e' : Expr}

private theorem lift (h : tier'.Derives ts e) (hle : tier.rank ≤ tier'.rank) :
    tier.Derives ts e := by
  intro hts
  obtain ⟨p, rfl, rfl⟩ := h hts
  exact p.exists_lift hle

private theorem single {t : Token} (h : primaryOf t = .ok e) :
    primary.Derives [t] e := by
  intro hts
  have hdenotes := (Token.primaryOf_eq_ok_iff (hts t List.mem_cons_self)).mp h
  exact ⟨.single t e hdenotes, rfl, rfl⟩

private theorem least {sign digits : Token} {n : Int32} (hsign : sign.kind = .dash)
    (hkind : digits.kind = .integer) (h : oppositeOf? digits.value = some n) :
    primary.Derives [sign, digits] (.int n ⟨sign.span.start, digits.span.stop⟩) := by
  intro hts
  rw [Token.oppositeOf?_number (hts digits (by simp)) hkind] at h
  by_cases hnumber : digits.number = 2147483648
  · rw [if_pos hnumber] at h
    cases h
    exact ⟨.least sign hsign digits hkind hnumber, rfl, rfl⟩
  · rw [if_neg hnumber] at h
    cases h

private theorem group {opening closing : Token} (hopening : opening.kind = .openParen)
    (h : assignment.Derives ts e) (hclosing : closing.kind = .closeParen) :
    primary.Derives (opening :: (ts ++ [closing])) e := by
  intro hts
  obtain ⟨p, rfl, rfl⟩ := h fun t ht => hts t (by simp [ht])
  exact ⟨.group opening hopening p closing hclosing, rfl, rfl⟩

private theorem unary {operator : Token}
    (hoperator : operator.kind = .dash ∨ operator.kind = .not)
    (h : prefixed.Derives ts e) :
    prefixed.Derives (operator :: ts)
      (.unary operator e ⟨operator.span.start, e.span.stop⟩) := by
  intro hts
  obtain ⟨p, rfl, rfl⟩ := h fun t ht => hts t (List.mem_cons_of_mem _ ht)
  exact ⟨.unary operator hoperator p, rfl, rfl⟩

private theorem binary {l : Level} {operator : Token} (h : tier.Derives ts e)
    (hle : (level l).rank ≤ tier.rank) (hoperator : operator.kind ∈ l.operators)
    (h' : (above l.power).Derives us e') :
    (level l).Derives (ts ++ operator :: us)
      (.binary (.level l) operator e e' ⟨e.span.start, e'.span.stop⟩) := by
  intro hts
  obtain ⟨p, rfl, rfl⟩ := h.lift hle fun t ht => hts t (List.mem_append_left _ ht)
  obtain ⟨q, rfl, rfl⟩ := h' fun t ht =>
    hts t (List.mem_append_right _ (List.mem_cons_of_mem _ ht))
  exact ⟨.binary p operator hoperator (next?_level l) q, rfl, rfl⟩

end Tier.Derives

/-- A phrase whose tree is a variable is a target. -/
theorem Phrase.exists_target {tier : Tier} (p : Phrase tier) {name : String}
    {span : Span} (h : p.tree = .symbol name span) :
    ∃ target : Target, target.tokens = p.tokens ∧ target.ident = ⟨name, span⟩ := by
  induction p with
  | assignment | binary | unary | least => cases h
  | step hnext inner ih => exact ih h
  | single t e hdenotes =>
      cases hdenotes with
      | symbol hkind =>
          cases h
          exact ⟨.single t hkind, rfl, rfl⟩
      | int | float | isTrue | isFalse | string => cases h
  | group opening hopening inner closing hclosing ih =>
      obtain ⟨target, htokens, hident⟩ := ih h
      exact ⟨.group opening hopening target closing hclosing,
        by rw [Target.tokens, htokens]; rfl, hident⟩

private theorem Tier.Derives.assignment {tier : Tier} {ts us : List Token}
    {name : String} {span : Span} {sign : Token} {value : Expr}
    (h : tier.Derives ts (.symbol name span)) (hsign : sign.kind = .assignment)
    (hvalue : Tier.assignment.Derives us value) :
    Tier.assignment.Derives (ts ++ sign :: us)
      (.assignment ⟨name, span⟩ value ⟨span.start, value.span.stop⟩) := by
  intro hts
  obtain ⟨p, rfl, htree⟩ := h fun t ht => hts t (List.mem_append_left _ ht)
  obtain ⟨q, rfl, rfl⟩ := hvalue fun t ht =>
    hts t (List.mem_append_right _ (List.mem_cons_of_mem _ ht))
  obtain ⟨target, htokens, hident⟩ := p.exists_target htree
  refine ⟨.assignment target sign hsign q, ?_, ?_⟩
  · rw [Phrase.tokens, htokens]
  · rw [Phrase.tree, hident]

section

variable {expr : ExprParser} {c : Cursor}

/-- What is read in a context derives from the tier above it, and no operator is left
behind it that holds more tightly. -/
def ExprParser.Sound (expr : ExprParser) : Prop :=
  ∀ power c, c.Terminated → (expr power c).Takes c fun ts e t =>
    t.kind.joinRank ≤ power.rank ∧ (Tier.above power).Derives ts e

private theorem takes_readPrimary (hc : c.Terminated) (hkind : c.current.kind ≠ .eof) :
    (readPrimary c).Takes c fun ts e _ => Tier.prefixed.Derives ts e := by
  rw [readPrimary, current_bind]
  cases he : primaryOf c.current with
  | error cause => trivial
  | ok e =>
      apply takes_advance hc hkind
      exact takes_pure hc.advance ((Tier.Derives.single he).lift (by decide))

variable (hexpr : expr.Sound)

include hexpr

private theorem takes_readOperator (hc : c.Terminated)
    (hkind : c.current.kind = .dash ∨ c.current.kind = .not) :
    (readOperator expr c).Takes c fun ts e _ => Tier.prefixed.Derives ts e := by
  have heof : c.current.kind ≠ .eof := by
    intro heq
    rw [heq] at hkind
    exact hkind.elim TokenKind.noConfusion TokenKind.noConfusion
  rw [readOperator]
  apply takes_advance hc heof
  rw [current_bind]
  cases hfolded : (if c.current.kind = .dash ∧ c.advance.current.kind = .integer
      then oppositeOf? c.advance.current.value else .none) with
  | some n =>
      by_cases hkinds : c.current.kind = .dash ∧ c.advance.current.kind = .integer
      · rw [if_pos hkinds] at hfolded
        apply takes_advance hc.advance (by rw [hkinds.2]; exact TokenKind.noConfusion)
        exact takes_pure hc.advance.advance
          ((Tier.Derives.least hkinds.1 hkinds.2 hfolded).lift (by decide))
      · rw [if_neg hkinds] at hfolded
        cases hfolded
  | none =>
      apply takes_bind (hexpr .unary _ hc.advance)
      intro ts operand next hnext hoperand
      apply takes_pure hnext
      rw [List.append_nil]
      exact hoperand.2.unary hkind

private theorem takes_readGrouping (hc : c.Terminated)
    (hkind : c.current.kind = .openParen) :
    (readGrouping expr c).Takes c fun ts e _ => Tier.prefixed.Derives ts e := by
  rw [readGrouping]
  apply takes_advance hc (by rw [hkind]; exact TokenKind.noConfusion)
  apply takes_bind (hexpr .lowest _ hc.advance)
  intro ts inner next hnext hinner
  apply takes_expect hnext TokenKind.noConfusion
  intro hclosing
  exact takes_pure hnext.advance ((hinner.2.group hkind hclosing).lift (by decide))

private theorem takes_readBinary {l : Level} (left : Expr) (hc : c.Terminated)
    (hkind : c.current.kind ∈ l.operators) :
    (readBinary expr left l.power c).Takes c fun us e t =>
      t.kind.joinRank ≤ (Tier.level l).behind ∧
      ∀ (tier : Tier) ts, tier.Derives ts left → (Tier.level l).rank ≤ tier.rank →
        (Tier.level l).Derives (ts ++ us) e := by
  have hlevel : Level.ofOperator? c.current.kind = some l :=
    Level.ofOperator?_eq_some_iff.mpr hkind
  have heof : c.current.kind ≠ .eof := by
    intro heq
    rw [heq] at hlevel
    cases hlevel
  rw [readBinary]
  apply takes_advance hc heof
  rw [hlevel]
  apply takes_bind (hexpr l.power _ hc.advance)
  intro us right next hnext hright
  apply takes_pure hnext
  have hbehind : next.current.kind.joinRank ≤ (Tier.level l).rank := by
    rw [← l.rank_power]
    exact hright.1
  refine ⟨hbehind, ?_⟩
  intro tier ts hleft hle
  rw [List.append_nil]
  exact hleft.binary hle hkind hright.2

private theorem takes_readAssignment (left : Expr) (hc : c.Terminated)
    (hkind : c.current.kind = .assignment) :
    (readAssignment expr left c).Takes c fun us e t =>
      t.kind.joinRank ≤ Tier.assignment.behind ∧
      ∀ (tier : Tier) ts, tier.Derives ts left →
        Tier.assignment.Derives (ts ++ us) e := by
  rw [readAssignment]
  apply takes_advance hc (by rw [hkind]; exact TokenKind.noConfusion)
  cases left with
  | symbol name span =>
      apply takes_bind (hexpr .lowest _ hc.advance)
      intro us value next hnext hvalue
      apply takes_pure hnext
      refine ⟨hvalue.1, ?_⟩
      intro tier ts hleft
      rw [List.append_nil]
      exact hleft.assignment hkind hvalue.2
  | _ => trivial

end

/-! ### The loop behind an expression -/

namespace Rules

/-- The rules for tokens that join what stands on both sides of them. -/
theorem of_find?_joins {k : TokenKind} {rule : JoinRule} {own : Power}
    (h : standard.joins.find? k = some (rule, own)) :
    (∃ l : Level, k ∈ l.operators ∧ rule = .binary ∧ own = l.power) ∨
      k = .assignment ∧ rule = .assignment ∧ own = .assignment := by
  cases hlevel : Level.ofOperator? k with
  | some l =>
      rw [Level.find?_joins hlevel] at h
      cases h
      exact .inl ⟨l, Level.ofOperator?_eq_some_iff.mp hlevel, rfl, rfl⟩
  | none =>
      revert h hlevel
      cases k <;> intro h hlevel <;> first
        | cases hlevel
          done
        | cases h
          done
        | cases h
          exact .inr ⟨rfl, rfl, rfl⟩

private theorem joinRank_of_find? {k : TokenKind} {rule : JoinRule} {own : Power}
    (h : standard.joins.find? k = some (rule, own)) : k.joinRank = own.rank := by
  unfold TokenKind.joinRank
  rw [h]

private theorem ne_eof_of_find?_starts {k : TokenKind} {rule : StartRule}
    (h : standard.starts.find? k = some rule) :
    k ≠ .eof := by
  intro heq
  rw [heq] at h
  cases h

private theorem openParen_of_find? {k : TokenKind}
    (h : standard.starts.find? k = some .grouping) : k = .openParen := by
  revert h
  cases k <;> decide

/-- One pass of the loop: what an operator makes of the phrase read so far is a phrase
of a tier above the context, and the next operator holds no more tightly than this
tier lets follow. -/
theorem takes_join {expr : ExprParser} (hexpr : expr.Sound) {rule : JoinRule}
    {own power : Power} (left : Expr) {c : Cursor} (hc : c.Terminated)
    (hfind : standard.joins.find? c.current.kind = some (rule, own))
    (hpower : power.rank < own.rank) :
    (rule.parse expr left own c).Takes c fun us e t =>
      ∃ tier' : Tier, (Tier.above power).rank ≤ tier'.rank ∧
      t.kind.joinRank ≤ tier'.behind ∧ ∀ (tier : Tier) ts, tier.Derives ts left →
        c.current.kind.joinRank ≤ tier.behind → tier'.Derives (ts ++ us) e := by
  have habove := Tier.rank_above_le power
  have hjoin := joinRank_of_find? hfind
  cases of_find?_joins hfind with
  | inl hbinary =>
      obtain ⟨l, hkind, rfl, rfl⟩ := hbinary
      rw [l.rank_power] at hjoin hpower
      apply (takes_readBinary hexpr left hc hkind).imp
      intro us e t ⟨hbehind, hderives⟩
      refine ⟨.level l, by omega, hbehind, ?_⟩
      intro tier ts hleft hle
      have hrank := tier.behind_le_rank
      exact hderives tier ts hleft (by omega)
  | inr hassignment =>
      obtain ⟨hkind, rfl, rfl⟩ := hassignment
      have hown : Power.assignment.rank = Tier.assignment.rank := rfl
      apply (takes_readAssignment hexpr left hc hkind).imp
      intro us e t ⟨hbehind, hderives⟩
      refine ⟨.assignment, by omega, hbehind, ?_⟩
      intro tier ts hleft _
      exact hderives tier ts hleft

/-- What the loop behind an expression makes of it: the next operator holds no more
tightly than the context, and if the expression is a phrase that the operator in front
of the loop may follow, it goes on to a phrase. -/
def Continues (power : Power) (left : Expr) (start : TokenKind) (us : List Token)
    (e : Expr) (t : Token) : Prop :=
  t.kind.joinRank ≤ power.rank ∧ ∀ (tier : Tier) ts, tier.Derives ts left →
    (Tier.above power).rank ≤ tier.rank → start.joinRank ≤ tier.behind →
    (Tier.above power).Derives (ts ++ us) e

/-- An expression starts with a phrase in front of all operators between operands. -/
theorem takes_start {expr : ExprParser} (hexpr : expr.Sound) {rule : StartRule}
    {c : Cursor} (hc : c.Terminated)
    (hfind : standard.starts.find? c.current.kind = some rule) :
    (rule.parse expr c).Takes c fun ts e _ => Tier.prefixed.Derives ts e := by
  cases rule with
  | primary => exact takes_readPrimary hc (ne_eof_of_find?_starts hfind)
  | operator => exact takes_readOperator hexpr hc (kind_of_find?_operator hfind)
  | grouping => exact takes_readGrouping hexpr hc (openParen_of_find? hfind)

/-- Where the loop stops, the phrase is one of a tier that the context takes. -/
theorem takes_stop {power : Power} (left : Expr) {c : Cursor} (hc : c.Terminated)
    (hends : c.current.kind.joinRank ≤ power.rank) :
    ((pure left : Parser Expr) c).Takes c (Continues power left c.current.kind) := by
  apply takes_pure hc
  refine ⟨hends, ?_⟩
  intro tier ts hleft hle _
  rw [List.append_nil]
  exact hleft.lift hle

/-- Along a chain of any length what is read derives from the grammar, and so does what
is read behind a phrase that does, if the operator behind the phrase may follow it. -/
theorem takes_within (n : Nat) :
    ExprParser.Sound (standard.exprWithin n) ∧
      ∀ power left c, c.Terminated →
        (standard.operatorsWithin n power left c).Takes c
          (Continues power left c.current.kind) := by
  induction n with
  | zero =>
      constructor
      · intro power c hc
        rw [exprWithin]
        trivial
      · intro power left c hc
        rw [operatorsWithin]
        trivial
  | succ n ih =>
      obtain ⟨hexpr, hoperators⟩ := ih
      constructor
      · intro power c hc
        rw [exprWithin]
        dsimp only
        rw [current_bind]
        cases hrule : standard.starts.find? c.current.kind with
        | none => trivial
        | some rule =>
            apply takes_bind (takes_start hexpr hc hrule)
            intro ts left next hnext hleft
            apply (hoperators power left next hnext).imp
            intro us e t hrest
            have hjoins := next.current.kind.joinRank_lt_unary
            refine ⟨hrest.1, hrest.2 .prefixed ts hleft ?_ (Nat.le_of_lt hjoins)⟩
            cases power <;> decide
      · intro power left c hc
        rw [operatorsWithin]
        dsimp only
        rw [current_bind]
        cases hfind : standard.joins.find? c.current.kind with
        | none =>
            apply takes_stop left hc
            unfold TokenKind.joinRank
            rw [hfind]
            exact Nat.zero_le _
        | some join =>
            obtain ⟨rule, own⟩ := join
            dsimp only
            by_cases hown : own.rank ≤ power.rank
            · rw [if_pos hown]
              apply takes_stop left hc
              rwa [joinRank_of_find? hfind]
            · rw [if_neg hown]
              apply takes_bind (takes_join hexpr left hc hfind (Nat.not_le.mp hown))
              intro us joined next hnext hjoin
              obtain ⟨tier', habove, hbehind, hjoined⟩ := hjoin
              apply (hoperators power joined next hnext).imp
              intro vs e t hrest
              refine ⟨hrest.1, ?_⟩
              intro tier ts hleft _ hfollows
              rw [← List.append_assoc]
              exact hrest.2 tier' (ts ++ us) (hjoined tier ts hleft hfollows)
                habove hbehind

end Rules

end ScalarLang
