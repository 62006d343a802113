import ScalarLang.Grammar.Program

/-!
# The grammar of expressions

Expressions are stratified by how tightly they hold together: an assignment, then six
levels of operators between operands, operators in front, and at last literals,
variables and expressions in parentheses (`Tier`). A phrase of a tier is a derivation by
the rules of the grammar (`Phrase`). It has the tokens that it derives and the tree that
is built for it, in which parentheses leave no trace.

The rule for a level is left recursive, so operators of a level associate to the left,
and the rule for assignments is right recursive.

The grammar is unambiguous. Which tokens of a phrase are operators between operands
outside of parentheses can be told by reading the tokens once, and noting at each token
whether an operand is due (`marks`). No phrase has one that holds less tightly than its
tier, so the last operator of a level splits the phrases of the level, and the first `=`
splits the assignments.

## Main results

* `Phrase.unique`: a phrase is determined by its tokens.
-/

namespace ScalarLang

/-! ## Tiers -/

/-- The operators of a level. -/
def Level.operators : Level → List TokenKind
  | logicOr => [.or]
  | logicAnd => [.and]
  | equality => [.equals, .notEquals]
  | comparison => [.less, .greater]
  | addition => [.plus, .dash, .dot]
  | multiplication => [.star, .slash, .percent]

/-- The sorts of phrases. -/
inductive Tier where
  | assignment
  | level (l : Level)
  /-- With operators in front. -/
  | prefixed
  | primary
deriving DecidableEq

namespace Tier

/-- The tier of the phrases that a tier is built from. -/
def next? : Tier → Option Tier
  | assignment => some (level .logicOr)
  | level .logicOr => some (level .logicAnd)
  | level .logicAnd => some (level .equality)
  | level .equality => some (level .comparison)
  | level .comparison => some (level .addition)
  | level .addition => some (level .multiplication)
  | level .multiplication => some prefixed
  | prefixed => some primary
  | primary => none

/-- How tightly the phrases of a tier hold together. -/
def rank : Tier → Nat
  | assignment => 1
  | level .logicOr => 2
  | level .logicAnd => 3
  | level .equality => 4
  | level .comparison => 5
  | level .addition => 6
  | level .multiplication => 7
  | prefixed => 8
  | primary => 9

theorem rank_next {tier next : Tier} (h : tier.next? = some next) :
    next.rank = tier.rank + 1 := by
  cases tier with
  | level l => cases l <;> cases h <;> rfl
  | assignment | prefixed | primary => cases h <;> rfl

end Tier

/-! ## Phrases -/

/-- The number that the digits of an integer literal denote. -/
def Token.number (t : Token) : Nat := Nat.ofDigitChars 10 t.value.toList 0

/-- Whether a token by itself is an expression: a variable, or a literal
that fits its type. -/
inductive Token.Denotes (t : Token) : Expr → Prop where
  | int (hkind : t.kind = .integer) (hfits : t.number ≤ 2147483647) :
      Denotes t (.int (.ofNat t.number) t.span)
  | float (hkind : t.kind = .floatLiteral) {x : Float}
      (hfits : Decimal.read? t.value.toList = some x) :
      Denotes t (.float x t.span)
  | isTrue (hkind : t.kind = .trueWord) : Denotes t (.bool true t.span)
  | isFalse (hkind : t.kind = .falseWord) : Denotes t (.bool false t.span)
  | string (hkind : t.kind = .string) : Denotes t (.string t.value t.span)
  | symbol (hkind : t.kind = .identifier) : Denotes t (.symbol t.value t.span)

/-- What can be assigned to: a variable, possibly in parentheses. -/
inductive Target where
  | single (t : Token) (hkind : t.kind = .identifier)
  | group (opening : Token) (hopening : opening.kind = .openParen) (inner : Target)
      (closing : Token)
      (hclosing : closing.kind = .closeParen)

/-- Derivations by the rules of the grammar. -/
inductive Phrase : Tier → Type where
  | assignment (target : Target) (sign : Token) (hsign : sign.kind = .assignment)
      (value : Phrase .assignment) :
      Phrase .assignment
  /-- A phrase that holds together more tightly than its place asks. -/
  | step {tier next : Tier} (hnext : tier.next? = some next)
      (inner : Phrase next) : Phrase tier
  | binary {l : Level} {next : Tier} (left : Phrase (.level l)) (operator : Token)
      (hoperator : operator.kind ∈ l.operators)
      (hnext : (Tier.level l).next? = some next) (right : Phrase next) :
      Phrase (.level l)
  | unary (operator : Token) (hoperator : operator.kind = .dash ∨ operator.kind = .not)
      (operand : Phrase .prefixed) : Phrase .prefixed
  | single (t : Token) (e : Expr) (hdenotes : t.Denotes e) : Phrase .primary
  /-- The least int, whose digits fit behind their sign only. -/
  | least (sign : Token) (hsign : sign.kind = .dash) (digits : Token)
      (hkind : digits.kind = .integer)
      (hnumber : digits.number = 2147483648) : Phrase .primary
  | group (opening : Token) (hopening : opening.kind = .openParen)
      (inner : Phrase .assignment) (closing : Token)
      (hclosing : closing.kind = .closeParen) : Phrase .primary

namespace Target

/-- The tokens of a target. -/
def tokens : Target → List Token
  | single t _ => [t]
  | group opening _ inner closing _ => opening :: (inner.tokens ++ [closing])

/-- The variable that is assigned to. -/
def ident : Target → Ident
  | single t _ => ⟨t.value, t.span⟩
  | group _ _ inner _ _ => inner.ident

end Target

namespace Phrase

/-- The tokens that a phrase derives. -/
def tokens {tier : Tier} : Phrase tier → List Token
  | assignment target sign _ value => target.tokens ++ sign :: value.tokens
  | step _ inner => inner.tokens
  | binary left operator _ _ right => left.tokens ++ operator :: right.tokens
  | unary operator _ operand => operator :: operand.tokens
  | single t _ _ => [t]
  | least sign _ digits _ _ => [sign, digits]
  | group opening _ inner closing _ => opening :: (inner.tokens ++ [closing])

/-- The tree that is built for a phrase. -/
def tree {tier : Tier} : Phrase tier → Expr
  | assignment target _ _ value =>
    .assignment target.ident value.tree ⟨target.ident.span.start, value.tree.span.stop⟩
  | step _ inner => inner.tree
  | @binary l _ left operator _ _ right =>
    .binary (.level l) operator left.tree right.tree ⟨left.tree.span.start,
      right.tree.span.stop⟩
  | unary operator _ operand =>
      .unary operator operand.tree ⟨operator.span.start, operand.tree.span.stop⟩
  | single _ e _ => e
  | least sign _ digits _ _ => .int Int32.minValue ⟨sign.span.start, digits.span.stop⟩
  | group _ _ inner _ _ => inner.tree

end Phrase

/-! ## Operators between operands -/

/-- How tightly an operator between operands holds, the sign of an
assignment among them. -/
def TokenKind.rank? : TokenKind → Option Nat
  | .assignment => some 1
  | .or => some 2
  | .and => some 3
  | .equals | .notEquals => some 4
  | .less | .greater => some 5
  | .plus | .dash | .dot => some 6
  | .star | .slash | .percent => some 7
  | _ => none

private theorem Level.rank?_eq {l : Level} {k : TokenKind} (h : k ∈ l.operators) :
    k.rank? = some (Tier.level l).rank := by
  cases l <;> simp only [operators, List.mem_cons, List.not_mem_nil, or_false] at h <;>
    rcases h with rfl | rfl | rfl <;> rfl

private theorem Level.ne_closeParen {l : Level} {k : TokenKind} (h : k ∈ l.operators) :
    k ≠ .closeParen := by
  intro heq
  have hrank := Level.rank?_eq h
  rw [heq] at hrank
  cases hrank

/-- The tokens that are operators between operands outside of all parentheses, each with
how tightly it holds. Tokens are read inside so many parentheses, and an operand is due
or has been read. -/
def marks : Nat → Bool → List Token → List (Option Nat)
  | _, _, [] => []
  | depth, true, t :: ts =>
    none :: match t.kind with
      | .openParen => marks (depth + 1) true ts
      | .dash | .not => marks depth true ts
      | _ => marks depth false ts
  | depth, false, t :: ts =>
    if t.kind = .closeParen then none :: marks (depth - 1) false ts
    else (if depth = 0 then t.kind.rank? else none) :: marks depth true ts

section

variable {t : Token} (depth : Nat) (ts : List Token)

private theorem marks_opening (h : t.kind = .openParen) :
    marks depth true (t :: ts) = none :: marks (depth + 1) true ts := by
  rw [marks, h]

private theorem marks_closing (h : t.kind = .closeParen) :
    marks depth false (t :: ts) = none :: marks (depth - 1) false ts := by
  rw [marks, if_pos h]

private theorem marks_front (h : t.kind = .dash ∨ t.kind = .not) :
    marks depth true (t :: ts) = none :: marks depth true ts := by
  cases h with
  | inl h => rw [marks, h]
  | inr h => rw [marks, h]

private theorem marks_operand (hparen : t.kind ≠ .openParen) (hdash : t.kind ≠ .dash)
    (hnot : t.kind ≠ .not) :
    marks depth true (t :: ts) = none :: marks depth false ts := by
  rw [marks]
  split <;> first | contradiction | rfl

private theorem marks_between (h : t.kind ≠ .closeParen) :
    marks depth false (t :: ts) = (if depth = 0 then t.kind.rank? else none) ::
      marks depth true ts := by
  rw [marks, if_neg h]

end

/-! ### Operands -/

/-- Whether reading tokens leads from where an operand is due to where it has been read,
with no operators in them outside of parentheses that hold less tightly than this. -/
def Passes (least : Nat) (ts : List Token) : Prop :=
  ∀ depth rest, ∃ ms, marks depth true (ts ++ rest) = ms ++ marks depth false rest ∧
    ms.length = ts.length ∧ ∀ r, some r ∈ ms → depth = 0 ∧ least ≤ r

namespace Passes

variable {least least' : Nat} {ts us : List Token} {t : Token}

private theorem mono (h : Passes least ts) (hle : least' ≤ least) :
    Passes least' ts := by
  intro depth rest
  obtain ⟨ms, heq, hlength, hms⟩ := h depth rest
  exact ⟨ms, heq, hlength, fun r hr => ⟨(hms r hr).1, Nat.le_trans hle (hms r hr).2⟩⟩

private theorem front (ht : t.kind = .dash ∨ t.kind = .not) (h : Passes least ts) :
    Passes least (t :: ts) := by
  intro depth rest
  obtain ⟨ms, heq, hlength, hms⟩ := h depth rest
  refine ⟨none :: ms, ?_, by rw [List.length_cons, List.length_cons, hlength], ?_⟩
  · rw [List.cons_append, marks_front _ _ ht, heq, List.cons_append]
  · intro r hr
    cases List.mem_cons.mp hr with
    | inl hfirst => cases hfirst
    | inr hrest => exact hms r hrest

private theorem between (hclose : t.kind ≠ .closeParen)
    (hrank : t.kind.rank? = some least) (h : Passes least ts) (h' : Passes least us) :
    Passes least (ts ++ t :: us) := by
  intro depth rest
  obtain ⟨ms, heq, hlength, hms⟩ := h depth (t :: (us ++ rest))
  obtain ⟨ms', heq', hlength', hms'⟩ := h' depth rest
  refine ⟨ms ++ (if depth = 0 then t.kind.rank? else none) :: ms', ?_, ?_, ?_⟩
  · rw [List.append_assoc, List.cons_append, heq, marks_between _ _ hclose, heq',
      List.append_assoc, List.cons_append]
  · rw [List.length_append, List.length_append, List.length_cons, List.length_cons,
      hlength, hlength']
  · intro r hr
    cases List.mem_append.mp hr with
    | inl hfront => exact hms r hfront
    | inr hback =>
        cases List.mem_cons.mp hback with
        | inl hsign =>
            by_cases hdepth : depth = 0
            · rw [if_pos hdepth, hrank] at hsign
              exact ⟨hdepth, Nat.le_of_eq (Option.some.inj hsign).symm⟩
            · rw [if_neg hdepth] at hsign
              cases hsign
        | inr hright => exact hms' r hright

private theorem group {opening closing : Token} (hopening : opening.kind = .openParen)
    (h : Passes least' ts) (hclosing : closing.kind = .closeParen) :
    Passes least (opening :: (ts ++ [closing])) := by
  intro depth rest
  obtain ⟨ms, heq, hlength, hms⟩ := h (depth + 1) (closing :: rest)
  refine ⟨none :: (ms ++ [none]), ?_, ?_, ?_⟩
  · rw [marks_closing _ _ hclosing, Nat.add_sub_cancel] at heq
    rw [List.cons_append, marks_opening _ _ hopening, List.append_assoc,
      List.singleton_append, heq, List.cons_append, List.append_assoc,
      List.singleton_append]
  · rw [List.length_cons, List.length_cons, List.length_append,
      List.length_append, hlength]
    rfl
  · intro r hr
    cases List.mem_cons.mp hr with
    | inl hfirst => cases hfirst
    | inr hrest =>
        cases List.mem_append.mp hrest with
        | inl hinner => cases (hms r hinner).1
        | inr hlast => cases List.mem_singleton.mp hlast

/-- A token that is neither an operator in front nor a parenthesis is an operand. -/
theorem single (hparen : t.kind ≠ .openParen) (hdash : t.kind ≠ .dash)
    (hnot : t.kind ≠ .not) :
    Passes least [t] := by
  intro depth rest
  refine ⟨[none], marks_operand _ _ hparen hdash hnot, rfl, ?_⟩
  intro r hr
  cases List.mem_singleton.mp hr

/-! ### Where operators split tokens -/

theorem not_mem (h : Passes least ts) {r : Nat} (hr : r < least) :
    some r ∉ marks 0 true ts := by
  obtain ⟨ms, heq, -, hms⟩ := h 0 []
  rw [List.append_nil] at heq
  intro hmem
  rw [heq, show marks 0 false [] = [] from rfl, List.append_nil] at hmem
  have hle := (hms r hmem).2
  omega

private theorem marks_eq {r : Nat} (h : Passes least ts) (hclose : t.kind ≠ .closeParen)
    (hrank : t.kind.rank? = some r) (us : List Token) :
    ∃ ms, marks 0 true (ts ++ t :: us) = ms ++ some r :: marks 0 true us ∧
      ms.length = ts.length ∧
      ∀ r', some r' ∈ ms → least ≤ r' := by
  obtain ⟨ms, heq, hlength, hms⟩ := h 0 (t :: us)
  refine ⟨ms, ?_, hlength, fun r' hr' => (hms r' hr').2⟩
  rw [heq, marks_between _ _ hclose, if_pos rfl, hrank]

private theorem mem_marks {r : Nat} (h : Passes least ts)
    (hclose : t.kind ≠ .closeParen) (hrank : t.kind.rank? = some r) (us : List Token) :
    some r ∈ marks 0 true (ts ++ t :: us) := by
  obtain ⟨ms, heq, -⟩ := h.marks_eq hclose hrank us
  rw [heq]
  exact List.mem_append_right ms List.mem_cons_self

end Passes

private theorem Token.Denotes.passes {t : Token} {e : Expr} (h : t.Denotes e)
    (least : Nat) : Passes least [t] := by
  have hkind : t.kind ≠ .openParen ∧ t.kind ≠ .dash ∧ t.kind ≠ .not := by
    cases h <;> simp_all
  exact Passes.single hkind.1 hkind.2.1 hkind.2.2

private theorem Target.passes (target : Target) (least : Nat) :
    Passes least target.tokens := by
  induction target with
  | single t hkind => apply Passes.single <;> rw [hkind] <;> exact TokenKind.noConfusion
  | group opening hopening inner closing hclosing ih =>
      exact .group hopening ih hclosing

/-- A phrase has no operators outside of parentheses that hold less
tightly than its tier. -/
theorem Phrase.passes {tier : Tier} (p : Phrase tier) : Passes tier.rank p.tokens := by
  induction p with
  | assignment target sign hsign value ih =>
      apply Passes.between
      · rw [hsign]
        exact TokenKind.noConfusion
      · rw [hsign]
        rfl
      · exact target.passes _
      · exact ih
  | step hnext inner ih =>
      have hrank := Tier.rank_next hnext
      exact ih.mono (by omega)
  | binary left operator hoperator hnext right ihleft ihright =>
      have hrank := Tier.rank_next hnext
      exact .between (Level.ne_closeParen hoperator) (Level.rank?_eq hoperator) ihleft
        (ihright.mono (by omega))
  | unary operator hoperator operand ih => exact ih.front hoperator
  | single t e hdenotes => exact hdenotes.passes _
  | least sign hsign digits hkind hnumber =>
      apply Passes.front (.inl hsign)
      apply Passes.single <;> rw [hkind] <;> exact TokenKind.noConfusion
  | group opening hopening inner closing hclosing ih =>
      exact .group hopening ih hclosing

/-! ## Phrases are determined by their tokens -/

section

variable {α : Type} {a : α} {x x' z z' : List α}

private theorem append_cons_inj_of_first (h : x ++ a :: z = x' ++ a :: z') (hx : a ∉ x)
    (hx' : a ∉ x') :
    x = x' ∧ z = z' := by
  cases List.append_eq_append_iff.mp h with
  | inl hlonger =>
      obtain ⟨as, has, hz⟩ := hlonger
      cases as with
      | nil =>
          rw [List.append_nil] at has
          exact ⟨has.symm, (List.cons.inj hz).2⟩
      | cons b bs =>
          have hb : a = b := (List.cons.inj hz).1
          rw [has, hb] at hx'
          exact absurd (List.mem_append_right x List.mem_cons_self) hx'
  | inr hshorter =>
      obtain ⟨as, has, hz⟩ := hshorter
      cases as with
      | nil =>
          rw [List.append_nil] at has
          exact ⟨has, (List.cons.inj hz).2.symm⟩
      | cons b bs =>
          have hb : a = b := (List.cons.inj hz).1
          rw [has, hb] at hx
          exact absurd (List.mem_append_right x' List.mem_cons_self) hx

private theorem append_cons_inj_of_last (h : x ++ a :: z = x' ++ a :: z') (hz : a ∉ z)
    (hz' : a ∉ z') :
    x = x' ∧ z = z' := by
  have hreverse : z.reverse ++ a :: x.reverse = z'.reverse ++ a :: x'.reverse := by
    have hall := congrArg List.reverse h
    simpa using hall
  obtain ⟨hback, hfront⟩ :=
    append_cons_inj_of_first hreverse (by rwa [List.mem_reverse])
      (by rwa [List.mem_reverse])
  exact ⟨List.reverse_inj.mp hfront, List.reverse_inj.mp hback⟩

end

theorem append_cons_inj_of_length {α : Type} {a a' : α} {x x' z z' : List α}
    (h : x ++ a :: z = x' ++ a' :: z') (hlength : x.length = x'.length) :
    x = x' ∧ a = a' ∧ z = z' := by
  obtain ⟨hfront, hback⟩ := List.append_inj h hlength
  exact ⟨hfront, List.cons.inj hback⟩

namespace Passes

variable {least r : Nat} {ts ts' us us' : List Token} {t t' : Token}

/-- Tokens are split by the first operator that holds this tightly. -/
theorem split_first (h : Passes (r + 1) ts) (h' : Passes (r + 1) ts')
    (hclose : t.kind ≠ .closeParen) (hclose' : t'.kind ≠ .closeParen)
    (hrank : t.kind.rank? = some r) (hrank' : t'.kind.rank? = some r)
    (heq : ts ++ t :: us = ts' ++ t' :: us') : ts = ts' ∧ t = t' ∧ us = us' := by
  obtain ⟨ms, hmarks, hlength, hms⟩ := h.marks_eq hclose hrank us
  obtain ⟨ms', hmarks', hlength', hms'⟩ := h'.marks_eq hclose' hrank' us'
  rw [heq, hmarks'] at hmarks
  have hfirst : some r ∉ ms := fun hmem => Nat.not_succ_le_self r (hms r hmem)
  have hfirst' : some r ∉ ms' := fun hmem => Nat.not_succ_le_self r (hms' r hmem)
  obtain ⟨hfront, -⟩ := append_cons_inj_of_first hmarks hfirst' hfirst
  apply append_cons_inj_of_length heq
  rw [← hlength, ← hlength', hfront]

/-- Tokens are split by the last operator that holds this tightly. -/
theorem split_last (h : Passes least ts) (h' : Passes least ts')
    (hclose : t.kind ≠ .closeParen) (hclose' : t'.kind ≠ .closeParen)
    (hrank : t.kind.rank? = some r) (hrank' : t'.kind.rank? = some r)
    (hus : Passes (r + 1) us) (hus' : Passes (r + 1) us')
    (heq : ts ++ t :: us = ts' ++ t' :: us') :
    ts = ts' ∧ t = t' ∧ us = us' := by
  obtain ⟨ms, hmarks, hlength, -⟩ := h.marks_eq hclose hrank us
  obtain ⟨ms', hmarks', hlength', -⟩ := h'.marks_eq hclose' hrank' us'
  rw [heq, hmarks'] at hmarks
  obtain ⟨hfront, -⟩ := append_cons_inj_of_last hmarks (hus'.not_mem r.lt_succ_self)
    (hus.not_mem r.lt_succ_self)
  apply append_cons_inj_of_length heq
  rw [← hlength, ← hlength', hfront]

end Passes

private theorem Token.Denotes.unique {t : Token} {e e' : Expr} (h : t.Denotes e)
    (h' : t.Denotes e') : e = e' := by
  cases h <;> cases h' <;> simp_all

theorem Token.Denotes.number_le {t : Token} {e : Expr} (h : t.Denotes e)
    (hkind : t.kind = .integer) :
    t.number ≤ 2147483647 := by
  cases h with
  | int _ hfits => exact hfits
  | float hkind' | isTrue hkind' | isFalse hkind' | string hkind' | symbol hkind' =>
      rw [hkind'] at hkind
      cases hkind

private theorem Target.unique {target target' : Target}
    (h : target.tokens = target'.tokens) : target = target' := by
  induction target generalizing target' with
  | single t hkind =>
      cases target' with
      | single t' hkind' =>
          cases List.singleton_inj.mp h
          rfl
      | group opening' hopening' inner' closing' hclosing' =>
          have hfirst : t = opening' := (List.cons.inj h).1
          rw [hfirst, hopening'] at hkind
          cases hkind
  | group opening hopening inner closing hclosing ih =>
      cases target' with
      | single t' hkind' =>
          have hfirst : opening = t' := (List.cons.inj h).1
          rw [hfirst, hkind'] at hopening
          cases hopening
      | group opening' hopening' inner' closing' hclosing' =>
          obtain ⟨hfirst, hrest⟩ := List.cons.inj h
          obtain ⟨hinner, hlast⟩ := List.append_inj' hrest rfl
          cases hfirst
          cases List.singleton_inj.mp hlast
          cases ih hinner
          rfl

namespace Phrase

theorem length_tokens_pos {tier : Tier} (p : Phrase tier) : 0 < p.tokens.length := by
  induction p with
  | assignment target sign hsign value ih =>
      rw [tokens, List.length_append, List.length_cons]
      omega
  | step hnext inner ih => exact ih
  | binary left operator hoperator hnext right ihleft ihright =>
      rw [tokens, List.length_append]
      omega
  | unary | single | least | group => exact Nat.succ_pos _

/-- A phrase of a single token is what the token denotes. -/
theorem denotes_of_tokens_eq {tier : Tier} (p : Phrase tier) {t : Token}
    (h : p.tokens = [t]) :
    t.Denotes p.tree := by
  have hlength : p.tokens.length = 1 := congrArg List.length h
  induction p with
  | assignment target sign hsign value ih =>
      have hvalue := value.length_tokens_pos
      have hends : target.tokens.length + (value.tokens.length + 1) = 1 := by
        rwa [tokens, List.length_append, List.length_cons] at hlength
      omega
  | step hnext inner ih => exact ih h hlength
  | binary left operator hoperator hnext right ihleft ihright =>
      have hleft := left.length_tokens_pos
      have hends : left.tokens.length + (right.tokens.length + 1) = 1 := by
        rwa [tokens, List.length_append, List.length_cons] at hlength
      omega
  | unary operator hoperator operand ih =>
      have hoperand := operand.length_tokens_pos
      have hends : operand.tokens.length + 1 = 1 := hlength
      omega
  | single t' e hdenotes =>
      cases List.singleton_inj.mp h
      exact hdenotes
  | least => cases hlength
  | group opening hopening inner closing hclosing ih =>
      have hinner : (inner.tokens ++ [closing]).length + 1 = 1 := hlength
      rw [List.length_append] at hinner
      cases hinner

/-- An assignment is no phrase of another tier. -/
theorem assignment_tokens_ne {target : Target} {sign : Token}
    (hsign : sign.kind = .assignment) (us : List Token) {tier : Tier}
    (htier : 1 < tier.rank) (p : Phrase tier) :
    target.tokens ++ sign :: us ≠ p.tokens := by
  intro heq
  have hclose : sign.kind ≠ .closeParen := by
    rw [hsign]
    exact TokenKind.noConfusion
  have hrank : sign.kind.rank? = some 1 := by
    rw [hsign]
    rfl
  have hmem := (target.passes 1).mem_marks hclose hrank us
  rw [heq] at hmem
  exact p.passes.not_mem htier hmem

/-- A phrase with an operator of a level is no phrase of a tier that holds
together more tightly. -/
theorem binary_tokens_ne {l : Level} (left : Phrase (.level l)) {operator : Token}
    (hoperator : operator.kind ∈ l.operators) (us : List Token) {tier : Tier}
    (htier : (Tier.level l).rank < tier.rank) (p : Phrase tier) :
    left.tokens ++ operator :: us ≠ p.tokens := by
  intro heq
  have hmem :=
    left.passes.mem_marks (Level.ne_closeParen hoperator) (Level.rank?_eq hoperator) us
  rw [heq] at hmem
  exact p.passes.not_mem htier hmem

/-- An assignment is split by its first sign. -/
theorem assignment_tokens_inj {target target' : Target} {sign sign' : Token}
    {us us' : List Token} (hsign : sign.kind = .assignment)
    (hsign' : sign'.kind = .assignment)
    (h : target.tokens ++ sign :: us = target'.tokens ++ sign' :: us') :
    target = target' ∧ sign = sign' ∧ us = us' := by
  have hkind : ∀ t : Token, t.kind = .assignment → t.kind ≠ .closeParen ∧
      t.kind.rank? = some 1 := by
    intro t ht
    rw [ht]
    exact ⟨TokenKind.noConfusion, rfl⟩
  obtain ⟨hclose, hrank⟩ := hkind sign hsign
  obtain ⟨hclose', hrank'⟩ := hkind sign' hsign'
  obtain ⟨htarget, hrest⟩ :=
    Passes.split_first (target.passes 2) (target'.passes 2) hclose hclose'
      hrank hrank' h
  exact ⟨Target.unique htarget, hrest⟩

/-- A phrase of a level is split by the last operator of the level. -/
theorem binary_tokens_inj {l : Level} {next : Tier} {left left' : Phrase (.level l)}
    {operator operator' : Token} {right right' : Phrase next}
    (hnext : (Tier.level l).next? = some next) (hoperator : operator.kind ∈ l.operators)
    (hoperator' : operator'.kind ∈ l.operators)
    (h : left.tokens ++ operator :: right.tokens = left'.tokens ++ operator' ::
      right'.tokens) :
    left.tokens = left'.tokens ∧ operator = operator' ∧
      right.tokens = right'.tokens := by
  have htight : ∀ p : Phrase next, Passes ((Tier.level l).rank + 1) p.tokens := by
    intro p
    rw [← Tier.rank_next hnext]
    exact p.passes
  exact Passes.split_last left.passes left'.passes (Level.ne_closeParen hoperator)
    (Level.ne_closeParen hoperator')
    (Level.rank?_eq hoperator) (Level.rank?_eq hoperator') (htight right)
      (htight right') h

/-- A phrase with an operator in front is none without one: least the int is, the digits
behind its sign are no literal. -/
theorem unary_tokens_ne {operator : Token}
    (hoperator : operator.kind = .dash ∨ operator.kind = .not)
    (operand : Phrase .prefixed) (p : Phrase .primary) :
    operator :: operand.tokens ≠ p.tokens := by
  intro heq
  cases p with
  | step hnext inner => cases hnext
  | single t e hdenotes =>
      have hfirst : operator = t := (List.cons.inj heq).1
      rw [hfirst] at hoperator
      cases hdenotes <;> simp_all
  | least sign hsign digits hkind hnumber =>
      have hdenotes := operand.denotes_of_tokens_eq (List.cons.inj heq).2
      have hfits := hdenotes.number_le hkind
      omega
  | group opening hopening inner closing hclosing =>
      have hfirst : operator = opening := (List.cons.inj heq).1
      rw [hfirst, hopening] at hoperator
      exact hoperator.elim TokenKind.noConfusion TokenKind.noConfusion

/-- A phrase is determined by its tokens. -/
theorem unique {tier : Tier} (p q : Phrase tier) (h : p.tokens = q.tokens) : p = q := by
  induction p with
  | assignment target sign hsign value ih =>
      cases q with
      | assignment target' sign' hsign' value' =>
          obtain ⟨htarget, hsame, hvalue⟩ := assignment_tokens_inj hsign hsign' h
          cases htarget
          cases hsame
          cases ih value' hvalue
          rfl
      | step hnext' inner' =>
          have hrank := Tier.rank_next hnext'
          exact absurd h (assignment_tokens_ne hsign _ (by rw [hrank]; decide) inner')
  | @step tier next hnext inner ih =>
      have hrank := Tier.rank_next hnext
      cases q with
      | assignment target' sign' hsign' value' =>
          exact absurd h.symm
            (assignment_tokens_ne hsign' _ (by rw [hrank]; decide) inner)
      | step hnext' inner' =>
          cases Option.some.inj (hnext.symm.trans hnext')
          cases ih inner' h
          rfl
      | binary left' operator' hoperator' hnext' right' =>
          exact absurd h.symm (binary_tokens_ne left' hoperator' _ (by omega) inner)
      | unary operator' hoperator' operand' =>
          cases hnext
          exact absurd h.symm (unary_tokens_ne hoperator' operand' inner)
      | single | least | group => cases hnext
  | @binary l next left operator hoperator hnext right ihleft ihright =>
      cases q with
      | step hnext' inner' =>
          have hrank' := Tier.rank_next hnext'
          exact absurd h (binary_tokens_ne left hoperator _ (by omega) inner')
      | binary left' operator' hoperator' hnext' right' =>
          cases Option.some.inj (hnext.symm.trans hnext')
          obtain ⟨hleft, hsame, hright⟩ :=
            binary_tokens_inj hnext hoperator hoperator' h
          cases ihleft left' hleft
          cases hsame
          cases ihright right' hright
          rfl
  | unary operator hoperator operand ih =>
      cases q with
      | step hnext' inner' =>
          cases hnext'
          exact absurd h (unary_tokens_ne hoperator operand inner')
      | unary operator' hoperator' operand' =>
          obtain ⟨hfirst, hrest⟩ := List.cons.inj h
          cases hfirst
          cases ih operand' hrest
          rfl
  | single t e hdenotes =>
      cases q with
      | step hnext' => cases hnext'
      | single t' e' hdenotes' =>
          cases List.singleton_inj.mp h
          cases hdenotes.unique hdenotes'
          rfl
      | least => cases congrArg List.length h
      | group opening' hopening' inner' closing' hclosing' =>
          exact absurd (congrArg List.length h) (by simp [tokens])
  | least sign hsign digits hkind hnumber =>
      cases q with
      | step hnext' => cases hnext'
      | single => cases congrArg List.length h
      | least sign' hsign' digits' hkind' hnumber' =>
          obtain ⟨hfirst, hrest⟩ := List.cons.inj h
          cases hfirst
          cases List.singleton_inj.mp hrest
          rfl
      | group opening' hopening' inner' closing' hclosing' =>
          have hfirst : sign = opening' := (List.cons.inj h).1
          rw [hfirst, hopening'] at hsign
          cases hsign
  | group opening hopening inner closing hclosing ih =>
      cases q with
      | step hnext' => cases hnext'
      | single t' e' hdenotes' =>
          exact absurd (congrArg List.length h) (by simp [tokens])
      | least sign' hsign' digits' hkind' hnumber' =>
          have hfirst : opening = sign' := (List.cons.inj h).1
          rw [hfirst, hsign'] at hopening
          cases hopening
      | group opening' hopening' inner' closing' hclosing' =>
          obtain ⟨hfirst, hrest⟩ := List.cons.inj h
          obtain ⟨hinner, hlast⟩ := List.append_inj' hrest rfl
          cases hfirst
          cases List.singleton_inj.mp hlast
          cases ih inner' hinner
          rfl

end Phrase

end ScalarLang
