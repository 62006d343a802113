import ScalarLang.Proofs.Progress

/-!
# What readers do not look at

Where two lists of tokens are the same up to a cut, a reader makes the same of them,
as long as it does not come to the cut. Two runs on them are followed side by side
(`Parser.Alike`), which are given chains of any two lengths. A reader that has come
to the cut in the first run is followed in that run only: all that counts is that it
does not come back.

An expression looks at the token behind it, and so it has come to the cut as soon as it
ends there. A statement can end right in front of the cut: all that it looks for there
is an `else`, and there is none at a cut (`Cut`).

## Main results

* `Rules.alike_stmtWithin`: two runs on the same tokens up to a cut read the same
  statement in front of it.
* `Rules.stmtWithin_congr_ok`: how long the chain is does not count.
-/

namespace ScalarLang

open ScalarLang.Parser

/-! ## Two runs side by side -/

/-- Whether two lists of tokens can stand behind a cut. -/
structure Cut (back back' : List Token) : Prop where
  ne_nil : back ≠ []
  ne_nil' : back' ≠ []
  head : ∀ t ∈ back.head?, t.kind ≠ .elseWord
  head' : ∀ t ∈ back'.head?, t.kind ≠ .elseWord

theorem Token.head_of_eof {last : Token} (hlast : last.kind = .eof) :
    ∀ t ∈ [last].head?, t.kind ≠ .elseWord := by
  intro t ht
  cases ht
  rw [hlast]
  exact TokenKind.noConfusion

/-- Whether two cursors stand at the same place in front of a cut, or at it, and
remember the same place where this matters. -/
structure Cursor.Beside (back back' : List Token) (same : Prop) (c c' : Cursor) :
    Prop where
  tokens : ∃ front, c.tokens = front ++ back ∧ c'.tokens = front ++ back'
  previousEnd : same → c'.previousEnd = c.previousEnd

/-- Whether two replies are the same, except that the first run may have come to the
cut: behind it where something was read, or to it if `edge` is one. -/
inductive Reply.Agrees {α : Type} (back back' : List Token) (same : Prop) (edge : Nat) :
    Reply α → Reply α → Prop
  | ok {a : α} {next next' : Cursor} (h : next.Beside back back' same next') :
      Agrees back back' same edge (.ok a next) (.ok a next')
  | okBeyond {a : α} {next : Cursor} {reply : Reply α}
      (h : next.tokens.length < back.length + edge) :
      Agrees back back' same edge (.ok a next) reply
  | fail {d : Diagnostic} {stop stop' : Cursor}
      (h : stop.Beside back back' False stop') :
      Agrees back back' same edge (.fail d stop) (.fail d stop')
  | failBeyond {d : Diagnostic} {stop : Cursor} {reply : Reply α}
      (h : stop.tokens.length ≤ back.length) :
      Agrees back back' same edge (.fail d stop) reply
  | endless {reply : Reply α} : Agrees back back' same edge .endless reply
  | endless' {reply : Reply α} : Agrees back back' same edge reply .endless

/-- Whether a reply leaves no more tokens ahead than there were, and this many less
where something was read. -/
def Reply.Shrinks {α : Type} (c : Cursor) (least : Nat) : Reply α → Prop
  | .ok _ next => next.Terminated ∧ next.tokens.length + least ≤ c.tokens.length
  | .fail _ stop => stop.Terminated ∧ stop.tokens.length ≤ c.tokens.length
  | .endless => True

/-- Whether two readers do the same up to a cut, from cursors that remember the same
place if `same` holds, to such cursors if `same'` does. -/
structure Parser.Alike {α : Type} (back back' : List Token) (same same' : Prop)
    (edge least : Nat) (p p' : Parser α) : Prop where
  shrinks : ∀ c : Cursor, c.Terminated → (p c).Shrinks c least
  agrees : ∀ c c' : Cursor, c.Terminated → c.Beside back back' same c' →
  (p c).Agrees back back' same' edge (p' c')

section

variable {back back' : List Token} {same same' middle : Prop} {c c' : Cursor}

namespace Cursor

theorem Beside.imp (h : c.Beside back back' same c') (hsame : same' → same) :
    c.Beside back back' same' c' :=
  ⟨h.tokens, fun hs => h.previousEnd (hsame hs)⟩

theorem eq_of_tokens_eq (h : c'.tokens = c.tokens)
    (hend : c'.previousEnd = c.previousEnd) : c' = c := by
  obtain ⟨hcurrent, hahead⟩ := List.cons.inj h
  cases c
  cases c'
  cases hcurrent
  cases hahead
  cases hend
  rfl

/-- Cursors stand at the cut, or on the same token. -/
theorem Beside.cases (h : c.Beside back back' same c') :
    (c.tokens = back ∧ c'.tokens = back') ∨
      (c'.current = c.current ∧ ∃ front, c.ahead = front ++ back ∧
        c'.ahead = front ++ back') := by
  obtain ⟨front, htokens, htokens'⟩ := h.tokens
  cases front with
  | nil => exact .inl ⟨htokens, htokens'⟩
  | cons t front =>
      obtain ⟨hcurrent, hahead⟩ := List.cons.inj htokens
      obtain ⟨hcurrent', hahead'⟩ := List.cons.inj htokens'
      exact .inr ⟨hcurrent'.trans hcurrent.symm, front, hahead, hahead'⟩

private theorem advance_of_ne (hne : c.ahead ≠ []) :
    c.advance.tokens = c.ahead ∧ c.advance.previousEnd = c.current.span.stop := by
  unfold Cursor.advance tokens
  cases hahead : c.ahead with
  | nil => exact absurd hahead hne
  | cons t ts => exact ⟨rfl, rfl⟩

/-- Both runs take the token in front of the cut. -/
theorem beside_advance (hcut : Cut back back') {front : List Token}
    (hcurrent : c'.current = c.current) (hahead : c.ahead = front ++ back)
    (hahead' : c'.ahead = front ++ back') :
    c.advance.Beside back back' same c'.advance := by
  have hne : c.ahead ≠ [] := by
    rw [hahead]
    exact List.append_ne_nil_of_right_ne_nil _ hcut.ne_nil
  have hne' : c'.ahead ≠ [] := by
    rw [hahead']
    exact List.append_ne_nil_of_right_ne_nil _ hcut.ne_nil'
  obtain ⟨htokens, hend⟩ := advance_of_ne hne
  obtain ⟨htokens', hend'⟩ := advance_of_ne hne'
  refine ⟨⟨front, htokens.trans hahead, htokens'.trans hahead'⟩, fun _ => ?_⟩
  rw [hend, hend', hcurrent]

end Cursor

namespace Parser

variable {α β : Type} {p p' : Parser α} {g g' : α → Parser β}
  {edge edge' least least' : Nat}

private theorem shrinks_bind (hp : (p c).Shrinks c least)
    (hg : ∀ a next, next.Terminated → (g a next).Shrinks next least') :
    ((p >>= g) c).Shrinks c (least + least') := by
  show (Parser.bind p g c).Shrinks c _
  unfold Parser.bind
  cases hreply : p c with
  | ok a next =>
      rw [hreply] at hp
      obtain ⟨hnext, hle⟩ := hp
      have hsecond := hg a next hnext
      dsimp only
      cases hreply' : g a next with
      | ok b last =>
          rw [hreply'] at hsecond
          obtain ⟨hlast, hle'⟩ := hsecond
          exact ⟨hlast, by omega⟩
      | fail d stop =>
          rw [hreply'] at hsecond
          obtain ⟨hstop, hle'⟩ := hsecond
          exact ⟨hstop, by omega⟩
      | endless => trivial
  | fail d stop =>
      rw [hreply] at hp
      exact hp
  | endless => trivial

/-- What has come to the cut does not come back. -/
theorem agrees_of_shrinks {reply reply' : Reply α} (h : reply.Shrinks c least)
    (hbeyond : c.tokens.length < back.length + edge + least)
    (hcut : c.tokens.length ≤ back.length) :
    reply.Agrees back back' same edge reply' := by
  cases reply with
  | ok a next => exact .okBeyond (by have := h.2; omega)
  | fail d stop => exact .failBeyond (Nat.le_trans h.2 hcut)
  | endless => exact .endless

namespace Alike

theorem mono (h : Alike back back' same same' edge least p p') (hedge : edge ≤ edge')
    (hleast : least' ≤ least) :
    Alike back back' same same' edge' least' p p' := by
  constructor
  · intro c hc
    have hreply := h.shrinks c hc
    cases hp : p c with
    | ok a next =>
        rw [hp] at hreply
        exact ⟨hreply.1, Nat.le_trans (Nat.add_le_add_left hleast _) hreply.2⟩
    | fail d stop =>
        rw [hp] at hreply
        exact hreply
    | endless => trivial
  · intro c c' hc hbeside
    have hagrees := h.agrees c c' hc hbeside
    generalize p c = reply at hagrees ⊢
    generalize p' c' = reply' at hagrees ⊢
    cases hagrees with
    | ok h => exact .ok h
    | okBeyond h => exact .okBeyond (Nat.lt_of_lt_of_le h (Nat.add_le_add_left hedge _))
    | fail h => exact .fail h
    | failBeyond h => exact .failBeyond h
    | endless => exact .endless
    | endless' => exact .endless'

/-- A reader in two steps. What the second one takes makes up for the first one having
come to the cut. -/
theorem bind (hp : Alike back back' same middle edge least p p')
    (hg : ∀ a, Alike back back' middle same' edge' least' (g a) (g' a))
    (hedge : edge ≤ edge' + least') (hone : edge ≤ 1) :
    Alike back back' same same' edge' (least + least') (p >>= g) (p' >>= g') := by
  constructor
  · exact fun c hc => shrinks_bind (hp.shrinks c hc) fun a next hnext =>
      (hg a).shrinks next hnext
  · intro c c' hc hbeside
    show (Parser.bind p g c).Agrees back back' same' edge' (Parser.bind p' g' c')
    unfold Parser.bind
    have hfirst := hp.shrinks c hc
    have hagrees := hp.agrees c c' hc hbeside
    generalize p c = reply at hfirst hagrees
    generalize p' c' = reply' at hagrees
    cases hagrees with
    | ok h => exact (hg _).agrees _ _ hfirst.1 h
    | okBeyond h =>
        exact agrees_of_shrinks ((hg _).shrinks _ hfirst.1) (by omega) (by omega)
    | fail h => exact .fail h
    | failBeyond h => exact .failBeyond h
    | endless => exact .endless
    | endless' =>
        cases reply with
        | ok a next =>
            dsimp only
            exact .endless'
        | fail | endless => exact .endless'

theorem pure (a : α) : Alike back back' same same edge 0 (Pure.pure a) (Pure.pure a) :=
  ⟨fun _ hc => ⟨hc, Nat.le_refl _⟩, fun _ _ _ hbeside => .ok hbeside⟩

theorem fail (cause : Cause) (position : Position) :
    Alike back back' same same' edge least (Parser.fail cause position : Parser α)
      (Parser.fail cause position) :=
  ⟨fun _ hc => ⟨hc, Nat.le_refl _⟩, fun _ _ _ hbeside => .fail (hbeside.imp False.elim)⟩

theorem previousEnd (hsame : same) :
    Alike back back' same same edge 0 previousEnd previousEnd := by
  refine ⟨fun _ hc => ⟨hc, Nat.le_refl _⟩, fun c c' _ hbeside => ?_⟩
  show Reply.Agrees back back' same edge (.ok c.previousEnd c) (.ok c'.previousEnd c')
  rw [hbeside.previousEnd hsame]
  exact .ok hbeside

theorem advance (hcut : Cut back back') :
    Alike back back' same True 1 0 advance advance := by
  constructor
  · refine fun c hc => ⟨hc.advance, ?_⟩
    exact Nat.succ_le_succ c.length_advance_le
  · intro c c' _ hbeside
    show Reply.Agrees back back' True 1 (.ok c.current c.advance)
      (.ok c'.current c'.advance)
    rcases hbeside.cases with ⟨htokens, -⟩ | ⟨hcurrent, front, hahead, hahead'⟩
    · apply Reply.Agrees.okBeyond
      rw [← htokens]
      exact Nat.lt_succ_of_le (Nat.succ_le_succ c.length_advance_le)
    · rw [hcurrent]
      exact .ok (Cursor.beside_advance hcut hcurrent hahead hahead')

/-- The current token may be at the cut. If it is not, both runs go on with the same
one, and it is known what kind of token it is. -/
theorem current_bind {g g' : Token → Parser α} (hedge : 1 ≤ edge + least)
    (h : ∀ t, ∃ q q', Alike back back' same same' edge least q q' ∧ (∀ c : Cursor,
      c.current = t → g t c = q c) ∧ ∀ c : Cursor, c.current = t → g' t c = q' c) :
    Alike back back' same same' edge least (current >>= g) (current >>= g') := by
  have hshrinks (c : Cursor) (hc : c.Terminated) :
      ((current >>= g) c).Shrinks c least := by
    obtain ⟨q, q', halike, hq, -⟩ := h c.current
    rw [Parser.current_bind, hq c rfl]
    exact halike.shrinks c hc
  refine ⟨hshrinks, fun c c' hc hbeside => ?_⟩
  rcases hbeside.cases with ⟨htokens, -⟩ | ⟨hcurrent, -⟩
  · have hlength := congrArg List.length htokens
    exact agrees_of_shrinks (hshrinks c hc) (by omega) (by omega)
  · obtain ⟨q, q', halike, hq, hq'⟩ := h c.current
    rw [Parser.current_bind, Parser.current_bind, hcurrent, hq c rfl, hq' c' hcurrent]
    exact halike.agrees c c' hc hbeside

private theorem current_bind_of_forall {g g' : Token → Parser α}
    (hedge : 1 ≤ edge + least)
    (h : ∀ t, Alike back back' same same' edge least (g t) (g' t)) :
    Alike back back' same same' edge least (current >>= g) (current >>= g') :=
  current_bind hedge fun t => ⟨g t, g' t, h t, fun _ _ => rfl, fun _ _ => rfl⟩

/-- A complaint about the current token. -/
theorem complaint {p : Parser α} {d : Token → Diagnostic}
    (hp : ∀ c, p c = .fail (d c.current) c) :
    Alike back back' same same' edge least p p := by
  constructor
  · intro c hc
    rw [hp]
    exact ⟨hc, Nat.le_refl _⟩
  · intro c c' _ hbeside
    rw [hp, hp]
    rcases hbeside.cases with ⟨htokens, -⟩ | ⟨hcurrent, -⟩
    · exact .failBeyond (Nat.le_of_eq (congrArg List.length htokens))
    · rw [hcurrent]
      exact .fail (hbeside.imp False.elim)

private theorem unexpected :
    Alike back back' same same' edge least (unexpected : Parser α) unexpected :=
  complaint (d := fun t => ⟨.unexpectedToken t.value, t.span.start⟩) fun _ => rfl

private theorem unexpectedFor (message : String) :
    Alike back back' same same' edge least (unexpectedFor message : Parser α)
      (unexpectedFor message) :=
  complaint (d := fun t => ⟨.unexpectedTokenDetailed t.value message, t.span.start⟩)
    fun _ => rfl

/-- A token of a kind is taken, or there is a complaint about another one. -/
theorem ofKind (hcut : Cut back back') {kind : TokenKind} (hkind : kind ≠ .eof)
    {p : Parser Token} {d : Token → Diagnostic}
    (hp : ∀ c, p c = if c.current.kind = kind then .ok c.current c.advance
      else .fail (d c.current) c) :
    Alike back back' same True 0 1 p p := by
  have hshrinks (c : Cursor) (hc : c.Terminated) : (p c).Shrinks c 1 := by
    rw [hp]
    by_cases heq : c.current.kind = kind
    · have hlength := hc.length_advance (heq ▸ hkind)
      rw [if_pos heq]
      exact ⟨hc.advance, Nat.succ_le_succ (Nat.le_of_eq hlength)⟩
    · rw [if_neg heq]
      exact ⟨hc, Nat.le_refl _⟩
  refine ⟨hshrinks, fun c c' hc hbeside => ?_⟩
  rcases hbeside.cases with ⟨htokens, -⟩ | ⟨hcurrent, front, hahead, hahead'⟩
  · have hlength := congrArg List.length htokens
    exact agrees_of_shrinks (hshrinks c hc) (by omega) (by omega)
  · rw [hp, hp, hcurrent]
    by_cases heq : c.current.kind = kind
    · rw [if_pos heq, if_pos heq]
      exact .ok (Cursor.beside_advance hcut hcurrent hahead hahead')
    · rw [if_neg heq, if_neg heq]
      exact .fail (hbeside.imp False.elim)

theorem expect (hcut : Cut back back') {kind : TokenKind} (hkind : kind ≠ .eof) :
    Alike back back' same True 0 1 (expect kind) (expect kind) := by
  refine ofKind hcut hkind (d := fun t => ⟨.unexpectedToken t.value, t.span.start⟩)
    fun c => ?_
  show (if c.current.kind = kind then Parser.advance else Parser.unexpected) c = _
  split <;> rfl

theorem expectFor (hcut : Cut back back') {kind : TokenKind} {message : String}
    (hkind : kind ≠ .eof) :
    Alike back back' same True 0 1 (expectFor kind message)
      (expectFor kind message) := by
  refine ofKind hcut hkind
    (d := fun t => ⟨.unexpectedTokenDetailed t.value message, t.span.start⟩) fun c => ?_
  show (if c.current.kind = kind then Parser.advance
    else Parser.unexpectedFor message) c = _
  split <;> rfl

/-- A reader beside one that never replies. -/
theorem endless (h : Alike back back' same same' edge least p p') :
    Alike back back' same same' edge least p Parser.endless :=
  ⟨h.shrinks, fun _ _ _ _ => .endless'⟩

theorem endless_left (p' : Parser α) :
    Alike back back' same same' edge least Parser.endless p' :=
  ⟨fun _ _ => trivial, fun _ _ _ _ => .endless⟩

/-! ### Steps -/

/-- A step of an expression. -/
theorem step (hp : Alike back back' same middle 1 0 p p')
    (hg : ∀ a, Alike back back' middle same' 1 0 (g a) (g' a)) :
    Alike back back' same same' 1 0 (p >>= g) (p' >>= g') :=
  hp.bind hg (Nat.le_refl 1) (Nat.le_refl 1)

/-- A step of a statement that takes a token later on. -/
theorem stepUpTo (hp : Alike back back' same middle 1 0 p p')
    (hg : ∀ a, Alike back back' middle same' 0 1 (g a) (g' a)) :
    Alike back back' same same' 0 1 (p >>= g) (p' >>= g') :=
  hp.bind hg (Nat.le_refl 1) (Nat.le_refl 1)

/-- A step of a statement that takes a token itself. -/
theorem stepFrom (hp : Alike back back' same middle 0 1 p p')
    (hg : ∀ a, Alike back back' middle same' 0 0 (g a) (g' a)) :
    Alike back back' same same' 0 1 (p >>= g) (p' >>= g') :=
  hp.bind hg (Nat.le_refl 0) (Nat.zero_le 1)

/-- A reader that takes a token may be any step. -/
theorem loosen (h : Alike back back' same same' 0 1 p p') :
    Alike back back' same same' 1 0 p p' :=
  h.mono (Nat.zero_le 1) (Nat.zero_le 1)

/-! ### Repetition -/

private theorem commaSeparated (hcut : Cut back back') {item item' : Parser α}
    (hitem : ∀ same, Alike back back' same True 1 0 item item') :
    Alike back back' same True 1 0 (commaSeparated item) (commaSeparated item') := by
  have hloop (n : Nat) : ∀ n' same,
      Alike back back' same True 1 0 (commaLoop item n) (commaLoop item' n') := by
    induction n with
    | zero => exact fun _ _ => endless_left _
    | succ n ih =>
        have hsucc (n' : Nat) (same : Prop) :
            Alike back back' same True 1 0 (commaLoop item (n + 1))
              (commaLoop item' (n' + 1)) := by
          refine (hitem same).step fun first =>
            current_bind_of_forall (Nat.le_refl 1) fun token => ?_
          by_cases hcomma : token.kind = .comma
          · rw [if_pos hcomma, if_pos hcomma]
            exact (advance hcut).step fun _ => (ih n' True).step fun rest => pure _
          · rw [if_neg hcomma, if_neg hcomma]
            exact pure _
        intro n' same
        cases n' with
        | zero => exact (hsucc n same).endless
        | succ n' => exact hsucc n' same
  exact ⟨fun c hc => (hloop _ 0 same).shrinks c hc,
    fun c c' hc hbeside => (hloop _ _ same).agrees c c' hc hbeside⟩

private theorem untilClosed {item item' : Parser α}
    (hitem : Alike back back' True True 0 1 item item') :
    Alike back back' True True 1 0 (untilClosed item) (untilClosed item') := by
  have hloop (n : Nat) : ∀ n',
      Alike back back' True True 1 0 (bodyLoop item n) (bodyLoop item' n') := by
    induction n with
    | zero => exact fun _ => endless_left _
    | succ n ih =>
        have hsucc (n' : Nat) : Alike back back' True True 1 0 (bodyLoop item (n + 1))
            (bodyLoop item' (n' + 1)) := by
          refine current_bind_of_forall (Nat.le_refl 1) fun token => ?_
          by_cases hclosed : token.kind = .eof ∨ token.kind = .closeCurly
          · rw [if_pos hclosed, if_pos hclosed]
            exact pure _
          · rw [if_neg hclosed, if_neg hclosed]
            exact hitem.loosen.step fun first => (ih n').step fun rest => pure _
        intro n'
        cases n' with
        | zero => exact (hsucc n).endless
        | succ n' => exact hsucc n'
  exact ⟨fun c hc => (hloop _ 0).shrinks c hc,
    fun c c' hc hbeside => (hloop _ _).agrees c c' hc hbeside⟩

end Alike

end Parser

/-! ## Expressions -/

variable {expr expr' : ExprParser} {stmt stmt' : Parser Stmt}

section

variable (hcut : Cut back back')
  (hexpr : ∀ power same, Alike back back' same True 1 0 (expr power) (expr' power))

include hcut

private theorem alike_readPrimary :
    Alike back back' same True 1 0 readPrimary readPrimary := by
  refine .current_bind_of_forall (Nat.le_refl 1) fun token => ?_
  cases primaryOf token with
  | ok e => exact (Alike.advance hcut).step fun _ => .pure _
  | error cause => exact .fail _ _

include hexpr

private theorem StartRule.alike_parse (rule : StartRule) :
    Alike back back' same True 1 0 (rule.parse expr) (rule.parse expr') := by
  cases rule with
  | primary => exact alike_readPrimary hcut
  | operator =>
      refine (Alike.advance hcut).step fun operator =>
        .current_bind_of_forall (Nat.le_refl 1) fun token => ?_
      dsimp only
      split
      · exact (Alike.advance hcut).step fun _ => .pure _
      · exact (hexpr .unary True).step fun operand => .pure _
  | grouping =>
      refine (Alike.advance hcut).step fun _ =>
        (hexpr .lowest True).step fun inner => ?_
      exact (Alike.expect hcut TokenKind.noConfusion).loosen.step fun _ => .pure _

private theorem JoinRule.alike_parse (rule : JoinRule) (left : Expr) (power : Power) :
    Alike back back' same True 1 0 (rule.parse expr left power)
      (rule.parse expr' left power) := by
  cases rule with
  | binary =>
      refine (Alike.advance hcut).step fun operator => ?_
      cases Level.ofOperator? operator.kind with
      | none => exact .fail _ _
      | some level => exact (hexpr power True).step fun right => .pure _
  | assignment =>
      refine (Alike.advance hcut).step fun operator => ?_
      cases left with
      | symbol name span => exact (hexpr .lowest True).step fun value => .pure _
      | _ => exact .fail _ _

end

namespace Rules

variable (r : Rules)

private theorem alike_within (hcut : Cut back back') (n : Nat) :
    ∀ n', (∀ power same,
      Alike back back' same True 1 0 (r.exprWithin n power) (r.exprWithin n' power)) ∧
      ∀ power left,
        Alike back back' True True 1 0 (r.operatorsWithin n power left)
          (r.operatorsWithin n' power left) := by
  induction n with
  | zero =>
      intro n'
      constructor
      · intro power same
        rw [exprWithin]
        exact .endless_left _
      · intro power left
        rw [operatorsWithin]
        exact .endless_left _
  | succ n ih =>
      have hexpr (n' : Nat) (power : Power) (same : Prop) :
          Alike back back' same True 1 0 (r.exprWithin (n + 1) power)
            (r.exprWithin (n' + 1) power) := by
        obtain ⟨hexpr, hoperators⟩ := ih n'
        rw [exprWithin, exprWithin]
        refine .current_bind_of_forall (Nat.le_refl 1) fun token => ?_
        cases r.starts.find? token.kind with
        | none => exact .unexpected
        | some rule =>
            exact (rule.alike_parse hcut hexpr).step fun left => hoperators power left
      have hoperators (n' : Nat) (power : Power) (left : Expr) :
          Alike back back' True True 1 0 (r.operatorsWithin (n + 1) power left)
            (r.operatorsWithin (n' + 1) power left) := by
        obtain ⟨hexpr, hoperators⟩ := ih n'
        rw [operatorsWithin, operatorsWithin]
        refine .current_bind_of_forall (Nat.le_refl 1) fun token => ?_
        cases r.joins.find? token.kind with
        | none => exact .pure _
        | some found =>
            obtain ⟨rule, own⟩ := found
            dsimp only
            by_cases hpower : own.rank ≤ power.rank
            · rw [if_pos hpower, if_pos hpower]
              exact .pure _
            · rw [if_neg hpower, if_neg hpower]
              exact (rule.alike_parse hcut hexpr left own).step fun joined =>
                hoperators power joined
      intro n'
      cases n' with
      | zero =>
          constructor
          · intro power same
            rw [exprWithin.eq_1]
            exact (hexpr n power same).endless
          · intro power left
            rw [operatorsWithin.eq_1]
            exact (hoperators n power left).endless
      | succ n' => exact ⟨hexpr n', hoperators n'⟩

end Rules

/-! ## Statements -/

/-- Where a semicolon is taken as a statement, it might as well be asked for. -/
theorem readEmpty_eq (h : c.current.kind = .semicolon) :
    readEmpty c =
      (do let token ← expect .semicolon; return Stmt.block [] token.span) c := by
  rw [bind_of_eq_ok (expect_eq_ok h)]
  rfl

section

variable (hcut : Cut back back')

include hcut

private theorem alike_readIdent : Alike back back' same True 1 0 readIdent readIdent :=
  (Alike.expectFor hcut TokenKind.noConfusion).loosen.step fun _ => .pure _

/-- Behind the semicolon, a statement only remembers where that ended. -/
theorem alike_semicolon {f : Position → Stmt} :
    Alike back back' same True 0 1
      (do let _ ← expect .semicolon; return f (← previousEnd))
      (do let _ ← expect .semicolon; return f (← previousEnd)) :=
  (Alike.expect hcut TokenKind.noConfusion).stepFrom fun _ =>
    (Alike.previousEnd trivial).bind (fun _ => .pure _) (Nat.le_refl 0) (Nat.zero_le 1)

private theorem alike_readDeclaration :
    Alike back back' same True 0 1 readDeclaration readDeclaration := by
  refine (Alike.advance hcut).stepUpTo fun word => ?_
  cases word.kind.ty? with
  | none => exact .unexpectedFor _
  | some t =>
      exact (Alike.commaSeparated hcut fun _ => alike_readIdent hcut).stepUpTo
        fun idents => alike_semicolon hcut

private theorem alike_readRead : Alike back back' same True 0 1 readRead readRead :=
  (Alike.advance hcut).stepUpTo fun _ =>
    (Alike.commaSeparated hcut fun _ => alike_readIdent hcut).stepUpTo fun _ =>
      alike_semicolon hcut

section

variable
  (hexpr : ∀ power same, Alike back back' same True 1 0 (expr power) (expr' power))

include hexpr

private theorem alike_readEffect :
    Alike back back' same True 0 1 (readEffect expr) (readEffect expr') :=
  (hexpr .lowest same).stepUpTo fun _ => alike_semicolon hcut

private theorem alike_readWrite :
    Alike back back' same True 0 1 (readWrite expr) (readWrite expr') :=
  (Alike.advance hcut).stepUpTo fun _ =>
    (Alike.commaSeparated hcut (hexpr .lowest)).stepUpTo fun _ => alike_semicolon hcut

private theorem alike_readCondition :
    Alike back back' same True 1 0 (readCondition expr) (readCondition expr') := by
  refine (Alike.expect hcut TokenKind.noConfusion).loosen.step fun _ =>
    (hexpr .lowest True).step fun condition => ?_
  exact (Alike.expect hcut TokenKind.noConfusion).loosen.step fun _ => .pure _

end

private theorem alike_readType? :
    Alike back back' True True 1 0 readType? readType? := by
  refine .current_bind_of_forall (Nat.le_refl 1) fun token => ?_
  cases token.kind.ty? with
  | none => exact .pure _
  | some t => exact (Alike.advance hcut).step fun _ => .pure _

variable
  (hexpr : ∀ power same, Alike back back' same True 1 0 (expr power) (expr' power))
  (hstmt : ∀ same, Alike back back' same True 0 1 stmt stmt')

omit hcut in
/-- Behind its last statement, a statement only remembers where that ended. -/
theorem alike_remember {f : Position → Stmt} :
    Alike back back' True True 0 0 (do return f (← previousEnd))
      (do return f (← previousEnd)) :=
  (Alike.previousEnd trivial).bind (fun _ => .pure _) (Nat.le_refl 0) (Nat.zero_le 1)

section

include hstmt

private theorem alike_readBlock :
    Alike back back' same True 0 1 (readBlock stmt) (readBlock stmt') := by
  refine (Alike.expect hcut TokenKind.noConfusion).loosen.stepUpTo fun brace => ?_
  refine (Alike.untilClosed (hstmt True)).stepUpTo fun body => ?_
  exact (Alike.expectFor hcut TokenKind.noConfusion).stepFrom fun _ => alike_remember

/-- There is no `else` at the cut. -/
theorem alike_readAlternate :
    Alike back back' True True 0 0 (readAlternate stmt) (readAlternate stmt') := by
  have helse : Alike back back' True True 0 1 (do let _ ← advance; return some (← stmt))
      (do let _ ← advance; return some (← stmt')) :=
    (Alike.advance hcut).stepUpTo fun _ => (hstmt True).stepFrom fun _ => .pure _
  have hshrinks (c : Cursor) (hc : c.Terminated) :
      (readAlternate stmt c).Shrinks c 0 := by
    rw [readAlternate, Parser.current_bind]
    by_cases hkind : c.current.kind = .elseWord
    · rw [if_pos hkind]
      exact (helse.mono (Nat.zero_le 0) (Nat.zero_le 1)).shrinks c hc
    · rw [if_neg hkind]
      exact ⟨hc, Nat.le_refl _⟩
  refine ⟨hshrinks, fun c c' hc hbeside => ?_⟩
  rw [readAlternate, readAlternate, Parser.current_bind, Parser.current_bind]
  rcases hbeside.cases with ⟨htokens, htokens'⟩ | ⟨hcurrent, -⟩
  · have hkind : c.current.kind ≠ .elseWord :=
      hcut.head c.current (by rw [← htokens]; rfl)
    have hkind' : c'.current.kind ≠ .elseWord :=
      hcut.head' c'.current (by rw [← htokens']; rfl)
    rw [if_neg hkind, if_neg hkind']
    exact .ok hbeside
  · rw [hcurrent]
    by_cases hkind : c.current.kind = .elseWord
    · rw [if_pos hkind, if_pos hkind]
      exact (helse.mono (Nat.zero_le 0) (Nat.zero_le 1)).agrees c c' hc hbeside
    · rw [if_neg hkind, if_neg hkind]
      exact .ok hbeside

end

include hexpr hstmt

private theorem alike_readBranch :
    Alike back back' same True 0 1 (readBranch expr stmt) (readBranch expr' stmt') := by
  refine (Alike.advance hcut).stepUpTo fun word =>
    (alike_readCondition hcut hexpr).stepUpTo fun condition => ?_
  refine (hstmt True).stepFrom fun consequent => ?_
  exact (alike_readAlternate hcut hstmt).bind (fun alternate => alike_remember)
    (Nat.le_refl 0) (Nat.zero_le 1)

private theorem alike_readWhile :
    Alike back back' same True 0 1 (readWhile expr stmt) (readWhile expr' stmt') := by
  refine (Alike.advance hcut).stepUpTo fun word =>
    (alike_readCondition hcut hexpr).stepUpTo fun condition => ?_
  exact (hstmt True).stepFrom fun body => alike_remember

private theorem alike_readFor :
    Alike back back' same True 0 1 (readFor expr stmt) (readFor expr' stmt') := by
  have hexpect {kind : TokenKind} (hkind : kind ≠ .eof) :
      Alike back back' True True 1 0 (expect kind) (expect kind) :=
    (Alike.expect hcut hkind).loosen
  refine (Alike.advance hcut).stepUpTo fun word =>
    (hexpect TokenKind.noConfusion).stepUpTo fun _ => ?_
  refine (alike_readType? hcut).stepUpTo fun declared => ?_
  refine .current_bind_of_forall (Nat.le_refl 1) fun first =>
    (hexpr .lowest True).stepUpTo fun init => ?_
  cases inductionOf declared init with
  | error cause => exact .fail _ _
  | ok induction =>
      refine (hexpect TokenKind.noConfusion).stepUpTo fun _ =>
        (hexpr .lowest True).stepUpTo fun condition => ?_
      refine (hexpect TokenKind.noConfusion).stepUpTo fun _ =>
        (hexpr .lowest True).stepUpTo fun step => ?_
      refine (hexpect TokenKind.noConfusion).stepUpTo fun _ => ?_
      exact (hstmt True).stepFrom fun body => alike_remember

end

namespace Rules

/-- Two runs on the same tokens up to a cut, with chains of any two lengths. -/
theorem alike_stmtWithin (hcut : Cut back back') (n : Nat) :
    ∀ n' same, Alike back back' same True 0 1 (standard.stmtWithin n)
      (standard.stmtWithin n') := by
  induction n with
  | zero => exact fun _ _ => .endless_left _
  | succ n ih =>
      have hsucc (n' : Nat) (same : Prop) :
          Alike back back' same True 0 1 (standard.stmtWithin (n + 1))
            (standard.stmtWithin (n' + 1)) := by
        have hexpr := (standard.alike_within hcut n n').1
        refine .current_bind (Nat.le_refl 1) fun token => ?_
        cases hfind : standard.stmts.find? token.kind with
        | none =>
            exact ⟨_, _, alike_readEffect hcut hexpr, fun _ _ => rfl, fun _ _ => rfl⟩
        | some rule =>
            have hstarts := starts_of_find?_stmts hfind
            cases rule with
            | any => exact hstarts.elim
            | declaration =>
                exact ⟨_, _, alike_readDeclaration hcut, fun _ _ => rfl, fun _ _ => rfl⟩
            | read => exact ⟨_, _, alike_readRead hcut, fun _ _ => rfl, fun _ _ => rfl⟩
            | write =>
                exact ⟨_, _, alike_readWrite hcut hexpr, fun _ _ => rfl, fun _ _ => rfl⟩
            | block =>
                exact ⟨_, _, alike_readBlock hcut (ih n'), fun _ _ => rfl,
                  fun _ _ => rfl⟩
            | empty =>
                have hempty : Alike back back' same True 0 1
                    (do
                      let token ← expect .semicolon
                      return Stmt.block [] token.span)
                    (do
                      let token ← expect .semicolon
                      return Stmt.block [] token.span) :=
                  (Alike.expect hcut TokenKind.noConfusion).stepFrom fun _ => .pure _
                have heq (c : Cursor) (hc : c.current = token) :=
                  readEmpty_eq (c := c) (hc ▸ hstarts)
                exact ⟨_, _, hempty, heq, heq⟩
            | branch =>
                exact ⟨_, _, alike_readBranch hcut hexpr (ih n'), fun _ _ => rfl,
                  fun _ _ => rfl⟩
            | whileLoop =>
                exact ⟨_, _, alike_readWhile hcut hexpr (ih n'), fun _ _ => rfl,
                  fun _ _ => rfl⟩
            | forLoop =>
                exact ⟨_, _, alike_readFor hcut hexpr (ih n'), fun _ _ => rfl,
                  fun _ _ => rfl⟩
      intro n' same
      cases n' with
      | zero => exact (hsucc n same).endless
      | succ n' => exact hsucc n' same

/-- A statement that is read and ends in front of the cut, or at it, is the
same in both runs. -/
theorem exists_stmtWithin_eq_ok (hcut : Cut back back') (hc : c.Terminated)
    (hc' : c'.Terminated) (hbeside : c.Beside back back' same c') {n n' : Nat}
    (hn' : c'.ahead.length + 1 < n') {s : Stmt} {next : Cursor}
    (h : standard.stmtWithin n c = .ok s next)
    (hle : back.length ≤ next.tokens.length) :
    ∃ next', standard.stmtWithin n' c' = .ok s next' ∧
      next.Beside back back' True next' := by
  have hagrees := (alike_stmtWithin hcut n n' same).agrees c c' hc hbeside
  have hstates := states_stmtWithin n' c' hc' hn'
  rw [h] at hagrees
  cases hreply : standard.stmtWithin n' c' with
  | ok s' next' =>
      rw [hreply] at hagrees
      cases hagrees with
      | ok h => exact ⟨next', rfl, h⟩
      | okBeyond h => exact absurd hle (Nat.not_le_of_lt h)
  | fail d stop =>
      rw [hreply] at hagrees
      cases hagrees with
      | okBeyond h => exact absurd hle (Nat.not_le_of_lt h)
  | endless =>
      rw [hreply] at hstates
      exact hstates.elim

/-- So is one that is given up in front of the cut. -/
theorem exists_stmtWithin_eq_fail (hcut : Cut back back') (hc : c.Terminated)
    (hc' : c'.Terminated) (hbeside : c.Beside back back' same c') {n n' : Nat}
    (hn' : c'.ahead.length + 1 < n') {d : Diagnostic} {stop : Cursor}
    (h : standard.stmtWithin n c = .fail d stop)
    (hlt : back.length < stop.tokens.length) :
    ∃ stop', standard.stmtWithin n' c' = .fail d stop' ∧
      stop.Beside back back' False stop' := by
  have hagrees := (alike_stmtWithin hcut n n' same).agrees c c' hc hbeside
  have hstates := states_stmtWithin n' c' hc' hn'
  rw [h] at hagrees
  cases hreply : standard.stmtWithin n' c' with
  | ok s next =>
      rw [hreply] at hagrees
      cases hagrees with
      | failBeyond h => exact absurd hlt (Nat.not_lt_of_le h)
  | fail d' stop' =>
      rw [hreply] at hagrees
      cases hagrees with
      | fail h => exact ⟨stop', rfl, h⟩
      | failBeyond h => exact absurd hlt (Nat.not_lt_of_le h)
  | endless =>
      rw [hreply] at hstates
      exact hstates.elim

/-! ### Chains of different lengths -/

private theorem exists_cut (hc : c.Terminated) :
    ∃ last, Cut [last] [last] ∧ c.Beside [last] [last] True c := by
  obtain ⟨front, last, htokens⟩ :=
    List.eq_nil_or_concat c.tokens |>.resolve_left (List.cons_ne_nil _ _)
  rw [List.concat_eq_append] at htokens
  have hlast : last.kind = .eof := by
    apply hc
    show last ∈ c.tokens.getLast?
    rw [htokens, List.getLast?_concat]
    rfl
  have hhead := Token.head_of_eof hlast
  exact ⟨last, ⟨List.cons_ne_nil _ _, List.cons_ne_nil _ _, hhead, hhead⟩,
    ⟨front, htokens, htokens⟩, fun _ => rfl⟩

/-- How long the chain is does not count where a statement is read. -/
theorem stmtWithin_congr_ok (hc : c.Terminated) {n n' : Nat}
    (hn' : c.ahead.length + 1 < n') {s : Stmt} {next : Cursor}
    (h : standard.stmtWithin n c = .ok s next) :
    standard.stmtWithin n' c = .ok s next := by
  obtain ⟨last, hcut, hbeside⟩ := exists_cut hc
  obtain ⟨next', hreply, hnext⟩ :=
    exists_stmtWithin_eq_ok hcut hc hc hbeside hn' h (Nat.succ_le_succ (Nat.zero_le _))
  obtain ⟨front, htokens, htokens'⟩ := hnext.tokens
  rw [hreply,
    Cursor.eq_of_tokens_eq (htokens'.trans htokens.symm) (hnext.previousEnd trivial)]

/-- Nor does it where one is given up in front of the end. -/
theorem stmtWithin_congr_fail (hc : c.Terminated) {n n' : Nat}
    (hn' : c.ahead.length + 1 < n') {d : Diagnostic} {stop : Cursor}
    (h : standard.stmtWithin n c = .fail d stop) (hstop : stop.ahead ≠ []) :
    ∃ stop', standard.stmtWithin n' c = .fail d stop' ∧ stop'.tokens = stop.tokens := by
  obtain ⟨last, hcut, hbeside⟩ := exists_cut hc
  have hlt : [last].length < stop.tokens.length :=
    Nat.succ_lt_succ (List.length_pos_iff.mpr hstop)
  obtain ⟨stop', hreply, hbeside'⟩ :=
    exists_stmtWithin_eq_fail hcut hc hc hbeside hn' h hlt
  obtain ⟨front, htokens, htokens'⟩ := hbeside'.tokens
  exact ⟨stop', hreply, htokens'.trans htokens.symm⟩

end Rules

end

end ScalarLang
