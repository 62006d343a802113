import ScalarLang.Proofs.Precedence

/-!
# Reading goes on

Readers only ever take tokens, one after the other, and reply in the end. So a reply is
as good as the tokens that were taken on the way to it (`Reply.Moves`): an expression
takes at least one where it is read, and a chain of rules that is given one link for
each token ahead is long enough.

Which tokens these can be is known as well. An expression takes no semicolon and no
brace, whether it is read or given up. A statement takes its semicolon last, unless it
has come to an opening brace, a `for` or an `else` before (`Token.Branching`).

## Main results

* `Rules.states_stmtWithin`: a statement is read or given up, and these are the
  tokens that it takes.
-/

namespace ScalarLang

open ScalarLang.Parser

/-! ## Taking tokens -/

/-- Whether a cursor comes to another one by taking these tokens. -/
inductive Cursor.Reaches : Cursor → List Token → Cursor → Prop
  | refl {c : Cursor} : Reaches c [] c
  | step {c next : Cursor} {ts : List Token} (hne : c.ahead ≠ [])
      (h : Reaches c.advance ts next) :
      Reaches c (c.current :: ts) next

namespace Cursor

variable {c next last : Cursor} {t : Token} {ts us : List Token}

theorem Terminated.ahead_ne_nil (hc : c.Terminated) (hkind : c.current.kind ≠ .eof) :
    c.ahead ≠ [] := by
  intro hnil
  have hlength := hc.length_advance hkind
  rw [hnil] at hlength
  cases hlength

theorem tokens_eq_cons_advance (hne : c.ahead ≠ []) :
    c.tokens = c.current :: c.advance.tokens := by
  unfold tokens Cursor.advance
  cases hahead : c.ahead with
  | nil => exact absurd hahead hne
  | cons t ts => rfl

namespace Reaches

theorem trans (h : c.Reaches ts next) (h' : next.Reaches us last) :
    c.Reaches (ts ++ us) last := by
  induction h with
  | refl => exact h'
  | step hne _ ih => exact .step hne (ih h')

theorem tokens_eq (h : c.Reaches ts next) : c.tokens = ts ++ next.tokens := by
  induction h with
  | refl => rfl
  | step hne _ ih => rw [tokens_eq_cons_advance hne, ih, List.cons_append]

theorem terminated (h : c.Reaches ts next) (hc : c.Terminated) : next.Terminated := by
  induction h with
  | refl => exact hc
  | step _ _ ih => exact ih hc.advance

theorem length_add (h : c.Reaches ts next) :
    next.ahead.length + ts.length = c.ahead.length := by
  have hlength := congrArg List.length h.tokens_eq
  rw [List.length_append] at hlength
  unfold tokens at hlength
  rw [List.length_cons, List.length_cons] at hlength
  omega

theorem previousEnd_eq (h : c.Reaches (ts ++ [t]) next) :
    next.previousEnd = t.span.stop := by
  generalize hus : ts ++ [t] = us at h
  induction h generalizing ts with
  | refl => exact absurd hus (List.concat_ne_nil t ts)
  | @step c next us hne h ih =>
      cases ts with
      | nil =>
          obtain ⟨rfl, rfl⟩ := List.cons.inj hus
          cases h
          unfold Cursor.advance
          split
          · next hnil => exact absurd hnil hne
          · rfl
      | cons u ts => exact ih (List.cons.inj hus).2

end Reaches

theorem Terminated.reaches_advance (hc : c.Terminated) (hkind : c.current.kind ≠ .eof) :
    c.Reaches [c.current] c.advance := .step (hc.ahead_ne_nil hkind) .refl

end Cursor

/-! ## The tokens of a flat statement -/

/-- Whether tokens of a kind can stand in front of the semicolon of a statement that has
no statement with braces, no loop of three parts and no alternative in it. -/
def TokenKind.Flat (k : TokenKind) : Prop :=
  k ∉ [semicolon, openCurly, closeCurly, forWord, elseWord, eof]

instance : DecidablePred TokenKind.Flat := fun k =>
  inferInstanceAs (Decidable
    (k ∉ [TokenKind.semicolon, .openCurly, .closeCurly, .forWord, .elseWord, .eof]))

namespace Token

/-- Whether all these tokens can stand in front of the semicolon of a flat statement. -/
def Flat (ts : List Token) : Prop := ∀ t ∈ ts, t.kind.Flat

/-- Whether a statement that takes these tokens comes to an opening brace, a
`for` or an `else`. -/
inductive Branching : List Token → Prop
  | flat {t : Token} {ts : List Token} (ht : t.kind.Flat) (h : Branching ts) :
      Branching (t :: ts)
  | opened {t : Token} {ts : List Token}
      (ht : t.kind = .openCurly ∨ t.kind = .forWord) : Branching (t :: ts)
  | alternate {semi other : Token} {ts : List Token} (hsemi : semi.kind = .semicolon)
      (hother : other.kind = .elseWord) : Branching (semi :: other :: ts)

/-- Whether tokens are those of a flat statement or of a failed one: there is a
semicolon, and it is the last. -/
def Segment (ts : List Token) : Prop :=
  ∃ flat semi, ts = flat ++ [semi] ∧ Flat flat ∧ semi.kind = .semicolon

/-- Whether a statement can be read from these tokens: if it is flat, the semicolon
is the last one. -/
def Sentence (ts : List Token) : Prop := Branching ts ∨ Segment ts

/-- Whether a statement can be given up behind these tokens: if it is flat, the
semicolon is still ahead. -/
def Stub (ts : List Token) : Prop := Branching ts ∨ Flat ts

variable {t : Token} {ts us : List Token}

theorem flat_nil : Flat [] := List.forall_mem_nil _

theorem flat_singleton (ht : t.kind.Flat) : Flat [t] := List.forall_mem_singleton.mpr ht

theorem Flat.append (h : Flat ts) (h' : Flat us) : Flat (ts ++ us) :=
  List.forall_mem_append.mpr ⟨h, h'⟩

private theorem Branching.behind (h : Branching us) (hts : Flat ts) :
    Branching (ts ++ us) := by
  induction ts with
  | nil => exact h
  | cons t ts ih =>
      obtain ⟨ht, hts⟩ := List.forall_mem_cons.mp hts
      exact .flat ht (ih hts)

private theorem Branching.append (h : Branching ts) (us : List Token) :
    Branching (ts ++ us) := by
  induction h with
  | flat ht _ ih => exact .flat ht ih
  | opened ht => exact .opened ht
  | alternate hsemi hother => exact .alternate hsemi hother

private theorem Segment.behind (h : Segment us) (hts : Flat ts) :
    Segment (ts ++ us) := by
  obtain ⟨flat, semi, rfl, hflat, hsemi⟩ := h
  exact ⟨ts ++ flat, semi, (List.append_assoc ts flat [semi]).symm,
    hts.append hflat, hsemi⟩

private theorem Sentence.behind (h : Sentence us) (hts : Flat ts) :
    Sentence (ts ++ us) :=
  h.imp (·.behind hts) (·.behind hts)

private theorem Stub.behind (h : Stub us) (hts : Flat ts) : Stub (ts ++ us) :=
  h.imp (·.behind hts) hts.append

theorem Sentence.ne_nil (h : Sentence ts) : ts ≠ [] := by
  rintro rfl
  rcases h with h | ⟨us, semi, heq, -⟩
  · cases h
  · exact absurd heq.symm (List.concat_ne_nil semi us)

private theorem Sentence.branching (h : Sentence ts) (ht : t.kind = .elseWord)
    (us : List Token) :
    Branching (ts ++ t :: us) := by
  rcases h with h | ⟨front, semi, rfl, hfront, hsemi⟩
  · exact h.append _
  · rw [List.append_assoc]
    exact Branching.behind (.alternate hsemi ht) hfront

end Token

open ScalarLang.Token

/-! ## Replies -/

/-- Whether a reply is given after tokens were taken that have a property, another one
if the parser gave up. -/
def Reply.Moves {α : Type} (c : Cursor) (P F : List Token → Prop) : Reply α → Prop
  | .ok _ next => ∃ ts, c.Reaches ts next ∧ P ts
  | .fail _ stop => ∃ ts, c.Reaches ts stop ∧ F ts
  | .endless => False

/-- Whether a reply is given after tokens as in a flat statement were taken, this many
or more where something was read. -/
def Reply.Expresses {α : Type} (c : Cursor) (least : Nat) (reply : Reply α) : Prop :=
  reply.Moves c (fun ts => Flat ts ∧ least ≤ ts.length) Flat

/-- Whether a reply is given after the tokens of a flat statement were taken, or some of
those in front of its semicolon where the parser gave up. -/
def Reply.Concludes {α : Type} (c : Cursor) (reply : Reply α) : Prop :=
  reply.Moves c Segment Flat

/-- Whether a reply is given after tokens of a statement were taken. -/
def Reply.States {α : Type} (c : Cursor) (reply : Reply α) : Prop :=
  reply.Moves c Sentence Stub

/-- Whether a reply is given at all. -/
def Reply.Ends {α : Type} (c : Cursor) (reply : Reply α) : Prop :=
  reply.Moves c (fun _ => True) fun _ => True

namespace Reply

variable {α : Type} {c : Cursor} {reply : Reply α} {P F P' F' : List Token → Prop}

theorem Moves.imp (h : reply.Moves c P F) (hP : ∀ ts, P ts → P' ts)
    (hF : ∀ ts, F ts → F' ts) :
    reply.Moves c P' F' := by
  cases reply with
  | ok a next =>
      obtain ⟨ts, hts, hprop⟩ := h
      exact ⟨ts, hts, hP ts hprop⟩
  | fail error stop =>
      obtain ⟨ts, hts, hprop⟩ := h
      exact ⟨ts, hts, hF ts hprop⟩
  | endless => exact h

private theorem Moves.behind {next : Cursor} {ts : List Token}
    (h : reply.Moves next (fun us => P (ts ++ us)) fun us => F (ts ++ us))
    (hts : c.Reaches ts next) :
    reply.Moves c P F := by
  cases reply with
  | ok a last =>
      obtain ⟨us, hus, hprop⟩ := h
      exact ⟨ts ++ us, hts.trans hus, hprop⟩
  | fail error stop =>
      obtain ⟨us, hus, hprop⟩ := h
      exact ⟨ts ++ us, hts.trans hus, hprop⟩
  | endless => exact h

private theorem Concludes.states (h : reply.Concludes c) : reply.States c :=
  h.imp (fun _ => .inr) fun _ => .inr

theorem Expresses.mono {least least' : Nat} (h : reply.Expresses c least)
    (hle : least' ≤ least) :
    reply.Expresses c least' :=
  h.imp (fun _ hts => ⟨hts.1, Nat.le_trans hle hts.2⟩) fun _ hts => hts

end Reply

namespace Parser

variable {α β : Type} {c : Cursor} {p : Parser α} {g : α → Parser β}
  {P F Q G : List Token → Prop} {k l : Nat}

theorem moves_pure {a : α} (h : P []) : ((pure a : Parser α) c).Moves c P F :=
  ⟨[], .refl, h⟩

theorem moves_fail {cause : Cause} {position : Position} (h : F []) :
    ((fail cause position : Parser α) c).Moves c P F :=
  ⟨[], .refl, h⟩

theorem moves_bind (hp : (p c).Moves c P F) (hF : ∀ ts, F ts → G ts)
    (hg : ∀ ts a next, c.Reaches ts next → P ts →
      (g a next).Moves next (fun us => Q (ts ++ us)) fun us => G (ts ++ us)) :
    ((p >>= g) c).Moves c Q G := by
  show (Parser.bind p g c).Moves c Q G
  unfold Parser.bind
  cases hreply : p c with
  | ok a next =>
      rw [hreply] at hp
      obtain ⟨ts, hts, hprop⟩ := hp
      exact (hg ts a next hts hprop).behind hts
  | fail error stop =>
      rw [hreply] at hp
      obtain ⟨ts, hts, hprop⟩ := hp
      exact ⟨ts, hts, hF ts hprop⟩
  | endless =>
      rw [hreply] at hp
      exact hp

/-- What takes no tokens does not change what was taken. -/
theorem moves_bind_still (hp : (p c).Moves c P F)
    (hg : ∀ a next, ∃ b, g a next = .ok b next) :
    ((p >>= g) c).Moves c P F := by
  refine moves_bind hp (fun _ => id) fun ts a next _ hprop => ?_
  obtain ⟨b, hb⟩ := hg a next
  rw [hb]
  refine ⟨[], .refl, ?_⟩
  show P (ts ++ [])
  rwa [List.append_nil]

/-! ### In expressions -/

theorem expresses_bind (hc : c.Terminated) (hp : (p c).Expresses c k)
    (hg : ∀ a next, next.Terminated → next.ahead.length + k ≤ c.ahead.length →
      (g a next).Expresses next l) :
    ((p >>= g) c).Expresses c (k + l) := by
  refine moves_bind hp (fun _ => id) fun ts a next hts hprop => ?_
  obtain ⟨hflat, hk⟩ := hprop
  have hlength := hts.length_add
  refine (hg a next (hts.terminated hc) (by omega)).imp (fun us hus => ?_) fun us hus =>
    hflat.append hus
  refine ⟨hflat.append hus.1, ?_⟩
  rw [List.length_append]
  exact Nat.add_le_add hk hus.2

theorem expresses_advance (hc : c.Terminated) (hkind : c.current.kind.Flat) :
    (advance c).Expresses c 1 := by
  have hne : c.current.kind ≠ .eof := by
    intro heq
    rw [heq] at hkind
    exact hkind (by decide)
  exact ⟨[c.current], hc.reaches_advance hne, flat_singleton hkind, Nat.le_refl 1⟩

theorem expresses_unexpected : ((unexpected : Parser α) c).Expresses c k :=
  ⟨[], .refl, flat_nil⟩

private theorem expresses_unexpectedFor {message : String} :
    ((unexpectedFor message : Parser α) c).Expresses c k :=
  ⟨[], .refl, flat_nil⟩

theorem expresses_expect {kind : TokenKind} (hc : c.Terminated) (hkind : kind.Flat) :
    (expect kind c).Expresses c 1 := by
  show ((if c.current.kind = kind then advance else unexpected) c).Expresses c 1
  by_cases heq : c.current.kind = kind
  · rw [if_pos heq]
    exact expresses_advance hc (heq ▸ hkind)
  · rw [if_neg heq]
    exact expresses_unexpected

private theorem expresses_expectFor {kind : TokenKind} {message : String}
    (hc : c.Terminated) (hkind : kind.Flat) :
    (expectFor kind message c).Expresses c 1 := by
  show ((if c.current.kind = kind then advance else unexpectedFor message) c).Expresses
    c 1
  by_cases heq : c.current.kind = kind
  · rw [if_pos heq]
    exact expresses_advance hc (heq ▸ hkind)
  · rw [if_neg heq]
    exact expresses_unexpectedFor

private theorem expresses_commaSeparated {item : Parser α} {bound : Nat}
    (hitem : ∀ c : Cursor, c.Terminated → c.ahead.length < bound →
      (item c).Expresses c 1)
    (hc : c.Terminated) (hbound : c.ahead.length < bound) :
    (commaSeparated item c).Expresses c 1 := by
  have hloop (n : Nat) : ∀ c : Cursor, c.Terminated → c.ahead.length < bound →
      c.ahead.length < n → (commaLoop item n c).Expresses c 1 := by
    induction n with
    | zero => exact fun c _ _ hn => absurd hn (Nat.not_lt_zero _)
    | succ n ih =>
        intro c hc hbound hn
        refine expresses_bind (l := 0) hc (hitem c hc hbound)
          fun first next hnext hlength => ?_
        rw [current_bind]
        by_cases hcomma : next.current.kind = .comma
        · have hkind : next.current.kind.Flat := by rw [hcomma]; decide
          rw [if_pos hcomma]
          refine (expresses_bind (l := 1) hnext (expresses_advance hnext hkind)
            fun _ behind hbehind hle => ?_).mono
            (Nat.zero_le _)
          refine expresses_bind (l := 0) hbehind
            (ih behind hbehind (by omega) (by omega)) fun rest last _ _ => ?_
          exact moves_pure ⟨flat_nil, Nat.le_refl 0⟩
        · rw [if_neg hcomma]
          exact moves_pure ⟨flat_nil, Nat.le_refl 0⟩
  exact hloop _ c hc hbound (Nat.lt_succ_self _)

/-! ### In statements -/

/-- Behind an expression, a reader goes on with tokens as they can stand behind others
of a flat statement. -/
theorem moves_bind_flat (hP : ∀ ts us, Flat ts → P us → P (ts ++ us))
    (hF : ∀ ts us, Flat ts → F us → F (ts ++ us)) (hflat : ∀ ts, Flat ts → F ts)
    (hc : c.Terminated) (hp : (p c).Expresses c k)
    (hg : ∀ a next, next.Terminated → next.ahead.length + k ≤ c.ahead.length →
      (g a next).Moves next P F) :
    ((p >>= g) c).Moves c P F := by
  refine moves_bind hp hflat fun ts a next hts hprop => ?_
  obtain ⟨hts', hk⟩ := hprop
  have hlength := hts.length_add
  exact (hg a next (hts.terminated hc) (by omega)).imp (fun us => hP ts us hts')
    fun us => hF ts us hts'

theorem concludes_bind (hc : c.Terminated) (hp : (p c).Expresses c k)
    (hg : ∀ a next, next.Terminated → next.ahead.length + k ≤ c.ahead.length →
      (g a next).Concludes next) :
    ((p >>= g) c).Concludes c :=
  moves_bind_flat (fun _ _ hts hus => hus.behind hts) (fun _ _ => Flat.append)
    (fun _ => id) hc hp hg

theorem states_bind (hc : c.Terminated) (hp : (p c).Expresses c k)
    (hg : ∀ a next, next.Terminated → next.ahead.length + k ≤ c.ahead.length →
      (g a next).States next) :
    ((p >>= g) c).States c :=
  moves_bind_flat (fun _ _ hts hus => hus.behind hts)
    (fun _ _ hts hus => hus.behind hts) (fun _ => .inr) hc hp hg

/-- The semicolon is the last token of a flat statement. -/
theorem concludes_semicolon {g : Token → Parser β} (hc : c.Terminated)
    (hg : ∀ t next, ∃ b, g t next = .ok b next) :
    ((expect .semicolon >>= g) c).Concludes c := by
  refine moves_bind_still ?_ hg
  show Reply.Moves c Segment Flat
    ((if c.current.kind = .semicolon then advance else unexpected) c)
  by_cases hkind : c.current.kind = .semicolon
  · rw [if_pos hkind]
    have hadvance := hc.reaches_advance (by rw [hkind]; exact TokenKind.noConfusion)
    exact ⟨[c.current], hadvance, [], c.current, rfl, flat_nil, hkind⟩
  · rw [if_neg hkind]
    exact ⟨[], .refl, flat_nil⟩

theorem ends_bind (hc : c.Terminated) (hp : (p c).Moves c P F)
    (hg : ∀ a next, next.Terminated → next.ahead.length ≤ c.ahead.length →
      (g a next).Ends next) :
    ((p >>= g) c).Ends c := by
  refine moves_bind hp (fun _ _ => trivial) fun ts a next hts _ => ?_
  have hlength := hts.length_add
  exact hg a next (hts.terminated hc) (by omega)

private theorem ends_expect {kind : TokenKind} (hc : c.Terminated)
    (hkind : kind ≠ .eof) : (expect kind c).Ends c := by
  show ((if c.current.kind = kind then advance else unexpected) c).Ends c
  by_cases heq : c.current.kind = kind
  · rw [if_pos heq]
    exact ⟨[c.current], hc.reaches_advance (heq ▸ hkind), trivial⟩
  · rw [if_neg heq]
    exact ⟨[], .refl, trivial⟩

private theorem ends_expectFor {kind : TokenKind} {message : String} (hc : c.Terminated)
    (hkind : kind ≠ .eof) :
    (expectFor kind message c).Ends c := by
  show ((if c.current.kind = kind then advance else unexpectedFor message) c).Ends c
  by_cases heq : c.current.kind = kind
  · rw [if_pos heq]
    exact ⟨[c.current], hc.reaches_advance (heq ▸ hkind), trivial⟩
  · rw [if_neg heq]
    exact ⟨[], .refl, trivial⟩

/-- Behind an opening brace or a `for`, any end will do. -/
theorem states_opened (hc : c.Terminated)
    (hkind : c.current.kind = .openCurly ∨ c.current.kind = .forWord) {reply : Reply α}
    (h : reply.Ends c.advance) : reply.States c := by
  have hne : c.current.kind ≠ .eof := by
    rcases hkind with hkind | hkind <;> rw [hkind] <;> exact TokenKind.noConfusion
  have hbehind : reply.Moves c.advance (fun us => Sentence ([c.current] ++ us))
      fun us => Stub ([c.current] ++ us) :=
    h.imp (fun us _ => .inl (.opened hkind)) fun us _ => .inl (.opened hkind)
  exact hbehind.behind (hc.reaches_advance hne)

private theorem ends_untilClosed {item : Parser α} {bound : Nat}
    (hitem : ∀ c : Cursor, c.Terminated → c.ahead.length < bound → (item c).States c)
    (hc : c.Terminated) (hbound : c.ahead.length < bound) :
    (untilClosed item c).Ends c := by
  have hloop (n : Nat) : ∀ c : Cursor, c.Terminated → c.ahead.length < bound →
      c.ahead.length < n → (bodyLoop item n c).Ends c := by
    induction n with
    | zero => exact fun c _ _ hn => absurd hn (Nat.not_lt_zero _)
    | succ n ih =>
        intro c hc hbound hn
        rw [bodyLoop, current_bind]
        by_cases hclosed : c.current.kind = .eof ∨ c.current.kind = .closeCurly
        · rw [if_pos hclosed]
          exact moves_pure trivial
        · rw [if_neg hclosed]
          refine moves_bind (hitem c hc hbound) (fun _ _ => trivial)
            fun ts first next hts hsentence => ?_
          have hlength := hts.length_add
          have hpos := List.length_pos_iff.mpr hsentence.ne_nil
          exact ends_bind (hts.terminated hc)
            (ih next (hts.terminated hc) (by omega) (by omega))
            fun rest last _ _ => moves_pure trivial
  exact hloop _ c hc hbound (Nat.lt_succ_self _)

end Parser

/-! ## Expressions -/

section

variable {expr : ExprParser} {bound : Nat} {c : Cursor}

namespace Rules

theorem flat_of_find?_starts {k : TokenKind} {rule : StartRule}
    (h : standard.starts.find? k = some rule) :
    k.Flat := by
  revert h
  cases k <;> first
    | exact fun _ => by decide
    | exact fun h => nomatch h

theorem flat_of_find?_joins {k : TokenKind} {found : JoinRule × Power}
    (h : standard.joins.find? k = some found) :
    k.Flat := by
  revert h
  cases k <;> first
    | exact fun _ => by decide
    | exact fun h => nomatch h

end Rules

private theorem expresses_readPrimary (hc : c.Terminated)
    (hkind : c.current.kind.Flat) : (readPrimary c).Expresses c 1 := by
  rw [readPrimary, current_bind]
  cases primaryOf c.current with
  | ok e =>
      refine expresses_bind (l := 0) hc (expresses_advance hc hkind) fun _ _ _ _ => ?_
      exact moves_pure ⟨flat_nil, Nat.le_refl 0⟩
  | error cause => exact moves_fail flat_nil

variable
  (hexpr : ∀ power (c : Cursor), c.Terminated → c.ahead.length < bound →
    (expr power c).Expresses c 1)

include hexpr

private theorem StartRule.expresses_parse (rule : StartRule) (hc : c.Terminated)
    (hbound : c.ahead.length ≤ bound) (hkind : c.current.kind.Flat) :
    (rule.parse expr c).Expresses c 1 := by
  cases rule with
  | primary => exact expresses_readPrimary hc hkind
  | operator =>
      refine expresses_bind (l := 0) hc (expresses_advance hc hkind)
        fun operator next hnext hlength => ?_
      rw [current_bind]
      cases hfolded : (if operator.kind = .dash ∧ next.current.kind = .integer
          then oppositeOf? next.current.value else none) with
      | some n =>
          have hinteger : next.current.kind = .integer := by
            by_contra hne
            rw [if_neg fun h => hne h.2] at hfolded
            cases hfolded
          have hflat : next.current.kind.Flat := by rw [hinteger]; decide
          refine (expresses_bind (l := 0) hnext (expresses_advance hnext hflat)
            fun _ _ _ _ => ?_).mono
            (Nat.zero_le _)
          exact moves_pure ⟨flat_nil, Nat.le_refl 0⟩
      | none =>
          refine (expresses_bind (l := 0) hnext (hexpr .unary next hnext (by omega))
            fun _ _ _ _ => ?_).mono
            (Nat.zero_le _)
          exact moves_pure ⟨flat_nil, Nat.le_refl 0⟩
  | grouping =>
      refine expresses_bind (l := 0) hc (expresses_advance hc hkind)
        fun _ next hnext hlength => ?_
      refine (expresses_bind (l := 1) hnext (hexpr .lowest next hnext (by omega))
        fun inner last hlast _ => ?_).mono
        (Nat.zero_le _)
      refine expresses_bind (l := 0) hlast (expresses_expect hlast (by decide))
        fun _ _ _ _ => ?_
      exact moves_pure ⟨flat_nil, Nat.le_refl 0⟩

private theorem JoinRule.expresses_parse (rule : JoinRule) (left : Expr) (power : Power)
    (hc : c.Terminated) (hbound : c.ahead.length ≤ bound)
    (hkind : c.current.kind.Flat) :
    (rule.parse expr left power c).Expresses c 1 := by
  cases rule with
  | binary =>
      refine expresses_bind (l := 0) hc (expresses_advance hc hkind)
        fun operator next hnext hlength => ?_
      cases Level.ofOperator? operator.kind with
      | none => exact moves_fail flat_nil
      | some level =>
          refine (expresses_bind (l := 0) hnext (hexpr power next hnext (by omega))
            fun _ _ _ _ => ?_).mono
            (Nat.zero_le _)
          exact moves_pure ⟨flat_nil, Nat.le_refl 0⟩
  | assignment =>
      refine expresses_bind (l := 0) hc (expresses_advance hc hkind)
        fun operator next hnext hlength => ?_
      cases left with
      | symbol name span =>
          refine (expresses_bind (l := 0) hnext (hexpr .lowest next hnext (by omega))
            fun _ _ _ _ => ?_).mono
            (Nat.zero_le _)
          exact moves_pure ⟨flat_nil, Nat.le_refl 0⟩
      | _ => exact moves_fail flat_nil

end

namespace Rules

/-- A chain with a link for the current token and each one ahead is long enough
for an expression. -/
theorem expresses_within (n : Nat) :
    (∀ power (c : Cursor), c.Terminated → c.ahead.length < n →
      (standard.exprWithin n power c).Expresses c 1) ∧
      ∀ power left (c : Cursor), c.Terminated → c.ahead.length < n →
        (standard.operatorsWithin n power left c).Expresses c 0 := by
  induction n with
  | zero =>
      exact ⟨fun _ _ _ hn => absurd hn (Nat.not_lt_zero _),
        fun _ _ _ _ hn => absurd hn (Nat.not_lt_zero _)⟩
  | succ n ih =>
      obtain ⟨hexpr, hoperators⟩ := ih
      constructor
      · intro power c hc hn
        rw [exprWithin]
        dsimp only
        rw [current_bind]
        cases hfind : standard.starts.find? c.current.kind with
        | none => exact expresses_unexpected
        | some rule =>
            have hstart := rule.expresses_parse hexpr hc (Nat.le_of_lt_succ hn)
              (flat_of_find?_starts hfind)
            refine expresses_bind (l := 0) hc hstart fun left next hnext hlength => ?_
            exact hoperators power left next hnext (by omega)
      · intro power left c hc hn
        rw [operatorsWithin]
        dsimp only
        rw [current_bind]
        cases hfind : standard.joins.find? c.current.kind with
        | none => exact moves_pure ⟨flat_nil, Nat.le_refl 0⟩
        | some found =>
            obtain ⟨rule, own⟩ := found
            dsimp only
            by_cases hpower : own.rank ≤ power.rank
            · rw [if_pos hpower]
              exact moves_pure ⟨flat_nil, Nat.le_refl 0⟩
            · rw [if_neg hpower]
              have hjoin := rule.expresses_parse hexpr left own hc
                (Nat.le_of_lt_succ hn) (flat_of_find?_joins hfind)
              refine (expresses_bind (l := 0) hc hjoin fun joined next hnext hlength =>
                ?_).mono (Nat.zero_le _)
              exact hoperators power joined next hnext (by omega)

end Rules

/-! ## Statements -/

/-- The kinds of tokens that a statement by a rule can start with. -/
def StmtRule.Starts : StmtRule → TokenKind → Prop
  | any, _ => False
  | declaration, k => k ∈ [TokenKind.intType, .floatType, .boolType, .stringType]
  | read, k => k = .readWord
  | write, k => k = .writeWord
  | block, k => k = .openCurly
  | empty, k => k = .semicolon
  | branch, k => k = .ifWord
  | whileLoop, k => k = .whileWord
  | forLoop, k => k = .forWord

/-- Only an opening brace, a semicolon and a `for` start a statement that is not flat up
to its semicolon, whatever comes behind. -/
theorem StmtRule.Starts.flat {rule : StmtRule} {k : TokenKind} (h : rule.Starts k)
    (hrule : rule ∉ [block, empty, forLoop]) : k.Flat := by
  cases rule with
  | any => exact h.elim
  | declaration =>
      have hkinds : ∀ k ∈ [TokenKind.intType, .floatType, .boolType, .stringType],
          k.Flat := by decide
      exact hkinds k h
  | read => rw [show k = .readWord from h]; decide
  | write => rw [show k = .writeWord from h]; decide
  | branch => rw [show k = .ifWord from h]; decide
  | whileLoop => rw [show k = .whileWord from h]; decide
  | block | empty | forLoop => exact absurd (by decide) hrule

theorem Rules.starts_of_find?_stmts {k : TokenKind} {rule : StmtRule}
    (h : standard.stmts.find? k = some rule) :
    rule.Starts k := by
  revert h
  cases k <;> intro h <;> cases h
  all_goals simp [StmtRule.Starts]

section

variable {expr : ExprParser} {stmt : Parser Stmt} {bound : Nat} {c : Cursor}

private theorem expresses_readIdent (hc : c.Terminated) :
    (readIdent c).Expresses c 1 := by
  refine expresses_bind (l := 0) hc (expresses_expectFor hc (by decide))
    fun token _ _ _ => ?_
  exact moves_pure ⟨flat_nil, Nat.le_refl 0⟩

private theorem expresses_idents (hc : c.Terminated) :
    (commaSeparated readIdent c).Expresses c 1 :=
  expresses_commaSeparated (fun _ hc _ => expresses_readIdent hc) hc
    (Nat.lt_succ_self _)

private theorem concludes_readDeclaration (hc : c.Terminated)
    (hkind : c.current.kind.Flat) :
    (readDeclaration c).Concludes c := by
  refine concludes_bind hc (expresses_advance hc hkind) fun word next hnext _ => ?_
  cases word.kind.ty? with
  | none => exact ⟨[], .refl, flat_nil⟩
  | some t =>
      refine concludes_bind hnext (expresses_idents hnext) fun idents last hlast _ => ?_
      exact concludes_semicolon hlast fun _ _ => ⟨_, rfl⟩

private theorem concludes_readRead (hc : c.Terminated) (hkind : c.current.kind.Flat) :
    (readRead c).Concludes c := by
  refine concludes_bind hc (expresses_advance hc hkind) fun word next hnext _ => ?_
  refine concludes_bind hnext (expresses_idents hnext) fun idents last hlast _ => ?_
  exact concludes_semicolon hlast fun _ _ => ⟨_, rfl⟩

private theorem states_readEmpty (hc : c.Terminated)
    (hkind : c.current.kind = .semicolon) : (readEmpty c).States c := by
  have hadvance := hc.reaches_advance (by rw [hkind]; exact TokenKind.noConfusion)
  exact ⟨[c.current], hadvance, .inr ⟨[], c.current, rfl, flat_nil, hkind⟩⟩

section

variable
  (hexpr : ∀ power (c : Cursor), c.Terminated → c.ahead.length < bound →
    (expr power c).Expresses c 1)

include hexpr

theorem concludes_readEffect (hc : c.Terminated) (hbound : c.ahead.length < bound) :
    (readEffect expr c).Concludes c :=
  concludes_bind hc (hexpr .lowest c hc hbound) fun _ _ hnext _ =>
    concludes_semicolon hnext fun _ _ => ⟨_, rfl⟩

private theorem concludes_readWrite (hc : c.Terminated)
    (hbound : c.ahead.length ≤ bound) (hkind : c.current.kind.Flat) :
    (readWrite expr c).Concludes c := by
  refine concludes_bind hc (expresses_advance hc hkind) fun word next hnext hlength =>
    ?_
  have hvalues := expresses_commaSeparated (hexpr .lowest) hnext (by omega)
  exact concludes_bind hnext hvalues fun values last hlast _ =>
    concludes_semicolon hlast fun _ _ => ⟨_, rfl⟩

private theorem expresses_readCondition (hc : c.Terminated)
    (hbound : c.ahead.length ≤ bound) :
    (readCondition expr c).Expresses c 1 := by
  refine expresses_bind (l := 0) hc (expresses_expect hc (by decide))
    fun _ next hnext hlength => ?_
  refine (expresses_bind (l := 1) hnext (hexpr .lowest next hnext (by omega))
    fun condition last hlast _ => ?_).mono
    (Nat.zero_le _)
  refine expresses_bind (l := 0) hlast (expresses_expect hlast (by decide))
    fun _ _ _ _ => ?_
  exact moves_pure ⟨flat_nil, Nat.le_refl 0⟩

end

variable
  (hexpr : ∀ power (c : Cursor), c.Terminated → c.ahead.length < bound →
    (expr power c).Expresses c 1)
  (hstmt : ∀ c : Cursor, c.Terminated → c.ahead.length < bound → (stmt c).States c)

include hstmt in
private theorem states_readBlock (hc : c.Terminated) (hbound : c.ahead.length ≤ bound)
    (hkind : c.current.kind = .openCurly) :
    (readBlock stmt c).States c := by
  have hlength := hc.length_advance (by rw [hkind]; exact TokenKind.noConfusion)
  rw [readBlock, bind_of_eq_ok (expect_eq_ok hkind)]
  refine states_opened hc (.inl hkind) ?_
  refine ends_bind hc.advance (ends_untilClosed hstmt hc.advance (by omega))
    fun body next hnext _ => ?_
  refine ends_bind hnext (ends_expectFor hnext (by decide)) fun _ _ _ _ => ?_
  exact ⟨[], .refl, trivial⟩

include hexpr hstmt

private theorem states_readWhile (hc : c.Terminated) (hbound : c.ahead.length ≤ bound)
    (hkind : c.current.kind.Flat) :
    (readWhile expr stmt c).States c := by
  refine states_bind hc (expresses_advance hc hkind) fun word next hnext hlength => ?_
  refine states_bind hnext (expresses_readCondition hexpr hnext (by omega))
    fun condition last hlast _ => ?_
  exact moves_bind_still (hstmt last hlast (by omega)) fun _ _ => ⟨_, rfl⟩

/-- Behind the alternative that is read first comes the end, or an `else`. -/
theorem states_readBranch (hc : c.Terminated) (hbound : c.ahead.length ≤ bound)
    (hkind : c.current.kind.Flat) :
    (readBranch expr stmt c).States c := by
  refine states_bind hc (expresses_advance hc hkind) fun word next hnext hlength => ?_
  refine states_bind hnext (expresses_readCondition hexpr hnext (by omega))
    fun condition last hlast _ => ?_
  refine moves_bind (hstmt last hlast (by omega)) (fun _ => id)
    fun ts consequent behind hts hsentence => ?_
  have hbehind := hts.terminated hlast
  have hadded := hts.length_add
  refine moves_bind_still ?_ fun _ _ => ⟨_, rfl⟩
  rw [readAlternate, current_bind]
  by_cases helse : behind.current.kind = .elseWord
  · have hadvance := hbehind.length_advance (by rw [helse]; exact TokenKind.noConfusion)
    have hstep := hbehind.reaches_advance (by rw [helse]; exact TokenKind.noConfusion)
    have hother := ends_bind
      (g := fun s => (pure (some s) : Parser (Option Stmt))) hbehind.advance
      (hstmt behind.advance hbehind.advance (by omega)) fun _ _ _ _ =>
        moves_pure trivial
    rw [if_pos helse]
    refine Reply.Moves.behind ?_ hstep
    exact hother.imp (fun us _ => .inl (hsentence.branching helse us)) fun us _ =>
      .inl (hsentence.branching helse us)
  · rw [if_neg helse]
    refine moves_pure ?_
    show Sentence (ts ++ [])
    rwa [List.append_nil]

private theorem states_readFor (hc : c.Terminated) (hbound : c.ahead.length ≤ bound)
    (hkind : c.current.kind = .forWord) :
    (readFor expr stmt c).States c := by
  have hlength := hc.length_advance (by rw [hkind]; exact TokenKind.noConfusion)
  rw [readFor, advance_bind]
  refine states_opened hc (.inr hkind) ?_
  refine ends_bind hc.advance (ends_expect hc.advance (by decide))
    fun _ opened hopened hle => ?_
  have htype : (readType? opened).Ends opened := by
    rw [readType?, current_bind]
    cases hty : opened.current.kind.ty? with
    | none => exact moves_pure trivial
    | some t =>
        have hne : opened.current.kind ≠ .eof := by
          intro heq
          rw [heq] at hty
          cases hty
        exact ⟨[opened.current], hopened.reaches_advance hne, trivial⟩
  refine ends_bind hopened htype fun declared typed htyped hle' => ?_
  rw [current_bind]
  refine ends_bind htyped (hexpr .lowest typed htyped (by omega))
    fun init next hnext hle'' => ?_
  cases inductionOf declared init with
  | error cause => exact moves_fail trivial
  | ok induction =>
      refine ends_bind hnext (ends_expect hnext (by decide))
        fun _ second hsecond hle₁ => ?_
      refine ends_bind hsecond (hexpr .lowest second hsecond (by omega))
        fun condition third hthird hle₂ => ?_
      refine ends_bind hthird (ends_expect hthird (by decide))
        fun _ fourth hfourth hle₃ => ?_
      refine ends_bind hfourth (hexpr .lowest fourth hfourth (by omega))
        fun step fifth hfifth hle₄ => ?_
      refine ends_bind hfifth (ends_expect hfifth (by decide)) fun _ last hlast hle₅ =>
        ?_
      exact ends_bind hlast (hstmt last hlast (by omega)) fun _ _ _ _ =>
        ⟨[], .refl, trivial⟩

omit hstmt in
/-- A statement without statements in it is flat. -/
theorem StmtRule.concludes_parse {rule : StmtRule} (hc : c.Terminated)
    (hbound : c.ahead.length ≤ bound) (hstarts : rule.Starts c.current.kind)
    (hrule : rule ∈ [declaration, read, write]) :
    (rule.parse expr stmt c).Concludes c := by
  have hrules : ∀ rule ∈ [declaration, read, write],
      rule ∉ [block, empty, forLoop] := by decide
  have hkind := hstarts.flat (hrules rule hrule)
  rcases List.mem_cons.mp hrule with rfl | hrule
  · exact concludes_readDeclaration hc hkind
  rcases List.mem_cons.mp hrule with rfl | hrule
  · exact concludes_readRead hc hkind
  · rw [List.mem_singleton.mp hrule]
    exact concludes_readWrite hexpr hc hbound hkind

private theorem StmtRule.states_parse {rule : StmtRule} (hc : c.Terminated)
    (hbound : c.ahead.length ≤ bound) (hstarts : rule.Starts c.current.kind) :
    (rule.parse expr stmt c).States c := by
  cases rule with
  | any => exact hstarts.elim
  | declaration | read | write =>
      exact (StmtRule.concludes_parse hexpr hc hbound hstarts (by decide)).states
  | block => exact states_readBlock hstmt hc hbound hstarts
  | empty => exact states_readEmpty hc hstarts
  | branch => exact states_readBranch hexpr hstmt hc hbound (hstarts.flat (by decide))
  | whileLoop => exact states_readWhile hexpr hstmt hc hbound (hstarts.flat (by decide))
  | forLoop => exact states_readFor hexpr hstmt hc hbound hstarts

end

namespace Rules

/-- For a statement, the chain is to have one link more. -/
theorem states_stmtWithin (n : Nat) :
    ∀ c : Cursor, c.Terminated → c.ahead.length + 1 < n →
      (standard.stmtWithin n c).States c := by
  induction n with
  | zero => exact fun c _ hn => absurd hn (Nat.not_lt_zero _)
  | succ n ih =>
      intro c hc hn
      have hexpr := (expresses_within n).1
      rw [stmtWithin, current_bind]
      cases hfind : standard.stmts.find? c.current.kind with
      | none => exact (concludes_readEffect hexpr hc (by omega)).states
      | some rule =>
          have hexpr' : ∀ power (c : Cursor), c.Terminated → c.ahead.length < n - 1 →
              (standard.exprWithin n power c).Expresses c 1 :=
            fun power c hc hlt => hexpr power c hc (by omega)
          have hstmt : ∀ c : Cursor, c.Terminated → c.ahead.length < n - 1 →
              (standard.stmtWithin n c).States c :=
            fun c hc hlt => ih c hc (by omega)
          exact StmtRule.states_parse hexpr' hstmt hc (by omega)
            (starts_of_find?_stmts hfind)

theorem lt_chainBound (c : Cursor) : c.ahead.length + 1 < chainBound c := by
  unfold chainBound
  omega

theorem states_stmt {c : Cursor} (hc : c.Terminated) : (standard.stmt c).States c :=
  states_stmtWithin _ c hc (lt_chainBound c)

end Rules

end ScalarLang
