import ScalarLang.Proofs.Locality

/-!
# Flat statements do not disturb each other

A flat statement is one without braces, without a `for` and without an alternative.
Wherever the tokens of one stand with the semicolon behind them, and whether they make a
statement or not, reading comes to the place right behind the semicolon (`Rules.Makes`):
a statement that is read has taken it as its last token, and one that is given up has
left it ahead, so that reading resumes behind it. What is made of the tokens does not
depend on what stands behind the semicolon, nor on how many tokens these are
(`Rules.Makes.congr`).

So a list of flat statements is read as if each stood alone.

## Main results

* `Program.ofTokens_segments`: flat statements in a row are read, or
  reported, one by one.
-/

namespace ScalarLang

open ScalarLang.Parser ScalarLang.Token

variable {c c' next : Cursor} {t semi : Token}
  {ts flat front rest back back' : List Token}

/-! ## Tokens up to a semicolon -/

namespace Token

/-- Two ways to take tokens off a flat statement. -/
theorem Flat.split (hts : Flat ts) (hsemi : semi.kind = .semicolon)
    (h : ts ++ rest = flat ++ semi :: back) :
    ∃ front, flat = ts ++ front ∧ rest = front ++ semi :: back := by
  induction ts generalizing flat with
  | nil => exact ⟨flat, rfl, h⟩
  | cons t ts ih =>
      obtain ⟨ht, hts⟩ := List.forall_mem_cons.mp hts
      cases flat with
      | nil =>
          obtain ⟨rfl, -⟩ := List.cons.inj h
          rw [hsemi] at ht
          exact absurd ht (by decide)
      | cons u flat =>
          obtain ⟨rfl, htail⟩ := List.cons.inj h
          obtain ⟨front, rfl, hrest⟩ := ih hts htail
          exact ⟨front, rfl, hrest⟩

/-- A flat statement takes no other way, if there is no `else` behind it. -/
theorem Branching.not_flat (h : Branching ts) (heq : ts ++ rest = flat ++ semi :: back)
    (hflat : Flat flat) (hsemi : semi.kind = .semicolon)
    (hback : ∀ t ∈ back.head?, t.kind ≠ .elseWord) : False := by
  induction h generalizing flat with
  | flat ht _ ih =>
      cases flat with
      | nil =>
          obtain ⟨rfl, -⟩ := List.cons.inj heq
          rw [hsemi] at ht
          exact absurd ht (by decide)
      | cons u flat =>
          obtain ⟨-, htail⟩ := List.cons.inj heq
          exact ih htail (List.forall_mem_cons.mp hflat).2
  | @opened t ts ht =>
      cases flat with
      | nil =>
          obtain ⟨rfl, -⟩ := List.cons.inj heq
          rw [hsemi] at ht
          exact ht.elim TokenKind.noConfusion TokenKind.noConfusion
      | cons u flat =>
          obtain ⟨rfl, -⟩ := List.cons.inj heq
          have hu := (List.forall_mem_cons.mp hflat).1
          rcases ht with ht | ht <;> exact absurd hu (by rw [ht]; decide)
  | @alternate semi' other ts hsemi' hother =>
      cases flat with
      | nil =>
          obtain ⟨-, htail⟩ := List.cons.inj heq
          exact hback other (by rw [← htail]; rfl) hother
      | cons u flat =>
          obtain ⟨rfl, -⟩ := List.cons.inj heq
          have hu := (List.forall_mem_cons.mp hflat).1
          exact absurd hu (by rw [hsemi']; decide)

end Token

namespace Cursor

/-- Reading resumes behind the semicolon of a flat statement. -/
theorem resume_of_flat (h : c.tokens = flat ++ semi :: back) (hflat : Flat flat)
    (hsemi : semi.kind = .semicolon) (hback : back ≠ []) :
    c.resume.tokens = back ∧ c.resume.previousEnd = semi.span.stop := by
  obtain ⟨previousEnd, current, ahead⟩ := c
  show (resumeFrom previousEnd current ahead).tokens = back ∧
    (resumeFrom previousEnd current ahead).previousEnd = _
  induction ahead generalizing previousEnd current flat with
  | nil =>
      have hlength := congrArg List.length h
      have hpos := List.length_pos_iff.mpr hback
      rw [List.length_append, List.length_cons] at hlength
      have hone : (⟨previousEnd, current, []⟩ : Cursor).tokens.length = 1 := rfl
      omega
  | cons u ahead ih =>
      cases flat with
      | nil =>
          obtain ⟨rfl, rfl⟩ := List.cons.inj h
          have heof : current.kind ≠ .eof := by rw [hsemi]; exact TokenKind.noConfusion
          rw [resumeFrom, if_neg heof, if_pos (.inl hsemi)]
          exact ⟨rfl, rfl⟩
      | cons v flat =>
          obtain ⟨rfl, htail⟩ := List.cons.inj h
          obtain ⟨hv, hflat⟩ := List.forall_mem_cons.mp hflat
          have heof : current.kind ≠ .eof := by
            intro heq
            rw [heq] at hv
            exact absurd hv (by decide)
          have hgoes : ¬ (current.kind = .semicolon ∨ current.kind = .closeCurly) := by
            rintro (heq | heq) <;> rw [heq] at hv <;> exact absurd hv (by decide)
          rw [resumeFrom, if_neg heof, if_neg hgoes]
          exact ih hflat current.span.stop u htail

end Cursor

/-! ## What is made of a flat statement -/

namespace Rules

/-- What is made of tokens up to a semicolon: a statement that ends with it, or a report
that leaves it ahead. -/
inductive Makes (c : Cursor) (semi : Token) (back : List Token) :
    Except Diagnostic Stmt → Prop
  | ok {s : Stmt} {next : Cursor} (h : standard.stmt c = .ok s next)
      (htokens : next.tokens = back)
      (hend : next.previousEnd = semi.span.stop) : Makes c semi back (.ok s)
  | error {d : Diagnostic} {stop : Cursor} {front : List Token}
      (h : standard.stmt c = .fail d stop)
      (hfront : Flat front) (htokens : stop.tokens = front ++ semi :: back) :
      Makes c semi back (.error d)

theorem exists_makes (hc : c.Terminated) (htokens : c.tokens = flat ++ semi :: back)
    (hflat : Flat flat) (hsemi : semi.kind = .semicolon)
    (hback : ∀ t ∈ back.head?, t.kind ≠ .elseWord) :
    ∃ made, Makes c semi back made := by
  have hstates := states_stmt hc
  cases hreply : standard.stmt c with
  | ok s next =>
      rw [hreply] at hstates
      obtain ⟨ts, hts, hsentence⟩ := hstates
      have heq := hts.tokens_eq.symm.trans htokens
      rcases hsentence with hbranching | ⟨us, semi', rfl, hus, hsemi'⟩
      · exact (hbranching.not_flat heq hflat hsemi hback).elim
      · rw [List.append_assoc] at heq
        obtain ⟨front, rfl, hrest⟩ := hus.split hsemi heq
        obtain rfl : front = [] := by
          cases front with
          | nil => rfl
          | cons u front =>
              obtain ⟨rfl, -⟩ := List.cons.inj hrest
              have hu := hflat semi' (List.mem_append_right us List.mem_cons_self)
              rw [hsemi'] at hu
              exact absurd hu (by decide)
        obtain ⟨rfl, hnext⟩ := List.cons.inj hrest
        exact ⟨.ok s, .ok hreply hnext hts.previousEnd_eq⟩
  | fail d stop =>
      rw [hreply] at hstates
      obtain ⟨ts, hts, hhalt⟩ := hstates
      have heq := hts.tokens_eq.symm.trans htokens
      rcases hhalt with hbranching | hts'
      · exact (hbranching.not_flat heq hflat hsemi hback).elim
      · obtain ⟨front, rfl, hrest⟩ := hts'.split hsemi heq
        have hfront : Flat front := fun t ht => hflat t (List.mem_append_right ts ht)
        exact ⟨.error d, .error hreply hfront hrest⟩
  | endless =>
      rw [hreply] at hstates
      exact hstates.elim

/-- What is made of the tokens does not depend on those behind the semicolon. -/
theorem Makes.congr {made : Except Diagnostic Stmt} (h : Makes c semi back made)
    (hc : c.Terminated) (hc' : c'.Terminated)
    (htokens : c.tokens = flat ++ semi :: back)
    (htokens' : c'.tokens = flat ++ semi :: back') (hcut : Cut back back') :
    Makes c' semi back' made := by
  have hbeside : c.Beside back back' False c' := by
    refine ⟨⟨flat ++ [semi], ?_, ?_⟩, False.elim⟩
    · rw [htokens, List.append_assoc]
      rfl
    · rw [htokens', List.append_assoc]
      rfl
  have hbound := lt_chainBound c'
  cases h with
  | ok h hnext hend =>
      obtain ⟨next', hreply, hnext'⟩ :=
        exists_stmtWithin_eq_ok hcut hc hc' hbeside hbound h (by rw [hnext])
      -- The statement ends at the cut itself, in both runs.
      obtain ⟨front, hfront, hfront'⟩ := hnext'.tokens
      obtain rfl : front = [] := List.append_left_eq_self.mp (hfront.symm.trans hnext)
      exact .ok hreply hfront' ((hnext'.previousEnd trivial).trans hend)
  | @error d stop front h hfront hstop =>
      have hlt : back.length < stop.tokens.length := by
        rw [hstop, List.length_append, List.length_cons]
        omega
      obtain ⟨stop', hreply, hstop'⟩ :=
        exists_stmtWithin_eq_fail hcut hc hc' hbeside hbound h hlt
      obtain ⟨ahead, hahead, hahead'⟩ := hstop'.tokens
      obtain rfl : ahead = front ++ [semi] := by
        refine List.append_cancel_right (?_ : ahead ++ back = front ++ [semi] ++ back)
        rw [← hahead, hstop, List.append_assoc]
        rfl
      rw [List.append_assoc] at hahead'
      exact .error hreply hfront hahead'

/-! ## Reading on -/

/-- What was read behind a statement or a report, with that in front. -/
def Reading.behind : Except Diagnostic Stmt → Reading → Reading
  | .ok s, later => { later with body := s :: later.body }
  | .error d, later => { later with errors := d :: later.errors }

theorem readStatements_eof (h : c.current.kind = .eof) (n : Nat) :
    standard.readStatements (n + 1) c = ⟨[], [], true, c⟩ := by
  have htokens : ¬ c.hasTokens = true := by
    unfold Cursor.hasTokens
    rw [h]
    decide
  rw [readStatements, if_neg htokens]

theorem hasTokens_of_ne (h : c.current.kind ≠ .eof) : c.hasTokens = true :=
  bne_iff_ne.mpr h

theorem readStatements_ok {s : Stmt} (hkind : c.current.kind ≠ .eof)
    (h : standard.stmt c = .ok s next) (n : Nat) :
    standard.readStatements (n + 1) c =
      (standard.readStatements n next).behind (.ok s) := by
  rw [readStatements, if_pos (hasTokens_of_ne hkind), h]
  rfl

theorem readStatements_fail {d : Diagnostic} {stop : Cursor}
    (hkind : c.current.kind ≠ .eof) (h : standard.stmt c = .fail d stop) (n : Nat) :
    standard.readStatements (n + 1) c =
      (standard.readStatements n stop.resume).behind (.error d) := by
  rw [readStatements, if_pos (hasTokens_of_ne hkind), h]
  rfl

/-- Whatever is made of the tokens up to a semicolon, reading goes on right behind
it. -/
theorem Makes.readStatements_eq {made : Except Diagnostic Stmt}
    (h : Makes c semi back made) (hsemi : semi.kind = .semicolon) (hback : back ≠ [])
    (hkind : c.current.kind ≠ .eof) :
    ∃ next : Cursor, next.tokens = back ∧ next.previousEnd = semi.span.stop ∧
      ∀ n, standard.readStatements (n + 1) c =
        (standard.readStatements n next).behind made := by
  cases h with
  | ok h htokens hend => exact ⟨_, htokens, hend, readStatements_ok hkind h⟩
  | error h hfront htokens =>
      obtain ⟨hresume, hend⟩ := Cursor.resume_of_flat htokens hfront hsemi hback
      exact ⟨_, hresume, hend, readStatements_fail hkind h⟩

end Rules

/-! ## Flat statements in a row -/

namespace Program

/-- The reports on tokens. -/
def complaints (file : String) (tokens : List Token) : List Diagnostic :=
  match ofTokens file tokens with
  | .ok _ => []
  | .error reports => reports

/-- The statements of the program that tokens make. -/
def statements (file : String) (tokens : List Token) : List Stmt :=
  match ofTokens file tokens with
  | .ok p => p.body
  | .error _ => []

/-- A reading that came to the end is a program, or it is rejected for the reports. -/
theorem ofTokens_of_readTokens {file : String} {tokens : List Token}
    (h : (readTokens file tokens).finished = true) :
    ((readTokens file tokens).errors ≠ [] →
      ofTokens file tokens = .error (readTokens file tokens).errors) ∧
      ((readTokens file tokens).errors = [] →
        ∃ p, ofTokens file tokens = .ok p ∧
          p.body = (readTokens file tokens).body) := by
  unfold ofTokens
  dsimp only
  rw [h, Bool.true_and]
  constructor
  · intro hne
    rw [if_neg fun hempty => hne (List.isEmpty_iff.mp hempty)]
  · intro hnil
    rw [if_pos (List.isEmpty_iff.mpr hnil)]
    exact ⟨_, rfl, rfl⟩

end Program

/-- A flat statement with its semicolon does not start with a token that no
statement starts with. -/
theorem Token.Flat.head (hflat : Flat flat) (hsemi : semi.kind = .semicolon) :
    ∀ t ∈ (flat ++ semi :: back).head?,
      t.kind ∉ [TokenKind.closeCurly, .elseWord, .eof] := by
  intro t ht
  cases flat with
  | nil =>
      cases ht
      rw [hsemi]
      decide
  | cons u flat =>
      cases ht
      have hkinds : ∀ k ∈ [TokenKind.closeCurly, .elseWord, .eof], ¬ k.Flat := by decide
      exact fun hkind => hkinds _ hkind (hflat t List.mem_cons_self)

private theorem Cursor.terminated_of_tokens {last : Token} (h : c.tokens = ts ++ [last])
    (hlast : last.kind = .eof) :
    c.Terminated := by
  intro t ht
  have htokens : (c.current :: c.ahead).getLast? = some last := by
    rw [show c.current :: c.ahead = ts ++ [last] from h, List.getLast?_concat]
  rw [htokens] at ht
  cases ht
  exact hlast

namespace Program

open Rules

variable (file : String)

theorem tokens_segment (hsemi : semi.kind = .semicolon) :
    (Cursor.ofTokens file (flat ++ [semi])).tokens = flat ++ semi ::
      [.eof semi.span.stop] := by
  have hclosed : Cursor.closed file [semi] = [semi, .eof semi.span.stop] := by
    have hne : semi.kind ≠ .eof := by rw [hsemi]; exact TokenKind.noConfusion
    exact if_neg hne
  rw [Cursor.tokens_ofTokens, hclosed]

/-- What is made of the tokens of a flat statement alone is all that they are read
as. -/
theorem exists_made (hflat : Flat flat) (hsemi : semi.kind = .semicolon) :
    ∃ made, Makes (.ofTokens file (flat ++ [semi])) semi [.eof semi.span.stop] made ∧
      ∃ stop, readTokens file (flat ++ [semi]) =
        Reading.behind made ⟨[], [], true, stop⟩ := by
  have htokens : (Cursor.ofTokens file (flat ++ [semi])).tokens = flat ++ semi ::
      [.eof semi.span.stop] :=
    tokens_segment file hsemi
  have hc := Cursor.terminated_ofTokens file (flat ++ [semi])
  have hback : ∀ t ∈ [eof semi.span.stop].head?, t.kind ≠ .elseWord := head_of_eof rfl
  have hkind : (Cursor.ofTokens file (flat ++ [semi])).current.kind ≠ .eof := by
    have hhead := hflat.head hsemi (Cursor.ofTokens file (flat ++ [semi])).current
      (by rw [← htokens]; rfl)
    exact fun heof => hhead (by rw [heof]; decide)
  obtain ⟨made, hmade⟩ := exists_makes hc htokens hflat hsemi hback
  obtain ⟨next, hnext, -, hreading⟩ :=
    hmade.readStatements_eq hsemi (List.cons_ne_nil _ _) hkind
  have heof : next.current.kind = .eof := congrArg Token.kind (List.cons.inj hnext).1
  refine ⟨made, hmade, next, ?_⟩
  unfold readTokens
  rw [hreading, readStatements_eof heof]

/-- What is made of the tokens of a flat statement alone is the one report on them, or
their one statement. -/
theorem complaints_of_made {tokens : List Token} {made : Except Diagnostic Stmt}
    {stop : Cursor}
    (h : readTokens file tokens = Reading.behind made ⟨[], [], true, stop⟩) :
    (∃ d, made = .error d ∧ ofTokens file tokens = .error [d] ∧
      complaints file tokens = [d] ∧ statements file tokens = []) ∨
      ∃ s p, made = .ok s ∧ ofTokens file tokens = .ok p ∧ p.body = [s] ∧
        complaints file tokens = [] ∧ statements file tokens = [s] := by
  have hfinished : (readTokens file tokens).finished = true := by
    rw [h]
    cases made <;> rfl
  obtain ⟨herror, hok⟩ := ofTokens_of_readTokens hfinished
  rw [h] at herror hok
  unfold complaints statements
  cases made with
  | error d =>
      have hrejected := herror (List.cons_ne_nil d [])
      rw [hrejected]
      exact .inl ⟨d, rfl, rfl, rfl, rfl⟩
  | ok s =>
      obtain ⟨p, hp, hbody⟩ := hok rfl
      rw [hp]
      exact .inr ⟨s, p, rfl, rfl, hbody, rfl, hbody⟩

private theorem head_segments {segments : List (List Token)}
    (h : ∀ s ∈ segments, Segment s) {last : Token} (hlast : last.kind = .eof) :
    ∀ t ∈ (segments.flatten ++ [last]).head?, t.kind ≠ .elseWord := by
  cases segments with
  | nil => exact head_of_eof hlast
  | cons segment segments =>
      intro t ht
      obtain ⟨⟨flat, semi, rfl, hflat, hsemi⟩, -⟩ := List.forall_mem_cons.mp h
      rw [List.flatten_cons, List.append_assoc, List.append_assoc] at ht
      exact fun helse => hflat.head hsemi t ht (by rw [helse]; decide)

/-- The statements in a row are read one by one, each as if it stood alone. -/
theorem readStatements_segments {segments : List (List Token)}
    (h : ∀ s ∈ segments, Segment s) {last : Token} (hlast : last.kind = .eof)
    (htokens : c.tokens = segments.flatten ++ [last]) {n : Nat}
    (hn : segments.length < n) : ∃ stop, standard.readStatements n c =
      ⟨segments.flatMap (statements file), segments.flatMap (complaints file),
        true, stop⟩ := by
  induction segments generalizing c n with
  | nil =>
      obtain ⟨n, rfl⟩ := Nat.exists_eq_succ_of_ne_zero (Nat.ne_zero_of_lt hn)
      have heof : c.current.kind = .eof := by
        rw [(List.cons.inj htokens).1, hlast]
      exact ⟨c, readStatements_eof heof n⟩
  | cons segment segments ih =>
      obtain ⟨n, rfl⟩ := Nat.exists_eq_succ_of_ne_zero (Nat.ne_zero_of_lt hn)
      obtain ⟨⟨flat, semi, rfl, hflat, hsemi⟩, hrest⟩ := List.forall_mem_cons.mp h
      have htokens' : c.tokens = flat ++ semi :: (segments.flatten ++ [last]) := by
        rw [htokens, List.flatten_cons, List.append_assoc, List.append_assoc]
        rfl
      have hhead := head_segments hrest hlast
      have hc := Cursor.terminated_of_tokens htokens hlast
      have hkind : c.current.kind ≠ .eof := by
        intro heof
        exact hflat.head hsemi c.current (by rw [← htokens']; rfl)
          (by rw [heof]; decide)
      obtain ⟨made, hmade, stop, hreading⟩ := exists_made file hflat hsemi
      have hcut : Cut [.eof semi.span.stop] (segments.flatten ++ [last]) :=
        ⟨List.cons_ne_nil _ _, List.concat_ne_nil last _, head_of_eof rfl, hhead⟩
      have hmade' := hmade.congr (Cursor.terminated_ofTokens _ _) hc
        (tokens_segment file hsemi) htokens' hcut
      obtain ⟨next, hnext, -, hon⟩ :=
        hmade'.readStatements_eq hsemi (List.concat_ne_nil last _) hkind
      obtain ⟨stop', hlater⟩ := ih hrest hnext (Nat.lt_of_succ_lt_succ hn)
      refine ⟨stop', ?_⟩
      rw [hon, hlater, List.flatMap_cons, List.flatMap_cons]
      rcases complaints_of_made file hreading
        with ⟨d, rfl, -, hcomplaints, hstatements⟩ |
        ⟨statement, p, rfl, -, -, hcomplaints, hstatements⟩
      all_goals
        rw [hcomplaints, hstatements]
        rfl

/-- The end is added behind tokens of other kinds. -/
theorem exists_tokens_ofTokens (h : ∀ t ∈ ts, t.kind ≠ .eof) :
    ∃ last : Token, last.kind = .eof ∧
      (Cursor.ofTokens file ts).tokens = ts ++ [last] := by
  rcases List.eq_nil_or_concat ts with rfl | ⟨front, t, rfl⟩
  · exact ⟨.eof (.first file), rfl, rfl⟩
  · rw [List.concat_eq_append] at h ⊢
    have ht : t.kind ≠ .eof := h t (List.mem_append_right front List.mem_cons_self)
    have hclosed : Cursor.closed file [t] = [t, .eof t.span.stop] := if_neg ht
    refine ⟨.eof t.span.stop, rfl, ?_⟩
    rw [Cursor.tokens_ofTokens, hclosed, List.append_assoc]
    rfl

theorem length_le_flatten {segments : List (List Token)} (h : ∀ s ∈ segments, s ≠ []) :
    segments.length ≤ segments.flatten.length := by
  induction segments with
  | nil => exact Nat.le_refl 0
  | cons segment segments ih =>
      obtain ⟨hne, hrest⟩ := List.forall_mem_cons.mp h
      have hpos := List.length_pos_iff.mpr hne
      have hle := ih hrest
      rw [List.flatten_cons, List.length_append, List.length_cons]
      omega

/-- Flat statements in a row are read, or reported, one by one. Each alone is read as
one statement or given up with one report; if none is given up, together they are the
program of these statements, and if some are, they are rejected for these reports. -/
theorem ofTokens_segments {segments : List (List Token)}
    (h : ∀ s ∈ segments, Segment s) :
    (∀ s ∈ segments,
        (∃ d, ofTokens file s = .error [d]) ∨ ∃ p statement, ofTokens file s = .ok p ∧
          p.body = [statement]) ∧
      (segments.flatMap (complaints file) ≠ [] →
        ofTokens file segments.flatten = .error (segments.flatMap (complaints file))) ∧
      (segments.flatMap (complaints file) = [] →
        ∃ p, ofTokens file segments.flatten = .ok p ∧
          p.body = segments.flatMap (statements file)) := by
  constructor
  · intro segment hsegment
    obtain ⟨flat, semi, rfl, hflat, hsemi⟩ := h segment hsegment
    obtain ⟨made, -, stop, hreading⟩ := exists_made file hflat hsemi
    rcases complaints_of_made file hreading
      with ⟨d, -, hrejected, -⟩ | ⟨statement, p, -, hp, hbody, -⟩
    · exact .inl ⟨d, hrejected⟩
    · exact .inr ⟨p, statement, hp, hbody⟩
  · have hkinds : ∀ t ∈ segments.flatten, t.kind ≠ .eof := by
      intro t ht
      obtain ⟨segment, hsegment, hmem⟩ := List.mem_flatten.mp ht
      obtain ⟨flat, semi, rfl, hflat, hsemi⟩ := h segment hsegment
      intro heq
      rcases List.mem_append.mp hmem with hmem | hmem
      · have hkind := hflat t hmem
        rw [heq] at hkind
        exact absurd hkind (by decide)
      · rw [List.mem_singleton.mp hmem, hsemi] at heq
        cases heq
    obtain ⟨last, hlast, htokens⟩ := exists_tokens_ofTokens file hkinds
    have hlength : segments.length < segments.flatten.length + 2 :=
      Nat.lt_of_le_of_lt (length_le_flatten fun s hs => Sentence.ne_nil (.inr (h s hs)))
        (Nat.lt_add_of_pos_right Nat.two_pos)
    obtain ⟨stop, hreading⟩ := readStatements_segments file h hlast htokens hlength
    have hread : readTokens file segments.flatten =
        ⟨segments.flatMap (statements file), segments.flatMap (complaints file), true,
          stop⟩ := hreading
    have hfinished : (readTokens file segments.flatten).finished = true := by rw [hread]
    obtain ⟨herror, hok⟩ := ofTokens_of_readTokens hfinished
    rw [hread] at herror hok
    exact ⟨herror, hok⟩

/-- A declaration without a variable, a statement, and a condition that is not
closed. -/
theorem ofTokens_segments_with_reports :
    ∃ segments : List (List Token),
      segments.map (·.map lexeme) =
        [[(.intType, "int"), (.semicolon, ";")],
          [(.writeWord, "write"), (.identifier, "x"), (.semicolon, ";")],
          [(.ifWord, "if"), (.openParen, "("), (.identifier, "x"), (.semicolon, ";")]] ∧
      (∀ s ∈ segments, Segment s) ∧
      (segments.flatMap (complaints "a")).map (·.cause) =
        [.unexpectedTokenDetailed ";" "expected identifier", .unexpectedToken ";"] ∧
      ofTokens "a" segments.flatten = .error (segments.flatMap (complaints "a")) := by
  let token (l : Lexeme) : Token := ⟨l.1, l.2, .at (.first "a")⟩
  let segments : List (List Token) :=
    [[token (.intType, "int"), token (.semicolon, ";")],
      [token (.writeWord, "write"), token (.identifier, "x"), token (.semicolon, ";")],
      [token (.ifWord, "if"), token (.openParen, "("), token (.identifier, "x"),
        token (.semicolon, ";")]]
  have hsegments : ∀ s ∈ segments, Segment s := by
    refine List.forall_mem_cons.mpr ⟨⟨[_], _, rfl, by simp [Flat]; decide, rfl⟩, ?_⟩
    refine List.forall_mem_cons.mpr ⟨⟨[_, _], _, rfl, by simp [Flat]; decide, rfl⟩, ?_⟩
    exact List.forall_mem_singleton.mpr ⟨[_, _, _], _, rfl, by simp [Flat]; decide, rfl⟩
  have hcauses : (segments.flatMap (complaints "a")).map (·.cause) =
      [.unexpectedTokenDetailed ";" "expected identifier", .unexpectedToken ";"] := by
    decide +kernel
  have hne : segments.flatMap (complaints "a") ≠ [] := by
    intro hnil
    rw [hnil] at hcauses
    cases hcauses
  exact ⟨segments, rfl, hsegments, hcauses, (ofTokens_segments "a" hsegments).2.1 hne⟩

end Program

end ScalarLang
