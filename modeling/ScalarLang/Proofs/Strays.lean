import ScalarLang.Proofs.Lookahead

/-!
# Stray characters by themselves

A text is rejected for its stray characters, and each is reported. The reports are
exact: with blanks in place of the reported characters the text is accepted, and with
blanks in place of all but one that one is reported again, in the same line and column.

Blanks in place of stray characters leave every other piece of the text as it is
(`Piece.Clears.solid_eq`). For most pieces this is so since none looks behind a blank.
The exception is a stray quote, which has looked for another one through the rest of its
line. The stray backslashes there are gone when it looks again, so that what they
escaped stands for itself. But whatever they escaped is stray itself or is neither a
quote nor a backslash (`Piece.Clears.quotedRest?_eq_none`).

Which characters are reported is told by their offsets, and these tell characters apart
only in a text that has fewer bytes than an offset can count. In a longer one a later
report may have the smaller offset (`Token.scan_strays_far_apart`).

## Main results

* `Token.scan_strays`: in a text with fewer bytes than an offset can count, what is
  reported is what keeps it from being accepted.
-/

namespace ScalarLang

open ScalarLang.Text

/-! ## Blanks in place of characters -/

/-- A text that is read from `offset` on, with blanks in place of the characters
at these places. -/
def Source.blanked (places : List Nat) : Nat → List Char → List Char
  | _, [] => []
  | offset, c :: cs =>
      (if offset ∈ places then ' ' else c) :: blanked places (offset + c.utf8Size) cs

/-- A source text with blanks in place of the characters that these reports are
about. -/
def Source.blank (source : String) (reports : List Diagnostic) : String :=
  String.ofList (blanked (reports.map (·.position.offset.toNat)) 0 source.toList)

namespace Source

variable {places : List Nat}

private theorem blanked_append (cs ds : List Char) (offset : Nat) :
    blanked places offset (cs ++ ds) = blanked places offset cs ++
      blanked places (offset + byteSize cs) ds := by
  induction cs generalizing offset with
  | nil => rfl
  | cons c cs ih =>
      rw [List.cons_append, blanked, blanked, ih, List.cons_append, byteSize,
        Nat.add_assoc]

private theorem blanked_of_not_mem {cs : List Char} {offset : Nat}
    (h : ∀ place, offset ≤ place → place < offset + byteSize cs → place ∉ places) :
    blanked places offset cs = cs := by
  induction cs generalizing offset with
  | nil => rfl
  | cons c cs ih =>
      have hpos := c.utf8Size_pos
      rw [byteSize] at h
      have hrest : blanked places (offset + c.utf8Size) cs = cs := by
        apply ih
        intro place hlow hhigh
        exact h place (by omega) (by omega)
      rw [blanked, if_neg (h offset (Nat.le_refl _) (by omega)), hrest]

end Source

/-! ## Where a reader finds a position -/

/-- A position without the bytes in front of it. -/
def Position.landmark (p : Position) : Position := { p with offset := 0 }

/-- A report that is about a position without the bytes in front of it. -/
def Diagnostic.landmark (d : Diagnostic) : Diagnostic := ⟨d.cause, d.position.landmark⟩

namespace Position

variable {p q : Position}

private theorem landmark_after (h : q.landmark = p.landmark) (c : Char) :
    (q.after c).landmark = (p.after c).landmark := by
  obtain ⟨_, line, column, file⟩ := p
  cases h
  unfold after
  split <;> rfl

private theorem landmark_afterAll (h : q.landmark = p.landmark) (cs : List Char) :
    (q.afterAll cs).landmark = (p.afterAll cs).landmark := by
  induction cs generalizing p q with
  | nil => exact h
  | cons c cs ih => exact ih (landmark_after h c)

/-- All characters of a line are as wide as a blank. -/
theorem landmark_after_blank (h : q.landmark = p.landmark) {c : Char} (hc : c ≠ '\n') :
    (q.after ' ').landmark = (p.after c).landmark := by
  obtain ⟨_, line, column, file⟩ := p
  cases h
  rw [after, if_neg (by decide), after, if_neg hc]
  rfl

end Position

namespace Piece

variable {kept : Option Nat} {p q : Position} {c d : Char}
  {cs ds rest rest' : List Char}

/-! ## Stray characters and the other pieces -/

/-- Whether a character is neither a quote nor a backslash. -/
def Plain (c : Char) : Prop := c ≠ '"' ∧ c ≠ '\\'

/-- Whether a piece is not stray and has neither quotes nor backslashes. -/
def Quiet (piece : Piece) : Prop := piece.sort ≠ .stray ∧ ∀ c ∈ piece.text, Plain c

theorem Plain.of_kind {f : Char → Bool} (hquote : f '"' = false)
    (hslash : f '\\' = false)
    (hc : f c = true) : Plain c := by
  constructor
  all_goals
    intro heq
    simp_all

private theorem quiet_word {text : List Char} (h : ∀ d ∈ text, isWordPart d = true) :
    (word text).Quiet :=
  ⟨PieceClass.noConfusion, fun d hd => .of_kind rfl rfl (h d hd)⟩

private theorem plain_fraction (cs : List Char) : ∀ d ∈ fraction cs, Plain d := by
  unfold fraction
  split
  · next e ds =>
      split
      · next he =>
          intro d hd
          rcases List.mem_cons.mp hd with rfl | hd
          · exact ⟨by decide, by decide⟩
          rcases List.mem_cons.mp hd with rfl | hd
          · exact .of_kind (f := Char.isDigit) rfl rfl he
          · exact .of_kind (f := Char.isDigit) rfl rfl (List.mem_takeWhile_imp hd)
      · exact List.forall_mem_nil _
  · exact List.forall_mem_nil _

private theorem quiet_number (hc : c.isDigit = true) (cs : List Char) :
    (number c cs).Quiet := by
  constructor
  · unfold number
    dsimp only
    split <;> exact PieceClass.noConfusion
  · intro d hd
    rw [text_number] at hd
    rcases List.mem_cons.mp hd with rfl | hd
    · exact .of_kind (f := Char.isDigit) rfl rfl hc
    rcases List.mem_append.mp hd with hd | hd
    · exact .of_kind (f := Char.isDigit) rfl rfl (List.mem_takeWhile_imp hd)
    · exact plain_fraction _ d hd

private theorem quiet_blanks {text : List Char} (h : ∀ d ∈ text, isBlank d = true) :
    Quiet ⟨.skipped, text⟩ :=
  ⟨PieceClass.noConfusion, fun d hd => .of_kind rfl rfl (h d hd)⟩

private theorem stray_or_quiet_fixed (c : Char) (cs : List Char) :
    fixed c cs = ⟨.stray, [c]⟩ ∨ (fixed c cs).Quiet := by
  unfold fixed
  split
  all_goals first
    | exact .inl rfl
    | exact .inr (by simp [Quiet, Plain, single])

/-- A piece is a stray character, a string, a comment up to the end of
the line, or quiet. -/
theorem front_cases (c : Char) (cs : List Char) :
    front c cs = ⟨.stray, [c]⟩ ∨ (c = '"' ∧ ∃ inner, quotedRest? cs = some inner) ∨
      (c = '/' ∧ front c cs = ⟨.skipped, c :: cs.takeWhile (· ≠ '\n')⟩) ∨
      (front c cs).Quiet := by
  unfold front
  by_cases hword : isWordStart c = true
  · rw [if_pos hword]
    have hpart := isWordPart_of_isWordStart hword
    refine .inr (.inr (.inr (quiet_word (List.forall_mem_cons.mpr ⟨hpart, ?_⟩))))
    exact fun d hd => List.mem_takeWhile_imp hd
  rw [if_neg hword]
  by_cases hdigit : c.isDigit = true
  · rw [if_pos hdigit]
    exact .inr (.inr (.inr (quiet_number hdigit cs)))
  rw [if_neg hdigit]
  by_cases hblank : isBlank c = true
  · rw [if_pos hblank]
    refine .inr (.inr (.inr (quiet_blanks (List.forall_mem_cons.mpr ⟨hblank, ?_⟩))))
    exact fun d hd => List.mem_takeWhile_imp hd
  rw [if_neg hblank]
  by_cases hstring : c = '"'
  · rw [if_pos hstring]
    unfold quotedString
    cases hsearch : quotedRest? cs with
    | none => exact .inl (by rw [hstring])
    | some inner => exact .inr (.inl ⟨hstring, inner, rfl⟩)
  rw [if_neg hstring]
  by_cases hcomment : c = '/' ∧ cs.head? = some '/'
  · rw [if_pos hcomment]
    exact .inr (.inr (.inl ⟨hcomment.1, rfl⟩))
  rw [if_neg hcomment]
  rcases stray_or_quiet_fixed c cs with hstray | hquiet
  · exact .inl hstray
  · exact .inr (.inr (.inr hquiet))

private theorem front_of_stray (h : (front c cs).sort = .stray) :
    front c cs = ⟨.stray, [c]⟩ := by
  rcases front_cases c cs with hstray | ⟨rfl, inner, hsearch⟩ | ⟨-, hcomment⟩ | hquiet
  · exact hstray
  · rw [front_quote, quotedString, hsearch] at h
    cases h
  · rw [hcomment] at h
    cases h
  · exact absurd h hquiet.1

private theorem front_quote_of_none (h : quotedRest? cs = none) :
    front '"' cs = ⟨.stray, ['"']⟩ := by
  rw [front_quote, quotedString, h]

private theorem ne_lineFeed_of_stray (h : (front c cs).sort = .stray) : c ≠ '\n' := by
  rintro rfl
  rw [front_blank rfl] at h
  cases h

/-! ## The search for the other quote -/

/-- The search passes characters that are plain, and does not come past a line feed. -/
theorem quotedRest?_plain_append {text : List Char} (h : ∀ d ∈ text, Plain d)
    (rest : List Char) :
    quotedRest? (text ++ rest) = none ↔ '\n' ∈ text ∨ quotedRest? rest = none := by
  induction text with
  | nil => exact (or_iff_right List.not_mem_nil).symm
  | cons d ds ih =>
      obtain ⟨⟨hquote, hslash⟩, hds⟩ := List.forall_mem_cons.mp h
      by_cases hfeed : d = '\n'
      · rw [hfeed]
        exact iff_of_true rfl (.inl List.mem_cons_self)
      · rw [List.cons_append, quotedRest?_plain hquote hfeed hslash,
          Option.map_eq_none_iff, ih hds, List.mem_cons, or_iff_right (Ne.symm hfeed)]

/-- The search ends with the line. -/
theorem quotedRest?_line (hend : ∀ d ∈ rest.head?, d = '\n') (text : List Char) :
    quotedRest? (text ++ rest) = quotedRest? text := by
  have hstop : quotedRest? rest = none ∧ quotedRest? ('\\' :: rest) = none := by
    cases rest with
    | nil => exact ⟨rfl, rfl⟩
    | cons d ds =>
        rw [hend d rfl]
        exact ⟨rfl, rfl⟩
  fun_induction quotedRest? text with
  | case1 => exact hstop.1
  | case2 | case3 | case4 => rfl
  | case5 c cs hfeed ih =>
      rw [List.cons_append, List.cons_append, quotedRest?_slash hfeed, ih]
  | case6 c cs hquote hfeed hlone hslash ih =>
      by_cases hc : c = '\\'
      · cases cs with
        | nil =>
            rw [hc]
            exact hstop.2
        | cons d ds => exact absurd rfl (hslash d ds hc)
      · rw [List.cons_append, quotedRest?_plain hquote hfeed hc, ih]

/-- A plain character does not mind a backslash in front of it. -/
theorem quotedRest?_of_slash (hc : Plain c)
    (h : quotedRest? (c :: cs) = none ∨ quotedRest? ('\\' :: c :: cs) = none) :
    quotedRest? (c :: cs) = none := by
  rcases h with h | h
  · exact h
  by_cases hfeed : c = '\n'
  · rw [hfeed]
    rfl
  · rw [quotedRest?_slash hfeed, Option.map_eq_none_iff] at h
    rw [quotedRest?_plain hc.1 hfeed hc.2, h]
    rfl

end Piece

/-- A gap does not depend on the text behind it, if a line that ended there still
does. -/
theorem Gap.behind {behind behind' gap : List Char} (h : Gap behind gap)
    (hhead : (∀ c ∈ behind.head?, c = '\n') → ∀ c ∈ behind'.head?, c = '\n') :
    Gap behind' gap := by
  induction h with
  | nil => exact .nil
  | blank hc _ ih => exact .blank hc ih
  | @comment text cs hline hend _ ih =>
      refine .comment hline ?_ ih
      cases cs with
      | nil => exact hhead hend
      | cons => exact hend

namespace Piece

variable {kept : Option Nat} {p q : Position} {c : Char} {cs ds rest rest' : List Char}

/-! ## Texts with blanks in place of stray characters -/

/-- Whether a text is another one with blanks in place of its stray characters, but not
of the one at `kept`. -/
inductive Clears (kept : Option Nat) : Position → List Char → List Char → Prop
  | nil {p : Position} : Clears kept p [] []
  | same {p : Position} {c : Char} {cs rest rest' : List Char}
      (hrest : (front c cs).text ++ rest = c :: cs)
      (hkept : (front c cs).sort = .stray → kept = some p.offset.toNat)
      (h : Clears kept (p.afterAll (front c cs).text) rest rest') :
      Clears kept p (c :: cs) ((front c cs).text ++ rest')
  | blank {p : Position} {c : Char} {cs cs' : List Char}
      (hstray : (front c cs).sort = .stray)
      (hkept : kept ≠ some p.offset.toNat) (h : Clears kept (p.after c) cs cs') :
      Clears kept p (c :: cs) (' ' :: cs')

/-- Whether a piece is there still. -/
def remains (kept : Option Nat) (found : Position × Piece) : Bool :=
  decide (found.2.sort = .stray → kept = some found.1.offset.toNat)

/-- A placed piece as a reader finds it. -/
def sight (found : Position × Piece) : Position × Piece := (found.1.landmark, found.2)

namespace Clears

private theorem fades (h : Clears kept p cs ds) : Fades cs ds := by
  induction h with
  | nil => exact .nil
  | same hrest _ _ ih =>
      rw [← hrest]
      exact ih.append _
  | blank => exact .blank rfl

/-- A line ends where it ended. -/
theorem head_lineFeed (h : Clears kept p cs ds) (hcs : ∀ c ∈ cs.head?, c = '\n') :
    ∀ c ∈ ds.head?, c = '\n' := by
  cases h with
  | nil => exact hcs
  | @same _ c cs rest rest' hrest _ _ =>
      obtain ⟨d, ds, htext⟩ := List.exists_cons_of_ne_nil (front_text_ne_nil c cs)
      rw [htext] at hrest ⊢
      rw [← hrest] at hcs
      exact hcs
  | blank hstray => exact absurd (hcs _ rfl) (ne_lineFeed_of_stray hstray)

/-- Without its stray characters, no quote is the one that was looked for either, behind
a backslash or not. -/
theorem quotedRest?_eq_none (h : Clears kept p cs ds) (hfits : p.Fits cs)
    (hkept : ∀ place ∈ kept, place < p.offset.toNat)
    (hnone : quotedRest? cs = none ∨ quotedRest? ('\\' :: cs) = none) :
    quotedRest? ds = none := by
  induction h with
  | nil => rfl
  | @same p c cs rest rest' hrest hstray hclears ih =>
      rw [← hrest] at hfits
      have hbehind : ∀ place ∈ kept,
          place < (p.afterAll (front c cs).text).offset.toNat := by
        intro place hplace
        have hlt := hkept place hplace
        rw [hfits.left.toNat_offset]
        omega
      have hsort : (front c cs).sort ≠ .stray :=
        fun hsort => Nat.lt_irrefl _ (hkept _ (hstray hsort))
      rcases front_cases c cs with hfront | ⟨rfl, inner, hsearch⟩ | ⟨rfl,
        hcomment⟩ | hquiet
      · rw [hfront] at hsort
        exact absurd rfl hsort
      · -- a string starts here, so the search would have ended with this quote or with
        -- the next one
        rcases hnone with hnone | hnone
        · cases hnone
        · rw [quotedRest?_slash (by decide), hsearch] at hnone
          cases hnone
      · have hsearch : quotedRest? ('/' :: cs) = none :=
          quotedRest?_of_slash ⟨by decide, by decide⟩ hnone
        rw [← hrest] at hsearch
        have hend : ∀ d ∈ rest.head?, d = '\n' := by
          rw [hcomment] at hrest
          exact (lineFeed_of_takeWhile (List.cons.inj hrest).2).2
        rw [quotedRest?_line hend] at hsearch
        rw [quotedRest?_line (hclears.head_lineFeed hend), hsearch]
      · have hplain : Plain c := by
          obtain ⟨d, ds, htext⟩ := List.exists_cons_of_ne_nil (front_text_ne_nil c cs)
          have hmem := hquiet.2 d (by rw [htext]; exact List.mem_cons_self)
          rw [htext] at hrest
          rwa [(List.cons.inj hrest).1] at hmem
        have hsearch : quotedRest? (c :: cs) = none := quotedRest?_of_slash hplain hnone
        rw [← hrest, quotedRest?_plain_append hquiet.2] at hsearch
        rw [quotedRest?_plain_append hquiet.2]
        exact hsearch.imp_right fun hrest => ih hfits.behind hbehind (.inl hrest)
  | @blank p c cs cs' hstray _ _ ih =>
      have hfits : p.Fits ([c] ++ cs) := hfits
      have hbehind : ∀ place ∈ kept, place < (p.afterAll [c]).offset.toNat := by
        intro place hplace
        have hlt := hkept place hplace
        rw [hfits.left.toNat_offset]
        omega
      have hfeed := ne_lineFeed_of_stray hstray
      have hinner : quotedRest? cs = none ∨ quotedRest? ('\\' :: cs) = none := by
        rcases hnone with hnone | hnone
        · by_cases hslash : c = '\\'
          · exact .inr (hslash ▸ hnone)
          · have hquote : c ≠ '"' := by
              rintro rfl
              cases hnone
            rw [quotedRest?_plain hquote hfeed hslash, Option.map_eq_none_iff] at hnone
            exact .inl hnone
        · rw [quotedRest?_slash hfeed, Option.map_eq_none_iff] at hnone
          exact .inl hnone
      rw [quotedRest?_plain (by decide) (by decide) (by decide),
        ih hfits.behind hbehind hinner]
      rfl

/-- The piece in front of the rest is found again. -/
theorem front_eq (hrest : (front c cs).text ++ rest = c :: cs)
    (hfits : p.Fits (c :: cs)) (htext : (front c cs).text = c :: ds)
    (hkept : (front c cs).sort = .stray → kept = some p.offset.toNat)
    (h : Clears kept (p.afterAll (front c cs).text) rest rest')
    (hsort : (front c cs).sort ≠ .skipped) :
    front c (ds ++ rest') = front c cs := by
  have hcs : cs = ds ++ rest := by
    rw [htext] at hrest
    exact (List.cons.inj hrest).2.symm
  by_cases hquote : front c cs = ⟨.stray, ['"']⟩
  · obtain ⟨rfl, rfl⟩ : c = '"' ∧ ds = [] := by
      rw [hquote] at htext
      obtain ⟨hc, hds⟩ := List.cons.inj htext
      exact ⟨hc.symm, hds.symm⟩
    have hnone : quotedRest? rest = none := by
      rw [hcs, List.nil_append, front_quote, quotedString] at hquote
      cases hsearch : quotedRest? rest with
      | none => rfl
      | some inner =>
          rw [hsearch] at hquote
          cases hquote
    rw [← hrest] at hfits
    have hbehind : ∀ place ∈ kept,
        place < (p.afterAll (front '"' cs).text).offset.toNat := by
      intro place hplace
      rw [hkept (by rw [hquote]), Option.mem_some_iff] at hplace
      rw [hfits.left.toNat_offset, ← hplace, htext]
      exact Nat.lt_add_of_pos_right (Nat.add_pos_left (Char.utf8Size_pos _) _)
    rw [hquote, List.nil_append]
    exact front_quote_of_none (h.quotedRest?_eq_none hfits.behind hbehind (.inl hnone))
  · rw [hcs] at htext hsort hquote ⊢
    exact front_of_fades h.fades htext hsort hquote

/-- The pieces of a text are still there, but for the stray characters that are not. -/
theorem solid_eq (h : Clears kept p cs ds) (hfits : p.Fits cs)
    (hq : q.landmark = p.landmark) :
    (solid q ds).map sight = ((solid p cs).filter (remains kept)).map sight := by
  induction h generalizing q with
  | nil => rfl
  | @same p c cs rest rest' hrest hkept h ih =>
      have hbehind : p.Fits ((front c cs).text ++ rest) := hrest ▸ hfits
      have htail := ih hbehind.behind (Position.landmark_afterAll hq (front c cs).text)
      by_cases hsort : (front c cs).sort = .skipped
      · rw [solid_skipped hrest hsort,
          solid_gap ((gap_of_front hsort hrest).behind h.head_lineFeed), htail]
      · obtain ⟨d, ds, htext⟩ := List.exists_cons_of_ne_nil (front_text_ne_nil c cs)
        obtain rfl : d = c := by
          rw [htext] at hrest
          exact (List.cons.inj hrest).1
        have hfront := front_eq hrest hfits htext hkept h hsort
        have hrest' : (front d (ds ++ rest')).text ++ rest' = d :: (ds ++ rest') := by
          rw [hfront, htext]; rfl
        have hremains : remains kept (p, front d cs) = true := decide_eq_true hkept
        rw [htext, List.cons_append, solid_front hrest' (by rwa [hfront]), hfront,
          solid_front hrest hsort,
          List.filter_cons_of_pos hremains, List.map_cons, List.map_cons, htail,
          sight, sight, hq]
  | @blank p c cs cs' hstray hkept _ ih =>
      have hfront := front_of_stray hstray
      have hrest : (front c cs).text ++ cs = c :: cs := by rw [hfront]; rfl
      have hremains : ¬ remains kept (p, front c cs) = true := by
        intro hremains
        exact hkept (of_decide_eq_true hremains hstray)
      have hfits : p.Fits ([c] ++ cs) := hfits
      have htail :=
        ih hfits.behind (Position.landmark_after_blank hq (ne_lineFeed_of_stray hstray))
      rw [solid_blank rfl, htail,
        solid_front hrest (by rw [hfront]; exact PieceClass.noConfusion),
        List.filter_cons_of_neg hremains, hfront]
      rfl

end Clears

/-! ## Reports -/

/-- The reports of a text that starts at `p`. -/
def reported (p : Position) (cs : List Char) : List Diagnostic :=
  (solid p cs).filterMap report?

theorem reported_cons (hrest : (front c cs).text ++ rest = c :: cs) :
    reported p (c :: cs) = (report? (p, front c cs)).toList ++
      reported (p.afterAll (front c cs).text) rest := by
  unfold reported
  by_cases hsort : (front c cs).sort = .skipped
  · rw [solid_skipped hrest hsort, report?_skipped _ hsort]
    rfl
  · rw [solid_front hrest hsort, List.filterMap_cons]
    cases report? (p, front c cs) <;> rfl

theorem report?_eq_some_iff {d : Diagnostic} :
    report? (p, front c cs) = some d ↔
      (front c cs).sort = .stray ∧ d = ⟨.unrecognisedToken (String.ofList [c]), p⟩ := by
  by_cases hsort : (front c cs).sort = .stray
  · rw [front_of_stray hsort, report?, Option.some.injEq, and_iff_right rfl, eq_comm]
  · rw [iff_false_right (fun h => hsort h.1)]
    unfold report?
    split
    · next heq =>
        rw [(Prod.mk.inj heq).2] at hsort
        exact absurd rfl hsort
    · exact Option.some_ne_none d ∘ Eq.symm

theorem mem_reported_cons (hrest : (front c cs).text ++ rest = c :: cs)
    {d : Diagnostic} :
    d ∈ reported p (c :: cs) ↔
    ((front c cs).sort = .stray ∧ d = ⟨.unrecognisedToken (String.ofList [c]), p⟩) ∨
      d ∈ reported (p.afterAll (front c cs).text) rest := by
  rw [reported_cons hrest, List.mem_append, Option.mem_toList, report?_eq_some_iff]

private theorem lt_offset_afterAll_front (hrest : (front c cs).text ++ rest = c :: cs)
    (hfits : p.Fits (c :: cs)) :
    p.offset.toNat < (p.afterAll (front c cs).text).offset.toNat := by
  obtain ⟨d, ds, htext⟩ := List.exists_cons_of_ne_nil (front_text_ne_nil c cs)
  rw [← hrest] at hfits
  rw [hfits.left.toNat_offset, htext]
  exact Nat.lt_add_of_pos_right (Nat.add_pos_left d.utf8Size_pos _)

private theorem le_offset_of_mem_reported (hfits : p.Fits cs) {d : Diagnostic}
    (hd : d ∈ reported p cs) :
    p.offset.toNat ≤ d.position.offset.toNat := by
  induction cs using front_induction generalizing p with
  | nil => cases hd
  | cons c cs rest hrest ih =>
      rcases (mem_reported_cons hrest).mp hd with ⟨-, rfl⟩ | hd
      · exact Nat.le_refl _
      · have hlt := lt_offset_afterAll_front hrest hfits
        rw [← hrest] at hfits
        exact Nat.le_trans (Nat.le_of_lt hlt) (ih hfits.behind hd)

/-- Reports are about places that follow each other. -/
theorem pairwise_reported (hfits : p.Fits cs) :
    (reported p cs).Pairwise fun d e => d.position.offset < e.position.offset := by
  induction cs using front_induction generalizing p with
  | nil => exact .nil
  | cons c cs rest hrest ih =>
      have hlt := lt_offset_afterAll_front hrest hfits
      rw [reported_cons hrest]
      rw [← hrest] at hfits
      have htail := ih hfits.behind
      cases hreport : report? (p, front c cs) with
      | none => exact htail
      | some d =>
          obtain ⟨-, rfl⟩ := report?_eq_some_iff.mp hreport
          refine .cons (fun e he => ?_) htail
          exact Nat.lt_of_lt_of_le hlt (le_offset_of_mem_reported hfits.behind he)

/-- A report names the character at its place. -/
theorem slice_of_mem_reported {source : String} {passed : List Char}
    (hsource : source.toList = passed ++ cs)
    (hp : p.offset.toNat = Source.byteSize passed) (hfits : p.Fits cs) {d : Diagnostic}
    (hd : d ∈ reported p cs) :
    ∃ c back, d.cause = .unrecognisedToken (String.ofList [c]) ∧
      Source.Slice source d.position.offset (d.position.after c).offset [c] back := by
  induction cs using front_induction generalizing p passed with
  | nil => cases hd
  | cons c cs rest hrest ih =>
      rcases (mem_reported_cons hrest).mp hd with ⟨-, rfl⟩ | hd
      · have hfits : p.Fits ([c] ++ cs) := hfits
        have hstop : (p.afterAll [c]).offset.toNat =
            Source.byteSize (passed ++ [c]) := by
          rw [hfits.left.toNat_offset, Source.byteSize_append, hp]
        exact ⟨c, cs, rfl, passed, hsource, hp.symm, hstop.symm⟩
      · rw [← hrest] at hfits
        have hp' : (p.afterAll (front c cs).text).offset.toNat =
            Source.byteSize (passed ++ (front c cs).text) := by
          rw [hfits.left.toNat_offset, hp, Source.byteSize_append]
        refine ih ?_ hp' hfits.behind hd
        rw [List.append_assoc, hrest, hsource]

/-- Blanks in the places of all reports but the one at `kept` are blanks in place of
stray characters. -/
theorem clears_blanked {places : List Nat} (hfits : p.Fits cs)
    (hplaces : ∀ place, p.offset.toNat ≤ place → (place ∈ places ↔
      kept ≠ some place ∧ ∃ d ∈ reported p cs, d.position.offset.toNat = place)) :
    Clears kept p cs (Source.blanked places p.offset.toNat cs) := by
  induction cs using front_induction generalizing p with
  | nil => exact .nil
  | cons c cs rest hrest ih =>
      have hlt := lt_offset_afterAll_front hrest hfits
      have hsplit : p.Fits ((front c cs).text ++ rest) := hrest ▸ hfits
      have hnext := hsplit.left.toNat_offset
      -- behind the first piece, the report about it does not count
      have hbehind := ih hsplit.behind fun place hplace => by
        rw [hplaces place (by omega)]
        refine and_congr_right fun _ => exists_congr fun d =>
          and_congr_left fun hd => ?_
        rw [mem_reported_cons hrest, or_iff_right]
        rintro ⟨-, rfl⟩
        dsimp only at hd
        omega
      by_cases hblank : (front c cs).sort = .stray ∧ kept ≠ some p.offset.toNat
      · obtain ⟨hsort, hkept⟩ := hblank
        have hfront := front_of_stray hsort
        obtain rfl : rest = cs := by
          rw [hfront] at hrest
          exact (List.cons.inj hrest).2
        have hmem : p.offset.toNat ∈ places :=
          (hplaces _ (Nat.le_refl _)).mpr
            ⟨hkept, _, (mem_reported_cons hrest).mpr (.inl ⟨hsort, rfl⟩), rfl⟩
        rw [hnext, hfront] at hbehind
        rw [Source.blanked, if_pos hmem]
        exact .blank hsort hkept hbehind
      · have hfree : ∀ place, p.offset.toNat ≤ place →
            place < p.offset.toNat + Source.byteSize (front c cs).text →
            place ∉ places := by
          intro place hlow hhigh hmem
          obtain ⟨hkept, d, hd, rfl⟩ := (hplaces place hlow).mp hmem
          rcases (mem_reported_cons hrest).mp hd with ⟨hsort, rfl⟩ | hd
          · exact hblank ⟨hsort, hkept⟩
          · have hle := le_offset_of_mem_reported hsplit.behind hd
            omega
        have htext : Source.blanked places p.offset.toNat (c :: cs) =
            (front c cs).text ++
            Source.blanked places (p.afterAll (front c cs).text).offset.toNat rest := by
          have hparts :=
            @Source.blanked_append places (front c cs).text rest p.offset.toNat
          rwa [hrest, Source.blanked_of_not_mem hfree, ← hnext] at hparts
        rw [htext]
        exact .same hrest (fun hsort => not_not.mp fun hkept =>
          hblank ⟨hsort, hkept⟩) hbehind

private theorem landmark_report?_sight (found : Position × Piece) :
    (report? (sight found)).map Diagnostic.landmark =
      (report? found).map Diagnostic.landmark := by
  obtain ⟨p, ⟨sort, text⟩⟩ := found
  cases sort <;> rfl

/-- Pieces that a reader finds in the same places are reported there. -/
theorem landmark_reports {found found' : List (Position × Piece)}
    (h : found.map sight = found'.map sight) :
    (found.filterMap report?).map Diagnostic.landmark =
      (found'.filterMap report?).map Diagnostic.landmark := by
  have hsight (found : List (Position × Piece)) :
      (found.filterMap report?).map Diagnostic.landmark =
        (found.map sight).filterMap fun entry =>
          (report? entry).map Diagnostic.landmark := by
    rw [List.map_filterMap, List.filterMap_map]
    exact congrArg (found.filterMap ·) (funext fun entry =>
      (landmark_report?_sight entry).symm)
  rw [hsight, hsight, h]

private theorem filterMap_remains (kept : Option Nat)
    (found : List (Position × Piece)) :
    (found.filter (remains kept)).filterMap report? =
      (found.filterMap report?).filter fun d =>
        kept = some d.position.offset.toNat := by
  rw [List.filterMap_filter, List.filter_filterMap]
  refine congrArg (found.filterMap ·) (funext fun entry => ?_)
  obtain ⟨p, ⟨sort, text⟩⟩ := entry
  cases sort with
  | skipped | token => exact ite_self none
  | stray => simp [remains, report?, Option.filter_some]

/-- The reports of a text with blanks in place of stray characters are those about the
one that is kept. -/
theorem Clears.reported_eq (h : Clears kept p cs ds) (hfits : p.Fits cs)
    (hq : q.landmark = p.landmark) :
    (reported q ds).map Diagnostic.landmark =
      ((reported p cs).filter fun d => kept = some d.position.offset.toNat).map
        Diagnostic.landmark := by
  have hreports := landmark_reports (h.solid_eq hfits hq)
  rwa [filterMap_remains] at hreports

end Piece

namespace Token

open Piece

variable {file source : String}

theorem scan_eq_error_iff {reports : List Diagnostic} :
    scan file source = .error reports ↔ reported (.first file) source.toList = reports ∧
    reports ≠ [] := by
  rw [scan_eq_solid]
  unfold reported
  split
  · next hnil =>
      rw [hnil]
      exact iff_of_false (fun h => nomatch h) fun h => h.2 h.1.symm
  · next hne =>
      rw [Except.error.injEq]
      exact ⟨fun h => ⟨h, h ▸ hne⟩, fun h => h.1⟩

private theorem exists_scan_eq_ok (h : reported (.first file) source.toList = []) :
    ∃ tokens, scan file source = .ok tokens := by
  cases hscan : scan file source with
  | ok tokens => exact ⟨tokens, rfl⟩
  | error reports =>
      obtain ⟨hreports, hne⟩ := scan_eq_error_iff.mp hscan
      exact absurd (hreports.symm.trans h) hne

/-- With blanks in the places of all reports but the one at `kept`, only
that one is left. -/
theorem reported_blank (hfits : (Position.first file).Fits source.toList)
    {reports : List Diagnostic} (kept : Option Nat)
    (hplaces : ∀ d ∈ reported (.first file) source.toList,
      d ∈ reports ↔ kept ≠ some d.position.offset.toNat)
    (hreports : ∀ d ∈ reports, d ∈ reported (.first file) source.toList) :
    (reported (.first file) (Source.blank source reports).toList).map
        Diagnostic.landmark =
      ((reported (.first file) source.toList).filter
        fun d => kept = some d.position.offset.toNat).map Diagnostic.landmark := by
  have hclears : Clears kept (.first file) source.toList
      (Source.blanked (reports.map (·.position.offset.toNat)) 0 source.toList) := by
    apply clears_blanked hfits
    intro place _
    constructor
    · intro hmem
      obtain ⟨d, hd, rfl⟩ := List.mem_map.mp hmem
      have hreported := hreports d hd
      exact ⟨(hplaces d hreported).mp hd, d, hreported, rfl⟩
    · rintro ⟨hkept, d, hd, rfl⟩
      exact List.mem_map.mpr ⟨d, (hplaces d hd).mpr hkept, rfl⟩
  rw [Source.blank, String.toList_ofList]
  exact hclears.reported_eq hfits rfl

/-- No two reports are about the same place. -/
private theorem nodup_places {p : Position} {cs : List Char} (hfits : p.Fits cs) :
    ((reported p cs).map (·.position.offset.toNat)).Nodup :=
  List.pairwise_map.mpr ((pairwise_reported hfits).imp Nat.ne_of_lt)

private theorem eq_of_mem_reported {p : Position} {cs : List Char} (hfits : p.Fits cs)
    {d e : Diagnostic} (hd : d ∈ reported p cs) (he : e ∈ reported p cs)
    (h : d.position.offset.toNat = e.position.offset.toNat) : d = e :=
  List.inj_on_of_nodup_map (nodup_places hfits) hd he h

private theorem filter_reported {p : Position} {cs : List Char} (hfits : p.Fits cs)
    {d : Diagnostic} (hd : d ∈ reported p cs) :
    ((reported p cs).filter fun e =>
      some d.position.offset.toNat = some e.position.offset.toNat) = [d] := by
  have hsame : ∀ e ∈ reported p cs,
      decide (some d.position.offset.toNat = some e.position.offset.toNat) =
        decide (e = d) := by
    intro e he
    refine decide_eq_decide.mpr
      ⟨fun h => (eq_of_mem_reported hfits hd he (Option.some.inj h)).symm, ?_⟩
    rintro rfl
    rfl
  rw [List.filter_congr hsame, List.filter_eq,
    List.count_eq_one_of_mem (nodup_places hfits).of_map hd]
  rfl

/-- What is reported is what keeps a text, with fewer bytes than an offset can count,
from being accepted: blanks in the places of all reports lead to a text that is
accepted, and blanks in the places of all reports but one to a text of which that one
is the only report. Each names the character at its place, and they are in the order
of their places. -/
theorem scan_strays (hsize : source.utf8ByteSize < UInt32.size)
    {reports : List Diagnostic} (h : scan file source = .error reports) :
    (∃ tokens, scan file (Source.blank source reports) = .ok tokens) ∧
      (∀ d ∈ reports, ∃ offset,
        scan file (Source.blank source (reports.filter (· ≠ d))) =
        .error [⟨d.cause, { d.position with offset := offset }⟩]) ∧
      (∀ d ∈ reports, ∃ c back, d.cause = .unrecognisedToken (String.ofList [c]) ∧
        Source.Slice source d.position.offset (d.position.after c).offset [c] back) ∧
      reports.Pairwise fun d e => d.position.offset < e.position.offset := by
  have hfits := Position.fits_first hsize file
  obtain ⟨rfl, -⟩ := scan_eq_error_iff.mp h
  refine ⟨?_, fun d hd => ?_, ?_, pairwise_reported hfits⟩
  · have hall : ∀ d ∈ reported (.first file) source.toList,
        d ∈ reported (.first file) source.toList ↔
        none ≠ some d.position.offset.toNat :=
      fun d hd => iff_of_true hd (Option.some_ne_none _).symm
    have hnone := reported_blank hfits none hall fun d hd => hd
    rw [List.filter_eq_nil_iff.mpr (by simp)] at hnone
    exact exists_scan_eq_ok (List.map_eq_nil_iff.mp hnone)
  · have hothers : ∀ e ∈ reported (.first file) source.toList,
        e ∈ (reported (.first file) source.toList).filter (· ≠ d) ↔
          some d.position.offset.toNat ≠ some e.position.offset.toNat := by
      intro e he
      rw [List.mem_filter, and_iff_right he, decide_eq_true_iff, not_iff_not,
        Option.some.injEq]
      exact ⟨fun h => congrArg (·.position.offset.toNat) h.symm,
        fun h => (eq_of_mem_reported hfits hd he h).symm⟩
    have halone := reported_blank hfits (some d.position.offset.toNat) hothers
      fun e he => (List.mem_filter.mp he).1
    rw [filter_reported hfits hd] at halone
    obtain ⟨e, he, hlandmark⟩ := List.map_eq_singleton_iff.mp halone
    refine ⟨e.position.offset, scan_eq_error_iff.mpr ⟨?_, List.cons_ne_nil _ _⟩⟩
    obtain ⟨cause, ⟨offset, line, column, file'⟩⟩ := d
    cases hlandmark
    exact he
  · exact fun d hd => slice_of_mem_reported (List.nil_append _).symm rfl hfits hd

/-- A string that is not closed: its quote, a backslash, the quote that this escapes, a
letter of two bytes and half an operator are reported one by one. -/
theorem scan_strays_behind_quote :
    "x = \"\\\"é & 1;".utf8ByteSize < UInt32.size ∧
      ∃ reports, scan "a" "x = \"\\\"é & 1;" = .error reports ∧
        reports.map (fun d => (d.cause, d.position.offset)) =
          [(.unrecognisedToken "\"", 4), (.unrecognisedToken "\\", 5),
            (.unrecognisedToken "\"", 6), (.unrecognisedToken "é", 7),
            (.unrecognisedToken "&", 10)] ∧
        (∃ tokens, scan "a" (Source.blank "x = \"\\\"é & 1;" reports) = .ok tokens) ∧
        ∀ d ∈ reports, ∃ offset,
          scan "a" (Source.blank "x = \"\\\"é & 1;" (reports.filter (· ≠ d))) =
            .error [⟨d.cause, { d.position with offset := offset }⟩] := by
  have hsize : "x = \"\\\"é & 1;".utf8ByteSize < UInt32.size := by decide
  obtain ⟨reports, hreports⟩ :
      ∃ reports, scan "a" "x = \"\\\"é & 1;" = .error reports :=
    ⟨_, rfl⟩
  obtain ⟨hall, halone, -, -⟩ := scan_strays hsize hreports
  refine ⟨hsize, reports, hreports, ?_, hall, halone⟩
  cases hreports
  decide +kernel

/-- Two stray characters that stand too far apart for offsets: the second one is
reported at the smaller offset. -/
theorem scan_strays_far_apart :
    (String.ofList (Source.apart '@' '@')).utf8ByteSize = UInt32.size + 2 ∧
      ∃ reports, scan "a" (String.ofList (Source.apart '@' '@')) = .error reports ∧
        reports.map (fun d => (d.cause, d.position.offset)) =
          [(.unrecognisedToken "@", 65536), (.unrecognisedToken "@", 1)] ∧
        ¬ reports.Pairwise fun d e => d.position.offset < e.position.offset := by
  have hapart : Piece.Apart '@' '@' .stray .stray :=
    ⟨fun _ => rfl, fun _ => rfl, by decide, by decide⟩
  have hscan : scan "a" (String.ofList (Source.apart '@' '@')) =
      .error [⟨.unrecognisedToken "@", ⟨65536, 2, 0, "a"⟩⟩,
        ⟨.unrecognisedToken "@", ⟨1, 65537, 0, "a"⟩⟩] := by
    rw [scan_eq, String.toList_ofList, hapart.placed_eq]
    rfl
  refine ⟨hapart.utf8ByteSize_eq, _, hscan, rfl, ?_⟩
  intro hpairwise
  exact absurd (List.rel_of_pairwise_cons hpairwise List.mem_cons_self) (by decide)

end Token

end ScalarLang
