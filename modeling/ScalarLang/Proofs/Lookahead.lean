import ScalarLang.Proofs.Caret
import ScalarLang.Proofs.Coverage

/-!
# What ends a piece

Where a piece ends depends on the text behind it, but on next to nothing of that. A word
ends before the first character that is no part of one, an operator looks at one more
character, a number at two, and a blank ends them all. So the text behind a piece can be
replaced from any blank on, and it can be replaced by one that has a blank where it goes
another way (`Fades`): the piece stays what it was (`Piece.front_of_fades`). A string
ends with a quote of its own. The one piece that looks further is a quote without a
partner, which looks through the rest of its line.

What is skipped leaves no trace in the tokens. So blanks may be taken off a text one at
a time (`Piece.solid_blank`), whatever runs they form, and gaps as a whole
(`Piece.solid_gap`).

## Main results

* `Piece.solid_gap`: behind a gap stand the pieces of the text behind it.
* `Piece.front_of_fades`: a piece does not depend on what stands behind a blank.
-/

namespace ScalarLang

open ScalarLang.Text

namespace Piece

/-- What is so of no characters, and of a text if it is so of what its first piece
leaves, is so of every text. -/
@[elab_as_elim]
theorem front_induction {motive : List Char → Prop} (nil : motive [])
    (cons : ∀ c cs rest, (front c cs).text ++ rest = c :: cs → motive rest →
      motive (c :: cs))
    (cs : List Char) :
    motive cs := by
  induction hn : cs.length using Nat.strongRecOn generalizing cs with
  | ind n ih =>
      cases cs with
      | nil => exact nil
      | cons c cs =>
          obtain ⟨rest, hrest⟩ := front_isPrefix c cs
          have hpos := List.length_pos_iff.mpr (front_text_ne_nil c cs)
          have hlength := congrArg List.length hrest
          rw [List.length_append, hn] at hlength
          exact cons c cs rest hrest (ih rest.length (by omega) rest rfl)

/-! ## Pieces that are not skipped -/

/-- The pieces of a text that are not skipped, each with the position it starts at. -/
def solid (p : Position) (cs : List Char) : List (Position × Piece) :=
  (placed p (split cs)).filter fun found => found.2.sort ≠ .skipped

variable {p : Position} {c d : Char} {cs ds rest rest' : List Char}

theorem solid_skipped (h : (front c cs).text ++ rest = c :: cs)
    (hsort : (front c cs).sort = .skipped) :
    solid p (c :: cs) = solid (p.afterAll (front c cs).text) rest := by
  unfold solid
  rw [Token.split_front h, placed, List.filter_cons_of_neg (by simp [hsort])]

theorem solid_front (h : (front c cs).text ++ rest = c :: cs)
    (hsort : (front c cs).sort ≠ .skipped) :
    solid p (c :: cs) = (p, front c cs) ::
      solid (p.afterAll (front c cs).text) rest := by
  unfold solid
  rw [Token.split_front h, placed, List.filter_cons_of_pos (by simp [hsort])]

/-- What takes no notice of skipped pieces can be read off the others. -/
theorem filterMap_solid {α : Type} {f : Position × Piece → Option α} (p : Position)
    (cs : List Char) (hf : ∀ found, found.2.sort = .skipped → f found = none) :
    (solid p cs).filterMap f = (placed p (split cs)).filterMap f := by
  unfold solid
  induction placed p (split cs) with
  | nil => rfl
  | cons found rest ih =>
      by_cases hsort : found.2.sort = .skipped
      · rw [List.filter_cons_of_neg (by simp [hsort]),
          List.filterMap_cons_none (hf found hsort)]
        exact ih
      · rw [List.filter_cons_of_pos (by simp [hsort]), List.filterMap_cons,
          List.filterMap_cons, ih]

private theorem token?_skipped (found : Position × Piece)
    (h : found.2.sort = .skipped) : token? found = none := by
  obtain ⟨p, ⟨sort, text⟩⟩ := found
  cases h
  rfl

theorem report?_skipped (found : Position × Piece) (h : found.2.sort = .skipped) :
    report? found = none := by
  obtain ⟨p, ⟨sort, text⟩⟩ := found
  cases h
  rfl

/-- Scanning takes no notice of skipped pieces. -/
theorem scan_eq_solid (file source : String) :
    Token.scan file source =
      match (solid (.first file) source.toList).filterMap report? with
      | [] => .ok ((solid (.first file) source.toList).filterMap token? ++
          [.eof ((Position.first file).afterAll source.toList)])
      | reports => .error reports := by
  rw [filterMap_solid _ _ report?_skipped, filterMap_solid _ _ token?_skipped]
  exact Token.scan_eq file source

/-! ## What is skipped -/

theorem front_blank (hc : isBlank c = true) (cs : List Char) :
    front c cs = ⟨.skipped, c :: cs.takeWhile isBlank⟩ := by
  have hword : ¬ isWordStart c = true := by
    intro hword
    rw [isBlank_of_isWordPart (isWordPart_of_isWordStart hword)] at hc
    cases hc
  have hdigit : ¬ c.isDigit = true := by
    intro hdigit
    rw [isBlank_of_isDigit hdigit] at hc
    cases hc
  unfold front
  rw [if_neg hword, if_neg hdigit, if_pos hc]

private theorem front_comment {text : List Char} (hline : '\n' ∉ text)
    (hend : ∀ d ∈ rest.head?, d = '\n') :
    front '/' ('/' :: (text ++ rest)) = ⟨.skipped, '/' :: '/' :: text⟩ := by
  have hinside : ∀ d ∈ '/' :: text, decide (d ≠ '\n') = true := by
    intro d hd
    apply decide_eq_true
    intro heq
    rcases List.mem_cons.mp hd with hslash | hmem
    · rw [heq] at hslash
      cases hslash
    · exact hline (heq ▸ hmem)
  have hstop : rest.takeWhile (· ≠ '\n') = [] := by
    cases rest with
    | nil => rfl
    | cons d ds => exact List.takeWhile_cons_of_neg (by simp [hend d rfl])
  have htake : ('/' :: (text ++ rest)).takeWhile (· ≠ '\n') = '/' :: text := by
    rw [← List.cons_append, List.takeWhile_append_of_pos hinside, hstop,
      List.append_nil]
  have hslash : '/' = '/' ∧ ('/' :: (text ++ rest)).head? = some '/' := ⟨rfl, rfl⟩
  unfold front
  rw [if_neg (by decide), if_neg (by decide), if_neg (by decide), if_neg (by decide),
    if_pos hslash, htake]

theorem front_quote (cs : List Char) : front '"' cs = quotedString cs := by
  rw [front, if_neg (by decide), if_neg (by decide), if_neg (by decide), if_pos rfl]

/-- A run of blanks is one piece. -/
theorem solid_dropWhile (p : Position) (cs : List Char) :
    solid p cs = solid (p.afterAll (cs.takeWhile isBlank)) (cs.dropWhile isBlank) := by
  cases cs with
  | nil => rfl
  | cons c cs =>
      by_cases hc : isBlank c = true
      · have hfront := front_blank hc cs
        have hrest : (front c cs).text ++ cs.dropWhile isBlank = c :: cs := by
          rw [hfront, List.cons_append, List.takeWhile_append_dropWhile]
        rw [solid_skipped hrest (by rw [hfront]), hfront, List.takeWhile_cons_of_pos hc,
          List.dropWhile_cons_of_pos hc]
      · rw [List.takeWhile_cons_of_neg hc, List.dropWhile_cons_of_neg hc,
          Position.afterAll_nil]

theorem solid_blank (hc : isBlank c = true) (p : Position) (cs : List Char) :
    solid p (c :: cs) = solid (p.after c) cs := by
  rw [solid_dropWhile p, solid_dropWhile (p.after c), List.takeWhile_cons_of_pos hc,
    List.dropWhile_cons_of_pos hc, Position.afterAll_cons]

private theorem solid_comment {text : List Char} (hline : '\n' ∉ text)
    (hend : ∀ d ∈ rest.head?, d = '\n') (p : Position) :
    solid p ('/' :: '/' :: (text ++ rest)) =
      solid (p.afterAll ('/' :: '/' :: text)) rest := by
  have hfront := front_comment hline hend
  have hrest : (front '/' ('/' :: (text ++ rest))).text ++ rest = '/' :: '/' ::
      (text ++ rest) := by rw [hfront]; rfl
  rw [solid_skipped hrest (by rw [hfront]), hfront]

/-- Behind a gap stand the pieces of the text behind it. -/
theorem solid_gap {gap behind : List Char} (h : Gap behind gap) (p : Position) :
    solid p (gap ++ behind) = solid (p.afterAll gap) behind := by
  induction h generalizing p with
  | nil => rfl
  | blank hc _ ih => rw [List.cons_append, solid_blank hc, ih, Position.afterAll_cons]
  | comment hline hend _ ih =>
      rw [List.cons_append, List.cons_append, List.append_assoc,
        solid_comment hline hend, ih, ← Position.afterAll_append]
      rfl

end Piece

/-! ## Texts that are alike up to a blank -/

/-- Whether a text is like another up to one of its own blanks, or all along. -/
inductive Fades : List Char → List Char → Prop
  | nil : Fades [] []
  | blank {c : Char} {cs ds : List Char} (hc : isBlank c = true) : Fades cs (c :: ds)
  | same {c : Char} {cs ds : List Char} (hrest : Fades cs ds) :
      Fades (c :: cs) (c :: ds)

theorem Fades.append {cs ds : List Char} (h : Fades cs ds) (front : List Char) :
    Fades (front ++ cs) (front ++ ds) := by
  induction front with
  | nil => exact h
  | cons c front ih => exact .same ih

private theorem Fades.head?_eq {cs ds : List Char} (h : Fades cs ds) {c : Char}
    (hc : isBlank c = false) (hhead : ds.head? = some c) : cs.head? = some c := by
  cases h with
  | nil => exact hhead
  | blank hd =>
      rw [Option.some.inj hhead, hc] at hd
      cases hd
  | same => exact hhead

/-- A run of characters of a kind that no blank is ends in the same place. -/
theorem Fades.takeWhile_eq {kind : Char → Bool}
    (hkind : ∀ c, isBlank c = true → kind c = false) {text rest rest' : List Char}
    (hrest : Fades rest rest') (h : (text ++ rest).takeWhile kind = text) :
    (text ++ rest').takeWhile kind = text := by
  have hinside : ∀ c ∈ text, kind c = true := by
    intro c hc
    rw [← h] at hc
    exact List.mem_takeWhile_imp hc
  rw [List.takeWhile_append_of_pos hinside] at h ⊢
  have hnone : rest.takeWhile kind = [] := List.append_right_eq_self.mp h
  have hnone' : rest'.takeWhile kind = [] := by
    cases hrest with
    | nil => rfl
    | blank hc => exact List.takeWhile_cons_of_neg (by simp [hkind _ hc])
    | same =>
        apply List.takeWhile_cons_of_neg
        intro hc
        rw [List.takeWhile_cons_of_pos hc] at hnone
        cases hnone
  rw [hnone', List.append_nil]

namespace Piece

variable {c d : Char} {cs ds rest rest' : List Char}

/-! ## The lookahead of each piece -/

private theorem isWordPart_blank {c : Char} (hc : isBlank c = true) :
    isWordPart c = false := by
  by_contra hword
  rw [isBlank_of_isWordPart (Bool.eq_true_of_not_eq_false hword)] at hc
  cases hc

private theorem isDigit_blank {c : Char} (hc : isBlank c = true) :
    c.isDigit = false := by
  by_contra hdigit
  rw [isBlank_of_isDigit (Bool.eq_true_of_not_eq_false hdigit)] at hc
  cases hc

theorem fraction_of_ne (h : c ≠ '.') (cs : List Char) : fraction (c :: cs) = [] := by
  unfold fraction
  split
  · next heq => exact absurd (List.cons.inj heq).1 h
  · rfl

theorem fraction_dot (d : Char) (ds : List Char) :
    fraction ('.' :: d :: ds) = if d.isDigit then '.' :: d :: ds.takeWhile Char.isDigit
      else [] := rfl

/-- Behind the digits of a number come a point and a digit, or it has no fraction. -/
theorem fraction_of_fades (hrest : Fades rest rest') (h : fraction (ds ++ rest) = ds) :
    fraction (ds ++ rest') = ds := by
  cases ds with
  | nil =>
      cases hrest with
      | nil => rfl
      | blank hc =>
          apply fraction_of_ne
          intro heq
          rw [heq] at hc
          cases hc
      | @same c cs cs' hrest =>
          by_cases hdot : c = '.'
          · subst hdot
            cases hrest with
            | nil => rfl
            | blank hd => rw [List.nil_append, fraction_dot, isDigit_blank hd]; rfl
            | @same d cs cs' _ =>
                rw [List.nil_append, fraction_dot] at h
                rw [List.nil_append, fraction_dot]
                by_cases hd : d.isDigit = true
                · rw [if_pos hd] at h
                  cases h
                · rw [if_neg hd]
          · exact fraction_of_ne hdot cs'
  | cons c ds =>
      by_cases hdot : c = '.'
      · subst hdot
        cases ds with
        | nil =>
            cases rest with
            | nil => cases h
            | cons d rest =>
                rw [List.cons_append, List.nil_append, fraction_dot] at h
                by_cases hd : d.isDigit = true
                · rw [if_pos hd] at h
                  cases h
                · rw [if_neg hd] at h
                  cases h
        | cons d ds =>
            rw [List.cons_append, List.cons_append, fraction_dot] at h ⊢
            by_cases hd : d.isDigit = true
            · rw [if_pos hd] at h ⊢
              have htake : (ds ++ rest).takeWhile Char.isDigit = ds :=
                (List.cons.inj (List.cons.inj h).2).2
              rw [hrest.takeWhile_eq (fun _ => isDigit_blank) htake]
            · rw [if_neg hd] at h
              cases h
      · rw [List.cons_append, fraction_of_ne hdot] at h
        cases h

theorem text_number (c : Char) (cs : List Char) :
    (number c cs).text = c ::
      (cs.takeWhile Char.isDigit ++ fraction (cs.dropWhile Char.isDigit)) := by
  unfold number
  dsimp only
  split
  · next heq => rw [heq, List.append_nil]
  · next heq => rfl

private theorem number_of_fades (hrest : Fades rest rest')
    (h : (number c (ds ++ rest)).text = c :: ds) :
    number c (ds ++ rest') = number c (ds ++ rest) := by
  rw [text_number] at h
  have hds := (List.cons.inj h).2
  generalize hwhole : (ds ++ rest).takeWhile Char.isDigit = whole at hds
  generalize hpart : fraction ((ds ++ rest).dropWhile Char.isDigit) = part at hds
  have hdrop {rest : List Char} (htake : (ds ++ rest).takeWhile Char.isDigit = whole) :
      (ds ++ rest).dropWhile Char.isDigit = part ++ rest := by
    have hsplit : (ds ++ rest).takeWhile Char.isDigit ++
        (ds ++ rest).dropWhile Char.isDigit = ds ++ rest :=
      List.takeWhile_append_dropWhile
    rw [htake] at hsplit
    refine List.append_cancel_left (?_ : whole ++ _ = whole ++ _)
    rw [hsplit, ← hds, List.append_assoc]
  have hwhole' : (ds ++ rest').takeWhile Char.isDigit = whole := by
    rw [← hds, List.append_assoc] at hwhole ⊢
    exact (hrest.append part).takeWhile_eq (fun _ => isDigit_blank) hwhole
  have hpart' : fraction (part ++ rest') = part := by
    rw [hdrop hwhole] at hpart
    exact fraction_of_fades hrest hpart
  have hpart₀ : fraction (part ++ rest) = part := by rwa [hdrop hwhole] at hpart
  unfold number
  rw [hwhole, hwhole', hdrop hwhole, hdrop hwhole', hpart₀, hpart']

theorem quotedRest?_plain (hquote : c ≠ '"') (hfeed : c ≠ '\n') (hslash : c ≠ '\\')
    (cs : List Char) :
    quotedRest? (c :: cs) = (quotedRest? cs).map (c :: ·) := by
  rw [quotedRest?]
  · exact hquote
  · exact hfeed
  · exact fun _ heq => absurd heq hslash
  · exact fun _ _ heq => absurd heq hslash

theorem quotedRest?_slash (hfeed : c ≠ '\n') (cs : List Char) :
    quotedRest? ('\\' :: c :: cs) = (quotedRest? cs).map fun rest =>
      '\\' :: c :: rest := by
  rw [quotedRest?]
  exact hfeed

/-- The search for the other quote ends with it. -/
theorem quotedRest?_append (h : quotedRest? cs = some ds) (rest : List Char) :
    quotedRest? (ds ++ rest) = some ds := by
  fun_induction quotedRest? cs generalizing ds with
  | case1 | case3 | case4 => cases h
  | case2 =>
      cases h
      rfl
  | case5 c cs hfeed ih =>
      obtain ⟨inner, hinner, rfl⟩ := Option.map_eq_some_iff.mp h
      rw [List.cons_append, List.cons_append, quotedRest?_slash hfeed, ih hinner]
      rfl
  | case6 c cs hquote hfeed hlone hslash ih =>
      obtain ⟨inner, hinner, rfl⟩ := Option.map_eq_some_iff.mp h
      have hslash : c ≠ '\\' := by
        intro heq
        cases cs with
        | nil => cases hinner
        | cons d ds => exact hslash d ds heq rfl
      rw [List.cons_append, quotedRest?_plain hquote hfeed hslash, ih hinner]
      rfl

/-- A second character counts only in the lexemes that have two. -/
theorem fixed_cons (c d : Char) (ds : List Char) : fixed c (d :: ds) = fixed c [d] := by
  unfold fixed
  split
  all_goals first
    | rfl
    | split <;> simp_all

private theorem fixed_single (h : (fixed c cs).text = [c]) :
    fixed c cs = fixed c [] := by
  unfold fixed at h ⊢
  split at h
  all_goals first
    | rfl
    | exact absurd h (by decide)
    | split <;> simp_all

private theorem fixed_blank (hd : isBlank d = true) (ds : List Char) :
    fixed c (d :: ds) = fixed c [] := by
  have hne : d ≠ '=' ∧ d ≠ '|' ∧ d ≠ '&' := by
    refine ⟨?_, ?_, ?_⟩
    all_goals
      intro heq
      rw [heq] at hd
      cases hd
  apply fixed_single
  unfold fixed
  split <;> simp_all [single]

private theorem fixed_of_fades (hrest : Fades rest rest')
    (h : (fixed c (ds ++ rest)).text = c :: ds) :
    fixed c (ds ++ rest') = fixed c (ds ++ rest) := by
  cases ds with
  | nil =>
      have hsingle := fixed_single h
      cases hrest with
      | nil => rfl
      | blank hd => exact (fixed_blank hd _).trans hsingle.symm
      | same => exact (fixed_cons c _ _).trans (fixed_cons c _ _).symm
  | cons d ds => exact (fixed_cons c d _).trans (fixed_cons c d _).symm

/-- A piece of a text does not depend on what stands behind it from a blank on. -/
theorem front_of_fades (hrest : Fades rest rest')
    (htext : (front c (ds ++ rest)).text = c :: ds)
    (hsort : (front c (ds ++ rest)).sort ≠ .skipped)
    (hquote : front c (ds ++ rest) ≠ ⟨.stray, ['"']⟩) :
    front c (ds ++ rest') = front c (ds ++ rest) := by
  unfold front at htext hsort hquote ⊢
  by_cases hword : isWordStart c = true
  · rw [if_pos hword] at htext ⊢
    have htake : (ds ++ rest).takeWhile isWordPart = ds := (List.cons.inj htext).2
    rw [if_pos hword, htake, hrest.takeWhile_eq (fun _ => isWordPart_blank) htake]
  rw [if_neg hword] at htext hsort hquote ⊢
  rw [if_neg hword]
  by_cases hdigit : c.isDigit = true
  · rw [if_pos hdigit] at htext ⊢
    rw [if_pos hdigit]
    exact number_of_fades hrest htext
  rw [if_neg hdigit] at htext hsort hquote ⊢
  rw [if_neg hdigit]
  by_cases hblank : isBlank c = true
  · rw [if_pos hblank] at hsort
    exact absurd rfl hsort
  rw [if_neg hblank] at htext hsort hquote ⊢
  rw [if_neg hblank]
  by_cases hstring : c = '"'
  · rw [if_pos hstring] at htext hquote ⊢
    rw [if_pos hstring]
    unfold quotedString at htext hquote ⊢
    cases hsearch : quotedRest? (ds ++ rest) with
    | none =>
        rw [hsearch] at hquote
        exact absurd rfl hquote
    | some inner =>
        rw [hsearch] at htext
        have hinner : inner = ds := (List.cons.inj htext).2
        rw [hinner] at hsearch ⊢
        rw [quotedRest?_append hsearch]
  rw [if_neg hstring] at htext hsort hquote ⊢
  rw [if_neg hstring]
  by_cases hcomment : c = '/' ∧ (ds ++ rest).head? = some '/'
  · rw [if_pos hcomment] at hsort
    exact absurd rfl hsort
  rw [if_neg hcomment] at htext ⊢
  have hcomment' : ¬ (c = '/' ∧ (ds ++ rest').head? = some '/') :=
    fun ⟨hslash, hhead⟩ =>
      hcomment ⟨hslash, (hrest.append ds).head?_eq (by decide) hhead⟩
  rw [if_neg hcomment']
  exact fixed_of_fades hrest htext

end Piece

end ScalarLang
