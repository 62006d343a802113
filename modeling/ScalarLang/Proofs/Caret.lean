import Mathlib.Data.List.TakeWhile
import ScalarLang.Proofs.Edges
import ScalarLang.Proofs.Persistence
import ScalarLang.Proofs.Positions
import ScalarLang.Rendering

/-!
# Where the mark of a shown report stands

A report is shown with the line of the source that it is about and a mark in the line
below. The line is shown in characters and without the blanks around it. The mark is
moved by bytes, less one for each space or tab that the line starts with. The two counts
agree in front of a place where the line has plain characters only and starts with
spaces and tabs, and nowhere else: wide characters and other blanks in front move the
mark too far to the right.

## Main results

* `Diagnostic.pointed_iff_plain_in_front`: when the mark stands under the place that a
  report is about.
* `Diagnostic.mark_behind_wide`: a report on a program whose mark stands too
  far to the right.
-/

namespace ScalarLang

/-! ## Runs that a character ends -/

section

variable {p : Char → Bool} {c : Char}

private theorem takeWhile_append_cons (h : p c = false) (cs ds : List Char) :
    (cs ++ c :: ds).takeWhile p = cs.takeWhile p := by
  induction cs with
  | nil => exact List.takeWhile_cons_of_neg (Bool.eq_false_iff.mp h)
  | cons d cs ih =>
      by_cases hd : p d = true
      · rw [List.cons_append, List.takeWhile_cons_of_pos hd,
          List.takeWhile_cons_of_pos hd, ih]
      · rw [List.cons_append, List.takeWhile_cons_of_neg hd,
          List.takeWhile_cons_of_neg hd]

theorem dropWhile_append_cons (h : p c = false) (cs ds : List Char) :
    (cs ++ c :: ds).dropWhile p = cs.dropWhile p ++ c :: ds := by
  induction cs with
  | nil => exact List.dropWhile_cons_of_neg (Bool.eq_false_iff.mp h)
  | cons d cs ih =>
      by_cases hd : p d = true
      · rw [List.cons_append, List.dropWhile_cons_of_pos hd,
          List.dropWhile_cons_of_pos hd, ih]
      · rw [List.cons_append, List.dropWhile_cons_of_neg hd,
          List.dropWhile_cons_of_neg hd]
        rfl

end

/-! ## Lines and trimming -/

namespace Text

private theorem firstLine_cons {c : Char} (h : c ≠ '\n') (cs : List Char) :
    firstLine (c :: cs) = c :: firstLine cs := by
  show (consLine c (keepLines cs)).headD [] = c :: (keepLines cs).headD []
  unfold consLine
  rw [if_neg h]
  cases keepLines cs with
  | nil => rfl
  | cons line rest => rfl

private theorem lineFeed_not_mem_lastLine (cs : List Char) : '\n' ∉ lastLine cs := by
  intro hmem
  have hne := List.mem_takeWhile_imp (List.mem_reverse.mp hmem)
  exact absurd rfl (of_decide_eq_true hne)

private theorem trimStart_append_cons {c : Char} (h : isBlank c = false)
    (cs ds : List Char) :
    trimStart (cs ++ c :: ds) = trimStart cs ++ c :: ds := dropWhile_append_cons h cs ds

private theorem trimEnd_append_cons {c : Char} (h : isBlank c = false)
    (cs ds : List Char) :
    trimEnd (cs ++ c :: ds) = cs ++ c :: trimEnd ds := by
  unfold trimEnd
  rw [List.reverse_append, List.reverse_cons, List.append_assoc, List.singleton_append,
    dropWhile_append_cons h, List.reverse_append, List.reverse_cons,
    List.reverse_reverse, List.append_assoc, List.singleton_append]

/-- A line feed only ends a line, where it is trimmed. -/
theorem lineFeed_not_mem_trimEnd_firstLine (cs : List Char) :
    '\n' ∉ trimEnd (firstLine cs) := by
  have hsub : ∀ line : List Char, '\n' ∉ line → '\n' ∉ trimEnd line := by
    intro line hline hmem
    have hdrop := List.mem_reverse.mp hmem
    exact hline (List.mem_reverse.mp ((List.dropWhile_suffix _).subset hdrop))
  by_cases h : '\n' ∈ cs
  · obtain ⟨line, rest, heq, hline⟩ := List.eq_append_cons_of_mem h
    have htrim : trimEnd (line ++ ['\n']) = trimEnd line := by
      unfold trimEnd
      rw [List.reverse_append]
      rfl
    rw [heq, firstLine_append hline, htrim]
    exact hsub line hline
  · rw [firstLine_of_not_mem h]
    exact hsub cs h

end Text

namespace Diagnostic

open ScalarLang.Text ScalarLang.Source

private theorem isBlank_of_isIndent {c : Char} (h : isIndent c = true) :
    isBlank c = true := by
  rw [isIndent, Bool.or_eq_true, beq_iff_eq, beq_iff_eq] at h
  cases h with
  | inl h => rw [h]; rfl
  | inr h => rw [h]; rfl

private theorem utf8Size_of_isIndent {c : Char} (h : isIndent c = true) :
    c.utf8Size = 1 := by
  rw [isIndent, Bool.or_eq_true, beq_iff_eq, beq_iff_eq] at h
  cases h with
  | inl h => rw [h]; rfl
  | inr h => rw [h]; rfl

private theorem trimStart_dropWhile_isIndent (cs : List Char) :
    trimStart (cs.dropWhile isIndent) = trimStart cs := by
  induction cs with
  | nil => rfl
  | cons c cs ih =>
      by_cases hc : isIndent c = true
      · rw [List.dropWhile_cons_of_pos hc, ih]
        exact (List.dropWhile_cons_of_pos (isBlank_of_isIndent hc)).symm
      · rw [List.dropWhile_cons_of_neg hc]

/-! ## Bytes and characters -/

theorem byteSize_eq_length_iff (cs : List Char) :
    byteSize cs = cs.length ↔ ∀ c ∈ cs, c.utf8Size = 1 := by
  induction cs with
  | nil => simp [byteSize]
  | cons c cs ih =>
      have hpos := c.utf8Size_pos
      have hle := length_le_byteSize cs
      rw [List.forall_mem_cons, ← ih]
      show c.utf8Size + byteSize cs = cs.length + 1 ↔ _
      omega

/-- The bytes of an indented text that are not its indentation. -/
theorem byteSize_sub_indent (cs : List Char) :
    byteSize cs - (cs.takeWhile isIndent).length =
      byteSize (cs.dropWhile isIndent) := by
  have hindent : byteSize (cs.takeWhile isIndent) = (cs.takeWhile isIndent).length := by
    apply (byteSize_eq_length_iff _).mpr
    intro c hc
    exact utf8Size_of_isIndent (List.mem_takeWhile_imp hc)
  have hall : byteSize cs = byteSize (cs.takeWhile isIndent) +
      byteSize (cs.dropWhile isIndent) := by
    rw [← byteSize_append, List.takeWhile_append_dropWhile]
  omega

private theorem trimStart_suffix (cs : List Char) :
    trimStart cs <:+ cs.dropWhile isIndent := by
  rw [← trimStart_dropWhile_isIndent]
  exact List.dropWhile_suffix isBlank

/-- The bytes behind the indentation are as many as the characters that trimming leaves
if all characters are plain and nothing but indentation is trimmed. -/
theorem byteSize_eq_length_trimStart_iff (cs : List Char) :
    byteSize (cs.dropWhile isIndent) = (trimStart cs).length ↔
      (∀ c ∈ cs, c.utf8Size = 1) ∧ trimStart cs = cs.dropWhile isIndent := by
  have htrim := (trimStart_suffix cs).length_le
  have hbytes := length_le_byteSize (cs.dropWhile isIndent)
  constructor
  · intro h
    have hplain := (byteSize_eq_length_iff (cs.dropWhile isIndent)).mp (by omega)
    refine ⟨?_, (trimStart_suffix cs).eq_of_length (by omega)⟩
    intro c hc
    rw [← List.takeWhile_append_dropWhile (p := isIndent) (l := cs)] at hc
    cases List.mem_append.mp hc with
    | inl hindent => exact utf8Size_of_isIndent (List.mem_takeWhile_imp hindent)
    | inr hrest => exact hplain c hrest
  · intro ⟨hplain, htrimmed⟩
    have hrest : ∀ c ∈ cs.dropWhile isIndent, c.utf8Size = 1 :=
      fun c hc => hplain c ((List.dropWhile_suffix _).subset hc)
    rw [htrimmed]
    exact (byteSize_eq_length_iff _).mpr hrest

/-! ## The line and the mark -/

/-- What stands in front of a line of the source where it is shown. -/
def gutter (number : Nat) : List Char := (toString number).toList ++ [' ', '|', ' ']

/-- A shown report that ends in two lines: one with a character behind the text
`before`, and one with a mark behind the text `under`. -/
structure Shown (rendered : String) (c : Char) where
  head : List Char
  before : List Char
  behind : List Char
  under : List Char
  text_eq : rendered.toList = head ++ '\n' :: (before ++ c :: behind) ++ '\n' ::
    (under ++ ['^', '\n'])
  line : '\n' ∉ before ++ c :: behind
  mark : '\n' ∉ under ∧ '^' ∉ under

/-- What stands under the gutter and the line, in front of the mark. -/
def ruler (number width : Nat) : List Char :=
  List.replicate ((toString number).length + 1) ' ' ++ ['|', ' '] ++
    List.replicate width '-'

private theorem length_gutter (number : Nat) :
    (gutter number).length = (toString number).length + 3 := by
  rw [gutter, List.length_append, String.length_toList]
  rfl

private theorem length_ruler (number width : Nat) :
    (ruler number width).length = (gutter number).length + width := by
  rw [ruler, List.length_append, List.length_append, List.length_replicate,
    List.length_replicate, length_gutter]
  rfl

private theorem lineFeed_not_mem_gutter (number : Nat) : '\n' ∉ gutter number := by
  intro hmem
  cases List.mem_append.mp hmem with
  | inl hdigit =>
      have hdigits : (toString number).toList = Nat.toDigits 10 number :=
        Nat.toList_repr
      rw [hdigits] at hdigit
      exact absurd (Nat.isDigit_of_mem_toDigits (by decide) (by decide) hdigit)
        (by decide)
  | inr hbar => exact absurd hbar (by decide)

private theorem not_mem_ruler {c : Char} (hspace : c ≠ ' ') (hbar : c ≠ '|')
    (hdash : c ≠ '-') (number width : Nat) :
    c ∉ ruler number width := by
  simp [ruler, hspace, hbar, hdash]

private theorem toList_padLeft (width : Nat) (fill c : Char) :
    (padLeft (width + 1) fill (String.singleton c)).toList =
      List.replicate width fill ++ [c] := by
  simp [padLeft]

/-- The excerpt of a line with a character that is not blank. -/
theorem toList_excerpt {c : Char} (hc : isBlank c = false) (number : Nat)
    (before rest : List Char) :
    (excerpt ⟨number, before ++ c :: rest, byteSize before⟩).toList =
      List.replicate ((toString number).length + 1) ' ' ++ ['|'] ++
        '\n' :: (gutter number ++ trimStart before ++ c :: trimEnd rest) ++
        '\n' :: (ruler number (byteSize (before.dropWhile isIndent)) ++
          ['^', '\n']) := by
  have hindent : isIndent c = false := by
    apply Bool.eq_false_iff.mpr
    intro h
    rw [isBlank_of_isIndent h] at hc
    cases hc
  have hshown : trim ((before ++ c :: rest).dropWhile isIndent) = trimStart before ++
      c :: trimEnd rest := by
    rw [trim, trimStart_dropWhile_isIndent, trimStart_append_cons hc,
      trimEnd_append_cons hc]
  have hbar : (padLeft ((toString number).length + 2) ' ' "|").toList = _ :=
    toList_padLeft ((toString number).length + 1) ' ' '|'
  have hmark :
      (padLeft (byteSize (before.dropWhile isIndent) + 1) '-' "^").toList = _ :=
    toList_padLeft (byteSize (before.dropWhile isIndent)) '-' '^'
  have hspaces : " | ".toList = [' ', '|', ' '] := rfl
  have hend : "\n".toList = ['\n'] := rfl
  unfold excerpt
  simp only [hshown, takeWhile_append_cons hindent, byteSize_sub_indent,
    String.toList_append, hbar, hmark, hspaces, hend, String.toList_ofList]
  simp [gutter, ruler]

/-- A report about a character that is not blank is shown with that character behind all
that is left in front of it in its line, and with a mark as far to the right as the
bytes behind the indentation go. -/
theorem exists_shown {source : String} {d : Diagnostic} {front back : List Char}
    {c : Char} (hsource : source.toList = front ++ c :: back)
    (hoffset : byteSize front = d.position.offset.toNat) (hc : isBlank c = false) :
    ∃ shown : Shown (d.render source) c,
      shown.before = gutter (1 + front.count '\n') ++ trimStart (lastLine front) ∧
      shown.under = ruler (1 + front.count '\n')
        (byteSize ((lastLine front).dropWhile isIndent)) := by
  have hfeed : c ≠ '\n' := by
    intro heq
    rw [heq] at hc
    cases hc
  have hplace : lineAt source d.position.offset = some ⟨1 + front.count '\n',
      lastLine front ++ c :: firstLine back, byteSize (lastLine front)⟩ := by
    have hline := lineIn_behind 1 front (c :: back) (.inl (List.cons_ne_nil c back))
    rwa [firstLine_cons hfeed, ← hsource, hoffset] at hline
  let number := 1 + front.count '\n'
  let before := gutter number ++ trimStart (lastLine front)
  let under := ruler number (byteSize ((lastLine front).dropWhile isIndent))
  have htext : ∃ head, (d.render source).toList =
      head ++ '\n' :: (before ++ c :: trimEnd (firstLine back)) ++ '\n' ::
        (under ++ ['^', '\n']) := by
    obtain ⟨message, hmessage⟩ :
        ∃ message, d.render source = message ++ excerpt ⟨number,
          lastLine front ++ c :: firstLine back, byteSize (lastLine front)⟩ := by
      unfold render
      rw [hplace]
      exact ⟨_, rfl⟩
    refine ⟨message.toList ++
      (List.replicate ((toString number).length + 1) ' ' ++ ['|']), ?_⟩
    rw [hmessage, String.toList_append,
      toList_excerpt hc, ← List.append_assoc, ← List.append_assoc]
  have hline : '\n' ∉ before ++ c :: trimEnd (firstLine back) := by
    intro hmem
    have htrimmed : '\n' ∉ trimStart (lastLine front) :=
      fun h => lineFeed_not_mem_lastLine front ((List.dropWhile_suffix _).subset h)
    cases List.mem_append.mp hmem with
    | inl hbefore =>
        exact (List.mem_append.mp hbefore).elim
          (lineFeed_not_mem_gutter number) htrimmed
    | inr hbehind =>
        exact (List.mem_cons.mp hbehind).elim (Ne.symm hfeed)
          (lineFeed_not_mem_trimEnd_firstLine back)
  have hmark : '\n' ∉ under ∧ '^' ∉ under :=
    ⟨not_mem_ruler (by decide) (by decide) (by decide) _ _,
      not_mem_ruler (by decide) (by decide) (by decide) _ _⟩
  obtain ⟨head, htext⟩ := htext
  exact ⟨⟨head, before, trimEnd (firstLine back), under, htext, hline, hmark⟩, rfl, rfl⟩

/-- There is one last line only. -/
theorem Shown.under_eq {rendered : String} {c c' : Char} (s : Shown rendered c)
    (s' : Shown rendered c') :
    s.under = s'.under := by
  have hlast : ∀ (c : Char) (s : Shown rendered c),
      lastLine rendered.toList.dropLast = s.under ++ ['^'] := by
    intro c s
    have hend : rendered.toList =
        s.head ++ '\n' :: (s.before ++ c :: s.behind) ++ '\n' ::
          (s.under ++ ['^']) ++ ['\n'] := by
      rw [s.text_eq]
      simp
    have hmem : '\n' ∉ s.under ++ ['^'] := by simp [s.mark.1]
    rw [hend, List.dropLast_concat, lastLine_append_lineFeed]
    exact lastLine_append_of_not_mem hmem []
  exact List.append_cancel_right ((hlast c s).symm.trans (hlast c' s'))

/-- Front parts of a text that fill as many bytes are the same. -/
theorem eq_of_byteSize_eq {front front' back back' : List Char}
    (h : front ++ back = front' ++ back') (hsize : byteSize front = byteSize front') :
    front = front' := by
  induction front generalizing front' with
  | nil =>
      have hnil := length_le_byteSize front'
      have hzero : byteSize ([] : List Char) = 0 := rfl
      exact (List.eq_nil_of_length_eq_zero (by omega)).symm
  | cons c cs ih =>
      cases front' with
      | nil =>
          have hpos := length_le_byteSize (c :: cs)
          rw [hsize] at hpos
          cases hpos
      | cons c' cs' =>
          obtain ⟨hhead, htail⟩ := List.cons.inj h
          rw [hhead] at hsize ⊢
          rw [ih htail (Nat.add_left_cancel hsize)]

/-- Whether the mark that a report is shown with stands under the place that the
report is about. -/
def Pointed (source : String) (d : Diagnostic) : Prop :=
  ∃ front c back, source.toList = front ++ c :: back ∧
    byteSize front = d.position.offset.toNat ∧ ∃ shown : Shown (d.render source) c,
      shown.before = gutter (1 + front.count '\n') ++ trimStart (lastLine front) ∧
      shown.under.length = shown.before.length

/-- The mark of a report about a character that is not blank stands under the character
if and only if all characters in front of it in its line are plain, and nothing but
spaces and tabs is trimmed. -/
theorem pointed_iff {source : String} {d : Diagnostic} {front back : List Char}
    {c : Char} (hsource : source.toList = front ++ c :: back)
    (hoffset : byteSize front = d.position.offset.toNat) (hc : isBlank c = false) :
    Pointed source d ↔
      (∀ x ∈ lastLine front, x.utf8Size = 1) ∧
      trimStart (lastLine front) = (lastLine front).dropWhile isIndent := by
  obtain ⟨shown, hbefore, hunder⟩ := exists_shown hsource hoffset hc
  have hcolumns : shown.under.length = shown.before.length ↔
      byteSize ((lastLine front).dropWhile isIndent) =
        (trimStart (lastLine front)).length := by
    rw [hunder, hbefore, length_ruler, List.length_append, Nat.add_right_inj]
  rw [← byteSize_eq_length_trimStart_iff, ← hcolumns]
  constructor
  · intro ⟨front', c', back', hsource', hoffset', shown', hbefore', hlength⟩
    have hfront : front' = front :=
      eq_of_byteSize_eq (hsource'.symm.trans hsource) (hoffset'.trans hoffset.symm)
    rw [hfront, ← hbefore] at hbefore'
    rw [shown.under_eq shown', hlength, hbefore']
  · intro h
    exact ⟨front, c, back, hsource, hoffset, shown, hbefore, h⟩

/-- The mark stands one column too far to the right behind a character of two bytes. -/
theorem mark_behind_wide :
    ∃ r d, compileSource "a" "write \"é\", x;" = .error r ∧ r.reports = [d] ∧
      d.position.offset.toNat < "write \"é\", x;".utf8ByteSize ∧
      ¬ Pointed "write \"é\", x;" d := by
  refine ⟨_, ⟨.notDeclared "x", ⟨12, 1, 11, "a"⟩⟩, rfl, by decide +kernel,
    by decide, ?_⟩
  intro h
  have hsource : "write \"é\", x;".toList = "write \"é\", ".toList ++ 'x' :: [';'] :=
    rfl
  have hplain := ((pointed_iff hsource rfl rfl).mp h).1
  exact absurd (hplain 'é' (by decide)) (by decide)

end Diagnostic

/-! ## What reports are about -/

open ScalarLang.Text ScalarLang.Source

/-- Whether a position is behind all of a source text, or in front of a character
that is not blank. -/
def Position.Faces (source : String) (p : Position) : Prop :=
  p.offset.toNat = source.utf8ByteSize ∨
    ∃ front c back, source.toList = front ++ c :: back ∧
      byteSize front = p.offset.toNat ∧ isBlank c = false

namespace Piece

/-- A piece that is not skipped starts with a character that is not blank. -/
theorem isBlank_of_front {c : Char} {cs : List Char}
    (h : (front c cs).sort ≠ .skipped) : isBlank c = false := by
  by_cases hword : isWordStart c = true
  · exact isBlank_of_isWordPart (isWordPart_of_isWordStart hword)
  by_cases hdigit : c.isDigit = true
  · exact isBlank_of_isDigit hdigit
  apply Bool.eq_false_iff.mpr
  intro hblank
  apply h
  unfold front
  rw [if_neg hword, if_neg hdigit, if_pos hblank]

/-- So the pieces of a text that are not skipped stand in front of such characters. -/
theorem faces_of_mem_placed {file source : String}
    (hsize : source.utf8ByteSize < UInt32.size) {q : Position} {piece : Piece}
    (h : (q, piece) ∈ placed (.first file) (split source.toList))
    (hsort : piece.sort ≠ .skipped) :
    q.Faces source := by
  have hfits := Position.fits_first hsize file
  rw [← flatten_split source.toList] at hfits
  obtain ⟨passed, ⟨rest, hpassed⟩, hq, -⟩ :=
    behind_of_mem_placed (Position.behind_first file) hfits h
  obtain ⟨c, cs, hfront⟩ := exists_front_of_mem_splitAfter (mem_of_mem_placed h)
  obtain ⟨d, ds, htext⟩ := List.exists_cons_of_ne_nil (front_text_ne_nil c cs)
  have hhead : d = c := by
    obtain ⟨behind, hbehind⟩ := front_isPrefix c cs
    rw [htext] at hbehind
    exact (List.cons.inj hbehind).1
  have hpiece : piece = front c cs := hfront
  rw [flatten_split, hpiece, htext, hhead, List.append_assoc] at hpassed
  rw [hpiece] at hsort
  exact .inr ⟨passed, c, ds ++ rest, hpassed.symm, hq.offset.symm,
    isBlank_of_front hsort⟩

end Piece

namespace Token

variable {file source : String}

private theorem faces_of_scan (hsize : source.utf8ByteSize < UInt32.size)
    {tokens : List Token} (h : scan file source = .ok tokens) :
    ∀ t ∈ tokens, t.span.start.Faces source := by
  intro t ht
  rw [eq_of_scan h] at ht
  cases List.mem_append.mp ht with
  | inl hpiece =>
      obtain ⟨⟨q, ⟨sort, text⟩⟩, hmem, htoken⟩ := List.mem_filterMap.mp hpiece
      cases sort with
      | token kind =>
          cases htoken
          exact Piece.faces_of_mem_placed hsize hmem PieceClass.noConfusion
      | skipped | stray => cases htoken
  | inr hlast =>
      rw [List.mem_singleton.mp hlast]
      left
      show ((Position.first file).afterAll source.toList).offset.toNat = _
      rw [(Position.fits_first hsize file).toNat_offset, byteSize_toList]
      exact Nat.zero_add _

private theorem faces_of_scan_error (hsize : source.utf8ByteSize < UInt32.size)
    {reports : List Diagnostic} (h : scan file source = .error reports) :
    ∀ d ∈ reports, d.position.Faces source := by
  intro d hd
  rw [eq_of_scan_error h] at hd
  obtain ⟨⟨q, ⟨sort, text⟩⟩, hmem, hreport⟩ := List.mem_filterMap.mp hd
  cases sort with
  | stray =>
      cases hreport
      exact Piece.faces_of_mem_placed hsize hmem PieceClass.noConfusion
  | token | skipped => cases hreport

end Token

/-- A report inside the text is about a character that is not blank. -/
theorem Rejection.faces_of_compileSource {file source : String}
    (hsize : source.utf8ByteSize < UInt32.size) {r : Rejection}
    (h : compileSource file source = .error r) :
    ∀ d ∈ r.reports, d.position.Faces source := by
  let E : Edges := ⟨Position.Faces source, fun _ => True⟩
  have htokens : ∀ tokens, Token.scan file source = .ok tokens →
      ∀ t ∈ tokens, E.Has t.span :=
    fun tokens hscan t ht => ⟨Token.faces_of_scan hsize hscan t ht, trivial⟩
  have hstray : ∀ reports, Token.scan file source = .error reports →
      ∀ d ∈ reports, E.start d.position :=
    fun reports hscan => Token.faces_of_scan_error hsize hscan
  exact Rejection.starts_of_compileSource htokens hstray h

namespace Diagnostic

/-- When the mark of a report stands right. A report on a source text with fewer bytes
than an offset can count, if it is not about the end of the text, is about a character
that is not blank, and the mark that it is shown with stands under that character if and
only if all characters in front of it in its line are plain, and nothing but spaces and
tabs is trimmed. -/
theorem pointed_iff_plain_in_front {file source : String}
    (hsize : source.utf8ByteSize < UInt32.size) {r : Rejection}
    (h : compileSource file source = .error r) {d : Diagnostic} (hd : d ∈ r.reports)
    (hinside : d.position.offset.toNat < source.utf8ByteSize) :
    ∃ front c back, source.toList = front ++ c :: back ∧
      byteSize front = d.position.offset.toNat ∧ isBlank c = false ∧
      (Pointed source d ↔ (∀ x ∈ lastLine front, x.utf8Size = 1) ∧
        trimStart (lastLine front) = (lastLine front).dropWhile isIndent) := by
  cases Rejection.faces_of_compileSource hsize h d hd with
  | inl hend => omega
  | inr hfaces =>
      obtain ⟨front, c, back, hsource, hoffset, hc⟩ := hfaces
      exact ⟨front, c, back, hsource, hoffset, hc, pointed_iff hsource hoffset hc⟩

/-- The mark stands right behind a tab. -/
theorem pointed_behind_tab :
    ∃ r d, compileSource "a" "\twrite x;" = .error r ∧ r.reports = [d] ∧
      d.position.column = 7 ∧ Pointed "\twrite x;" d := by
  obtain ⟨r, hr, hreports⟩ : ∃ r, compileSource "a" "\twrite x;" = .error r ∧
      r.reports = [⟨.notDeclared "x", ⟨7, 1, 7, "a"⟩⟩] := by
    refine ⟨_, rfl, ?_⟩
    decide +kernel
  have hmem : ⟨.notDeclared "x", ⟨7, 1, 7, "a"⟩⟩ ∈ r.reports := by
    rw [hreports]
    exact List.mem_singleton_self _
  obtain ⟨front, c, back, hsource, hoffset, -, hiff⟩ :=
    pointed_iff_plain_in_front (by decide) hr hmem (by decide)
  have hsplit : "\twrite x;".toList = "\twrite ".toList ++ ['x', ';'] := rfl
  have hfront : front = "\twrite ".toList :=
    eq_of_byteSize_eq (hsource.symm.trans hsplit) (hoffset.trans rfl)
  have hline : lastLine "\twrite ".toList = "\twrite ".toList :=
    lastLine_append_of_not_mem (by decide) []
  have hplain : ∀ x ∈ "\twrite ".toList, x.utf8Size = 1 :=
    (byteSize_eq_length_iff _).mp rfl
  rw [hfront, hline] at hiff
  exact ⟨r, _, hr, hreports, rfl, hiff.mpr ⟨hplain, rfl⟩⟩

end Diagnostic

end ScalarLang
