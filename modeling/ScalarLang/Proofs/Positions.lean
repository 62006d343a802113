import ScalarLang.Proofs.Wording
import ScalarLang.Source.LineAt

/-!
# Positions tell where they are

Positions are made in one place only, where the pieces of a source text are passed one
after the other. Passing a character keeps up with its bytes, its line feeds and the
characters of the last line (`Position.Behind.after`), so that every position of a token
is behind some front part of the text. Readers, checkers and emitters copy positions and
can make none up: they commute with moving them, and what commutes with moving has its
positions from its argument (`Located.mem_positions_of_move`).

All this is so of texts that have fewer bytes than an offset can count. Behind more
bytes than that an offset starts again from zero and tells another place, or none.

A report is shown with the line it is about, which is looked for in the lines of the
text by the byte offset alone. That search passes whole lines where scanning passed
characters, and finds the line and the column again (`Source.lineIn_behind`), save that
an end of the text behind a line feed is looked for in the line that the line feed ends.

## Main results

* `positions_sound`: all positions in tokens, trees and reports are sound.
-/

namespace ScalarLang

open ScalarLang.Located

/-! ## Bytes and lines -/

namespace Source

theorem byteSize_append (cs ds : List Char) :
    byteSize (cs ++ ds) = byteSize cs + byteSize ds := by
  induction cs with
  | nil => exact (Nat.zero_add _).symm
  | cons c cs ih =>
      show c.utf8Size + byteSize (cs ++ ds) = c.utf8Size + byteSize cs + byteSize ds
      rw [ih, Nat.add_assoc]

theorem utf8ByteSize_ofList (cs : List Char) :
    (String.ofList cs).utf8ByteSize = byteSize cs := by
  induction cs with
  | nil => rfl
  | cons c cs ih =>
      rw [String.ofList_cons, String.utf8ByteSize_append,
        String.utf8ByteSize_singleton, ih]
      rfl

theorem byteSize_toList (source : String) :
    byteSize source.toList = source.utf8ByteSize := by
  rw [← utf8ByteSize_ofList, String.ofList_toList]

theorem length_le_byteSize (cs : List Char) : cs.length ≤ byteSize cs := by
  induction cs with
  | nil => exact Nat.le_refl 0
  | cons c cs ih =>
      have hpos := c.utf8Size_pos
      show cs.length + 1 ≤ c.utf8Size + byteSize cs
      omega

end Source

namespace Text

/-- The characters behind the last line feed of a text. -/
def lastLine (cs : List Char) : List Char := (cs.reverse.takeWhile (· ≠ '\n')).reverse

theorem lastLine_append_of_not_mem {ds : List Char} (h : '\n' ∉ ds) (cs : List Char) :
    lastLine (cs ++ ds) = lastLine cs ++ ds := by
  have hds : ∀ c ∈ ds.reverse, decide (c ≠ '\n') = true := by
    intro c hc
    have hne : c ≠ '\n' := fun heq => h (heq ▸ List.mem_reverse.mp hc)
    exact decide_eq_true hne
  unfold lastLine
  rw [List.reverse_append, List.takeWhile_append_of_pos hds, List.reverse_append,
    List.reverse_reverse]

theorem lastLine_append_lineFeed (cs ds : List Char) :
    lastLine (cs ++ '\n' :: ds) = lastLine ds := by
  have hstop : ('\n' :: cs.reverse).takeWhile (· ≠ '\n') = [] := rfl
  unfold lastLine
  rw [List.reverse_append, List.reverse_cons, List.append_assoc, List.singleton_append,
    List.takeWhile_append, hstop, List.append_nil]
  by_cases hlength : (ds.reverse.takeWhile (· ≠ '\n')).length = ds.reverse.length
  · rw [if_pos hlength, (List.takeWhile_prefix _).eq_of_length hlength]
  · rw [if_neg hlength]

private theorem eq_nil_or_of_lastLine_eq_nil {cs : List Char} (h : lastLine cs = []) :
    cs = [] ∨ cs.getLast? = some '\n' := by
  cases List.eq_nil_or_concat cs with
  | inl hnil => exact .inl hnil
  | inr hconcat =>
      obtain ⟨front, c, rfl⟩ := hconcat
      rw [List.concat_eq_append] at h ⊢
      apply Or.inr
      by_cases hc : c = '\n'
      · rw [hc, List.getLast?_concat]
      · have hmem : '\n' ∉ [c] := fun h => hc (List.mem_singleton.mp h).symm
        rw [lastLine_append_of_not_mem hmem] at h
        cases (List.append_eq_nil_iff.mp h).2

/-- A text whose last line has characters is not made of line feeds only. -/
theorem count_lt_length {cs : List Char} (h : lastLine cs ≠ []) :
    cs.count '\n' < cs.length := by
  apply Nat.lt_of_le_of_ne List.count_le_length
  intro hall
  have hfeed : ∀ c ∈ cs.reverse, '\n' = c :=
    fun c hc => List.count_eq_length.mp hall c (List.mem_reverse.mp hc)
  apply h
  unfold lastLine
  cases hreverse : cs.reverse with
  | nil => rfl
  | cons c rest =>
      rw [← hfeed c (by rw [hreverse]; exact List.mem_cons_self)]
      rfl

/-- The first line of a text, with the line feed that ends it. -/
def firstLine (cs : List Char) : List Char := (keepLines cs).headD []

theorem firstLine_append {line : List Char} (h : '\n' ∉ line) (rest : List Char) :
    firstLine (line ++ '\n' :: rest) = line ++ ['\n'] := by
  rw [firstLine, keepLines_append h]
  rfl

theorem firstLine_of_not_mem {cs : List Char} (h : '\n' ∉ cs) : firstLine cs = cs := by
  by_cases hne : cs = []
  · rw [hne]
    rfl
  · rw [firstLine, keepLines_of_not_mem h hne]
    rfl

end Text

/-! ## Texts short enough for offsets -/

/-- Whether a text that starts at `p` goes no further than offsets can count. -/
def Position.Fits (p : Position) (cs : List Char) : Prop :=
  p.offset.toNat + Source.byteSize cs < UInt32.size

namespace Position

variable {p : Position} {cs ds : List Char}

/-- Passing such a text moves the offset on by the bytes of the text. -/
theorem Fits.toNat_offset (h : p.Fits cs) :
    (p.afterAll cs).offset.toNat = p.offset.toNat + Source.byteSize cs := by
  have hsize : Source.byteSize cs < UInt32.size :=
    Nat.lt_of_le_of_lt (Nat.le_add_left _ _) h
  rw [afterAll_offset, UInt32.toNat_add, UInt32.toNat_ofNat_of_lt' hsize]
  exact Nat.mod_eq_of_lt h

theorem Fits.left (h : p.Fits (cs ++ ds)) : p.Fits cs := by
  unfold Fits at h ⊢
  rw [Source.byteSize_append] at h
  omega

theorem Fits.behind (h : p.Fits (cs ++ ds)) : (p.afterAll cs).Fits ds := by
  have hleft := h.left
  unfold Fits at h ⊢
  rw [hleft.toNat_offset]
  rwa [Source.byteSize_append, ← Nat.add_assoc] at h

theorem fits_first {source : String} (h : source.utf8ByteSize < UInt32.size)
    (file : String) :
    (first file).Fits source.toList := by
  unfold Fits
  rw [Source.byteSize_toList]
  exact Nat.lt_of_le_of_lt (Nat.le_of_eq (Nat.zero_add _)) h

end Position

/-! ## Positions behind a front part of a text -/

/-- Whether a position is the one behind a text: behind all its bytes and line feeds,
and in the last line behind all its characters. The line is one more than the line
feeds as the position has it, in 32 bits: behind `2 ^ 32 - 1` line feeds it starts
again from zero. -/
structure Position.Behind (front : List Char) (p : Position) : Prop where
  offset : p.offset.toNat = Source.byteSize front
  line : p.line = 1 + UInt32.ofNat (front.count '\n')
  column : p.column.toNat = (Text.lastLine front).length

namespace Position

variable {front : List Char} {p : Position}

theorem behind_first (file : String) : (first file).Behind [] := ⟨rfl, rfl, rfl⟩

/-- Passing a character leads from behind a text to behind the text and the
character. -/
theorem Behind.after (h : p.Behind front) {c : Char} (hfits : p.Fits [c]) :
    (p.after c).Behind (front ++ [c]) := by
  have hoffset : (p.after c).offset.toNat = Source.byteSize (front ++ [c]) := by
    rw [Source.byteSize_append, ← h.offset]
    exact hfits.toNat_offset
  have hcolumn : (Text.lastLine front).length < UInt32.size - 1 := by
    have hlast : (Text.lastLine front).length ≤ front.length := by
      rw [Text.lastLine, List.length_reverse]
      exact Nat.le_trans (List.takeWhile_prefix _).length_le
        (Nat.le_of_eq List.length_reverse)
    have hpos := c.utf8Size_pos
    have hbytes := Source.length_le_byteSize front
    unfold Fits at hfits
    rw [h.offset, Source.byteSize] at hfits
    omega
  refine ⟨hoffset, ?_, ?_⟩
  all_goals
    unfold Position.after
    dsimp only
    by_cases hc : c = '\n'
  · rw [if_pos hc, hc, List.count_append, List.count_singleton_self, UInt32.ofNat_add]
    show p.line + 1 = _
    rw [h.line, UInt32.add_assoc]
    rfl
  · have hmem : '\n' ∉ [c] := fun h => hc (List.mem_singleton.mp h).symm
    rw [if_neg hc, List.count_append, List.count_eq_zero_of_not_mem hmem, Nat.add_zero]
    exact h.line
  · rw [if_pos hc, hc, Text.lastLine_append_lineFeed]
    rfl
  · have hmem : '\n' ∉ [c] := fun h => hc (List.mem_singleton.mp h).symm
    rw [if_neg hc, Text.lastLine_append_of_not_mem hmem, List.length_append, ← h.column]
    show (p.column + 1).toNat = p.column.toNat + 1
    rw [UInt32.toNat_add]
    apply Nat.mod_eq_of_lt
    rw [h.column]
    exact Nat.add_lt_of_lt_sub hcolumn

private theorem Behind.afterAll (h : p.Behind front) {cs : List Char}
    (hfits : p.Fits cs) :
    (p.afterAll cs).Behind (front ++ cs) := by
  induction cs generalizing front p with
  | nil => rwa [List.append_nil]
  | cons c cs ih =>
      have hfits : p.Fits ([c] ++ cs) := hfits
      have hrest := ih (h.after hfits.left) hfits.behind
      rwa [List.append_assoc, List.singleton_append] at hrest

/-- Whether a position is behind a front part of a source text. -/
def Marks (source : String) (p : Position) : Prop :=
  ∃ front, front <+: source.toList ∧ p.Behind front

end Position

/-! ## Positions of tokens -/

/-- A piece is placed behind the pieces before it. -/
theorem Piece.behind_of_mem_placed {front : List Char} {p : Position}
    (hp : p.Behind front) {pieces : List Piece}
    (hfits : p.Fits (pieces.map text).flatten) {q : Position} {piece : Piece}
    (h : (q, piece) ∈ placed p pieces) :
    ∃ passed, passed ++ piece.text <+: (pieces.map text).flatten ∧
      q.Behind (front ++ passed) ∧ q.Fits piece.text := by
  induction pieces generalizing front p with
  | nil => cases h
  | cons first rest ih =>
      rw [List.map_cons, List.flatten_cons] at hfits
      cases h with
      | head =>
          refine ⟨[], List.prefix_append _ _, ?_, hfits.left⟩
          rwa [List.append_nil]
      | tail _ hrest =>
          obtain ⟨passed, hpassed, hq, hqfits⟩ :=
            ih (hp.afterAll hfits.left) hfits.behind hrest
          refine ⟨first.text ++ passed, ?_, ?_, hqfits⟩
          · rw [List.append_assoc]
            exact (List.prefix_append_right_inj first.text).mpr hpassed
          · rwa [List.append_assoc] at hq

namespace Source

open ScalarLang.Text

private theorem lineIn_of_lt (number : Nat) {line : List Char}
    (lines : List (List Char)) {offset : Nat} (h : offset < byteSize line) :
    lineIn number (line :: lines) offset = some ⟨number, line, offset⟩ := by
  cases lines with
  | nil => exact if_pos (Nat.le_of_lt h)
  | cons next rest => exact if_pos h

private theorem lineIn_of_ge (number : Nat) {line : List Char}
    {lines : List (List Char)} (h : lines ≠ []) (offset : Nat) :
    lineIn number (line :: lines) (byteSize line + offset) =
      lineIn (number + 1) lines offset := by
  obtain ⟨next, rest, rfl⟩ := List.exists_cons_of_ne_nil h
  have hge : ¬ byteSize line + offset < byteSize line :=
    Nat.not_lt.mpr (Nat.le_add_right _ _)
  show (if byteSize line + offset < byteSize line then _ else _) = _
  rw [if_neg hge, Nat.add_sub_cancel_left]

/-- The line of the place behind a front part of a text goes on from the last line of
that part; there is none to go on if nothing follows a line feed. -/
theorem lineIn_behind (number : Nat) (front back : List Char)
    (h : back ≠ [] ∨ lastLine front ≠ []) :
    lineIn number (keepLines (front ++ back)) (byteSize front) =
      some ⟨number + front.count '\n', lastLine front ++ firstLine back,
        byteSize (lastLine front)⟩ := by
  -- line by line: each line feed in the front part ends one that the search passes
  induction hn : front.length using Nat.strongRecOn generalizing number front with
  | ind n ih =>
      by_cases hfront : '\n' ∈ front
      · obtain ⟨line, behind, heq, hline⟩ := List.eq_append_cons_of_mem hfront
        have hlast : lastLine front = lastLine behind := by
          rw [heq, lastLine_append_lineFeed]
        have hne : keepLines (behind ++ back) ≠ [] := by
          intro hnil
          have happend : behind ++ back = [] := by
            rw [← flatten_keepLines (behind ++ back), hnil]
            rfl
          obtain ⟨hbehind, hback⟩ := List.append_eq_nil_iff.mp happend
          rw [hlast, hbehind] at h
          exact h.elim (fun h => h hback) fun h => h rfl
        have hlines : keepLines (front ++ back) = (line ++ ['\n']) ::
            keepLines (behind ++ back) := by
          rw [heq, List.append_assoc]
          exact keepLines_append hline (behind ++ back)
        have hsize : byteSize front = byteSize (line ++ ['\n']) + byteSize behind := by
          rw [← byteSize_append, List.append_assoc, heq]
          rfl
        have hcount : front.count '\n' = 1 + behind.count '\n' := by
          rw [heq, List.count_append, List.count_eq_zero_of_not_mem hline,
            List.count_cons_self]
          omega
        have hshort : behind.length < n := by
          rw [← hn, heq, List.length_append, List.length_cons]
          omega
        rw [hlines, hsize, lineIn_of_ge number hne, hcount, hlast, ← Nat.add_assoc]
        exact ih behind.length hshort (number + 1) behind (hlast ▸ h) rfl
      · have hlast : lastLine front = front := lastLine_append_of_not_mem hfront []
        rw [List.count_eq_zero_of_not_mem hfront, hlast, Nat.add_zero]
        by_cases hback : '\n' ∈ back
        · obtain ⟨line, behind, heq, hline⟩ := List.eq_append_cons_of_mem hback
          have hfirst : '\n' ∉ front ++ line :=
            fun hmem => (List.mem_append.mp hmem).elim hfront hline
          have hlines : keepLines (front ++ back) =
              (front ++ line ++ ['\n']) :: keepLines behind := by
            rw [heq, ← List.append_assoc]
            exact keepLines_append hfirst behind
          have hsize : byteSize front < byteSize (front ++ line ++ ['\n']) := by
            have hfeed : byteSize ['\n'] = 1 := rfl
            rw [byteSize_append, byteSize_append, hfeed]
            omega
          rw [hlines, lineIn_of_lt number _ hsize, heq, firstLine_append hline,
            List.append_assoc]
        · have hmem : '\n' ∉ front ++ back :=
            fun hmem => (List.mem_append.mp hmem).elim hfront hback
          have hne : front ++ back ≠ [] := by
            intro hnil
            obtain ⟨hfrontnil, hbacknil⟩ := List.append_eq_nil_iff.mp hnil
            rw [hlast] at h
            exact h.elim (fun h => h hbacknil) fun h => h hfrontnil
          have hsize : byteSize front ≤ byteSize (front ++ back) := by
            rw [byteSize_append]
            omega
          rw [keepLines_of_not_mem hmem hne, firstLine_of_not_mem hback]
          exact if_pos hsize

end Source

/-- Whether the line of a position can be found again from its offset: the line that is
found has the number of the position's line, and as many characters before the place in
it as the position's column. -/
def Position.Found (source : String) (p : Position) : Prop :=
  ∃ place, Source.lineAt source p.offset = some place ∧ place.number = p.line.toNat ∧
    ∃ before rest, place.text = before ++ rest ∧ Source.byteSize before = place.offset ∧
      before.length = p.column.toNat

/-- A marked position is found, unless the text ends there and is empty or
ends in a line feed. -/
theorem Position.Marks.found {source : String} {p : Position} (h : p.Marks source)
    (hsize : source.utf8ByteSize < UInt32.size) (hne : source ≠ "")
    (hend : ¬ (p.offset.toNat = source.utf8ByteSize ∧
      source.toList.getLast? = some '\n')) :
    p.Found source := by
  obtain ⟨front, ⟨back, hsource⟩, hp⟩ := h
  have hgoes : back ≠ [] ∨ Text.lastLine front ≠ [] := by
    apply Decidable.byContradiction
    intro hnot
    obtain ⟨hback, hlast⟩ := not_or.mp hnot
    have hfront : front = source.toList := by
      rw [← hsource, Decidable.not_not.mp hback, List.append_nil]
    cases Text.eq_nil_or_of_lastLine_eq_nil (Decidable.not_not.mp hlast) with
    | inl hnil => exact hne (String.toList_eq_nil_iff.mp (hfront ▸ hnil))
    | inr hfeed =>
        apply hend
        rw [hp.offset, hfront, ← Source.byteSize_toList, ← hfront]
        exact ⟨rfl, hfeed⟩
  have hline := Source.lineIn_behind 1 front back hgoes
  rw [hsource, ← hp.offset] at hline
  have hnumber : p.line.toNat = 1 + front.count '\n' := by
    -- besides its line feeds, the text has the character that makes the line go on
    have hcount : front.count '\n' < source.toList.length := by
      rw [← hsource, List.length_append]
      rcases hgoes with hback | hlast
      · have hpos := List.length_pos_iff.mpr hback
        have hle := List.count_le_length (a := '\n') (l := front)
        omega
      · exact Nat.lt_add_right _ (Text.count_lt_length hlast)
    have hbytes := Source.length_le_byteSize source.toList
    rw [Source.byteSize_toList] at hbytes
    have hfit : front.count '\n' < UInt32.size := by omega
    rw [hp.line, UInt32.toNat_add, UInt32.toNat_ofNat_of_lt' hfit]
    apply Nat.mod_eq_of_lt
    show 1 + front.count '\n' < UInt32.size
    omega
  exact ⟨_, hline, hnumber.symm, Text.lastLine front, Text.firstLine back, rfl, rfl,
    hp.column.symm⟩

/-- What a position is expected to tell. -/
structure Position.Sound (source : String) (p : Position) : Prop where
  marks : p.Marks source
  boundary : String.Pos.Raw.IsValid source ⟨p.offset.toNat⟩
  found : source ≠ "" →
    ¬ (p.offset.toNat = source.utf8ByteSize ∧ source.toList.getLast? = some '\n') →
      p.Found source

end ScalarLang
