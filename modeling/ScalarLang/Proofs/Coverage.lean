import Mathlib.Data.List.TakeWhile
import ScalarLang.Proofs.Positions

/-!
# Scanning loses nothing

The tokens of a text do not hold the whole text: blanks and comments are dropped, and a
string keeps what its escapes stand for. Yet nothing else goes missing. The ranges of
the tokens cut the text into pieces, those in the ranges are spellings of the tokens
(`Token.Spells`), and those between the ranges are blanks and comments (`Gap`).

What a gap and a spelling are is said here without the scanner: by relations with a
constructor for each way of writing one more character. The scanner splits a text from
left to right, and each piece that it takes off extends the gap or is the next token
(`Token.Covers`); the byte offsets follow from that alone.

A text may have more bytes than an offset can count. Offsets start again from zero
there, so that of two characters far apart the second one has the smaller offset
(`Token.scan_apart`).

## Main results

* `Token.scan_accounts`: the ranges of the tokens of a text with fewer bytes than an
  offset can count account for all its bytes.
-/

namespace ScalarLang

/-! ## Gaps -/

/-- A sequence of blanks and comments in front of the text `behind`. A comment goes on
to the end of its line. -/
inductive Gap (behind : List Char) : List Char → Prop
  | nil : Gap behind []
  | blank {c : Char} {cs : List Char} (hc : Text.isBlank c = true)
      (hrest : Gap behind cs) : Gap behind (c :: cs)
  | comment {text cs : List Char} (hline : '\n' ∉ text)
      (hend : ∀ c ∈ (cs ++ behind).head?, c = '\n')
      (hrest : Gap behind cs) : Gap behind ('/' :: '/' :: (text ++ cs))

namespace Gap

variable {behind : List Char}

private theorem append {cs ds : List Char} (h : Gap (ds ++ behind) cs)
    (hds : Gap behind ds) : Gap behind (cs ++ ds) := by
  induction h with
  | nil => exact hds
  | blank hc _ ih => exact .blank hc ih
  | comment hline hend _ ih =>
      rw [List.cons_append, List.cons_append, List.append_assoc]
      rw [← List.append_assoc] at hend
      exact .comment hline hend ih

private theorem blanks {cs : List Char} (h : ∀ c ∈ cs, Text.isBlank c = true) :
    Gap behind cs := by
  induction cs with
  | nil => exact .nil
  | cons c cs ih =>
      have htail : Gap behind cs := ih fun d hd => h d (List.mem_cons_of_mem c hd)
      exact .blank (h c List.mem_cons_self) htail

end Gap

/-! ## Spellings -/

/-- The character that a backslash before this one stands for. -/
def escape? : Char → Option Char
  | 'n' => some '\n'
  | 't' => some '\t'
  | 'r' => some '\r'
  | '\\' => some '\\'
  | '"' => some '"'
  | _ => none

/-- Whether a text stands for a value between quotes. A backslash without a meaning
stands for itself. -/
inductive Quotes : List Char → List Char → Prop
  | nil : Quotes [] []
  | plain {c : Char} {cs value : List Char} (hquote : c ≠ '"') (hslash : c ≠ '\\')
      (hfeed : c ≠ '\n')
      (hrest : Quotes cs value) : Quotes (c :: cs) (c :: value)
  | escape {c d : Char} {cs value : List Char} (hc : escape? c = some d)
      (hrest : Quotes cs value) :
      Quotes ('\\' :: c :: cs) (d :: value)
  | kept {c : Char} {cs value : List Char} (hc : escape? c = none) (hfeed : c ≠ '\n')
      (hrest : Quotes cs value) :
      Quotes ('\\' :: c :: cs) ('\\' :: c :: value)

/-- Whether a token is written like this: a string between quotes in one line, and
everything else as it is. -/
def Token.Spells (t : Token) (text : List Char) : Prop :=
  if t.kind = .string then
    ∃ inner, text = '"' :: (inner ++ ['"']) ∧ '\n' ∉ inner ∧ Quotes inner t.value.toList
  else text = t.value.toList

private theorem escape?_lineFeed : escape? '\n' = none := rfl

private theorem Quotes.lineFeed_not_mem {cs value : List Char} (h : Quotes cs value) :
    '\n' ∉ cs := by
  induction h with
  | nil => exact List.not_mem_nil
  | plain _ _ hfeed _ ih => exact List.not_mem_cons_of_ne_of_not_mem hfeed.symm ih
  | @escape c d cs value hc _ ih =>
      have hfeed : '\n' ≠ c := by
        intro heq
        rw [← heq, escape?_lineFeed] at hc
        cases hc
      exact List.not_mem_cons_of_ne_of_not_mem (by decide)
        (List.not_mem_cons_of_ne_of_not_mem hfeed ih)
  | kept _ hfeed _ ih =>
      exact List.not_mem_cons_of_ne_of_not_mem (by decide)
        (List.not_mem_cons_of_ne_of_not_mem hfeed.symm ih)

namespace Piece

/-! ## The piece at the front of a text -/

theorem unescape_plain {c : Char} (h : c ≠ '\\') (cs : List Char) :
    unescape (c :: cs) = c :: unescape cs := by
  rw [unescape]
  all_goals
    intro rest heq
    exact absurd heq h

theorem unescape_escape {c d : Char} (h : escape? c = some d) (cs : List Char) :
    unescape ('\\' :: c :: cs) = d :: unescape cs := by
  unfold escape? at h
  split at h
  all_goals
    cases h
    try rfl

private theorem unescape_kept {c : Char} (h : escape? c = none) (cs : List Char) :
    unescape ('\\' :: c :: cs) = '\\' :: c :: unescape cs := by
  have hslash : c ≠ '\\' := by
    intro heq
    rw [heq] at h
    cases h
  have hhead : unescape ('\\' :: c :: cs) = '\\' :: unescape (c :: cs) := by
    rw [unescape]
    all_goals
      intro rest _ heq
      rw [(List.cons.inj heq).1] at h
      cases h
  rw [hhead, unescape_plain hslash]

/-- What the search for the other quote passes stands for its value. -/
theorem quotes_of_quotedRest? {cs rest : List Char} (h : quotedRest? cs = some rest) :
    ∃ inner, rest = inner ++ ['"'] ∧ Quotes inner (unescape inner) := by
  fun_induction quotedRest? cs generalizing rest with
  | case1 | case3 | case4 => cases h
  | case2 =>
      cases h
      exact ⟨[], rfl, .nil⟩
  | case5 c cs hfeed ih =>
      obtain ⟨behind, hbehind, rfl⟩ := Option.map_eq_some_iff.mp h
      obtain ⟨inner, hinner, hquotes⟩ := ih hbehind
      refine ⟨'\\' :: c :: inner, by rw [hinner]; rfl, ?_⟩
      cases hc : escape? c with
      | none =>
          rw [unescape_kept hc]
          exact .kept hc hfeed hquotes
      | some d =>
          rw [unescape_escape hc]
          exact .escape hc hquotes
  | case6 c cs hquote hfeed hlone hslash ih =>
      obtain ⟨behind, hbehind, rfl⟩ := Option.map_eq_some_iff.mp h
      obtain ⟨inner, hinner, hquotes⟩ := ih hbehind
      have hslash : c ≠ '\\' := by
        intro heq
        cases cs with
        | nil => cases hbehind
        | cons d ds => exact hslash d ds heq rfl
      refine ⟨c :: inner, by rw [hinner]; rfl, ?_⟩
      rw [unescape_plain hslash]
      exact .plain hquote hslash hfeed hquotes

/-- Whether a piece is a token of the grammar only if it may be one in front of the end,
and a string only if it stands for its value. -/
def Written (piece : Piece) : Prop :=
  ∀ kind, piece.sort = .token kind → kind ≠ .eof ∧
    (kind = .string → ∃ inner, piece.text = '"' :: (inner ++ ['"']) ∧
      Quotes inner (unescape inner))

theorem Written.of_kind {kind : TokenKind} {text : List Char} (heof : kind ≠ .eof)
    (hstring : kind ≠ .string) :
    Written ⟨.token kind, text⟩ := by
  intro kind' h
  cases h
  exact ⟨heof, fun h => absurd h hstring⟩

theorem Written.of_sort {piece : Piece} (h : ∀ kind, piece.sort ≠ .token kind) :
    piece.Written :=
  fun kind hkind => absurd hkind (h kind)

private theorem written_word (text : List Char) : (word text).Written := by
  apply Written.of_kind <;>
    unfold TokenKind.reserved? <;> split <;> exact TokenKind.noConfusion

private theorem written_number (c : Char) (cs : List Char) : (number c cs).Written := by
  unfold number
  dsimp only
  split <;> exact .of_kind TokenKind.noConfusion TokenKind.noConfusion

private theorem written_quotedString (cs : List Char) : (quotedString cs).Written := by
  unfold quotedString
  split
  · next rest hrest =>
      intro kind hkind
      cases hkind
      obtain ⟨inner, hinner, hquotes⟩ := quotes_of_quotedRest? hrest
      exact ⟨TokenKind.noConfusion, fun _ => ⟨inner, by rw [hinner], hquotes⟩⟩
  · exact .of_sort fun _ => PieceClass.noConfusion

private theorem written_fixed (c : Char) (cs : List Char) : (fixed c cs).Written := by
  unfold fixed
  split
  all_goals first
    | exact .of_kind TokenKind.noConfusion TokenKind.noConfusion
    | exact .of_sort fun _ => PieceClass.noConfusion

private theorem written_front (c : Char) (cs : List Char) : (front c cs).Written := by
  unfold front
  split
  · exact written_word _
  split
  · exact written_number c cs
  split
  · exact .of_sort fun _ => PieceClass.noConfusion
  split
  · exact written_quotedString cs
  split
  · exact .of_sort fun _ => PieceClass.noConfusion
  · exact written_fixed c cs

/-- A token is spelled by the piece that it is. -/
theorem Written.spells {p : Position} {piece : Piece} {t : Token} (h : piece.Written)
    (ht : token? (p, piece) = some t) :
    t.kind ≠ .eof ∧ t.Spells piece.text ∧ t.span = ⟨p, p.afterAll piece.text⟩ := by
  obtain ⟨sort, text⟩ := piece
  cases sort with
  | skipped | stray => cases ht
  | token kind =>
      cases ht
      obtain ⟨heof, hstring⟩ := h kind rfl
      refine ⟨heof, ?_, rfl⟩
      by_cases hkind : kind = .string
      · obtain ⟨inner, hinner, hquotes⟩ := hstring hkind
        have hvalue : (value kind text).toList = unescape inner := by
          have hrest : text.tail.dropLast = inner := by
            rw [show text = '"' :: (inner ++ ['"']) from hinner, List.tail_cons,
              List.dropLast_concat]
          rw [value, if_pos hkind, String.toList_ofList, hrest]
        rw [Token.Spells, if_pos hkind, hvalue]
        exact ⟨inner, hinner, hquotes.lineFeed_not_mem, hquotes⟩
      · rw [Token.Spells, if_neg hkind, value, if_neg hkind, String.toList_ofList]

/-- A run of characters up to the end of a line ends before a line feed or at the
end of the text. -/
theorem lineFeed_of_takeWhile {cs rest : List Char}
    (h : cs.takeWhile (· ≠ '\n') ++ rest = cs) :
    '\n' ∉ cs.takeWhile (· ≠ '\n') ∧ ∀ c ∈ rest.head?, c = '\n' := by
  have hrest : rest = cs.dropWhile (· ≠ '\n') := by
    have hsplit : cs.takeWhile (· ≠ '\n') ++ cs.dropWhile (· ≠ '\n') = cs :=
      List.takeWhile_append_dropWhile
    exact List.append_cancel_left (h.trans hsplit.symm)
  constructor
  · intro hmem
    have hne := List.mem_takeWhile_imp hmem
    exact absurd rfl (of_decide_eq_true hne)
  · intro c hc
    have hhead := List.head?_dropWhile_not (· ≠ '\n') cs
    rw [← hrest, Option.mem_def.mp hc] at hhead
    exact Decidable.not_not.mp (of_decide_eq_false hhead)

/-- What is skipped is a gap before the rest of the text. -/
theorem gap_of_front {c : Char} {cs rest : List Char} (h : (front c cs).sort = .skipped)
    (hrest : (front c cs).text ++ rest = c :: cs) : Gap rest (front c cs).text := by
  unfold front at h hrest ⊢
  split at h
  · cases h
  next hword =>
  rw [if_neg hword] at hrest ⊢
  split at h
  · unfold number at h
    dsimp only at h
    split at h <;> cases h
  next hdigit =>
  rw [if_neg hdigit] at hrest ⊢
  split at h
  next hblank =>
    rw [if_pos hblank]
    exact .blank hblank (.blanks fun d hd => List.mem_takeWhile_imp hd)
  next hblank =>
  rw [if_neg hblank] at hrest ⊢
  split at h
  · unfold quotedString at h
    split at h <;> cases h
  next hquote =>
  rw [if_neg hquote] at hrest ⊢
  split at h
  next hslash =>
    rw [if_pos hslash] at hrest ⊢
    cases cs with
    | nil => cases hslash.2
    | cons d ds =>
        have hd : d = '/' := Option.some.inj hslash.2
        rw [hslash.1, hd] at hrest ⊢
        have hds : ds.takeWhile (· ≠ '\n') ++ rest = ds :=
          (List.cons.inj (List.cons.inj hrest).2).2
        obtain ⟨hline, hend⟩ := lineFeed_of_takeWhile hds
        have hgap : Gap rest ('/' :: '/' :: (ds.takeWhile (· ≠ '\n') ++ [])) :=
          .comment hline hend .nil
        rwa [List.append_nil] at hgap
  · unfold fixed at h
    split at h <;> cases h

end Piece

/-! ## Tokens that cover a text -/

/-- Whether tokens are those of a text that starts at `p`: in turns a gap and a
spelling, and at last a gap and the end. -/
inductive Token.Covers : Position → List Char → List Token → Prop
  | eof {p : Position} {gap : List Char} (hgap : Gap [] gap) :
      Covers p gap [.eof (p.afterAll gap)]
  | token {p : Position} {gap text rest : List Char} {t : Token} {ts : List Token}
      (hgap : Gap (text ++ rest) gap)
      (hne : text ≠ []) (hkind : t.kind ≠ .eof) (hspells : t.Spells text)
      (hspan : t.span = ⟨p.afterAll gap, p.afterAll (gap ++ text)⟩)
      (hrest : Covers (p.afterAll (gap ++ text)) rest ts) :
      Covers p (gap ++ (text ++ rest)) (t :: ts)

namespace Token

private theorem Covers.skip {p : Position} {gap cs : List Char} {tokens : List Token}
    (hgap : Gap cs gap) (h : Covers (p.afterAll gap) cs tokens) :
    Covers p (gap ++ cs) tokens := by
  cases h with
  | eof hgap' =>
      rw [← Position.afterAll_append]
      rw [← List.append_nil cs] at hgap
      exact .eof (hgap.append hgap')
  | token hgap' hne hkind hspells hspan hrest =>
      rw [← Position.afterAll_append] at hspan hrest
      rw [← Position.afterAll_append, ← List.append_assoc] at hspan
      rw [← List.append_assoc] at hrest ⊢
      exact .token (hgap.append hgap') hne hkind hspells hspan hrest

private theorem splitAfter_eq_split_drop (skip : Nat) (cs : List Char) :
    Piece.splitAfter skip cs = Piece.split (cs.drop skip) := by
  induction cs generalizing skip with
  | nil => cases skip <;> rfl
  | cons c cs ih =>
      cases skip with
      | zero => rfl
      | succ skip => exact ih skip

/-- A text is split into the piece at its front and the pieces of the rest. -/
theorem split_front {c : Char} {cs rest : List Char}
    (h : (Piece.front c cs).text ++ rest = c :: cs) :
    Piece.split (c :: cs) = Piece.front c cs :: Piece.split rest := by
  have hrest : cs.drop ((Piece.front c cs).text.length - 1) = rest := by
    have hdrop : (c :: cs).drop (Piece.front c cs).text.length = rest := by
      rw [← h, List.drop_left]
    obtain ⟨d, ds, htext⟩ := List.exists_cons_of_ne_nil (Piece.front_text_ne_nil c cs)
    rw [htext] at hdrop ⊢
    exact hdrop
  show Piece.front c cs :: Piece.splitAfter _ cs = _
  rw [splitAfter_eq_split_drop, hrest]

/-- A piece that is taken off extends the gap or is the next token. -/
theorem Covers.cons {p : Position} {piece : Piece} {rest : List Char}
    {pieces : List Piece} {last : Token} (hne : piece.text ≠ [])
    (hwritten : piece.Written) (hstray : piece.sort ≠ .stray)
    (hgap : piece.sort = .skipped → Gap rest piece.text)
    (h : Covers (p.afterAll piece.text) rest
      ((Piece.placed (p.afterAll piece.text) pieces).filterMap Piece.token? ++
        [last])) :
    Covers p (piece.text ++ rest)
      ((Piece.placed p (piece :: pieces)).filterMap Piece.token? ++ [last]) := by
  cases htoken : Piece.token? (p, piece) with
  | none =>
      have hsort : piece.sort = .skipped := by
        obtain ⟨sort, text⟩ := piece
        cases sort with
        | skipped => rfl
        | token kind => cases htoken
        | stray => exact absurd rfl hstray
      rw [Piece.placed, List.filterMap_cons_none htoken]
      exact h.skip (hgap hsort)
  | some t =>
      obtain ⟨hkind, hspells, hspan⟩ := hwritten.spells htoken
      rw [Piece.placed, List.filterMap_cons_some htoken]
      show Covers p ([] ++ (piece.text ++ rest)) _
      exact .token .nil hne hkind hspells hspan h

/-- The pieces of a text are taken off one after the other. -/
theorem covers_split (p : Position) (cs : List Char)
    (h : ∀ piece ∈ Piece.split cs, piece.sort ≠ .stray) :
    Covers p cs ((Piece.placed p (Piece.split cs)).filterMap Piece.token? ++
      [.eof (p.afterAll cs)]) := by
  induction hn : cs.length using Nat.strongRecOn generalizing p cs with
  | ind n ih =>
      cases cs with
      | nil => exact .eof .nil
      | cons c cs =>
          obtain ⟨rest, hrest⟩ := Piece.front_isPrefix c cs
          have hne := Piece.front_text_ne_nil c cs
          rw [split_front hrest] at h ⊢
          have hshort : rest.length < n := by
            have hpos := List.length_pos_iff.mpr hne
            rw [← hn, ← hrest, List.length_append]
            omega
          have hstray : (Piece.front c cs).sort ≠ .stray := h _ List.mem_cons_self
          have hpieces : ∀ piece ∈ Piece.split rest, piece.sort ≠ .stray :=
            fun piece hpiece => h piece (List.mem_cons_of_mem _ hpiece)
          have hcovers :=
            ih rest.length hshort (p.afterAll (Piece.front c cs).text) rest hpieces rfl
          have hcons := Covers.cons hne (Piece.written_front c cs) hstray
            (fun hsort => Piece.gap_of_front hsort hrest) hcovers
          rwa [← Position.afterAll_append, hrest] at hcons

end Token

/-! ## Texts that are too long for offsets -/

namespace Source

/-- So many lines of so many spaces. -/
def blankLines (count width : Nat) : List Char :=
  (List.replicate count (List.replicate width ' ' ++ ['\n'])).flatten

/-- Two characters that stand `2 ^ 32 - 2 ^ 16 + 1` bytes apart, with blanks
between them and in front. No line is longer than `2 ^ 16` bytes, so that only
offsets run out of numbers. -/
def apart (c d : Char) : List Char :=
  blankLines 1 65535 ++ c :: (blankLines 65535 65535 ++ [d])

theorem blankLines_succ (count width : Nat) :
    blankLines (count + 1) width =
      List.replicate width ' ' ++ '\n' :: blankLines count width := by
  rw [blankLines, List.replicate_succ, List.flatten_cons, List.append_assoc]
  rfl

private theorem isBlank_of_mem_blankLines {count width : Nat} :
    ∀ c ∈ blankLines count width, Text.isBlank c = true := by
  intro c hc
  obtain ⟨line, hline, hc⟩ := List.mem_flatten.mp hc
  rw [(List.mem_replicate.mp hline).2] at hc
  cases List.mem_append.mp hc with
  | inl hspace =>
      rw [(List.mem_replicate.mp hspace).2]
      rfl
  | inr hfeed =>
      rw [List.mem_singleton.mp hfeed]
      rfl

private theorem byteSize_blankLines (count width : Nat) :
    byteSize (blankLines count width) = count * (width + 1) := by
  have hspaces : byteSize (List.replicate width ' ') = width := by
    induction width with
    | zero => rfl
    | succ width ih =>
        rw [List.replicate_succ, byteSize, ih]
        exact Nat.add_comm 1 width
  induction count with
  | zero => exact (Nat.zero_mul _).symm
  | succ count ih =>
      rw [blankLines_succ, byteSize_append, byteSize, ih, hspaces, Nat.add_one_mul]
      show width + (1 + count * (width + 1)) = _
      omega

end Source

namespace Position

variable (offset line column : UInt32) (file : String)

private theorem ofNat_add_one (n : Nat) :
    UInt32.ofNat (n + 1) = 1 + UInt32.ofNat n := by
  rw [Nat.add_comm, UInt32.ofNat_add]
  rfl

private theorem afterAll_spaces (n : Nat) :
    (⟨offset, line, column, file⟩ : Position).afterAll (List.replicate n ' ') =
      ⟨offset + UInt32.ofNat n, line, column + UInt32.ofNat n, file⟩ := by
  induction n generalizing offset column with
  | zero => simp
  | succ n ih =>
      rw [List.replicate_succ, afterAll_cons, after, if_neg (by decide), ih,
        ofNat_add_one, ← UInt32.add_assoc, ← UInt32.add_assoc]
      rfl

private theorem afterAll_blankLine (width : Nat) (rest : List Char) :
    (⟨offset, line, column, file⟩ : Position).afterAll
        (List.replicate width ' ' ++ '\n' :: rest) =
      (⟨offset + UInt32.ofNat (width + 1), line + 1, 0, file⟩ : Position).afterAll
        rest := by
  rw [afterAll_append, afterAll_spaces, afterAll_cons, after, if_pos rfl,
    UInt32.ofNat_add, ← UInt32.add_assoc]
  rfl

private theorem afterAll_blankLines (count width : Nat) :
    (⟨offset, line, column, file⟩ : Position).afterAll
        (Source.blankLines (count + 1) width) =
      ⟨offset + UInt32.ofNat ((count + 1) * (width + 1)),
        line + UInt32.ofNat (count + 1), 0, file⟩ := by
  induction count generalizing offset line column with
  | zero =>
      rw [Source.blankLines_succ, afterAll_blankLine, Nat.zero_add, Nat.one_mul]
      rfl
  | succ count ih =>
      have hbytes : UInt32.ofNat ((count + 1 + 1) * (width + 1)) =
          UInt32.ofNat (width + 1) + UInt32.ofNat ((count + 1) * (width + 1)) := by
        rw [Nat.add_one_mul (count + 1), Nat.add_comm, UInt32.ofNat_add]
      rw [Source.blankLines_succ, afterAll_blankLine, ih, hbytes,
        ofNat_add_one (count + 1), ← UInt32.add_assoc, ← UInt32.add_assoc]

theorem afterAll_singleton {c : Char} (hfeed : c ≠ '\n') (hsize : c.utf8Size = 1) :
    (⟨offset, line, column, file⟩ : Position).afterAll [c] =
      ⟨offset + 1, line, column + 1, file⟩ := by
  rw [afterAll_cons, after, if_neg hfeed, hsize]
  rfl

/-- The place of the first of two characters that stand so far apart. -/
theorem afterAll_near :
    (first file).afterAll (Source.blankLines 1 65535) = ⟨65536, 2, 0, file⟩ := by
  have hoffset : (0 : UInt32) + UInt32.ofNat ((0 + 1) * (65535 + 1)) = 65536 := by
    decide
  have hline : (1 : UInt32) + UInt32.ofNat (0 + 1) = 2 := by decide
  rw [first, afterAll_blankLines _ _ _ _ 0, hoffset, hline]

/-- The place of the second one, whose offset has started again from zero. -/
theorem afterAll_far :
    (⟨65537, 2, 1, file⟩ : Position).afterAll (Source.blankLines 65535 65535) =
      ⟨1, 65537, 0, file⟩ := by
  have hoffset : (65537 : UInt32) + UInt32.ofNat ((65534 + 1) * (65535 + 1)) = 1 := by
    decide
  have hline : (2 : UInt32) + UInt32.ofNat (65534 + 1) = 65537 := by decide
  rw [afterAll_blankLines _ _ _ _ 65534, hoffset, hline]

end Position

namespace Piece

/-- Blanks in front of a text, the first of them a space, are one piece. -/
theorem split_blanks {blanks rest : List Char} (h : ∀ c ∈ blanks, Text.isBlank c = true)
    (hspace : blanks.head? = some ' ')
    (hrest : ∀ c ∈ rest.head?, Text.isBlank c = false) :
    split (blanks ++ rest) = ⟨.skipped, blanks⟩ :: split rest := by
  obtain ⟨cs, rfl⟩ := List.head?_eq_some_iff.mp hspace
  have hcs : (cs ++ rest).takeWhile Text.isBlank = cs := by
    rw [List.takeWhile_append_of_pos fun c hc => h c (List.mem_cons_of_mem _ hc)]
    cases rest with
    | nil => exact List.append_nil cs
    | cons c rest =>
        rw [List.takeWhile_cons_of_neg (by simp [hrest c rfl]), List.append_nil]
  have hfront : front ' ' (cs ++ rest) = ⟨.skipped, ' ' :: cs⟩ := by
    show (⟨.skipped, ' ' :: (cs ++ rest).takeWhile Text.isBlank⟩ : Piece) = _
    rw [hcs]
  have hsplit : (front ' ' (cs ++ rest)).text ++ rest = ' ' :: (cs ++ rest) := by
    rw [hfront]
    rfl
  rw [List.cons_append, Token.split_front hsplit, hfront]

variable {c d : Char} {sort sort' : PieceClass}

private theorem split_single (hc : ∀ cs, front c cs = ⟨sort, [c]⟩) (cs : List Char) :
    split (c :: cs) = ⟨sort, [c]⟩ :: split cs := by
  have hsplit : (front c cs).text ++ cs = c :: cs := by
    rw [hc]
    rfl
  rw [Token.split_front hsplit, hc]

/-- Two characters that stand so far apart, where each is a piece whatever
comes behind it. -/
structure Apart (c d : Char) (sort sort' : PieceClass) : Prop where
  first : ∀ cs, front c cs = ⟨sort, [c]⟩
  second : ∀ cs, front d cs = ⟨sort', [d]⟩
  solid : Text.isBlank c = false ∧ Text.isBlank d = false
  plain : c.utf8Size = 1 ∧ d.utf8Size = 1

private theorem Apart.ne_lineFeed (h : Apart c d sort sort') : c ≠ '\n' ∧ d ≠ '\n' := by
  constructor
  all_goals
    intro heq
    rw [heq] at h
  · cases h.solid.1
  · cases h.solid.2

/-- The text has more bytes than an offset can count. -/
theorem Apart.utf8ByteSize_eq (h : Apart c d sort sort') :
    (String.ofList (Source.apart c d)).utf8ByteSize = UInt32.size + 2 := by
  have hc : Source.byteSize (c :: (Source.blankLines 65535 65535 ++ [d])) =
      c.utf8Size + (Source.byteSize (Source.blankLines 65535 65535) + d.utf8Size) :=
    congrArg (c.utf8Size + ·) (Source.byteSize_append _ _)
  rw [Source.utf8ByteSize_ofList, Source.apart, Source.byteSize_append, hc, h.plain.1,
    h.plain.2, Source.byteSize_blankLines, Source.byteSize_blankLines]

private theorem Apart.split_eq (h : Apart c d sort sort') :
    split (Source.apart c d) =
      [⟨.skipped, Source.blankLines 1 65535⟩, ⟨sort, [c]⟩,
        ⟨.skipped, Source.blankLines 65535 65535⟩, ⟨sort', [d]⟩] := by
  have hspace (n : Nat) : (Source.blankLines (n + 1) (65534 + 1)).head? = some ' ' := by
    rw [Source.blankLines_succ, List.replicate_succ]
    rfl
  have hc (cs : List Char) : ∀ x ∈ (c :: cs).head?, Text.isBlank x = false := by
    intro x hx
    rw [← Option.some.inj hx]
    exact h.solid.1
  have hd : ∀ x ∈ [d].head?, Text.isBlank x = false := by
    intro x hx
    rw [← Option.some.inj hx]
    exact h.solid.2
  rw [Source.apart, split_blanks Source.isBlank_of_mem_blankLines (hspace 0) (hc _),
    split_single h.first, split_blanks Source.isBlank_of_mem_blankLines (hspace 65534)
      hd, split_single h.second]
  rfl

theorem Apart.placed_eq (h : Apart c d sort sort') (file : String) :
    placed (.first file) (split (Source.apart c d)) =
      [(.first file, ⟨.skipped, Source.blankLines 1 65535⟩),
        (⟨65536, 2, 0, file⟩, ⟨sort, [c]⟩),
        (⟨65537, 2, 1, file⟩, ⟨.skipped, Source.blankLines 65535 65535⟩),
        (⟨1, 65537, 0, file⟩, ⟨sort', [d]⟩)] := by
  rw [h.split_eq, placed, Position.afterAll_near, placed,
    Position.afterAll_singleton _ _ _ _ h.ne_lineFeed.1 h.plain.1, placed]
  show _ :: _ :: _ :: placed (Position.afterAll ⟨65537, 2, 1, file⟩ _) _ = _
  rw [Position.afterAll_far]
  rfl

end Piece

/-- The tokens of a text of two characters that stand so far apart. -/
theorem Token.scan_apart {c d : Char} {kind kind' : TokenKind}
    (h : Piece.Apart c d (.token kind) (.token kind')) (file : String) :
    scan file (String.ofList (Source.apart c d)) =
      .ok [⟨kind, Piece.value kind [c], ⟨⟨65536, 2, 0, file⟩, ⟨65537, 2, 1, file⟩⟩⟩,
        ⟨kind', Piece.value kind' [d], ⟨⟨1, 65537, 0, file⟩, ⟨2, 65537, 1, file⟩⟩⟩,
        .eof ⟨2, 65537, 1, file⟩] := by
  obtain ⟨hc, hd⟩ := h.ne_lineFeed
  have hend : (Position.first file).afterAll (Source.apart c d) =
      ⟨2, 65537, 1, file⟩ := by
    rw [Source.apart, ← List.singleton_append, Position.afterAll_append,
      Position.afterAll_append, Position.afterAll_append, Position.afterAll_near,
      Position.afterAll_singleton _ _ _ _ hc h.plain.1]
    show ((Position.afterAll ⟨65537, 2, 1, file⟩ _).afterAll _) = _
    rw [Position.afterAll_far, Position.afterAll_singleton _ _ _ _ hd h.plain.2]
    rfl
  rw [scan_eq, String.toList_ofList, h.placed_eq, hend]
  simp only [List.filterMap_cons, Piece.report?, Piece.token?, List.filterMap_nil,
    Position.afterAll_singleton _ _ _ _ hc h.plain.1,
    Position.afterAll_singleton _ _ _ _ hd h.plain.2]
  rfl

/-! ## Byte offsets -/

/-- Whether the bytes of a source from `start` to `stop` are those of `text`, with
`back` behind them. -/
def Source.Slice (source : String) (start stop : UInt32) (text back : List Char) :
    Prop :=
  ∃ front, source.toList = front ++ (text ++ back) ∧ byteSize front = start.toNat ∧
    byteSize (front ++ text) = stop.toNat

private theorem Source.Slice.le {source : String} {start stop : UInt32}
    {text back : List Char} (h : Slice source start stop text back) : start ≤ stop := by
  obtain ⟨front, -, hstart, hstop⟩ := h
  rw [byteSize_append] at hstop
  rw [UInt32.le_iff_toNat_le]
  omega

private theorem Source.Slice.lt {source : String} {start stop : UInt32}
    {text back : List Char} (h : Slice source start stop text back) (hne : text ≠ []) :
    start < stop := by
  obtain ⟨front, -, hstart, hstop⟩ := h
  obtain ⟨c, cs, htext⟩ := List.exists_cons_of_ne_nil hne
  have hpos : 0 < byteSize text := by
    rw [htext]
    exact Nat.add_pos_left c.utf8Size_pos _
  rw [byteSize_append] at hstop
  rw [UInt32.lt_iff_toNat_lt]
  omega

namespace Token

/-- Whether the tokens `body` and then `last` account for a source from the
byte `first` on. -/
structure Accounts (source : String) (first : UInt32) (body : List Token)
    (last : Token) :
    Prop where
  /-- In front of the end are tokens of other kinds, each with some bytes that spell
  it. -/
  spelled : ∀ t ∈ body, t.kind ≠ .eof ∧ t.span.start.offset < t.span.stop.offset ∧
    ∃ text back, Source.Slice source t.span.start.offset t.span.stop.offset text back ∧
      t.Spells text
  /-- No token starts before one in front of it stops. -/
  ordered : body.Pairwise fun t u => t.span.stop.offset ≤ u.span.start.offset
  /-- From the first byte to the first token, and from each token to the next one or
  the end, is a gap. -/
  gaps : ∀ between ∈
      (first :: body.map (·.span.stop.offset)).zip
        ((body ++ [last]).map (·.span.start.offset)),
    ∃ text back, Source.Slice source between.1 between.2 text back ∧ Gap back text
  /-- The last token is the end, an empty range behind all bytes. -/
  atEnd : last.kind = .eof ∧ last.span.stop = last.span.start ∧
    last.span.start.offset.toNat = source.utf8ByteSize

/-- Tokens that account for a source start where the first of them may. -/
theorem Accounts.first_le {source : String} {first : UInt32} {body : List Token}
    {last : Token} (h : Accounts source first body last) :
    ∀ t ∈ body, first ≤ t.span.start.offset := by
  cases body with
  | nil => exact fun t ht => (List.not_mem_nil ht).elim
  | cons t ts =>
      obtain ⟨gap, back, hgap, -⟩ :=
        h.gaps (first, t.span.start.offset) List.mem_cons_self
      have hfirst : first ≤ t.span.start.offset := hgap.le
      intro u hu
      by_cases heq : u = t
      · rwa [heq]
      · have hu' : u ∈ ts := (List.mem_cons.mp hu).resolve_left heq
        have hordered := List.rel_of_pairwise_cons h.ordered hu'
        have hspan := UInt32.le_of_lt (h.spelled t List.mem_cons_self).2.1
        exact UInt32.le_trans hfirst (UInt32.le_trans hspan hordered)

private theorem Covers.accounts {p : Position} {cs : List Char} {tokens : List Token}
    (h : Covers p cs tokens) {source : String} {front : List Char}
    (hsource : source.toList = front ++ cs)
    (hp : p.offset.toNat = Source.byteSize front) (hfits : p.Fits cs) :
    ∃ body last, tokens = body ++ [last] ∧ Accounts source p.offset body last := by
  induction h generalizing front with
  | @eof p gap hgap =>
      have hstop : (p.afterAll gap).offset.toNat = Source.byteSize (front ++ gap) := by
        rw [hfits.toNat_offset, hp, Source.byteSize_append]
      have hslice : Source.Slice source p.offset (p.afterAll gap).offset gap [] :=
        ⟨front, by rw [hsource, List.append_nil], hp.symm, hstop.symm⟩
      refine ⟨[], Token.eof (p.afterAll gap), rfl, ?_⟩
      constructor
      · exact fun t ht => (List.not_mem_nil ht).elim
      · exact .nil
      · intro between hbetween
        rw [List.mem_singleton.mp hbetween]
        exact ⟨gap, [], hslice, hgap⟩
      · refine ⟨rfl, rfl, hstop.trans ?_⟩
        rw [← hsource, Source.byteSize_toList]
  | @token p gap text rest t ts hgap hne hkind hspells hspan _ ih =>
      have hstart : t.span.start.offset.toNat = Source.byteSize (front ++ gap) := by
        rw [hspan, hfits.left.toNat_offset, hp, Source.byteSize_append]
      rw [← List.append_assoc] at hfits
      have hstop : t.span.stop.offset.toNat =
          Source.byteSize (front ++ gap ++ text) := by
        rw [hspan, hfits.left.toNat_offset, hp, ← Source.byteSize_append,
          List.append_assoc]
      have hgapSlice :
          Source.Slice source p.offset t.span.start.offset gap (text ++ rest) :=
        ⟨front, hsource, hp.symm, hstart.symm⟩
      have hslice :
          Source.Slice source t.span.start.offset t.span.stop.offset text rest :=
        ⟨front ++ gap, by rw [hsource, List.append_assoc], hstart.symm, hstop.symm⟩
      have hnext : (p.afterAll (gap ++ text)).offset = t.span.stop.offset := by
        rw [hspan]
      have hbehind : source.toList = front ++ gap ++ text ++ rest := by
        rw [hsource, List.append_assoc, List.append_assoc]
      obtain ⟨body, last, hts, haccounts⟩ :=
        ih hbehind ((congrArg UInt32.toNat hnext).trans hstop) hfits.behind
      rw [hnext] at haccounts
      refine ⟨t :: body, last, by rw [hts]; rfl, ?_⟩
      constructor
      · intro u hu
        cases hu with
        | head => exact ⟨hkind, hslice.lt hne, text, rest, hslice, hspells⟩
        | tail _ hu => exact haccounts.spelled u hu
      · exact .cons haccounts.first_le haccounts.ordered
      · intro between hbetween
        cases hbetween with
        | head => exact ⟨gap, text ++ rest, hgapSlice, hgap⟩
        | tail _ hbetween => exact haccounts.gaps between hbetween
      · exact haccounts.atEnd

/-- The tokens of a text cover it from its first character on. -/
theorem covers_of_scan {file source : String} {tokens : List Token}
    (h : scan file source = .ok tokens) :
    Covers (.first file) source.toList tokens := by
  have hstray : ∀ piece ∈ Piece.split source.toList, piece.sort ≠ .stray :=
    (scan_eq_ok_iff file source).mp ⟨tokens, h⟩
  rw [eq_of_scan h]
  exact covers_split (.first file) source.toList hstray

/-- The tokens of a text with fewer bytes than an offset can count account
for all its bytes. -/
theorem scan_accounts {file source : String} (hsize : source.utf8ByteSize < UInt32.size)
    {tokens : List Token} (h : scan file source = .ok tokens) :
    ∃ body last, tokens = body ++ [last] ∧ Accounts source 0 body last := by
  have hsource : source.toList = [] ++ source.toList := rfl
  exact (covers_of_scan h).accounts hsource rfl (Position.fits_first hsize file)

/-- Two comments, a character of two bytes, and escapes with and without a meaning. -/
theorem scan_accounts_around_comments :
    "// é\nwrite \"ü\\n\\q\";//".utf8ByteSize < UInt32.size ∧
      ∃ tokens body last, scan "a" "// é\nwrite \"ü\\n\\q\";//" = .ok tokens ∧
        tokens.map (fun t => (t.value, t.span.start.offset, t.span.stop.offset)) =
          [("write", 6, 11), ("ü\n\\q", 12, 20), (";", 20, 21), ("EOF", 23, 23)] ∧
        tokens = body ++ [last] ∧
        Accounts "// é\nwrite \"ü\\n\\q\";//" 0 body last := by
  have hsize : "// é\nwrite \"ü\\n\\q\";//".utf8ByteSize < UInt32.size := by decide
  obtain ⟨tokens, htokens⟩ :
      ∃ tokens, scan "a" "// é\nwrite \"ü\\n\\q\";//" = .ok tokens :=
    ⟨_, rfl⟩
  obtain ⟨body, last, hsplit, haccounts⟩ := scan_accounts hsize htokens
  refine ⟨hsize, tokens, body, last, htokens, ?_, hsplit, haccounts⟩
  cases htokens
  decide +kernel

/-- The tokens of two semicolons that stand so far apart do not account for their text:
the second one stops before the first one starts. -/
theorem scan_unaccounted_far_apart :
    (String.ofList (Source.apart ';' ';')).utf8ByteSize = UInt32.size + 2 ∧
      ∃ tokens, scan "a" (String.ofList (Source.apart ';' ';')) = .ok tokens ∧
        tokens.map (fun t => (t.value, t.span.start.offset, t.span.stop.offset)) =
          [(";", 65536, 65537), (";", 1, 2), ("EOF", 2, 2)] ∧
        ¬ ∃ body last, tokens = body ++ [last] ∧
          Accounts (String.ofList (Source.apart ';' ';')) 0 body last := by
  have hapart : Piece.Apart ';' ';' (.token .semicolon) (.token .semicolon) :=
    ⟨fun _ => rfl, fun _ => rfl, by decide, by decide⟩
  refine ⟨hapart.utf8ByteSize_eq, _, scan_apart hapart "a", by decide, ?_⟩
  rintro ⟨body, last, hsplit, haccounts⟩
  have hbody := congrArg List.dropLast hsplit
  rw [List.dropLast_concat] at hbody
  have hordered := haccounts.ordered
  rw [← hbody] at hordered
  exact absurd (List.rel_of_pairwise_cons hordered List.mem_cons_self) (by decide)

end Token

end ScalarLang
