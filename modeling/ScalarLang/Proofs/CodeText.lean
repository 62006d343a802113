import ScalarLang.Proofs.Numerals
import ScalarLang.Instr.Text

/-!
# Stack code read back from its text

The text of stack code has one instruction on each line, and reading goes by lines, so
that it is enough to know which instructions are read back from the line they are
written on. Those are the ones that a line can hold (`Legible`): nothing else is ever
read from a line, whatever stands on it (`legible_of_ofLine?`), and each of them is read
back from the line it is written on (`ofLine?_text`). As no such line has a line break
in it, the lines of the text are the lines that were written.

An instruction that is not legible therefore cannot come back in any place: the
lines into which a name with a line feed falls may well be read as instructions, and
there may even be as many of them as instructions were written, but none of them is
the one with that name.

One instruction comes back but differs from itself, as programs compare values: the one
that pushes the float that is no number.

## Main results

* `readText_write`: legible stack code is read back from its text.
* `readText_write_iff`: stack code that equals what is read back from its
  text is canonical.
-/

namespace ScalarLang

/-! ## Words on a line -/

namespace Text

/-- Whether a text is a word: not empty, and without blanks. -/
def IsWord (cs : List Char) : Prop := cs ≠ [] ∧ ∀ c ∈ cs, isBlank c = false

/-- Whether a text is not empty and neither starts nor ends with a blank. -/
structure IsTrimmed (cs : List Char) : Prop where
  ne_nil : cs ≠ []
  head : ∀ c ∈ cs.head?, isBlank c = false
  getLast : ∀ c ∈ cs.getLast?, isBlank c = false

private theorem trimStart_eq_self {cs : List Char}
    (h : ∀ c ∈ cs.head?, isBlank c = false) :
    trimStart cs = cs := by
  cases cs with
  | nil => rfl
  | cons c cs => simp [trimStart, h c rfl]

private theorem IsTrimmed.trim_eq {cs : List Char} (h : IsTrimmed cs) :
    trim cs = cs := by
  have hreverse : trimStart cs.reverse = cs.reverse :=
    trimStart_eq_self (by rw [List.head?_reverse]; exact h.getLast)
  calc trim cs = (trimStart (trimStart cs).reverse).reverse := rfl
    _ = (trimStart cs.reverse).reverse := by rw [trimStart_eq_self h.head]
    _ = cs := by rw [hreverse, List.reverse_reverse]

private theorem IsWord.isTrimmed {cs : List Char} (h : IsWord cs) : IsTrimmed cs where
  ne_nil := h.1
  head c hc := h.2 c (List.mem_of_head? hc)
  getLast c hc := h.2 c (List.mem_of_getLast? hc)

theorem IsWord.lineBreak_not_mem {cs : List Char} (h : IsWord cs) :
    '\n' ∉ cs ∧ '\r' ∉ cs :=
  ⟨fun hmem => Bool.noConfusion (h.2 '\n' hmem),
    fun hmem => Bool.noConfusion (h.2 '\r' hmem)⟩

private theorem IsTrimmed.behind {word cs : List Char} (h : IsTrimmed cs)
    (hword : IsWord word) (c : Char) :
    IsTrimmed (word ++ c :: cs) where
  ne_nil := by simp
  head := by
    obtain ⟨d, ds, rfl⟩ := List.exists_cons_of_ne_nil hword.1
    exact hword.isTrimmed.head
  getLast := by
    have hlast : (word ++ c :: cs).getLast? = cs.getLast? := by
      obtain ⟨d, ds, rfl⟩ := List.exists_cons_of_ne_nil h.ne_nil
      simp [List.getLast?_append, List.getLast?_cons]
    rw [hlast]
    exact h.getLast

theorem splitWord_append {word : List Char} (hword : IsWord word) (rest : List Char)
    (hrest : ∀ c ∈ rest.head?, isBlank c = true) :
    splitWord (word ++ rest) = (word, trimStart rest) := by
  have hall : ∀ c ∈ word, (!isBlank c) = true := fun c hc => by rw [hword.2 c hc]; rfl
  have htake : rest.takeWhile (!isBlank ·) = [] := by
    cases rest with
    | nil => rfl
    | cons c cs => simp [hrest c rfl]
  have hdrop : rest.dropWhile (!isBlank ·) = rest := by
    cases rest with
    | nil => rfl
    | cons c cs => simp [hrest c rfl]
  have hstart : trimStart (word ++ rest) = word ++ rest := by
    obtain ⟨c, cs, rfl⟩ := List.exists_cons_of_ne_nil hword.1
    exact trimStart_eq_self hword.isTrimmed.head
  rw [splitWord, hstart, List.takeWhile_append_of_pos hall,
    List.dropWhile_append_of_pos hall, htake, hdrop, List.append_nil]

private theorem splitWord_word {word : List Char} (h : IsWord word) :
    splitWord word = (word, []) := by
  have hsplit := splitWord_append h [] (by simp)
  rwa [List.append_nil] at hsplit

private theorem isBlank_of_mem_splitWord_fst {cs : List Char} {c : Char}
    (h : c ∈ (splitWord cs).1) :
    isBlank c = false := by
  simpa using List.mem_takeWhile_imp h

/-! ## Lines -/

private theorem dropEnding_append {line : List Char} (h : '\r' ∉ line) :
    dropEnding (line ++ ['\n']) = line := by
  have hreverse : (line ++ ['\n']).reverse = '\n' :: line.reverse :=
    List.reverse_append ..
  unfold dropEnding
  rw [hreverse]
  split
  · next rest heq =>
      have hmem : '\r' ∈ line.reverse := by
        rw [(List.cons.inj heq).2]
        exact List.mem_cons_self
      exact absurd (List.mem_reverse.mp hmem) h
  · next rest _ heq =>
      rw [← (List.cons.inj heq).2, List.reverse_reverse]
  · next hne => exact absurd rfl (hne _)

/-- Lines without line breaks in them are the lines of the text they make up. -/
theorem lines_flatMap {lines' : List (List Char)}
    (h : ∀ line ∈ lines', '\n' ∉ line ∧ '\r' ∉ line) :
    lines (lines'.flatMap (· ++ ['\n'])) = lines' := by
  induction lines' with
  | nil => rfl
  | cons line rest ih =>
      have hline := h line List.mem_cons_self
      have hrest := ih fun l hl => h l (List.mem_cons_of_mem line hl)
      rw [List.flatMap_cons, List.append_assoc, List.singleton_append]
      rw [lines, keepLines_append hline.1, List.map_cons, dropEnding_append hline.2]
      exact congrArg (line :: ·) hrest

end Text

/-! ## What a line can hold -/

private theorem Value.same_self_of_same {v w : Value} (h : v.same w = true) :
    w.same w = true := by
  cases v <;> cases w <;> first
    | exact Bool.noConfusion h
    | skip
  · exact beq_self_eq_true _
  · next x y =>
      have hx := (Float.beq_iff_ne_nan_and_eq.mp h).2.1
      exact Float.beq_self_iff.mpr hx
  · exact beq_self_eq_true _
  · exact beq_self_eq_true _

namespace Instr

/-- Whether the numbers of an instruction have the width that the machine gives them. -/
def Fits : Instr → Prop
  | print count => count < UInt64.size
  | jump target | jumpUnless target | label target => target < UInt32.size
  | _ => True

/-- Whether an instruction is one that its text stands for: its tag is one that the
operation can have, its name is a word, and what it pushes is equal to itself. -/
def Canonical : Instr → Prop
  | arith _ t | negate t | order _ t => t.isNumeric = true
  | load name | save name => Text.IsWord name.toList
  | push (.float x) => x ≠ Float.nan
  | _ => True

/-- Whether an instruction can stand on a line. -/
def Legible : Instr → Prop
  | arith _ t | negate t | order _ t => t.isNumeric = true
  | load name | save name => Text.IsWord name.toList
  | print count => count < UInt64.size
  | jump target | jumpUnless target | label target => target < UInt32.size
  | _ => True

/-- What tells the instructions that fit and are canonical from the legible ones is that
they are equal to themselves. -/
theorem fits_and_canonical_iff (i : Instr) :
    i.Fits ∧ i.Canonical ↔ i.Legible ∧ i.same i = true := by
  cases i with
  | push v =>
      cases v with
      | float x => simp [Fits, Canonical, Legible, same, Value.same, Float.beq_self_iff]
      | _ => simp [Fits, Canonical, Legible, same, Value.same]
  | _ => simp [Fits, Canonical, Legible, same]

/-- An instruction that equals a legible one is legible and equal to itself. -/
theorem legible_of_same {i j : Instr} (h : j.same i = true) (hj : j.Legible) :
    i.Legible ∧ i.same i = true := by
  unfold same at h
  split at h
  · next v w => exact ⟨trivial, Value.same_self_of_same h⟩
  · have heq : j = i := by simpa using h
    subst heq
    exact ⟨hj, by cases j <;> simp_all [same]⟩

/-! ## Reading one line -/

private theorem isWord_tag (t : Ty) : Text.IsWord t.tag.toList := by
  cases t <;> simp [Text.IsWord, Text.isBlank, Ty.tag]

private theorem isWord_toString (n : Nat) : Text.IsWord (toString n).toList := by
  rw [Nat.toString_eq_repr, Nat.toList_repr]
  exact ⟨Nat.toDigits_ne_nil, fun _ => Text.isBlank_of_mem_toDigits⟩

/-- A line of a mnemonic and what it takes. -/
theorem ofLine?_append {mnemonic operand : List Char} (hmnemonic : Text.IsWord mnemonic)
    (hoperand : Text.IsTrimmed operand) :
    ofLine? (mnemonic ++ ' ' :: operand) =
      if mnemonic = ['p', 'u', 's', 'h'] then readPush? operand
      else ofWords? (String.ofList mnemonic) (Text.splitWord operand).1 := by
  have hsplit : Text.splitWord (mnemonic ++ ' ' :: operand) = (mnemonic, operand) := by
    rw [Text.splitWord_append hmnemonic _ (by simp; rfl)]
    exact congrArg (mnemonic, ·) (Text.trimStart_eq_self hoperand.head)
  unfold ofLine?
  rw [(hoperand.behind hmnemonic ' ').trim_eq]
  split
  · next h => exact absurd h (by simp)
  · rw [hsplit]

/-- A line of a mnemonic and a word. -/
theorem ofLine?_operand (mnemonic operand : String)
    (hmnemonic : Text.IsWord mnemonic.toList) (hpush : mnemonic ≠ "push")
    (hoperand : Text.IsWord operand.toList) :
    ofLine? (mnemonic ++ " " ++ operand).toList = ofWords? mnemonic operand.toList := by
  have htext : (mnemonic ++ " " ++ operand).toList = mnemonic.toList ++ ' ' ::
      operand.toList := by
    simp
  have hne : mnemonic.toList ≠ ['p', 'u', 's', 'h'] := fun h =>
    hpush (String.toList_inj.mp (by simpa using h))
  rw [htext, ofLine?_append hmnemonic hoperand.isTrimmed, if_neg hne,
    Text.splitWord_word hoperand, String.ofList_toList]

/-- A line of nothing but a mnemonic. -/
theorem ofLine?_word (mnemonic : String) (hmnemonic : Text.IsWord mnemonic.toList)
    (hpush : mnemonic ≠ "push") : ofLine? mnemonic.toList = ofWords? mnemonic [] := by
  have hne : mnemonic.toList ≠ ['p', 'u', 's', 'h'] := fun h =>
    hpush (String.toList_inj.mp (by simpa using h))
  unfold ofLine?
  rw [hmnemonic.isTrimmed.trim_eq]
  split
  · next h => exact absurd h hmnemonic.1
  · rw [Text.splitWord_word hmnemonic]
    simp only [if_neg hne, String.ofList_toList]
    rfl

/-! ## Literals -/

private theorem quotedPart?_quoted (cs : List Char) :
    quotedPart? ('"' :: cs ++ ['"']) = some cs := by
  have hfirst : ('"' :: cs ++ ['"']).dropWhile (· ≠ '"') = '"' :: (cs ++ ['"']) := rfl
  have hlast : (cs ++ ['"']).reverse.dropWhile (· ≠ '"') = '"' :: cs.reverse := by
    rw [List.reverse_append]
    rfl
  simp only [quotedPart?, hfirst, hlast, List.reverse_reverse]

private theorem toList_literal_string (s : String) :
    (literal (.string s)).toList = '"' :: escape s.toList ++ ['"'] := by
  simp [literal]

/-- A value is read back from its literal. -/
theorem readLiteral?_literal (v : Value) :
    readLiteral? v.ty (literal v).toList = some v := by
  cases v with
  | int n => simp [readLiteral?, literal, Value.ty, Text.readInt32?_int32Text]
  | float x => simp [readLiteral?, literal, Value.ty, Decimal.read?_fullText]
  | bool b => cases b <;> simp [readLiteral?, literal, Value.ty, Value.boolText]
  | string s =>
      rw [toList_literal_string]
      show (quotedPart? _).map _ = _
      rw [quotedPart?_quoted, Option.map_some, unescape_escape, String.ofList_toList]

private theorem isWord_literal_int (n : Int32) :
    Text.IsWord (literal (.int n)).toList := by
  refine ⟨fun hnil => ?_, fun c hc => Text.isBlank_of_mem_toString_int hc⟩
  have hread := Text.readInt32?_int32Text n
  rw [show Text.int32Text n = literal (.int n) from rfl, hnil] at hread
  cases hread

private theorem isWord_literal_float (x : Float) :
    Text.IsWord (literal (.float x)).toList := by
  refine ⟨fun hnil => ?_, fun c hc => Decimal.isBlank_of_mem_fullText hc⟩
  have hread := Decimal.read?_fullText x
  rw [show Decimal.fullText x = literal (.float x) from rfl, hnil] at hread
  cases hread

private theorem isTrimmed_literal (v : Value) : Text.IsTrimmed (literal v).toList := by
  cases v with
  | int n => exact (isWord_literal_int n).isTrimmed
  | float x => exact (isWord_literal_float x).isTrimmed
  | bool b =>
      have hword : Text.IsWord (literal (.bool b)).toList := by
        cases b <;> simp [literal, Value.boolText, Text.IsWord, Text.isBlank]
      exact hword.isTrimmed
  | string s =>
      have hquote : Text.isBlank '"' = false := rfl
      rw [toList_literal_string]
      constructor <;> simp [List.getLast?_cons, hquote]

private theorem lineBreak_not_mem_escape (cs : List Char) :
    '\n' ∉ escape cs ∧ '\r' ∉ escape cs := by
  have hchar (c : Char) : '\n' ∉ escapeChar c ∧ '\r' ∉ escapeChar c := by
    unfold escapeChar
    split
    · simp
    split
    · simp
    split
    · simp
    · simp_all [eq_comm]
  simp [escape, List.mem_flatMap, hchar]

/-! ## The parts of a line -/

/-- The word that an instruction's line starts with. -/
def mnemonic : Instr → String
  | push _ => "push"
  | pop => "pop"
  | load _ => "load"
  | save _ => "save"
  | arith op _ => arithName op
  | mod => "mod"
  | negate _ => "uminus"
  | concat => "concat"
  | logic op => logicName op
  | not => "not"
  | order op _ => orderName op
  | equal _ => "eq"
  | widen => "itof"
  | print _ => "print"
  | read _ => "read"
  | jump _ => "jmp"
  | jumpUnless _ => "fjmp"
  | label _ => "label"
  | nop => ""

/-- What stands behind the mnemonic. -/
def operand? : Instr → Option String
  | push v => some (v.ty.tag ++ " " ++ literal v)
  | load name | save name => some name
  | arith _ t | negate t | order _ t | equal t | read t => some t.tag
  | print n | jump n | jumpUnless n | label n => some (toString n)
  | _ => none

private theorem text_eq (i : Instr) :
    i.text = i.operand?.elim i.mnemonic fun operand =>
      i.mnemonic ++ " " ++ operand := by
  cases i <;> simp [text, mnemonic, operand?, String.append_assoc]

private theorem isWord_mnemonic {i : Instr} (h : i ≠ nop) :
    Text.IsWord i.mnemonic.toList := by
  cases i with
  | nop => exact absurd rfl h
  | arith op t => cases op <;> simp [mnemonic, arithName, Text.IsWord, Text.isBlank]
  | order op t => cases op <;> simp [mnemonic, orderName, Text.IsWord, Text.isBlank]
  | logic op => cases op <;> simp [mnemonic, logicName, Text.IsWord, Text.isBlank]
  | _ => simp [mnemonic, Text.IsWord, Text.isBlank]

private theorem mnemonic_ne_push {i : Instr} (h : ∀ v, i ≠ push v) :
    i.mnemonic ≠ "push" := by
  cases i with
  | push v => exact absurd rfl (h v)
  | arith op t => cases op <;> simp [mnemonic, arithName]
  | order op t => cases op <;> simp [mnemonic, orderName]
  | logic op => cases op <;> simp [mnemonic, logicName]
  | _ => simp [mnemonic]

private theorem isWord_operand {i : Instr} {operand : String} (h : i.Legible)
    (hpush : ∀ v, i ≠ push v) (hoperand : i.operand? = some operand) :
    Text.IsWord operand.toList := by
  cases i <;> simp only [operand?, Option.some.injEq, reduceCtorEq] at hoperand <;>
    subst hoperand
  case push v => exact absurd rfl (hpush v)
  case load name | save name => exact h
  case arith t | negate t | order t | equal t | read t => exact isWord_tag t
  all_goals exact isWord_toString _

/-- The words of a legible line denote the instruction. -/
theorem ofWords?_mnemonic {i : Instr} (h : i.Legible) (hpush : ∀ v, i ≠ push v)
    (hnop : i ≠ nop) :
    ofWords? i.mnemonic (i.operand?.elim [] String.toList) = some i := by
  cases i with
  | push v => exact absurd rfl (hpush v)
  | nop => exact absurd rfl hnop
  | load name | save name => simp [ofWords?, mnemonic, operand?, h.1]
  | arith op t =>
      have hnumeric : t.isNumeric = true := h
      cases op <;> simp [ofWords?, mnemonic, operand?, arithName,
        Option.filter, hnumeric]
  | order op t =>
      have hnumeric : t.isNumeric = true := h
      cases op <;> simp [ofWords?, mnemonic, operand?, orderName,
        Option.filter, hnumeric]
  | negate t =>
      have hnumeric : t.isNumeric = true := h
      simp [ofWords?, mnemonic, operand?, Option.filter, hnumeric]
  | equal t | read t => simp [ofWords?, mnemonic, operand?]
  | print n | jump n | jumpUnless n | label n =>
      have hread := Text.readNat?_toString h
      simp only [ofWords?, mnemonic, operand?, Option.elim_some, hread, Option.map_some]
  | logic op => cases op <;> rfl
  | _ => rfl

/-! ## Lines that are read back -/

private theorem ofLine?_push (v : Value) :
    ofLine? (text (push v)).toList = some (push v) := by
  have htext : (text (push v)).toList =
      ['p', 'u', 's', 'h'] ++ ' ' ::
        (v.ty.tag.toList ++ ' ' :: (literal v).toList) := by
    simp [text]
  have hpush : Text.IsWord ['p', 'u', 's', 'h'] := by simp [Text.IsWord, Text.isBlank]
  have htag := isWord_tag v.ty
  have hliteral := isTrimmed_literal v
  have hblank : Text.trimStart (' ' :: (literal v).toList) = (literal v).toList :=
    Text.trimStart_eq_self hliteral.head
  rw [htext, ofLine?_append hpush (hliteral.behind htag ' '), if_pos rfl, readPush?,
    Text.splitWord_append htag _ (by simp; rfl), hblank]
  simp [readLiteral?_literal]

/-- A legible instruction is read back from its line. -/
theorem ofLine?_text {i : Instr} (h : i.Legible) : ofLine? i.text.toList = some i := by
  by_cases hnop : i = nop
  · subst hnop
    rfl
  by_cases hpush : ∃ v, i = push v
  · obtain ⟨v, rfl⟩ := hpush
    exact ofLine?_push v
  have hne : ∀ v, i ≠ push v := fun v hv => hpush ⟨v, hv⟩
  have hwords := ofWords?_mnemonic h hne hnop
  rw [text_eq]
  cases hoperand : i.operand? with
  | none =>
      rw [hoperand] at hwords
      exact (ofLine?_word _ (isWord_mnemonic hnop) (mnemonic_ne_push hne)).trans hwords
  | some operand =>
      rw [hoperand] at hwords
      have hword := isWord_operand h hne hoperand
      exact (ofLine?_operand _ _ (isWord_mnemonic hnop) (mnemonic_ne_push hne)
        hword).trans hwords

private theorem lineBreak_not_mem_literal (v : Value) :
    '\n' ∉ (literal v).toList ∧ '\r' ∉ (literal v).toList := by
  cases v with
  | int n => exact (isWord_literal_int n).lineBreak_not_mem
  | float x => exact (isWord_literal_float x).lineBreak_not_mem
  | bool b => cases b <;> simp [literal, Value.boolText]
  | string s =>
      rw [toList_literal_string]
      simp [lineBreak_not_mem_escape s.toList]

/-- No line has a line break in it. -/
theorem lineBreak_not_mem_text {i : Instr} (h : i.Legible) :
    '\n' ∉ i.text.toList ∧ '\r' ∉ i.text.toList := by
  by_cases hnop : i = nop
  · subst hnop
    simp [text]
  have hmnemonic := (isWord_mnemonic hnop).lineBreak_not_mem
  have hbehind {operand : String} (hoperand : i.operand? = some operand) :
      '\n' ∉ operand.toList ∧ '\r' ∉ operand.toList := by
    by_cases hpush : ∃ v, i = push v
    · obtain ⟨v, rfl⟩ := hpush
      have htag := (isWord_tag v.ty).lineBreak_not_mem
      cases hoperand
      simp [htag, lineBreak_not_mem_literal v]
    · have hne : ∀ v, i ≠ push v := fun v hv => hpush ⟨v, hv⟩
      exact (isWord_operand h hne hoperand).lineBreak_not_mem
  rw [text_eq]
  cases hoperand : i.operand? with
  | none => exact hmnemonic
  | some operand => simp [hmnemonic, hbehind hoperand]

/-! ## What is read from a line -/

private theorem lt_of_readNat? {bound n : Nat} {cs : List Char}
    (h : Text.readNat? bound cs = some n) :
    n < bound := by
  have hfilter := (Option.filter_eq_some_iff.mp h).2
  simpa using hfilter

private theorem legible_of_ofWords? {mnemonic : String} {operand : List Char}
    {i : Instr} (hoperand : ∀ c ∈ operand, Text.isBlank c = false)
    (h : ofWords? mnemonic operand = some i) :
    i.Legible := by
  have hname {name : String}
      (hn : (if operand.isEmpty then none else some (String.ofList operand)) =
        some name) :
      Text.IsWord name.toList := by
    split at hn
    · cases hn
    · next hempty =>
        cases hn
        rw [String.toList_ofList]
        exact ⟨by simpa using hempty, hoperand⟩
  have hnumeric {t : Ty}
      (ht : (Ty.ofTag? (String.ofList operand)).filter Ty.isNumeric = some t) :
      t.isNumeric = true := (Option.filter_eq_some_iff.mp ht).2
  unfold ofWords? at h
  simp only at h
  split at h
  case h_2 | h_3 =>
    obtain ⟨name, hn, rfl⟩ := Option.map_eq_some_iff.mp h
    exact hname hn
  case h_4 | h_5 | h_6 | h_7 | h_9 | h_14 | h_15 =>
    obtain ⟨t, ht, rfl⟩ := Option.map_eq_some_iff.mp h
    exact hnumeric ht
  case h_18 | h_20 | h_21 | h_22 =>
    obtain ⟨n, hn, rfl⟩ := Option.map_eq_some_iff.mp h
    exact lt_of_readNat? hn
  case h_16 | h_19 =>
    obtain ⟨t, -, rfl⟩ := Option.map_eq_some_iff.mp h
    trivial
  case h_23 => cases h
  all_goals
    cases h
    trivial

/-- Whatever is read from a line is legible. -/
theorem legible_of_ofLine? {line : List Char} {i : Instr} (h : ofLine? line = some i) :
    i.Legible := by
  unfold ofLine? at h
  split at h
  · cases h
    trivial
  simp only at h
  split at h
  · -- every value can be pushed
    simp only [readPush?, Option.bind_eq_bind, Option.bind_eq_some_iff,
      Option.map_eq_map, Option.map_eq_some_iff] at h
    obtain ⟨t, -, v, -, rfl⟩ := h
    trivial
  · exact legible_of_ofWords? (fun _ => Text.isBlank_of_mem_splitWord_fst) h

/-- What a line counts as is legible, also where the line is no instruction. -/
theorem legible_getD_ofLine? (line : List Char) :
    ((ofLine? line).getD nop).Legible := by
  cases hread : ofLine? line with
  | none => trivial
  | some i => exact legible_of_ofLine? hread

theorem legible_of_mem_readText {text : String} {i : Instr} (h : i ∈ readText text) :
    i.Legible := by
  obtain ⟨line, -, rfl⟩ := List.mem_map.mp h
  exact legible_getD_ofLine? line

/-! ## Whole texts -/

private theorem toList_write (code : List Instr) :
    (write code).toList = (code.map fun i => i.text.toList).flatMap (· ++ ['\n']) := by
  simp [write, String.toList_join, List.flatMap_map]

/-- Legible stack code is read back from its text. -/
theorem readText_write {code : List Instr} (h : ∀ i ∈ code, i.Legible) :
    readText (write code) = code := by
  have hbreak : ∀ line ∈ code.map fun i => i.text.toList, '\n' ∉ line ∧
      '\r' ∉ line := by
    intro line hline
    obtain ⟨i, hi, rfl⟩ := List.mem_map.mp hline
    exact lineBreak_not_mem_text (h i hi)
  have hline (i : Instr) (hi : i ∈ code) : (ofLine? i.text.toList).getD nop = i := by
    rw [ofLine?_text (h i hi)]
    rfl
  rw [readText, toList_write, Text.lines_flatMap hbreak, List.map_map]
  calc code.map _ = code.map id := List.map_congr_left hline
    _ = code := List.map_id code

/-- Code that equals legible code, one instruction after the other, fits
and is canonical. -/
theorem fits_and_canonical_of_forall₂ {read code : List Instr}
    (h : List.Forall₂ (fun i j => i.same j = true) read code)
    (hread : ∀ i ∈ read, i.Legible) :
    ∀ i ∈ code, i.Fits ∧ i.Canonical := by
  induction h with
  | nil => simp
  | @cons i j read code hij _ ih =>
      have hj := (fits_and_canonical_iff j).mpr
        (legible_of_same hij (hread i List.mem_cons_self))
      have hcode := ih fun k hk => hread k (List.mem_cons_of_mem i hk)
      exact List.forall_mem_cons.mpr ⟨hj, hcode⟩

/-- Stack code equals what is read back from its text if and only if all of it fits
and is canonical. -/
theorem readText_write_iff (code : List Instr) :
    List.Forall₂ (fun i j => i.same j = true) (readText (write code)) code ↔
      ∀ i ∈ code, i.Fits ∧ i.Canonical := by
  constructor
  · intro h
    exact fits_and_canonical_of_forall₂ h fun i => legible_of_mem_readText
  · intro h
    have hlegible : ∀ i ∈ code, i.Legible ∧ i.same i = true :=
      fun i hi => (fits_and_canonical_iff i).mp (h i hi)
    rw [readText_write fun i hi => (hlegible i hi).1]
    exact List.forall₂_same.mpr fun i hi => (hlegible i hi).2

end Instr

end ScalarLang
