import ScalarLang.Proofs.CodeText
import ScalarLang.Proofs.Extent
import ScalarLang.Proofs.Parsing
import ScalarLang.Proofs.Shapes

/-!
# Compiled code survives its text

Compiled code that is written and read back is the same code. Not every code is: an
instruction comes back if it can stand on a line (`Instr.Legible`), and what code has to
have for that is seen to by a phase each.

* The names in loads and saves are words. They are identifiers of the source text, and
  these are runs of letters, digits and underscores (`Lexicon.has_of_scan`).
* The floats pushed are numbers. They are literals of the source text, which start with
  a digit, or the default of a declaration.
* The tags of arithmetic and comparison are numeric, since code that can be typed has no
  others (`Flows.legible`).

What the scanner sees to goes through the tree into the code by the rules of `Layout`
(`Layout.belongs`).

Labels and counts have a fixed width in the text, so that this is about code that fits
(`Instr.Fits`). The code for a source text does unless the text has `UInt32.size`
characters or more (`Program.fits_of_compile`).

## Main results

* `Layout.belongs`: the names and the floats of code are those of the tree.
* `compileSource_persists`: compiled code is read back from its text, and so runs
  in the same way.
-/

namespace ScalarLang

/-! ## What the scanner lets through -/

/-- The names and the float literals of source texts: the names are words, and the
literals numbers. -/
def Lexicon.ofText : Lexicon :=
  ⟨fun name => Text.IsWord name.toList, fun x => x ≠ Float.nan⟩

namespace Piece

theorem isBlank_of_isWordPart {c : Char} (h : isWordPart c = true) :
    Text.isBlank c = false := by
  have hrange : '0'.toNat ≤ c.toNat ∧ c.toNat ≤ 'z'.toNat := by
    simp only [isWordPart, Char.isAlphanum, Char.isAlpha, Char.isUpper, Char.isLower,
      Char.isDigit, Bool.or_eq_true, Bool.and_eq_true, decide_eq_true_eq, beq_iff_eq,
      ge_iff_le, UInt32.le_iff_toNat_le] at h
    rcases h with ((⟨hlow, hhigh⟩ | ⟨hlow, hhigh⟩) | ⟨hlow, hhigh⟩) | rfl
    · exact ⟨Nat.le_trans (by decide) hlow, Nat.le_trans hhigh (by decide)⟩
    · exact ⟨Nat.le_trans (by decide) hlow, hhigh⟩
    · exact ⟨hlow, Nat.le_trans hhigh (by decide)⟩
    · decide
  have hlow : 48 ≤ c.toNat := hrange.1
  have hhigh : c.toNat ≤ 122 := hrange.2
  simp only [Text.isBlank, Bool.or_eq_false_iff, Bool.and_eq_false_iff,
    decide_eq_false_iff_not, beq_eq_false_iff_ne]
  omega

theorem isWordPart_of_isWordStart {c : Char} (h : isWordStart c = true) :
    isWordPart c = true := by
  rw [isWordStart, Bool.or_eq_true] at h
  rw [isWordPart, Char.isAlphanum, Bool.or_eq_true, Bool.or_eq_true]
  rcases h with h | h
  · exact .inl (.inl h)
  · exact .inr h

private theorem reserved?_ne_floatLiteral (text : String) :
    (TokenKind.reserved? text).getD .identifier ≠ .floatLiteral := by
  unfold TokenKind.reserved?
  split <;> simp

/-- Whether a piece that is an identifier is a word, and one that is a float literal
starts with a digit. -/
structure Proper (piece : Piece) : Prop where
  identifier : piece.sort = .token .identifier → Text.IsWord piece.text
  float : piece.sort = .token .floatLiteral → ∃ c cs, piece.text = c :: cs ∧
  c.isDigit = true

/-- A piece of another class has nothing to be proper about. -/
theorem Proper.of_sort {piece : Piece} (hidentifier : piece.sort ≠ .token .identifier)
    (hfloat : piece.sort ≠ .token .floatLiteral) : piece.Proper :=
  ⟨fun h => absurd h hidentifier, fun h => absurd h hfloat⟩

private theorem proper_word {c : Char} (hc : isWordStart c = true) (cs : List Char) :
    (word (c :: cs.takeWhile isWordPart)).Proper := by
  constructor
  · intro _
    refine ⟨List.cons_ne_nil _ _, fun d hd => isBlank_of_isWordPart ?_⟩
    rcases List.mem_cons.mp hd with rfl | hd
    · exact isWordPart_of_isWordStart hc
    · exact List.mem_takeWhile_imp hd
  · intro h
    exact absurd (PieceClass.token.inj h) (reserved?_ne_floatLiteral _)

private theorem proper_number {c : Char} (hc : c.isDigit = true) (cs : List Char) :
    (number c cs).Proper := by
  unfold number
  dsimp only
  split
  · exact .of_sort (by simp) (by simp)
  · exact ⟨fun h => by simp at h, fun _ => ⟨c, _, rfl, hc⟩⟩

private theorem proper_fixed (c : Char) (cs : List Char) : (fixed c cs).Proper := by
  unfold fixed
  split <;> exact .of_sort (by simp [single]) (by simp [single])

private theorem proper_front (c : Char) (cs : List Char) : (front c cs).Proper := by
  unfold front
  split
  · exact proper_word ‹_› cs
  split
  · exact proper_number ‹_› cs
  split
  · exact .of_sort (by simp) (by simp)
  split
  · unfold quotedString
    split <;> exact .of_sort (by simp) (by simp)
  split
  · exact .of_sort (by simp) (by simp)
  · exact proper_fixed c cs

private theorem Proper.has {p : Position} {piece : Piece} {t : Token}
    (hproper : piece.Proper) (h : token? (p, piece) = some t) :
    Lexicon.ofText.Has t := by
  obtain ⟨sort, text⟩ := piece
  cases sort with
  | skipped | stray => cases h
  | token kind =>
      cases h
      constructor
      · rintro (rfl : kind = .identifier)
        show Text.IsWord (value .identifier text).toList
        simpa [value] using hproper.identifier rfl
      · rintro (rfl : kind = .floatLiteral) x hx
        obtain ⟨c, cs, rfl, hc⟩ : ∃ c cs, text = c :: cs ∧ c.isDigit = true :=
          hproper.float rfl
        exact Decimal.ne_nan_of_read? hc (by simpa [value] using hx)

end Piece

/-- The names among the tokens of a text are words, and its float literals numbers. -/
theorem Lexicon.has_of_scan {file source : String} {tokens : List Token}
    (h : Token.scan file source = .ok tokens) : ∀ t ∈ tokens, Lexicon.ofText.Has t := by
  intro t ht
  rcases Token.eof_or_front_of_scan h ht with ⟨p, rfl⟩ | ⟨p, c, cs, htoken⟩
  · exact Lexicon.has_eof _ p
  · exact (Piece.proper_front c cs).has htoken

/-! ## From the tree into the code -/

/-- Whether the name that an instruction has, and the float that it pushes,
belong to a lexicon. -/
def Instr.Belongs (L : Lexicon) : Instr → Prop
  | load name | save name => L.name name
  | push (.float x) => L.float x
  | _ => True

section

variable {L : Lexicon} {symbols : Env}

private theorem Instr.Operates.belongs {i : Instr} (h : i.Operates) : i.Belongs L := by
  cases i <;> trivial

private theorem Expr.Emits.belongs {e : Expr} {code : List Instr} {t : Ty}
    (h : Emits symbols e code t) (hg : e.Grammatical L) : ∀ i ∈ code, i.Belongs L := by
  induction h with
  | @literal e v hv =>
      cases hg with
      | float hx =>
          cases hv
          exact List.forall_mem_singleton.mpr hx
      | int | bool | string =>
          cases hv
          exact List.forall_mem_singleton.mpr trivial
      | _ => cases hv
  | symbol =>
      cases hg with
      | symbol hname => exact List.forall_mem_singleton.mpr hname
  | assignment _ _ ih =>
      cases hg with
      | assignment htarget hvalue =>
          refine List.forall_mem_append.mpr ⟨ih hvalue,
            List.forall_mem_append.mpr ⟨?_, ?_⟩⟩
          · exact fun i hi => (Instr.operates_widening _ _ _ i hi).belongs
          · simpa [Instr.Belongs] using htarget
  | unary _ ih =>
      cases hg with
      | unary hoperand =>
          refine List.forall_mem_append.mpr ⟨ih hoperand,
            List.forall_mem_singleton.mpr ?_⟩
          exact (Instr.operates_unaryOperation _ _).belongs
  | binary _ _ hown ihleft ihright =>
      cases hg with
      | binary _ hleft hright =>
          have hwidening (widen : Bool) (t u : Ty) :
              ∀ i ∈ widening widen t u, i.Belongs L :=
            fun i hi => (Instr.operates_widening widen t u i hi).belongs
          simp only [List.forall_mem_append]
          refine ⟨ihleft hleft, ⟨⟨hwidening _ _ _, ihright hright⟩, hwidening _ _ _⟩,
            fun i hi => ?_⟩
          exact (Instr.operates_operation hown i hi).belongs

private theorem Expr.EmitsAll.belongs {values : List Expr} {code : List Instr}
    (h : EmitsAll symbols values code) (hg : ∀ e ∈ values, e.Grammatical L) :
    ∀ i ∈ code, i.Belongs L := by
  induction h with
  | nil => simp
  | cons he _ ih =>
      obtain ⟨hge, hgrest⟩ := List.forall_mem_cons.mp hg
      exact List.forall_mem_append.mpr ⟨he.belongs hge, ih hgrest⟩

private theorem Instr.belongs_default (hzero : L.float (Decimal.ofMagnitude false 0))
    (t : Ty) :
    (push (.default t)).Belongs L := by
  cases t with
  | float => exact hzero
  | int | bool | string => trivial

private theorem Instr.belongs_loopCode {n : Nat} {test body : List Instr}
    (htest : ∀ i ∈ test, i.Belongs L) (hbody : ∀ i ∈ body, i.Belongs L) :
    ∀ i ∈ loopCode n test body, i.Belongs L := by
  simp only [loopCode, List.forall_mem_append, List.forall_mem_cons]
  exact ⟨trivial, htest, trivial, hbody, trivial, trivial, List.forall_mem_nil _⟩

private theorem Stmt.grammatical_declarations {induction : Option Induction}
    (h : ∀ i ∈ induction, L.name i.target.name) :
    Stmt.Grammatical L (Induction.declarations induction) := by
  cases induction with
  | none => exact .nil
  | some i => exact .declaration (List.forall_mem_singleton.mpr (h i rfl))

/-- The names and the floats of the code for statements are those of their
trees, and zero. -/
theorem Layout.belongs {σ τ : Scope} {ss : List Stmt} {code : List Instr}
    (h : Layout σ ss code τ) (hg : Stmt.Grammatical L ss)
    (hzero : L.float (Decimal.ofMagnitude false 0)) :
    ∀ i ∈ code, i.Belongs L := by
  induction h with
  | nil | declareNone | readNone => simp
  | cons _ _ ihs ihrest =>
      cases hg with
      | cons hs hrest => exact List.forall_mem_append.mpr ⟨ihs hs, ihrest hrest⟩
  | block _ ih =>
      cases hg with
      | block hbody => exact ih hbody
  | declare _ ih =>
      cases hg with
      | declaration hidents =>
          obtain ⟨hx, hxs⟩ := List.forall_mem_cons.mp hidents
          simp only [List.forall_mem_cons]
          exact ⟨Instr.belongs_default hzero _, hx, ih (.declaration hxs)⟩
  | read _ _ ih =>
      cases hg with
      | read hidents =>
          obtain ⟨hx, hxs⟩ := List.forall_mem_cons.mp hidents
          simp only [List.forall_mem_cons]
          exact ⟨trivial, hx, ih (.read hxs)⟩
  | write hvalues =>
      cases hg with
      | write hgvalues =>
          exact List.forall_mem_append.mpr
            ⟨hvalues.belongs hgvalues, List.forall_mem_singleton.mpr trivial⟩
  | branch htest _ _ iha ihb =>
      cases hg with
      | branch hgtest hconsequent halternate =>
          have htests := htest.belongs hgtest
          have ha := iha hconsequent
          have hb := ihb halternate
          simp only [branchCode, List.forall_mem_append, List.forall_mem_cons]
          exact ⟨htests, trivial, ha, trivial, trivial, hb, trivial,
            List.forall_mem_nil _⟩
  | whileLoop htest _ ih =>
      cases hg with
      | whileLoop hgtest hbody =>
          exact Instr.belongs_loopCode (htest.belongs hgtest) (ih hbody)
  | forLoop _ hinit htest _ hstep ihfront ihbody =>
      cases hg with
      | forLoop hinduction hginit hgtest hgstep hbody =>
          have hfront := ihfront (Stmt.grammatical_declarations hinduction)
          have hfirst := hinit.belongs hginit
          have hlast := hstep.belongs hgstep
          simp only [List.forall_mem_append, List.forall_mem_cons]
          refine ⟨hfront, hfirst, trivial,
            Instr.belongs_loopCode (htest.belongs hgtest) ?_⟩
          simp only [List.forall_mem_append, List.forall_mem_singleton]
          exact ⟨ihbody hbody, hlast, trivial⟩
  | assign _ he =>
      cases hg with
      | effect hge =>
          exact List.forall_mem_append.mpr ⟨he.belongs hge,
            List.forall_mem_singleton.mpr trivial⟩
  | leave _ he =>
      cases hg with
      | effect hge => exact he.belongs hge

end

/-! ## Programs -/

/-- Instructions that can be typed have the tags that they can have on a line. -/
theorem Instr.legible_of_flow {Γ : Env} {shape shape' : List Ty} {i : Instr}
    (h : i.flow Γ shape = some shape') (hbelongs : i.Belongs .ofText) (hfits : i.Fits) :
    i.Legible := by
  cases i with
  | arith op t | order op t =>
      cases shape with
      | nil => cases h
      | cons u rest =>
          cases rest with
          | nil => cases h
          | cons v rest =>
              simp only [flow, Option.ite_none_right_eq_some] at h
              exact h.1.2.2
  | negate t =>
      cases shape with
      | nil => cases h
      | cons u rest =>
          simp only [flow, Option.ite_none_right_eq_some] at h
          exact h.1.2
  | load name | save name => exact hbelongs
  | print count | jump target | jumpUnless target | label target => exact hfits
  | _ => trivial

private theorem Flows.legible {Γ : Env} {code : List Instr} (h : Flows Γ code)
    (hbelongs : ∀ i ∈ code, i.Belongs .ofText) (hfits : ∀ i ∈ code, i.Fits) :
    ∀ i ∈ code, i.Legible := by
  intro i hi
  obtain ⟨k, hk⟩ := List.mem_iff_getElem?.mp hi
  obtain ⟨shape, hshape⟩ := h.exists_shape k
  obtain ⟨shape', hflow, -⟩ := h.flow_eq hk hshape
  exact Instr.legible_of_flow hflow (hbelongs i hi) (hfits i hi)

/-- The code of a program that types can stand on lines, as long as it fits. -/
theorem Program.legible_of_compile {file source : String} {p : Program}
    {code : List Instr} (hsource : Program.ofSource file source = .ok p)
    (hcheck : p.check = []) (hcompile : p.compile = .ok code)
    (hfits : ∀ i ∈ code, i.Fits) : ∀ i ∈ code, i.Legible := by
  obtain ⟨tokens, hscan, htokens⟩ := Program.exists_tokens_of_ofSource hsource
  obtain ⟨τ, hlayout⟩ := p.layout_of_compile hcompile
  have hg := Program.grammatical_of_ofTokens (Lexicon.has_of_scan hscan) htokens
  have hzero : Decimal.ofMagnitude false 0 ≠ Float.nan :=
    Decimal.ofMagnitude_ne_nan (Nat.zero_le _)
  exact (p.flows hcheck hcompile).legible (hlayout.belongs hg hzero) hfits

/-- Code for statements of a small extent fits. -/
theorem Layout.fits {σ τ : Scope} {ss : List Stmt} {code : List Instr}
    (h : Layout σ ss code τ) (hlabels : τ.labels ≤ UInt32.size)
    (hextent : Stmt.extentAll ss < UInt64.size) :
    ∀ i ∈ code, i.Fits := by
  intro i hi
  cases i with
  | print k => exact Nat.lt_of_le_of_lt (h.count_le hi) hextent
  | jump n | jumpUnless n =>
      have htarget : n ∈ Instr.targets code := List.mem_filterMap.mpr ⟨_, hi, rfl⟩
      exact Nat.lt_of_lt_of_le (h.labelled.mem_targets htarget).2 hlabels
  | label n =>
      have hlabel : n ∈ Instr.labels code := List.mem_filterMap.mpr ⟨_, hi, rfl⟩
      exact Nat.lt_of_lt_of_le ((h.labelled.mem_iff n).mp hlabel).2 hlabels
  | _ => trivial

/-- The code of a program fits unless its source text is very long. -/
theorem Program.fits_of_compile {file source : String} {p : Program} {code : List Instr}
    (hsource : Program.ofSource file source = .ok p) (hcompile : p.compile = .ok code)
    (hlength : source.length < UInt32.size) : ∀ i ∈ code, i.Fits := by
  obtain ⟨tokens, hscan, htokens⟩ := Program.exists_tokens_of_ofSource hsource
  obtain ⟨τ, hlayout⟩ := p.layout_of_compile hcompile
  have hextent := Program.extent_le_of_ofTokens htokens
  have hcount := Token.length_scan_le hscan
  have hlabels : τ.labels ≤ 0 + Stmt.extentAll p.body := hlayout.labels_le
  have hwidth : UInt32.size < UInt64.size := by decide
  exact hlayout.fits (by omega) (by omega)

/-- Compiled code whose numbers fit is read back from its text, so that running the
text is running the code: with the same console it comes to the same stack, the same
variables, the same output and the same fault. The numbers fit unless the source
text is very long. -/
theorem compileSource_persists {file source : String} {code : List Instr}
    (h : compileSource file source = .ok code) :
    (source.length < UInt32.size → ∀ i ∈ code, i.Fits) ∧
      ((∀ i ∈ code, i.Fits) → Instr.readText (Instr.write code) = code ∧
        ∀ policy console n,
          Machine.runFor (Code.ofList (Instr.readText (Instr.write code))) policy n
            (.start console) =
            Machine.runFor (Code.ofList code) policy n (.start console)) := by
  obtain ⟨p, hsource, hcheck, hcompile⟩ := exists_of_compileSource h
  refine ⟨p.fits_of_compile hsource hcompile, fun hfits => ?_⟩
  have hread : Instr.readText (Instr.write code) = code :=
    Instr.readText_write (p.legible_of_compile hsource hcheck hcompile hfits)
  exact ⟨hread, fun policy console n => by rw [hread]⟩

/-- A program with labels, a fraction, a conversion and a string that is
written with escapes. -/
theorem compileSource_persists_at_loop :
    ∃ code, compileSource "t"
        "float x_1; while (x_1 < 2) x_1 = x_1 + 0.75; write \"\\\"\\n\", x_1;" =
          .ok code ∧
      (∀ i ∈ code, i.Fits) ∧ Instr.readText (Instr.write code) = code := by
  obtain ⟨code, hcompile⟩ : ∃ code, compileSource "t"
      "float x_1; while (x_1 < 2) x_1 = x_1 + 0.75; write \"\\\"\\n\", x_1;" =
        .ok code := ⟨_, rfl⟩
  obtain ⟨hfits, hread⟩ := compileSource_persists hcompile
  have hshort := hfits (by decide)
  exact ⟨code, hcompile, hshort, (hread hshort).1⟩

end ScalarLang
