import Mathlib
import ScalarLang.Proofs.Rounding
import ScalarLang.Decimal.Layout
import ScalarLang.Text.Blank

/-!
# Written numbers are read back

Whole numbers are written by their digits, and digits are read one after the other, so
that a whole number is read back from its text. A float is written in one of two
layouts. Both have all the digits of the value, with zeros at its end left away or a few
added, and both make up for that in the exponent: what is read from either is the value
with which the layout was made (`readMagnitude?_text`). As this value was chosen to be
read as the float, the float is read back (`read?_fullText`).

The float that is no number has one representation only, and its text is read as this
one. A text that starts with a digit never denotes it (`ne_nan_of_read?`). No number is
written with a blank in it.

## Main results

* `Text.readNat?_toString`, `Text.readInt32?_int32Text`: whole numbers are read back
  from their texts.
* `Decimal.read?_fullText`: every float is read back from its full form.
-/

namespace ScalarLang

/-! ## Whole numbers -/

namespace Text

theorem readDigits?_eq_some {ds : List Char} (hne : ds ≠ [])
    (hds : ∀ d ∈ ds, d.isDigit = true) :
    readDigits? ds = some (Nat.ofDigitChars 10 ds 0) := by
  have hempty : ds.isEmpty = false := by simpa using hne
  have hall : ds.any (!·.isDigit) = false := by simpa using hds
  simp [readDigits?, hempty, hall]

private theorem isDigit_of_mem_toDigits {n : Nat} {d : Char}
    (h : d ∈ Nat.toDigits 10 n) :
    d.isDigit = true :=
  Nat.isDigit_of_mem_toDigits (by omega) (by omega) h

private theorem readDigits?_toDigits (n : Nat) :
    readDigits? (Nat.toDigits 10 n) = some n := by
  rw [readDigits?_eq_some Nat.toDigits_ne_nil fun _ => isDigit_of_mem_toDigits,
    Nat.ofDigitChars_ten_toDigits]

theorem isBlank_of_isDigit {c : Char} (h : c.isDigit = true) : isBlank c = false := by
  have hrange := Decimal.toNat_of_isDigit h
  simp only [isBlank, Bool.or_eq_false_iff, Bool.and_eq_false_iff,
    decide_eq_false_iff_not, beq_eq_false_iff_ne]
  omega

theorem isBlank_of_mem_toDigits {n : Nat} {d : Char} (h : d ∈ Nat.toDigits 10 n) :
    isBlank d = false :=
  isBlank_of_isDigit (isDigit_of_mem_toDigits h)

/-- The digits of a number start with a digit, and so with no sign. -/
theorem exists_toDigits_eq_cons (n : Nat) :
    ∃ d ds, Nat.toDigits 10 n = d :: ds ∧ d ≠ '+' ∧ d ≠ '-' := by
  cases hds : Nat.toDigits 10 n with
  | nil => exact absurd hds Nat.toDigits_ne_nil
  | cons d ds =>
      have hd : d.isDigit = true := isDigit_of_mem_toDigits (n := n) (by simp [hds])
      refine ⟨d, ds, rfl, ?_, ?_⟩ <;> rintro rfl <;> cases hd

theorem readNat?_toString {bound n : Nat} (h : n < bound) :
    readNat? bound (toString n).toList = some n := by
  obtain ⟨d, ds, hds, hplus, -⟩ := exists_toDigits_eq_cons n
  have hread := readDigits?_toDigits n
  rw [hds] at hread
  simp [readNat?, hds, hplus, hread, h]

/-- The text of an integer is the digits of its amount, with a sign in front
if it is negative. -/
theorem toList_toString_int (n : Int) :
    (toString n).toList =
      if n < 0 then '-' :: Nat.toDigits 10 n.natAbs else Nat.toDigits 10 n.natAbs := by
  cases n with
  | ofNat m => exact Nat.toList_repr
  | negSucc m =>
      have htext : toString (Int.negSucc m) = "-" ++ (m + 1).repr := rfl
      rw [htext, String.toList_append, Nat.toList_repr, if_pos (Int.negSucc_lt_zero m)]
      rfl

theorem isBlank_of_mem_toString_int {n : Int} {c : Char} (h : c ∈ (toString n).toList) :
    isBlank c = false := by
  rw [toList_toString_int] at h
  split at h
  · rcases List.mem_cons.mp h with rfl | h
    · rfl
    · exact isBlank_of_mem_toDigits h
  · exact isBlank_of_mem_toDigits h

theorem readInt32?_int32Text (n : Int32) :
    readInt32? (int32Text n).toList = some n := by
  obtain ⟨d, ds, hds, hplus, hminus⟩ := exists_toDigits_eq_cons n.toInt.natAbs
  have hread := readDigits?_toDigits n.toInt.natAbs
  have hlow : -2147483648 ≤ n.toInt := n.minValue_le_toInt
  have hhigh : n.toInt ≤ Int32.maxValue.toInt := Int.le_of_lt_add_one n.toInt_lt
  rw [hds] at hread
  rw [int32Text, toList_toString_int, hds]
  by_cases hneg : n.toInt < 0
  · have habs : -Int.ofNat n.toInt.natAbs = n.toInt := by
      rw [Int.ofNat_eq_natCast]
      omega
    simp only [if_pos hneg, readInt32?, hread, Option.map_some, habs]
    simp [hlow, hhigh]
  · have habs : |n.toInt| = n.toInt := abs_of_nonneg (by omega)
    simp [if_neg hneg, readInt32?, hread, hplus, hminus, habs, hlow, hhigh]

end Text

namespace Decimal

/-! ## Reading layouts -/

private theorem span_isDigit {ds rest : List Char} (hds : ∀ d ∈ ds, d.isDigit = true)
    (hrest : ∀ c ∈ rest.head?, c.isDigit = false) :
    (ds ++ rest).span Char.isDigit = (ds, rest) := by
  have htake : rest.takeWhile Char.isDigit = [] := by
    cases rest with
    | nil => rfl
    | cons c cs => simp [hrest c rfl]
  have hdrop : rest.dropWhile Char.isDigit = rest := by
    cases rest with
    | nil => rfl
    | cons c cs => simp [hrest c rfl]
  rw [List.span_eq_takeWhile_dropWhile, List.takeWhile_append_of_pos hds,
    List.dropWhile_append_of_pos hds, htake, hdrop, List.append_nil]

/-- The value of digits with a point among them, and an exponent or nothing behind. -/
theorem readMagnitude?_point (whole fraction : List Char) {rest : List Char}
    {exponent : Int} (hne : whole ≠ []) (hwhole : ∀ d ∈ whole, d.isDigit = true)
    (hfraction : ∀ d ∈ fraction, d.isDigit = true)
    (hrest : ∀ c ∈ rest.head?, c.isDigit = false)
    (hexponent : readExponent? rest = some exponent) :
    readMagnitude? (whole ++ '.' :: (fraction ++ rest)) =
      some (scaled (Nat.ofDigitChars 10 (whole ++ fraction) 0)
        (exponent - fraction.length)) := by
  have hspan : (whole ++ '.' :: (fraction ++ rest)).span Char.isDigit =
      (whole, '.' :: (fraction ++ rest)) := span_isDigit hwhole (by simp)
  have hempty : whole.isEmpty = false := by simpa using hne
  have hall : ∀ d ∈ whole ++ fraction, d.isDigit = true := by
    simpa [or_imp, forall_and] using And.intro hwhole hfraction
  simp only [readMagnitude?, hspan, splitFraction, span_isDigit hfraction hrest, hempty,
    Bool.false_and, hexponent, Option.map_some, scaledDigits_eq hall]
  rfl

/-- The value of digits with an exponent behind. -/
theorem readMagnitude?_exponent {whole rest : List Char} {exponent : Int}
    (hne : whole ≠ []) (hwhole : ∀ d ∈ whole, d.isDigit = true)
    (hexponent : readExponent? ('e' :: rest) = some exponent) :
    readMagnitude? (whole ++ 'e' :: rest) =
      some (scaled (Nat.ofDigitChars 10 whole 0) exponent) := by
  have hspan : (whole ++ 'e' :: rest).span Char.isDigit = (whole, 'e' :: rest) :=
    span_isDigit hwhole (by simp)
  have hempty : whole.isEmpty = false := by simpa using hne
  simp only [readMagnitude?, hspan, splitFraction]
  simp [hempty, hexponent, scaledDigits_eq hwhole]

/-- An exponent is read back from its text. -/
theorem readExponent?_toString (e : Int) :
    readExponent? ('e' :: (toString e).toList) = some e := by
  obtain ⟨d, ds, hds, hplus, hminus⟩ := Text.exists_toDigits_eq_cons e.natAbs
  have hread := Text.readDigits?_toDigits e.natAbs
  rw [hds] at hread
  rw [Text.toList_toString_int, hds]
  by_cases hneg : e < 0
  · have habs : -Int.ofNat e.natAbs = e := by
      rw [Int.ofNat_eq_natCast]
      omega
    simp only [if_pos hneg, readExponent?, true_or, if_true, hread,
      Option.map_some, habs]
  · have habs : |e| = e := abs_of_nonneg (by omega)
    simp [if_neg hneg, readExponent?, hread, hplus, hminus, habs]

/-! ## The two layouts -/

/-- Zeros at the end of the digits are all that is left away. -/
theorem exists_significantDigits (n : Nat) :
    ∃ k, Nat.ofDigitChars 10 (significantDigits n) 0 * 10 ^ k = n ∧
      (significantDigits n).length + k = (Nat.toDigits 10 n).length := by
  let zeros := (Nat.toDigits 10 n).reverse.takeWhile (· == '0')
  let kept := ((Nat.toDigits 10 n).reverse.dropWhile (· == '0')).reverse
  have hzeros : zeros = List.replicate zeros.length '0' :=
    List.eq_replicate_iff.mpr
      ⟨rfl, fun d hd => by simpa using List.mem_takeWhile_imp hd⟩
  have hsplit : Nat.toDigits 10 n = kept ++ zeros.reverse := by
    rw [← List.reverse_append, List.takeWhile_append_dropWhile, List.reverse_reverse]
  have hvalue : Nat.ofDigitChars 10 kept 0 * 10 ^ zeros.length = n := by
    have hn := Nat.ofDigitChars_ten_toDigits (n := n)
    rw [hsplit, hzeros, List.reverse_replicate, Nat.ofDigitChars_append,
      Nat.ofDigitChars_replicate_zero] at hn
    rw [Nat.mul_comm]
    exact hn
  have hlength : (Nat.toDigits 10 n).length = kept.length + zeros.length := by
    simpa using congrArg List.length hsplit
  unfold significantDigits
  split
  · next h =>
      -- only the digits of zero are zeros all of them
      have hkept : kept = [] := h
      have hzero : n = 0 := by
        rw [hkept, Nat.ofDigitChars_nil, Nat.zero_mul] at hvalue
        exact hvalue.symm
      subst hzero
      exact ⟨0, rfl, rfl⟩
  · exact ⟨zeros.length, hvalue, hlength.symm⟩

private theorem isDigit_of_mem_significantDigits {n : Nat} {d : Char}
    (h : d ∈ significantDigits n) :
    d.isDigit = true := by
  unfold significantDigits at h
  split at h
  · simp_all
  · have hmem : d ∈ Nat.toDigits 10 n := by
      have := (List.dropWhile_sublist _).mem (List.mem_reverse.mp h)
      exact List.mem_reverse.mp this
    exact Text.isDigit_of_mem_toDigits hmem

theorem significantDigits_ne_nil (n : Nat) : significantDigits n ≠ [] := by
  unfold significantDigits
  split
  · simp
  · assumption

private theorem ofDigitChars_zeros_append (k : Nat) (ds : List Char) :
    Nat.ofDigitChars 10 (List.replicate k '0' ++ ds) 0 = Nat.ofDigitChars 10 ds 0 := by
  rw [Nat.ofDigitChars_append, Nat.ofDigitChars_replicate_zero, Nat.mul_zero]

private theorem ofDigitChars_append_zeros (ds : List Char) (k : Nat) :
    Nat.ofDigitChars 10 (ds ++ List.replicate k '0') 0 =
      Nat.ofDigitChars 10 ds 0 * 10 ^ k := by
  rw [Nat.ofDigitChars_append, Nat.ofDigitChars_replicate_zero, Nat.mul_comm]

/-- Digits with a point are read as the digits at the place that the point gives
them. -/
theorem readMagnitude?_positional {ds : List Char} (hne : ds ≠ [])
    (hds : ∀ d ∈ ds, d.isDigit = true) (point : Int) :
    readMagnitude? (positional ds point).toList =
      some (scaled (Nat.ofDigitChars 10 ds 0) (point - ds.length)) := by
  have hzeros (k : Nat) : ∀ d ∈ List.replicate k '0', d.isDigit = true := by
    intro d hd
    rw [List.eq_of_mem_replicate hd]
    rfl
  have hend : readExponent? [] = some 0 := rfl
  have hpos : 0 < ds.length := List.length_pos_iff.mpr hne
  by_cases hpoint : point ≤ 0
  · -- all digits behind the point, zeros between them and the point
    have hread := readMagnitude?_point ['0']
      (List.replicate (-point).toNat '0' ++ ds) (by simp) (by simp)
      (fun d hd => (List.mem_append.mp hd).elim (hzeros _ d) (hds d)) (by simp) hend
    have hvalue :
        Nat.ofDigitChars 10 (['0'] ++ (List.replicate (-point).toNat '0' ++ ds)) 0 =
          Nat.ofDigitChars 10 ds 0 := by
      rw [List.singleton_append, ofDigitChars_cons_zero, ofDigitChars_zeros_append]
    have hexponent : 0 - ((List.replicate (-point).toNat '0' ++ ds).length : Int) =
        point - ds.length := by
      simp only [List.length_append, List.length_replicate]
      omega
    rw [List.append_nil, hvalue, hexponent] at hread
    simpa [positional, hpoint] using hread
  obtain ⟨p, rfl, hp⟩ : ∃ p : Nat, point = p ∧ p ≠ 0 :=
    ⟨point.toNat, by omega, by omega⟩
  by_cases hlong : p < ds.length
  · -- the point among the digits
    have hread := readMagnitude?_point (ds.take p) (ds.drop p)
      (by simp [hp, hne]) (fun d hd => hds d (List.mem_of_mem_take hd))
      (fun d hd => hds d (List.mem_of_mem_drop hd)) (by simp) hend
    have hexponent : 0 - ((ds.drop p).length : Int) = p - ds.length := by
      rw [List.length_drop]
      omega
    have hfraction : ds.drop p ≠ [] := by simp; omega
    have hnone : p - ds.length = 0 := by omega
    rw [List.append_nil, List.take_append_drop, hexponent] at hread
    simpa [positional, hp, hnone, hfraction] using hread
  · -- all digits before the point, zeros between them and the point and one behind it
    have hread := readMagnitude?_point (ds ++ List.replicate (p - ds.length) '0')
      ['0'] (by simp [hne])
      (fun d hd => (List.mem_append.mp hd).elim (hds d) (hzeros _ d)) (by simp)
        (by simp) hend
    have hvalue :
        Nat.ofDigitChars 10 (ds ++ List.replicate (p - ds.length) '0' ++ ['0']) 0 =
          Nat.ofDigitChars 10 ds 0 * 10 ^ (p - ds.length + 1) := by
      rw [List.append_assoc, ← List.replicate_succ', ofDigitChars_append_zeros]
    have hexponent : 0 - (['0'].length : Int) + (p - ds.length + 1 : Nat) = p -
        ds.length := by
      simp only [List.length_singleton]
      omega
    have htake : ds.take p = ds := List.take_of_length_le (by omega)
    have hdrop : ds.drop p = [] := List.drop_of_length_le (by omega)
    rw [List.append_nil, hvalue, scaled_mul_pow, hexponent] at hread
    simpa [positional, hp, htake, hdrop] using hread

/-- Digits with an exponent are read as the digits at the place that the
exponent gives them. -/
theorem readMagnitude?_scientific {ds : List Char} (hne : ds ≠ [])
    (hds : ∀ d ∈ ds, d.isDigit = true) (point : Int) :
    readMagnitude? (scientific ds point).toList =
      some (scaled (Nat.ofDigitChars 10 ds 0) (point - ds.length)) := by
  have hend := readExponent?_toString (point - 1)
  cases ds with
  | nil => exact absurd rfl hne
  | cons d rest =>
      cases rest with
      | nil =>
          have hread := readMagnitude?_exponent (by simp) hds hend
          simpa [scientific] using hread
      | cons d' rest =>
          have hread := readMagnitude?_point [d] (d' :: rest) (by simp)
            (by simpa using hds d List.mem_cons_self)
            (fun c hc => hds c (List.mem_cons_of_mem d hc)) (by simp) hend
          have hexponent : point - 1 - ((d' :: rest).length : Int) =
              point - (d :: d' :: rest).length := by
            simp only [List.length_cons]
            omega
          rw [hexponent] at hread
          simpa [scientific] using hread

/-- Leaving out the zeros at the end of the digits and counting them keeps the value. -/
theorem scaled_significantDigits (n : Numeral) :
    scaled (Nat.ofDigitChars 10 (significantDigits n.digits) 0)
      ((Nat.toDigits 10 n.digits).length + n.exponent -
        (significantDigits n.digits).length) =
      scaled n.digits n.exponent := by
  obtain ⟨k, hvalue, hlength⟩ := exists_significantDigits n.digits
  have hexponent : ((Nat.toDigits 10 n.digits).length : Int) + n.exponent -
      (significantDigits n.digits).length = n.exponent + k := by omega
  rw [hexponent, ← scaled_mul_pow, hvalue]

/-- The digits of a value are read as the value wherever the point is. -/
theorem readMagnitude?_positional_digits (n : Numeral) :
    readMagnitude? (positional (significantDigits n.digits)
      ((Nat.toDigits 10 n.digits).length + n.exponent)).toList =
        some (scaled n.digits n.exponent) := by
  have hds : ∀ d ∈ significantDigits n.digits, d.isDigit = true :=
    fun _ => isDigit_of_mem_significantDigits
  rw [readMagnitude?_positional (significantDigits_ne_nil n.digits) hds,
    scaled_significantDigits]

/-- What is written for a value is read as the value. -/
theorem readMagnitude?_text (n : Numeral) :
    readMagnitude? n.text.toList = some (scaled n.digits n.exponent) := by
  dsimp only [Numeral.text]
  split
  · exact readMagnitude?_positional_digits n
  · have hds : ∀ d ∈ significantDigits n.digits, d.isDigit = true :=
      fun _ => isDigit_of_mem_significantDigits
    rw [readMagnitude?_scientific (significantDigits_ne_nil n.digits) hds,
      scaled_significantDigits]

/-! ## Floats and their bits -/

open Float.Model Float.Model.UnpackedFloat

/-- Sign and magnitude are all of a float. -/
theorem ofMagnitude_magnitude (x : Float) :
    ofMagnitude (isNegative x) (magnitude x) = x := by
  have hlt : x.toBits.toNat < 2 * signBit := x.toBits.toNat_lt
  have hbits : magnitude x + (if isNegative x then signBit else 0) =
      x.toBits.toNat := by
    unfold magnitude isNegative
    by_cases h : signBit ≤ x.toBits.toNat
    · have hmod : x.toBits.toNat % signBit = x.toBits.toNat - signBit := by
        rw [Nat.mod_eq_sub_mod h, Nat.mod_eq_of_lt (by omega)]
      simp [h, hmod]
    · simp [h, Nat.mod_eq_of_lt (Nat.lt_of_not_le h)]
  rw [ofMagnitude, hbits, UInt64.ofNat_toNat, Float.ofBits_toBits]

/-- The magnitudes beyond infinity are those with the largest exponent
and a significand. -/
theorem infinityBits_lt_iff (b : BitVec Format.binary64.numBits) :
    infinityBits < b.toNat % signBit ↔
      unpackExponent b = -1 ∧ unpackMantissa b ≠ 0 := by
  have hexponent : (unpackExponent b).toNat = b.toNat / 2 ^ 52 % 2 ^ 11 := by
    rw [unpackExponent_def, BitVec.extractLsb'_toNat, Nat.shiftRight_eq_div_pow]
  have hmantissa : (unpackMantissa b).toNat = b.toNat % 2 ^ 52 := by
    rw [unpackMantissa_def, BitVec.extractLsb'_toNat, Nat.shiftRight_zero]
  have hones : (-1 : BitVec Format.binary64.exponentBits).toNat = 2047 := rfl
  have hzero : (0 : BitVec Format.binary64.mantissaBitsWithoutImplicit).toNat = 0 := rfl
  have hsign : signBit = 2 ^ 63 := rfl
  have hinfinity : infinityBits = 2047 * 2 ^ 52 := rfl
  rw [← BitVec.toNat_inj, hexponent, Ne, ← BitVec.toNat_inj, hmantissa, hones, hzero,
    hsign, hinfinity]
  omega

private theorem toBits_nan : Float.nan.toBits.toBitVec = packedNaN Format.binary64 := by
  decide +kernel

/-- Beyond infinity lies only the float that is no number. -/
theorem eq_nan_of_lt {x : Float} (h : infinityBits < magnitude x) : x = Float.nan := by
  have hparts := (infinityBits_lt_iff x.toBits.toBitVec).mp h
  have hbits := x.toModel.valid.eq_packedNaN hparts.1 hparts.2
  exact Float.toBits_inj.mp (UInt64.toBitVec_inj.mp (hbits.trans toBits_nan.symm))

/-- A magnitude up to infinity makes a float with these bits and the sign. -/
theorem toNat_toBits_ofMagnitude {negative : Bool} {bits : Nat}
    (h : bits ≤ infinityBits) :
    (ofMagnitude negative bits).toBits.toNat = bits + if negative
      then signBit else 0 := by
  let b := UInt64.ofNat (bits + if negative then signBit else 0)
  have hinfinity : infinityBits = 2047 * 2 ^ 52 := rfl
  have hsign : signBit = 2 ^ 63 := rfl
  have hvalue : b.toNat = bits + if negative then signBit else 0 := by
    refine UInt64.toNat_ofNat_of_lt' ?_
    cases negative <;> simp [hsign, UInt64.size] <;> omega
  have hmagnitude : b.toNat % signBit = bits := by
    rw [hvalue, hsign]
    cases negative <;> simp <;> omega
  have hvalid : Format.binary64.Valid b.toBitVec := by
    constructor
    intro hexponent hmantissa
    have hlt : infinityBits < b.toNat % signBit :=
      (infinityBits_lt_iff b.toBitVec).mpr ⟨hexponent, hmantissa⟩
    omega
  have hbits : (ofMagnitude negative bits).toBits = b :=
    UInt64.toBitVec_inj.mp (pack_unpack_of_valid hvalid)
  rw [hbits, hvalue]

/-- No magnitude up to infinity belongs to the float that is no number. -/
theorem ofMagnitude_ne_nan {negative : Bool} {bits : Nat} (h : bits ≤ infinityBits) :
    ofMagnitude negative bits ≠ Float.nan := by
  intro hnan
  have hbits : (ofMagnitude negative bits).toBits.toNat = _ :=
    toNat_toBits_ofMagnitude h
  have hpacked : (packedNaN Format.binary64).toNat = infinityBits + stride / 2 := by
    decide +kernel
  have hnanbits : Float.nan.toBits.toNat = infinityBits + stride / 2 := by
    show Float.nan.toBits.toBitVec.toNat = _
    rw [toBits_nan, hpacked]
  have hstride : stride = 2 ^ 52 := rfl
  have hinfinity : infinityBits = 2047 * 2 ^ 52 := rfl
  have hsign : signBit = 2 ^ 63 := rfl
  rw [hnan, hnanbits] at hbits
  cases negative with
  | false =>
      simp at hbits
      omega
  | true =>
      simp at hbits
      omega

private theorem isNegative_ofMagnitude {negative : Bool} {bits : Nat}
    (h : bits ≤ infinityBits) :
    isNegative (ofMagnitude negative bits) = negative := by
  have hinfinity : infinityBits = 2047 * 2 ^ 52 := rfl
  have hsign : signBit = 2 ^ 63 := rfl
  unfold isNegative
  rw [toNat_toBits_ofMagnitude h]
  cases negative with
  | false =>
      simp
      omega
  | true => simp

/-! ## The full form -/

/-- What starts with neither a digit, a point nor the first letter of a word
is no magnitude. -/
theorem readMagnitude?_eq_none {c : Char} (hdigit : c.isDigit = false)
    (hpoint : c ≠ '.') (hi : c.toLower ≠ 'i') (hn : c.toLower ≠ 'n') (cs : List Char) :
    readMagnitude? (c :: cs) = none := by
  have hspan : (c :: cs).span Char.isDigit = ([], c :: cs) := by
    simp [List.span_eq_takeWhile_dropWhile, hdigit]
  have hword {d : Char} (hd : c.toLower ≠ d) (ds : List Char) :
      String.ofList ((c :: cs).map Char.toLower) ≠ String.ofList (d :: ds) := by
    intro h
    have hlists := String.ofList_injective h
    simp [hd] at hlists
  have hsplit : splitFraction (c :: cs) = ([], c :: cs) := by
    unfold splitFraction
    split
    · next h => exact absurd (List.cons.inj h).1 hpoint
    · rfl
  simp only [readMagnitude?, hspan, hsplit, List.isEmpty_nil, Bool.and_self, if_true]
  split
  · next h => exact absurd h (hword hi ['n', 'f'])
  · next h => exact absurd h (hword hi ['n', 'f', 'i', 'n', 'i', 't', 'y'])
  · next h => exact absurd h (hword hn ['a', 'n'])
  · rfl

/-- What has a magnitude starts with no sign. -/
theorem ne_sign_of_readMagnitude? {c : Char} {cs : List Char} {bits : Nat}
    (h : readMagnitude? (c :: cs) = some bits) : c ≠ '-' ∧ c ≠ '+' := by
  constructor
  · rintro rfl
    rw [readMagnitude?_eq_none (by decide) (by decide) (by decide) (by decide)] at h
    cases h
  · rintro rfl
    rw [readMagnitude?_eq_none (by decide) (by decide) (by decide) (by decide)] at h
    cases h

theorem read?_sign_append {text : String} {bits : Nat} (negative : Bool)
    (h : readMagnitude? text.toList = some bits) :
    read? (sign negative ++ text).toList = some (ofMagnitude negative bits) := by
  cases htext : text.toList with
  | nil => rw [htext] at h; cases h
  | cons c cs =>
      rw [htext] at h
      have hc := ne_sign_of_readMagnitude? h
      cases negative with
      | false => simp [sign, read?, htext, hc, h]
      | true => simp [sign, read?, htext, h]

/-- Every float is read back from its full form. -/
theorem read?_fullText (x : Float) : read? (fullText x).toList = some x := by
  have hx := ofMagnitude_magnitude x
  by_cases hfinite : magnitude x < infinityBits
  · have hshape : shape x = .finite (isNegative x) (units (magnitude x)) :=
      if_pos hfinite
    rw [fullText, hshape]
    cases hunits : units (magnitude x) with
    | zero =>
        -- no units, no magnitude
        have hnearest := nearest_units (Nat.le_of_lt hfinite)
        rw [hunits] at hnearest
        have hzero : magnitude x = 0 := hnearest.symm
        have hread : readMagnitude? "0.0".toList = some 0 := by decide +kernel
        rw [hzero] at hx
        exact (read?_sign_append _ hread).trans (congrArg some hx)
    | succ u =>
        have hread := readMagnitude?_text (shortest (magnitude x))
        rw [scaled_shortest (Nat.le_of_lt hfinite)] at hread
        exact (read?_sign_append _ hread).trans (congrArg some hx)
  by_cases hinfinite : magnitude x = infinityBits
  · have hshape : shape x = .infinite (isNegative x) := by simp [shape, hinfinite]
    have hread : readMagnitude? "inf".toList = some infinityBits := by decide +kernel
    rw [fullText, hshape]
    rw [hinfinite] at hx
    exact (read?_sign_append _ hread).trans (congrArg some hx)
  · have hnan : x = Float.nan := eq_nan_of_lt (by omega)
    rw [hnan]
    decide +kernel

private theorem isBlank_of_mem_positional {ds : List Char}
    (hds : ∀ d ∈ ds, d.isDigit = true) {point : Int} {c : Char}
    (h : c ∈ (positional ds point).toList) : Text.isBlank c = false := by
  have hdigit {d : Char} (hd : d ∈ ds) : Text.isBlank d = false :=
    Text.isBlank_of_isDigit (hds d hd)
  have hzero {k : Nat} (hc : c ∈ List.replicate k '0') : Text.isBlank c = false := by
    rw [List.eq_of_mem_replicate hc]
    rfl
  unfold positional at h
  split at h
  · simp only [String.toList_append, String.toList_ofList, List.mem_append] at h
    rcases h with h | h | h
    · rcases (by simpa using h : c = '0' ∨ c = '.') with rfl | rfl <;> rfl
    · exact hzero h
    · exact hdigit h
  · simp only [String.toList_ofList, List.mem_append, List.mem_cons] at h
    rcases h with (h | h) | rfl | h
    · exact hdigit (List.mem_of_mem_take h)
    · exact hzero h
    · rfl
    · split at h
      · rw [List.mem_singleton.mp h]
        rfl
      · exact hdigit (List.mem_of_mem_drop h)

private theorem isBlank_of_mem_scientific {ds : List Char}
    (hds : ∀ d ∈ ds, d.isDigit = true) {point : Int} {c : Char}
    (h : c ∈ (scientific ds point).toList) : Text.isBlank c = false := by
  have hdigit {d : Char} (hd : d ∈ ds) : Text.isBlank d = false :=
    Text.isBlank_of_isDigit (hds d hd)
  simp only [scientific, String.toList_append, String.toList_ofList, List.mem_append]
    at h
  rcases h with (h | h) | h
  · split at h
    · cases h
    · exact hdigit h
    · rcases List.mem_cons.mp h with rfl | h
      · exact hdigit List.mem_cons_self
      rcases List.mem_cons.mp h with rfl | h
      · rfl
      · exact hdigit (List.mem_cons_of_mem _ h)
  · rw [(by simpa using h : c = 'e')]
    rfl
  · exact Text.isBlank_of_mem_toString_int h

/-- Neither layout has blanks. -/
theorem isBlank_of_mem_text {n : Numeral} {c : Char} (h : c ∈ n.text.toList) :
    Text.isBlank c = false := by
  have hds : ∀ d ∈ significantDigits n.digits, d.isDigit = true :=
    fun _ => isDigit_of_mem_significantDigits
  dsimp only [Numeral.text] at h
  split at h
  · exact isBlank_of_mem_positional hds h
  · exact isBlank_of_mem_scientific hds h

/-- Nothing that is written for a float is blank. -/
theorem isBlank_of_mem_fullText {x : Float} {c : Char} (h : c ∈ (fullText x).toList) :
    Text.isBlank c = false := by
  have hsign (negative : Bool) :
      ∀ c ∈ (sign negative).toList, Text.isBlank c = false := by
    intro c hc
    cases negative with
    | false => simp [sign] at hc
    | true =>
        rw [(by simpa [sign] using hc : c = '-')]
        rfl
  unfold fullText at h
  split at h
  · rcases (by simpa using h : c = 'N' ∨ c = 'a' ∨ c = 'N') with rfl | rfl | rfl <;> rfl
  all_goals
    rw [String.toList_append] at h
    rcases List.mem_append.mp h with h | h
    · exact hsign _ c h
  · rcases (by simpa using h : c = 'i' ∨ c = 'n' ∨ c = 'f') with rfl | rfl | rfl <;> rfl
  · rcases (by simpa using h : c = '0' ∨ c = '.' ∨ c = '0') with rfl | rfl | rfl <;> rfl
  · exact isBlank_of_mem_text h

/-! ## Digits denote a number -/

private theorem scaledDigits_le (ds : List Char) (exponent : Int) :
    scaledDigits ds exponent ≤ infinityBits := by
  unfold scaledDigits
  simp only
  split
  · exact Nat.zero_le _
  split
  · exact Nat.le_refl _
  · exact scaled_le ..

/-- What starts with a digit is read as a float without a sign. -/
theorem exists_magnitude_of_read? {c : Char} {cs : List Char} {x : Float}
    (hc : c.isDigit = true) (h : read? (c :: cs) = some x) :
    ∃ bits, bits ≤ infinityBits ∧ ofMagnitude false bits = x := by
  have hplus : c ≠ '+' := by rintro rfl; cases hc
  have hminus : c ≠ '-' := by rintro rfl; cases hc
  have hread : (readMagnitude? (c :: cs)).map (ofMagnitude false) = some x := by
    simpa [read?, hplus, hminus] using h
  obtain ⟨bits, hbits, hx⟩ := Option.map_eq_some_iff.mp hread
  have hwhole : ((c :: cs).span Char.isDigit).1.isEmpty = false := by
    simp [List.span_eq_takeWhile_dropWhile, hc]
  have hle : bits ≤ infinityBits := by
    simp only [readMagnitude?, hwhole, Bool.false_and] at hbits
    obtain ⟨exponent, -, rfl⟩ := Option.map_eq_some_iff.mp hbits
    exact scaledDigits_le ..
  exact ⟨bits, hle, hx⟩

/-- What starts with a digit is never read as the float that is no number. -/
theorem ne_nan_of_read? {c : Char} {cs : List Char} {x : Float} (hc : c.isDigit = true)
    (h : read? (c :: cs) = some x) : x ≠ Float.nan := by
  obtain ⟨bits, hle, rfl⟩ := exists_magnitude_of_read? hc h
  exact ofMagnitude_ne_nan hle

/-- What starts with a digit is never read as a negative float. -/
theorem isNegative_of_read? {c : Char} {cs : List Char} {x : Float}
    (hc : c.isDigit = true) (h : read? (c :: cs) = some x) : isNegative x = false := by
  obtain ⟨bits, hle, rfl⟩ := exists_magnitude_of_read? hc h
  exact isNegative_ofMagnitude hle

end Decimal

end ScalarLang
