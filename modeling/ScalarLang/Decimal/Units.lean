/-!
# Floats as whole numbers of units

Every finite 64-bit float is, up to its sign, a whole number of units of `2⁻¹⁰⁷⁴`, the
smallest positive float. This module reads that number off the bits of a float and goes
back from an exact quotient to the nearest float, both in plain arithmetic of natural
numbers, so that reading and writing decimal text can be exact.

The bits of a float without its sign are a number themselves, its *magnitude*. With `e =
bits / 2⁵² - 1` (stopping at zero) the float has `(bits - e · 2⁵²) · 2ᵉ` units. The
formula covers the subnormal floats, where `e` is zero, and it is increasing, so
rounding up past a power of two needs no case of its own.

## Main results

* `roundDiv_of_dvd`: a quotient that is whole is not changed by rounding.
-/

namespace ScalarLang.Decimal

/-! ## Parts of a float -/

/-- The number of magnitudes of floats with one exponent. -/
def stride : Nat := Nat.pow 2 52

/-- The bit that tells the sign, as a number. -/
def signBit : Nat := Nat.pow 2 63

/-- The number of units in one. -/
def one : Nat := Nat.pow 2 1074

/-- The bits of a float without its sign. -/
def magnitude (x : Float) : Nat := x.toBits.toNat % signBit

/-- Whether the sign bit is set, which it is for negative zero too. -/
def isNegative (x : Float) : Bool := signBit ≤ x.toBits.toNat

/-- The magnitude of the infinite floats; beyond it lies only the float
that is no number. -/
def infinityBits : Nat := 2047 * stride

/-- The units of the finite float with this magnitude. -/
def units (bits : Nat) : Nat :=
  let e := bits / stride - 1
  (bits - e * stride) * Nat.pow 2 e

/-- The float with this sign and magnitude. -/
def ofMagnitude (negative : Bool) (bits : Nat) : Float :=
  Float.ofBits (UInt64.ofNat (bits + if negative then signBit else 0))

/-! ## What a float stands for -/

/-- A float as what it stands for. -/
inductive Shape where
  /-- No number. -/
  | nan
  /-- Infinity with its sign. -/
  | infinite (negative : Bool)
  /-- A whole number of units with its sign. -/
  | finite (negative : Bool) (units : Nat)

/-- What a float stands for. -/
def shape (x : Float) : Shape :=
  if magnitude x < infinityBits then .finite (isNegative x) (units (magnitude x))
  else if magnitude x = infinityBits then .infinite (isNegative x)
  else .nan

/-! ## Rounding -/

/-- The whole number nearest to a quotient; of two, the even one. -/
def roundDiv (num den : Nat) : Nat :=
  let q := num / den
  let r := num % den
  if 2 * r < den then q else if den < 2 * r then q + 1 else q + q % 2

theorem roundDiv_of_dvd {den : Nat} (h : 0 < den) (q : Nat) :
    roundDiv (q * den) den = q := by
  simp [roundDiv, Nat.mul_div_cancel q h, h]

/-- The magnitude of the float nearest to a quotient of units; of two, the
one with even bits. -/
def nearest (num den : Nat) : Nat :=
  let e := (num / den).log2 - 52
  min (e * stride + roundDiv num (den * Nat.pow 2 e)) infinityBits

end ScalarLang.Decimal
