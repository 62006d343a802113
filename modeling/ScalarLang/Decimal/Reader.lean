import ScalarLang.Decimal.Units
import ScalarLang.Text.Numeral

/-!
# Reading decimal fractions

A decimal fraction is an optional sign, digits with an optional point among, before or
behind them, and an optional exponent: the letter `e` in either case, an optional sign
and digits. There has to be a digit before the exponent and one in it. The words `inf`,
`infinity` and `nan` in any case, with an optional sign, stand for the floats that have
no digits. Nothing else is a fraction, blanks included.

The float read is the one nearest to the exact value, of two the one with even bits, and
infinity where the value is too large. Exponents are compared before any power is
computed: a value that is certainly too large or too small for a float is settled by the
number of its digits.
-/

namespace ScalarLang.Decimal

/-! ## The value of digits -/

/-- The magnitude of the float nearest to `digits · 10 ^ exponent`. -/
def scaled (digits : Nat) (exponent : Int) : Nat :=
  if 0 ≤ exponent then nearest (digits * Nat.pow 10 exponent.toNat * one) 1
  else nearest (digits * one) (Nat.pow 10 (-exponent).toNat)

/-- As `scaled`, for digits in text, with values far outside the range of
floats settled first. -/
def scaledDigits (digits : List Char) (exponent : Int) : Nat :=
  let significant := digits.dropWhile (· == '0')
  let places : Int := significant.length + exponent
  if significant.isEmpty || places < -400 then 0
  else if 400 < places then infinityBits
  else scaled (Nat.ofDigitChars 10 significant 0) exponent

/-! ## The grammar -/

/-- An exponent: nothing, or the letter, an optional sign and digits. -/
def readExponent? (cs : List Char) : Option Int :=
  match cs with
  | [] => some 0
  | mark :: rest =>
    if mark = 'e' ∨ mark = 'E' then
      match rest with
      | '-' :: digits => (Text.readDigits? digits).map (-Int.ofNat ·)
      | '+' :: digits => (Text.readDigits? digits).map (Int.ofNat ·)
      | digits => (Text.readDigits? digits).map (Int.ofNat ·)
    else none

/-- The digits behind a point, and what follows them; no digits where there is no
point. -/
def splitFraction (cs : List Char) : List Char × List Char :=
  match cs with
  | '.' :: rest => rest.span Char.isDigit
  | _ => ([], cs)

/-- The magnitude of a fraction without a sign. -/
def readMagnitude? (cs : List Char) : Option Nat :=
  let (whole, rest) := cs.span Char.isDigit
  let (fraction, rest) := splitFraction rest
  if whole.isEmpty && fraction.isEmpty then
    match String.ofList (cs.map Char.toLower) with
    | "inf" | "infinity" => some infinityBits
    | "nan" => some (infinityBits + stride / 2)
    | _ => none
  else
    (readExponent? rest).map fun exponent =>
      scaledDigits (whole ++ fraction) (exponent - fraction.length)

/-- The float that a text denotes, if it is a decimal fraction. -/
def read? (cs : List Char) : Option Float :=
  match cs with
  | '-' :: rest => (readMagnitude? rest).map (ofMagnitude true)
  | '+' :: rest => (readMagnitude? rest).map (ofMagnitude false)
  | _ => (readMagnitude? cs).map (ofMagnitude false)

end ScalarLang.Decimal
