import ScalarLang.Decimal.Shortest

/-!
# Floats as text

Floats are written in two forms. The *full* form has the fewest digits that read
back: positional from `0.0001` up to, but without, `10¹⁶`, always with a digit
behind the point, and otherwise with one digit before the point and an exponent that
has no plus sign and no padding. The *brief* form, for people, has exactly one digit
behind the point.

The brief form rounds half away from zero. The rounding is done on floats: ten times the
value is rounded to a whole number and a tenth of that is written. From `10¹⁵` on a
value is written as it is. Writing itself rounds the exact value to one place, with ties
to the even digit. Both forms keep the sign of zero.
-/

namespace ScalarLang.Decimal

/-- A minus sign, where one is due. -/
def sign (negative : Bool) : String := if negative then "-" else ""

/-! ## The full form -/

/-- The digits of a value without the zeros they end in, at least one digit. -/
def significantDigits (n : Nat) : List Char :=
  match ((Nat.toDigits 10 n).reverse.dropWhile (· == '0')).reverse with
  | [] => ['0']
  | ds => ds

/-- Digits with the point after `point` of them, zeros filling the places
that they leave. -/
def positional (digits : List Char) (point : Int) : String :=
  if point ≤ 0 then
    "0." ++ String.ofList (List.replicate (-point).toNat '0' ++ digits)
  else
    let whole :=
      digits.take point.toNat ++ List.replicate (point.toNat - digits.length) '0'
    let fraction := match digits.drop point.toNat with
      | [] => ['0']
      | rest => rest
    String.ofList (whole ++ '.' :: fraction)

/-- Digits with one of them before the point, and the exponent that makes up for it. -/
def scientific (digits : List Char) (point : Int) : String :=
  let mantissa := match digits with
    | [] => []
    | [d] => [d]
    | d :: rest => d :: '.' :: rest
  String.ofList mantissa ++ "e" ++ toString (point - 1)

/-- A value with the digits it has, positional in the middle range of magnitudes. -/
def Numeral.text (n : Numeral) : String :=
  let digits := significantDigits n.digits
  let point := (Nat.toDigits 10 n.digits).length + n.exponent
  if -4 < point ∧ point ≤ 16 then positional digits point else scientific digits point

/-- The full form of a float, from which it can be read back. -/
def fullText (x : Float) : String :=
  match shape x with
  | .nan => "NaN"
  | .infinite negative => sign negative ++ "inf"
  | .finite negative 0 => sign negative ++ "0.0"
  | .finite negative _ => sign negative ++ (shortest (magnitude x)).text

/-! ## The brief form -/

/-- The nearest whole float, halves away from zero. -/
def roundWhole (x : Float) : Float :=
  match shape x with
  | .finite negative u => ofMagnitude negative (nearest ((u + one / 2) / one * one) 1)
  | _ => x

/-- The float that the brief form shows: to one place, except where floats have none. -/
def roundTenth (x : Float) : Float :=
  match shape x with
  | .finite _ u => if Nat.pow 10 15 * one ≤ u then x else roundWhole (x * 10) / 10
  | _ => x

/-- A float with exactly one digit behind the point. -/
def oneDecimal (x : Float) : String :=
  match shape x with
  | .nan => "NaN"
  | .infinite negative => sign negative ++ "inf"
  | .finite negative u =>
    let tenths := roundDiv (u * 10) one
    sign negative ++ toString (tenths / 10) ++ "." ++ toString (tenths % 10)

/-- The brief form of a float. -/
def briefText (x : Float) : String := oneDecimal (roundTenth x)

end ScalarLang.Decimal
