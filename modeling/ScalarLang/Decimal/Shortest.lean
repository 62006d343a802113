import ScalarLang.Decimal.Reader

/-!
# The fewest digits that read back

Among the decimal fractions that are read as a given float, those with the fewest digits
are short enough to show, and of these the one nearest to the float is the best. A float
has two neighbours on the grid of fractions with `n` digits. If any fraction with `n`
digits reads back, one of the two does, so trying them for growing `n` finds the fewest
digits; of two neighbours that both read back the nearer is taken, and of two equally
near ones the upper.

Seventeen digits are enough for every float. The search nevertheless ends in the float's
exact decimal value, which reads back for a reason that needs no bound.
-/

namespace ScalarLang.Decimal

/-- The decimal value `digits · 10 ^ exponent`. -/
structure Numeral where
  digits : Nat
  exponent : Int
deriving DecidableEq

/-- Whether a value is read as the float with this magnitude. -/
def Numeral.readsAs (n : Numeral) (bits : Nat) : Bool :=
  scaled n.digits n.exponent == bits

/-- How many digits a value has before its point; none or fewer where it is below
one. -/
def places (units : Nat) : Int :=
  ((Nat.toDigits 10 (units * Nat.pow 10 400 / one)).length : Int) - 400

/-- The quotient of units by a power of ten, as numerator and denominator. -/
def quotient (units : Nat) (exponent : Int) : Nat × Nat :=
  if 0 ≤ exponent then (units, one * Nat.pow 10 exponent.toNat)
  else (units * Nat.pow 10 (-exponent).toNat, one)

/-- The better of the two neighbours of a quotient on a grid, if one of them reads
back. -/
def between? (bits : Nat) (exponent : Int) (num den : Nat) : Option Numeral :=
  let below : Numeral := ⟨num / den, exponent⟩
  let above : Numeral := ⟨num / den + 1, exponent⟩
  match below.readsAs bits, above.readsAs bits with
  | true, true => some (if 2 * (num % den) < den then below else above)
  | true, false => some below
  | false, true => some above
  | false, false => none

/-- The better of a float's two neighbours with `n` digits, if one of them reads
back. -/
def neighbour? (bits n : Nat) : Option Numeral :=
  let exponent := places (units bits) - n
  let value := quotient (units bits) exponent
  between? bits exponent value.1 value.2

/-- The exact decimal value of units. -/
def exact (units : Nat) : Numeral := ⟨units * Nat.pow 5 1074, -1074⟩

/-- The value with the fewest digits that reads back as the finite float
with this magnitude. -/
def shortest (bits : Nat) : Numeral :=
  (([1, 2, 3, 4, 5, 6, 7, 8, 9, 10, 11, 12, 13, 14, 15, 16, 17] : List Nat).findSome?
    (neighbour? bits)).getD (exact (units bits))

end ScalarLang.Decimal
