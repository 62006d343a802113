/-!
# Whole numbers in text

A whole number is read from decimal digits with an optional sign in front: a plus sign
always, a minus sign only where negative numbers are possible. At least one digit has to
follow, nothing else may, and the number has to fit the range asked for. Leading zeros
are no obstacle. Written numbers carry no plus sign and no leading zero.
-/

namespace ScalarLang.Text

/-- The number that decimal digits denote, `none` without a digit or with anything
else. -/
def readDigits? (cs : List Char) : Option Nat :=
  if cs.isEmpty || cs.any (!·.isDigit) then none else some (Nat.ofDigitChars 10 cs 0)

/-- A number below `bound`, with an optional plus sign. -/
def readNat? (bound : Nat) (cs : List Char) : Option Nat :=
  let digits := match cs with
    | '+' :: rest => rest
    | _ => cs
  (readDigits? digits).filter (· < bound)

/-- A 32-bit number with an optional sign. -/
def readInt32? (cs : List Char) : Option Int32 :=
  let value : Option Int := match cs with
    | '+' :: rest => (readDigits? rest).map (Int.ofNat ·)
    | '-' :: rest => (readDigits? rest).map (-Int.ofNat ·)
    | _ => (readDigits? cs).map (Int.ofNat ·)
  (value.filter fun n => Int32.minValue.toInt ≤ n &&
    n ≤ Int32.maxValue.toInt).map Int32.ofInt

/-- The decimal form of a 32-bit number. -/
def int32Text (n : Int32) : String := toString n.toInt

end ScalarLang.Text
