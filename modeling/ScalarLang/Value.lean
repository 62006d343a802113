import ScalarLang.Ty
import ScalarLang.Decimal.Layout
import ScalarLang.Text.Blank

/-!
# Values

A value is a number, a truth value or a text, and carries its type with it. Ints have 32
bits and their arithmetic wraps; floats are 64-bit floats.

Two values are equal if they have the same type and the same contents, floats by the
rules of float comparison: the float that is no number differs from itself, and the two
zeros are equal.

A program reads a value of a type from a line of input. Blanks around the input do not
count, and input that is no value of the type gives the type's default. What is printed
for a value is read by people: floats have one digit behind the point.
-/

namespace ScalarLang

/-- What variables and the stack hold. -/
inductive Value where
  | int (n : Int32)
  | float (x : Float)
  | bool (b : Bool)
  | string (s : String)
deriving DecidableEq

namespace Value

/-- The type of a value. -/
def ty : Value → Ty
  | int _ => .int
  | float _ => .float
  | bool _ => .bool
  | string _ => .string

/-- The value that a declaration gives a variable. -/
def default : Ty → Value
  | .int => int 0
  | .float => float (Decimal.ofMagnitude false 0)
  | .bool => bool false
  | .string => string ""

@[simp] theorem ty_default (t : Ty) : (default t).ty = t := by cases t <;> rfl

/-- Whether two values are equal for a program. -/
def same : Value → Value → Bool
  | int m, int n => m == n
  | float x, float y => x == y
  | bool a, bool b => a == b
  | string s, string t => s == t
  | _, _ => false

/-- The truth values as they are written. -/
def boolText (b : Bool) : String := if b then "true" else "false"

/-- What is printed for a value. -/
def text : Value → String
  | int n => Text.int32Text n
  | float x => Decimal.briefText x
  | bool b => boolText b
  | string s => s

/-- The value of a type that a line of input holds. -/
def ofInput (t : Ty) (line : String) : Value :=
  let input := Text.trim line.toList
  match t with
  | .int => int ((Text.readInt32? input).getD 0)
  | .float => ((Decimal.read? input).map float).getD (default .float)
  | .bool => bool (String.ofList (input.map Char.toLower) == "true")
  | .string => string (String.ofList input)

@[simp] theorem ty_ofInput (t : Ty) (line : String) : (ofInput t line).ty = t := by
  cases t with
  | float => simp only [ofInput]; cases Decimal.read? (Text.trim line.toList) <;> rfl
  | _ => rfl

end Value

end ScalarLang
