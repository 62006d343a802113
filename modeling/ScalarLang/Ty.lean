/-!
# The four types

The language has exactly four types of values, none of them compound. A type is named by
a reserved word in programs and by a one-letter tag in stack code. Two of the types are
numeric, and of these `int` widens to `float` where a `float` is needed.

Where the type of an expression cannot be told because something inside it is already
reported, the type is `none`, and its name is `error`.
-/

namespace ScalarLang

/-- The types of values. -/
inductive Ty where
  | int
  | float
  | bool
  | string
deriving DecidableEq, Inhabited

namespace Ty

/-- All types, in the order of their declaration. -/
def all : List Ty := [int, float, bool, string]

/-- The word for a type in programs and messages. -/
def name : Ty → String
  | int => "int"
  | float => "float"
  | bool => "bool"
  | string => "string"

/-- The letter for a type in stack code. -/
def tag : Ty → String
  | int => "I"
  | float => "F"
  | bool => "B"
  | string => "S"

/-- The type with a letter. -/
def ofTag? (tag : String) : Option Ty :=
  match tag with
  | "I" => some int
  | "F" => some float
  | "B" => some bool
  | "S" => some string
  | _ => none

@[simp] theorem ofTag?_tag (t : Ty) : ofTag? t.tag = some t := by cases t <;> rfl

/-- Whether the type's values are numbers. -/
def isNumeric : Ty → Bool
  | int | float => true
  | bool | string => false

/-- The name of a type that may be unknown. -/
def nameOr (t : Option Ty) : String := t.elim "error" name

end Ty

end ScalarLang
