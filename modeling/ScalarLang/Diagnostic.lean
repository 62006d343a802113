import ScalarLang.Source.Position
import ScalarLang.Text.Quoted

/-!
# Diagnostics

What is wrong with a program is told as a *cause* at a position. A cause is data: it
names the parts that a message mentions, and the wording is in one place,
`Cause.message`. Some causes come with a tip, which names a likely mend.

Types, operators and constructs are held by their names, because a message only
ever shows them, and because the operator of a tree that was not read from text
can be any text.
-/

namespace ScalarLang

/-- What is wrong with a program. -/
inductive Cause where
  /-- A character that belongs to no lexeme. -/
  | unrecognisedToken (token : String)
  /-- A token that the grammar has no place for. -/
  | unexpectedToken (token : String)
  /-- A token that the grammar has no place for, where more can be told. -/
  | unexpectedTokenDetailed (token message : String)
  /-- A literal outside the range of its type. -/
  | numberParse (token : String)
  /-- A second declaration. -/
  | alreadyDeclared (name : String)
  /-- A use without a declaration. -/
  | notDeclared (name : String)
  /-- A value of the wrong type for a variable. -/
  | assignmentMismatch (name expected received : String)
  /-- An operator between types that it does not take. -/
  | operatorMismatch (operator left right : String)
  /-- A remainder of something other than two ints. -/
  | moduloMismatch (left right : String)
  /-- A comparison of types that have no order. -/
  | comparisonMismatch (operator left right : String)
  /-- An equality between types that are not compared. -/
  | equalityMismatch (operator left right : String)
  /-- A connective between values that are not both bools. -/
  | logicalMismatch (operator left right : String)
  /-- An operator before a type that it does not take. -/
  | unaryMismatch (operator operand : String)
  /-- A condition that is no bool. -/
  | nonBooleanCondition (construct received : String)
  /-- A tree that no program text has. -/
  | malformedTree (expected : String)
deriving DecidableEq

namespace Cause

/-- The name of the kind of cause. -/
def name : Cause → String
  | unrecognisedToken .. => "UnrecognisedToken"
  | unexpectedToken .. => "UnexpectedToken"
  | unexpectedTokenDetailed .. => "UnexpectedTokenDetailed"
  | numberParse .. => "NumberParseError"
  | alreadyDeclared .. => "VariableAlreadyDeclared"
  | notDeclared .. => "VariableNotDeclared"
  | assignmentMismatch .. => "AssignmentTypeMismatch"
  | operatorMismatch .. => "OperatorTypeMismatch"
  | moduloMismatch .. => "ModuloRequiresIntegers"
  | comparisonMismatch .. => "ComparisonTypeMismatch"
  | equalityMismatch .. => "EqualityTypeMismatch"
  | logicalMismatch .. => "LogicalOperandMismatch"
  | unaryMismatch .. => "UnaryTypeMismatch"
  | nonBooleanCondition .. => "NonBooleanCondition"
  | malformedTree .. => "MalformedTree"

/-- The wording of a cause. -/
def message : Cause → String
  | unrecognisedToken token => "unrecognised token: " ++ Text.quoted token
  | unexpectedToken token => "unexpected token: " ++ Text.quoted token
  | unexpectedTokenDetailed token message =>
    "unexpected token (" ++ message ++ "): " ++ Text.quoted token
  | numberParse token => "error parsing number: " ++ Text.quoted token
  | alreadyDeclared name => s!"variable '{name}' is already declared"
  | notDeclared name => s!"variable '{name}' is not declared"
  | assignmentMismatch name expected received =>
    s!"cannot assign type '{received}' to variable '{name}' of type '{expected}'"
  | operatorMismatch operator left right =>
    s!"operator '{operator}' not supported for types '{left}' and '{right}'"
  | moduloMismatch left right =>
    s!"modulo '%' is only valid for integers, got '{left}' and '{right}'"
  | comparisonMismatch operator left right =>
    s!"comparison '{operator}' not valid for types '{left}' and '{right}'"
  | equalityMismatch operator left right =>
    s!"equality operator '{operator}' not valid between '{left}' and '{right}'"
  | logicalMismatch operator left right =>
    s!"logical '{operator}' requires boolean operands, got '{left}' and '{right}'"
  | unaryMismatch operator operand =>
    s!"unary operator '{operator}' not applicable to type '{operand}'"
  | nonBooleanCondition construct received =>
    s!"condition in '{construct}' must be of type bool, got '{received}'"
  | malformedTree expected => "malformed syntax tree: expected " ++ expected

/-- A likely mend, for causes that have one. -/
def tip? : Cause → Option String
  | unexpectedToken .. => some "did you miss a semicolon?"
  | numberParse .. => some "is it above the integer limit?"
  | notDeclared name => some ("declare `" ++ name ++ "` before using it")
  | assignmentMismatch _ expected _ =>
    if expected = "float" then some "only `int` widens to `float` implicitly" else none
  | operatorMismatch operator .. =>
    if operator = "." then some "`.` concatenates two strings"
    else some ("`" ++ operator ++ "` expects int or float operands")
  | equalityMismatch .. => some "both sides must be the same type: int, float or string"
  | malformedTree .. =>
    some "the syntax tree does not match the grammar, this is a bug in the front end"
  | _ => none

end Cause

/-- A cause and the place it is reported at. -/
structure Diagnostic where
  cause : Cause
  position : Position
deriving DecidableEq

/-- A diagnostic in one line: its place and the wording of its cause. -/
def Diagnostic.text (d : Diagnostic) : String :=
  "[" ++ d.position.text ++ "] " ++ d.cause.message

end ScalarLang
