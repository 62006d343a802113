import ScalarLang.Instr.Basic
import ScalarLang.Text.Lines

/-!
# Stack code as text

Stack code is written with one instruction on a line: a mnemonic, and behind a
blank the tag, name, number or literal it takes. An instruction that does nothing
is an empty line.

Reading never fails. A line that is no instruction counts as one that does nothing, so
that the position of an instruction is the number of its line. Within a line blanks
around and between the words do not matter and further words are ignored. The typed
instructions take the tags that their operands can have: arithmetic and order the
numeric ones, equality and reading any. A number pushed that does not read is zero, and
a pushed bool is true only if its literal is `true`.

A pushed string stands between the first and the last quote of its line. A
backslash, a line feed and a carriage return inside it are written with a backslash;
a quote needs none.

## Main results

* `unescape_escape`: escaped text is read back as it was.
-/

namespace ScalarLang.Instr

/-! ## Strings -/

/-- The written form of a character inside a string. -/
def escapeChar (c : Char) : List Char :=
  if c = '\\' then ['\\', '\\']
  else if c = '\n' then ['\\', 'n']
  else if c = '\r' then ['\\', 'r']
  else [c]

/-- The written form of the inside of a string. -/
def escape (cs : List Char) : List Char := cs.flatMap escapeChar

/-- The inside of a string from its written form. -/
def unescape : List Char → List Char
  | [] => []
  | '\\' :: '\\' :: cs => '\\' :: unescape cs
  | '\\' :: 'n' :: cs => '\n' :: unescape cs
  | '\\' :: 'r' :: cs => '\r' :: unescape cs
  | c :: cs => c :: unescape cs

private theorem unescape_cons {c : Char} (h : c ≠ '\\') (cs : List Char) :
    unescape (c :: cs) = c :: unescape cs := by
  rw [unescape] <;> simp [h]

theorem unescape_escape (cs : List Char) : unescape (escape cs) = cs := by
  induction cs with
  | nil => rfl
  | cons c cs ih =>
    rw [escape] at ih
    rw [escape, List.flatMap_cons, escapeChar]
    split
    · next h => subst h; simp [unescape, ih]
    split
    · next h => subst h; simp [unescape, ih]
    split
    · next h => subst h; simp [unescape, ih]
    · next h _ _ => simp [unescape_cons h, ih]

/-! ## Writing -/

/-- The literal of a value in stack code. -/
def literal : Value → String
  | .int n => Text.int32Text n
  | .float x => Decimal.fullText x
  | .bool b => Value.boolText b
  | .string s => "\"" ++ String.ofList (escape s.toList) ++ "\""

/-- The mnemonic of an operation. -/
def arithName : ArithOp → String
  | .add => "add"
  | .sub => "sub"
  | .mul => "mul"
  | .div => "div"

/-- The mnemonic of a comparison. -/
def orderName : OrderOp → String
  | .greater => "gt"
  | .less => "lt"

/-- The mnemonic of a connective. -/
def logicName : LogicOp → String
  | .and => "and"
  | .or => "or"

/-- The line that an instruction is written on. -/
def text : Instr → String
  | push v => "push " ++ v.ty.tag ++ " " ++ literal v
  | pop => "pop"
  | load name => "load " ++ name
  | save name => "save " ++ name
  | arith op t => arithName op ++ " " ++ t.tag
  | mod => "mod"
  | negate t => "uminus " ++ t.tag
  | concat => "concat"
  | logic op => logicName op
  | not => "not"
  | order op t => orderName op ++ " " ++ t.tag
  | equal t => "eq " ++ t.tag
  | widen => "itof"
  | print count => "print " ++ toString count
  | read t => "read " ++ t.tag
  | jump target => "jmp " ++ toString target
  | jumpUnless target => "fjmp " ++ toString target
  | label target => "label " ++ toString target
  | nop => ""

/-- The text of stack code, every line ended by a line feed. -/
def write (code : List Instr) : String := String.join (code.map fun i => i.text ++ "\n")

/-! ## Reading -/

/-- What stands between the first and the last quote of a text. -/
def quotedPart? (cs : List Char) : Option (List Char) :=
  match cs.dropWhile (· ≠ '"') with
  | [] => none
  | _ :: rest =>
    match rest.reverse.dropWhile (· ≠ '"') with
    | [] => none
    | _ :: inner => some inner.reverse

/-- The value of a literal of a type. -/
def readLiteral? (t : Ty) (cs : List Char) : Option Value :=
  match t with
  | .int => some (.int ((Text.readInt32? cs).getD 0))
  | .float => some (((Decimal.read? cs).map Value.float).getD (.default .float))
  | .bool => some (.bool (cs == ['t', 'r', 'u', 'e']))
  | .string =>
      (quotedPart? cs).map fun inner => .string (String.ofList (unescape inner))

/-- A push instruction from what follows its mnemonic. -/
def readPush? (cs : List Char) : Option Instr := do
  let (tag, rest) := Text.splitWord cs
  let t ← Ty.ofTag? (String.ofList tag)
  push <$> readLiteral? t rest

/-- An instruction from its mnemonic and the first word behind it, all but `push`. -/
def ofWords? (mnemonic : String) (operand : List Char) : Option Instr :=
  let name := if operand.isEmpty then none else some (String.ofList operand)
  let tag := Ty.ofTag? (String.ofList operand)
  let numeric := tag.filter Ty.isNumeric
  let target := Text.readNat? UInt32.size operand
  match mnemonic with
  | "pop" => some pop
  | "load" => name.map load
  | "save" => name.map save
  | "add" => numeric.map (arith .add)
  | "sub" => numeric.map (arith .sub)
  | "mul" => numeric.map (arith .mul)
  | "div" => numeric.map (arith .div)
  | "mod" => some mod
  | "uminus" => numeric.map negate
  | "concat" => some concat
  | "and" => some (logic .and)
  | "or" => some (logic .or)
  | "not" => some not
  | "gt" => numeric.map (order .greater)
  | "lt" => numeric.map (order .less)
  | "eq" => tag.map equal
  | "itof" => some widen
  | "print" => (Text.readNat? UInt64.size operand).map print
  | "read" => tag.map read
  | "jmp" => target.map jump
  | "fjmp" => target.map jumpUnless
  | "label" => target.map label
  | _ => none

/-- The instruction on a line, `none` where the line is not blank and holds none. -/
def ofLine? (line : List Char) : Option Instr :=
  match Text.trim line with
  | [] => some nop
  | cs =>
    let (mnemonic, rest) := Text.splitWord cs
    if mnemonic = ['p', 'u', 's', 'h'] then readPush? rest
    else ofWords? (String.ofList mnemonic) (Text.splitWord rest).1

/-- The stack code of a text, one instruction for each line. -/
def readText (text : String) : List Instr :=
  (Text.lines text.toList).map fun line => (ofLine? line).getD nop

end ScalarLang.Instr
