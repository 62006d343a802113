import ScalarLang.Text.Hidden

/-!
# Quoted text in messages

A message quotes the text it is about between double quotes. Inside, a quote and a
backslash have a backslash in front, the usual control characters have their letters,
and any other hidden character (`isHidden`) is shown by its number in hexadecimal,
between braces and without leading zeros. An apostrophe stays as it is.
-/

namespace ScalarLang.Text

/-- The hexadecimal digits of a number, in lower case. -/
def hexDigits (n : Nat) : List Char := Nat.toDigits 16 n

/-- How one character is written between double quotes. -/
def quotedChar (c : Char) : List Char :=
  match c with
  | '"' => ['\\', '"']
  | '\\' => ['\\', '\\']
  | '\n' => ['\\', 'n']
  | '\r' => ['\\', 'r']
  | '\t' => ['\\', 't']
  | '\x00' => ['\\', '0']
  | c => if isHidden c then ['\\', 'u', '\x7b'] ++ hexDigits c.toNat ++
      ['\x7d'] else [c]

/-- A text between double quotes, every character of it visible. -/
def quoted (text : String) : String :=
  String.ofList ('"' :: text.toList.flatMap quotedChar ++ ['"'])

end ScalarLang.Text
