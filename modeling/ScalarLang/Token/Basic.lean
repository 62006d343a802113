import ScalarLang.Source.Position
import ScalarLang.Ty

/-!
# Tokens

A token is a lexeme that matters to the grammar: its kind, its value and the range of
the source it was read from. The value is the lexeme itself, except that a string's is
what its quotes enclose with the escapes resolved. The end of a text is a token too, so
that there always is a current one.

Twelve words are reserved; each is a kind of its own. Four of them name types.
-/

namespace ScalarLang

/-- The kinds of tokens. -/
inductive TokenKind where
  | eof
  | integer
  | floatLiteral
  | string
  | identifier
  | openCurly
  | closeCurly
  | openParen
  | closeParen
  | assignment
  | equals
  | not
  | notEquals
  | less
  | greater
  | or
  | and
  | dot
  | semicolon
  | comma
  | plus
  | dash
  | slash
  | star
  | percent
  | intType
  | floatType
  | boolType
  | stringType
  | trueWord
  | falseWord
  | readWord
  | writeWord
  | ifWord
  | elseWord
  | whileWord
  | forWord
deriving DecidableEq, Inhabited

namespace TokenKind

/-- All kinds, in the order of their declaration. -/
def all : List TokenKind :=
  [eof, integer, floatLiteral, string, identifier, openCurly, closeCurly,
    openParen, closeParen,
    assignment, equals, not, notEquals, less, greater, or, and, dot, semicolon,
    comma, plus, dash,
    slash, star, percent, intType, floatType, boolType, stringType, trueWord,
    falseWord, readWord, writeWord, ifWord, elseWord, whileWord, forWord]

/-- The name of a kind. -/
def name : TokenKind → String
  | eof => "EOF"
  | integer => "Integer"
  | floatLiteral => "FloatLiteral"
  | string => "String"
  | identifier => "Identifier"
  | openCurly => "OpenCurly"
  | closeCurly => "CloseCurly"
  | openParen => "OpenParen"
  | closeParen => "CloseParen"
  | assignment => "Assignment"
  | equals => "Equals"
  | not => "Not"
  | notEquals => "NotEquals"
  | less => "Less"
  | greater => "Greater"
  | or => "Or"
  | and => "And"
  | dot => "Dot"
  | semicolon => "Semicolon"
  | comma => "Comma"
  | plus => "Plus"
  | dash => "Dash"
  | slash => "Slash"
  | star => "Star"
  | percent => "Percent"
  | intType => "Int"
  | floatType => "Float"
  | boolType => "Bool"
  | stringType => "StringType"
  | trueWord => "True"
  | falseWord => "False"
  | readWord => "Read"
  | writeWord => "Write"
  | ifWord => "If"
  | elseWord => "Else"
  | whileWord => "While"
  | forWord => "For"

/-- The kind with a name. -/
def ofName? (name : String) : Option TokenKind := all.find? (·.name == name)

/-- The kind of a reserved word. -/
def reserved? (word : String) : Option TokenKind :=
  match word with
  | "int" => some intType
  | "float" => some floatType
  | "bool" => some boolType
  | "string" => some stringType
  | "true" => some trueWord
  | "false" => some falseWord
  | "read" => some readWord
  | "write" => some writeWord
  | "if" => some ifWord
  | "else" => some elseWord
  | "while" => some whileWord
  | "for" => some forWord
  | _ => none

/-- The type that a reserved word names. -/
def ty? : TokenKind → Option Ty
  | intType => some .int
  | floatType => some .float
  | boolType => some .bool
  | stringType => some .string
  | _ => none

/-- Whether a token of this kind names a type. -/
def isTypeWord (k : TokenKind) : Bool := k.ty?.isSome

end TokenKind

/-- A lexeme with its kind and place. -/
structure Token where
  kind : TokenKind
  value : String
  span : Span
deriving DecidableEq, Inhabited

namespace Token

/-- The token for the end of a text. -/
def eof (p : Position) : Token := ⟨.eof, "EOF", .at p⟩

/-- A token as it is shown to a reader, on three lines. -/
def text (t : Token) : String :=
  "Token \x7b\nkind: " ++ t.kind.name ++ ",\nvalue: " ++ t.value ++ "\x7d"

end Token

end ScalarLang
