import ScalarLang.Token.Basic

/-!
# Moving through tokens

A cursor is a place in a list of tokens. There always is a current token: the list ends
in a token for the end of the text, which is added where it is missing, and a cursor
that stands on the last token stays there. The cursor also remembers where the token
before ended, as the end of a statement is the end of the last token it took.
-/

namespace ScalarLang

/-- A place in a list of tokens. -/
structure Cursor where
  /-- Where the token before the current one ends; at the start, where the
  current one does. -/
  previousEnd : Position
  current : Token
  /-- The tokens behind the current one. -/
  ahead : List Token
deriving DecidableEq

namespace Cursor

/-- Tokens with one for the end behind them, where there is none yet. -/
def closed (file : String) (tokens : List Token) : List Token :=
  match tokens.getLast? with
  | none => [.eof (.first file)]
  | some last => if last.kind = .eof then tokens else tokens ++ [.eof last.span.stop]

/-- The cursor on the first of some tokens. The file names the place of the
end of no tokens. -/
def ofTokens (file : String) (tokens : List Token) : Cursor :=
  match closed file tokens with
  | [] => ⟨.first file, .eof (.first file), []⟩
  | t :: ts => ⟨t.span.stop, t, ts⟩

/-- The cursor one token further on, if there is a further token. -/
def advance (c : Cursor) : Cursor :=
  match c.ahead with
  | [] => c
  | t :: ts => ⟨c.current.span.stop, t, ts⟩

/-- Whether the current token is another one than the end. -/
def hasTokens (c : Cursor) : Bool := c.current.kind != .eof

/-- Where the current token starts. -/
def position (c : Cursor) : Position := c.current.span.start

/-- The cursor behind the next semicolon or closing brace, from a current token
and those ahead. -/
def resumeFrom (previousEnd : Position) (current : Token) : List Token → Cursor
  | [] => ⟨previousEnd, current, []⟩
  | t :: ts =>
    if current.kind = .eof then ⟨previousEnd, current, t :: ts⟩
    else if current.kind = .semicolon ∨ current.kind = .closeCurly then
      ⟨current.span.stop, t, ts⟩
    else resumeFrom current.span.stop t ts

/-- The cursor behind the next semicolon or closing brace, where statements
can start again. -/
def resume (c : Cursor) : Cursor := resumeFrom c.previousEnd c.current c.ahead

end Cursor

end ScalarLang
