import ScalarLang.Grammar.Cursor
import ScalarLang.Diagnostic

/-!
# Reading by rules

A parser reads something from the place of a cursor. It replies with what it read and
the cursor behind it, or with a diagnostic and the cursor where it gave up, which may
lie behind tokens already taken. Rules may be combined in ways that call each other
without ever taking a token; such a parser replies that there is no end to it.

## Main results

* `Parser.pure_bind`, `Parser.bind_pure`, `Parser.bind_assoc`: parsers in a row
  can be regrouped.
-/

namespace ScalarLang

/-- What a parser replies. -/
inductive Reply (α : Type) where
  /-- Something was read. -/
  | ok (value : α) (next : Cursor)
  /-- The tokens do not fit. -/
  | fail (error : Diagnostic) (stop : Cursor)
  /-- The rules call each other without end. -/
  | endless

/-- A way to read something from the place of a cursor. -/
def Parser (α : Type) : Type := Cursor → Reply α

namespace Parser

variable {α β : Type}

/-- Reads nothing. -/
protected def pure (a : α) : Parser α := fun c => .ok a c

/-- Reads on behind what a first parser read. -/
protected def bind (p : Parser α) (f : α → Parser β) : Parser β := fun c =>
  match p c with
  | .ok a next => f a next
  | .fail error stop => .fail error stop
  | .endless => .endless

instance : Monad Parser where
  pure := Parser.pure
  bind := Parser.bind

theorem pure_bind (a : α) (f : α → Parser β) : (pure a >>= f : Parser β) = f a := rfl

theorem bind_pure (p : Parser α) : (p >>= pure : Parser α) = p := by
  funext c
  show Parser.bind p Parser.pure c = p c
  unfold Parser.bind
  cases p c <;> rfl

theorem bind_assoc {γ : Type} (p : Parser α) (f : α → Parser β) (g : β → Parser γ) :
    (p >>= f >>= g : Parser γ) = p >>= fun a => f a >>= g := by
  funext c
  show Parser.bind (Parser.bind p f) g c =
    Parser.bind p (fun a => Parser.bind (f a) g) c
  unfold Parser.bind
  cases p c <;> rfl

/-! ## Single tokens -/

/-- The current token, which stays current. -/
def current : Parser Token := fun c => .ok c.current c

/-- The end of the token read last. -/
def previousEnd : Parser Position := fun c => .ok c.previousEnd c

/-- Reads the current token. -/
def advance : Parser Token := fun c => .ok c.current c.advance

/-- Gives up. -/
def fail (cause : Cause) (position : Position) : Parser α :=
  fun c => .fail ⟨cause, position⟩ c

/-- Never replies anything else. -/
def endless : Parser α := fun _ => .endless

/-- Gives up because of the current token. -/
def unexpected : Parser α := do
  let token ← current
  fail (.unexpectedToken token.value) token.span.start

/-- Gives up because of the current token and tells what was due. -/
def unexpectedFor (message : String) : Parser α := do
  let token ← current
  fail (.unexpectedTokenDetailed token.value message) token.span.start

/-- Reads a token of a kind. -/
def expect (kind : TokenKind) : Parser Token := do
  let token ← current
  if token.kind = kind then advance else unexpected

/-- Reads a token of a kind, or tells what was due. -/
def expectFor (kind : TokenKind) (message : String) : Parser Token := do
  let token ← current
  if token.kind = kind then advance else unexpectedFor message

theorem current_bind (f : Token → Parser α) (c : Cursor) :
    (current >>= f) c = f c.current c := rfl

theorem advance_bind (f : Token → Parser α) (c : Cursor) :
    (advance >>= f) c = f c.current c.advance := rfl

/-! ## Repetition -/

/-- At most this many items with commas between them. -/
def commaLoop (item : Parser α) : Nat → Parser (List α)
  | 0 => endless
  | n + 1 => do
    let first ← item
    let token ← current
    if token.kind = .comma then
      let _ ← advance
      let rest ← commaLoop item n
      return first :: rest
    else return [first]

/-- One item or more with commas between them. Every comma is a token that
was still ahead. -/
def commaSeparated (item : Parser α) : Parser (List α) := fun c =>
  commaLoop item (c.ahead.length + 1) c

/-- At most this many items up to a closing brace or the end. -/
def bodyLoop (item : Parser α) : Nat → Parser (List α)
  | 0 => endless
  | n + 1 => do
    let token ← current
    if token.kind = .eof ∨ token.kind = .closeCurly then return []
    else
      let first ← item
      let rest ← bodyLoop item n
      return first :: rest

/-- The items before a closing brace or the end. Every item takes a token that
was still there. -/
def untilClosed (item : Parser α) : Parser (List α) := fun c =>
  bodyLoop item (c.ahead.length + 1) c

end Parser

end ScalarLang
