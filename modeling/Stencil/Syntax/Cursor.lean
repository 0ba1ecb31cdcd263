import Stencil.Syntax.Token
import Stencil.Syntax.Error

/-!
# Reading a list of tokens

A cursor stands on one token of a template, with the token before it and the
tokens after it at hand. A reader takes a cursor to a result and the cursor
after it, or to a fault.
-/

set_option autoImplicit false

namespace Stencil.Syntax

/-- A place in a list of tokens: the token passed last, the token here, and the
tokens to come. At the first token the one passed last is that token itself. -/
structure Cursor where
  prev : Token
  here : Token
  rest : List Token

/-- What reads a construct from a cursor on. -/
abbrev Reader (α : Type) := Cursor → Except Fault (α × Cursor)

namespace Cursor

/-- The cursor on the first of a list of tokens. -/
def ofTokens : List Token → Cursor
  | [] => ⟨⟨.eof, 0, []⟩, ⟨.eof, 0, []⟩, []⟩
  | t :: ts => ⟨t, t, ts⟩

/-- The cursor one token on. It stays on the last token. -/
def advance (c : Cursor) : Cursor :=
  match c.rest with
  | [] => c
  | t :: ts => ⟨c.here, t, ts⟩

/-- The kind of the token here. -/
def kind (c : Cursor) : TokenKind := c.here.kind

/-- The kind of the token after this one. -/
def nextKind (c : Cursor) : TokenKind :=
  match c.rest with
  | [] => c.here.kind
  | t :: _ => t.kind

/-- The fault of finding the token here where something else is expected. -/
def unexpected (c : Cursor) (expected : Option String) : Fault :=
  let found := c.kind.describe
  if c.kind = .eof then ⟨.unexpectedEnd (expected.getD "more input"), c.here.span, []⟩
  else if c.kind.isQuoted then
    ⟨.unexpectedToken expected (found ++ " '" ++ String.ofList c.here.text ++ "'"), c.here.span, []⟩
  else ⟨.unexpectedToken expected found, c.here.span, []⟩

/-- Passes a token of the given kind. -/
def expect (kind : TokenKind) : Reader Token := fun c =>
  if c.kind = kind then .ok (c.here, c.advance)
  else .error (c.unexpected (some kind.describe))

/-- Reads items as long as the cursor stands before one, `fuel` of them at
most. -/
def readWhile {α : Type} (more : Cursor → Bool) (item : Reader α) : Nat → Reader (List α)
  | 0, c => .ok ([], c)
  | fuel + 1, c =>
    if more c then
      match item c with
      | .error f => .error f
      | .ok (a, c) =>
        match readWhile more item fuel c with
        | .error f => .error f
        | .ok (as, c) => .ok (a :: as, c)
    else .ok ([], c)

/-- Reads items as long as the cursor stands before one. An item takes at least
one token, and the last token begins none, so the tokens to come bound the
number of items. -/
def many {α : Type} (more : Cursor → Bool) (item : Reader α) : Reader (List α) := fun c =>
  readWhile more item c.rest.length c

end Cursor

end Stencil.Syntax
