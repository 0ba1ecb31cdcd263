import Stencil.Text.Position

/-!
# Tokens

The pieces a template falls into: plain text, comments, the delimiters that
open and close tags, and the words between them. A token carries its text and
the offset at which it starts, so the template can be put together again from
the tokens and the gaps between them.
-/

set_option autoImplicit false

namespace Stencil.Syntax

open Stencil.Text (Span)

/-- What a token is. -/
inductive TokenKind where
  /-- Text outside of tags. -/
  | content
  /-- A comment with its delimiters. -/
  | comment
  /-- The start of a tag whose value is escaped or marked with an ampersand. -/
  | openMustache
  /-- The start of a tag of three braces, whose value is not escaped. -/
  | openUnescaped
  /-- The start of a block. -/
  | openBlock
  /-- The start of a closing tag. -/
  | openEnd
  /-- The start of an inverted block. -/
  | openInverted
  /-- An `else` that goes on with a call. -/
  | openElse
  /-- An `else` or a caret that fills its tag. -/
  | loneElse
  /-- The start of a partial. -/
  | openPartial
  /-- The start of a partial with a body. -/
  | openPartialBlock
  /-- The start of a raw block. -/
  | openRaw
  /-- The end of the tag that starts a raw block. -/
  | closeRaw
  /-- The closing tag of a raw block. -/
  | endRaw
  /-- The end of a tag. -/
  | close
  /-- The end of a tag of three braces. -/
  | closeUnescaped
  | openCall
  | closeCall
  | equals
  | at
  /-- A point or a slash between the segments of a path. -/
  | separator
  /-- An identifier, a scope word or a bracketed segment. -/
  | name
  | string
  | number
  | boolean
  | undefined
  | null
  /-- The word `as` and the bar that opens a list of block parameters. -/
  | openParams
  | closeParams
  /-- The end of the template. -/
  | eof
deriving DecidableEq

/-- The words for a kind of token in messages. -/
def TokenKind.describe : TokenKind → String
  | .content => "content"
  | .comment => "comment"
  | .openMustache => "'\x7b\x7b'"
  | .openUnescaped => "'\x7b\x7b\x7b'"
  | .openBlock => "'\x7b\x7b#'"
  | .openEnd => "'\x7b\x7b/'"
  | .openInverted => "'\x7b\x7b^'"
  | .openElse => "'\x7b\x7belse'"
  | .loneElse => "'\x7b\x7belse\x7d\x7d'"
  | .openPartial => "'\x7b\x7b>'"
  | .openPartialBlock => "'\x7b\x7b#>'"
  | .openRaw => "'\x7b\x7b\x7b\x7b'"
  | .closeRaw => "'\x7d\x7d\x7d\x7d'"
  | .endRaw => "raw block end"
  | .close => "'\x7d\x7d'"
  | .closeUnescaped => "'\x7d\x7d\x7d'"
  | .openCall => "'('"
  | .closeCall => "')'"
  | .equals => "'='"
  | .at => "'@'"
  | .separator => "separator"
  | .name => "identifier"
  | .string => "string"
  | .number => "number"
  | .boolean => "boolean"
  | .undefined => "'undefined'"
  | .null => "'null'"
  | .openParams => "'as |'"
  | .closeParams => "'|'"
  | .eof => "end of template"

/-- Whether a token of this kind is a literal by itself. -/
def TokenKind.isLiteral : TokenKind → Bool
  | .string | .number | .boolean | .undefined | .null => true
  | _ => false

/-- Whether a message that finds such a token in the wrong place quotes it. -/
def TokenKind.isQuoted : TokenKind → Bool
  | .name | .number | .string | .content => true
  | _ => false

/-- A piece of a template and the offset at which it starts. -/
structure Token where
  kind : TokenKind
  start : Nat
  text : List Char
deriving DecidableEq

/-- The offset at which a token ends. -/
def Token.stop (t : Token) : Nat := t.start + Text.size t.text

/-- The bytes of a token. -/
def Token.span (t : Token) : Span := ⟨t.start, t.stop⟩

/-- The bytes from the start of one token to the end of another. -/
def Token.to (first last : Token) : Span := ⟨first.start, last.stop⟩

/-- Whether a delimiter that opens a tag is marked to strip what stands before
it. -/
def Token.stripsBefore (t : Token) : Bool := t.text[2]? == some '~'

/-- Whether a delimiter that closes a tag is marked to strip what stands after
it. -/
def Token.stripsAfter (t : Token) : Bool := t.text.reverse[2]? == some '~'

end Stencil.Syntax
