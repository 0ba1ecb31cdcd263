import Stencil.Text.Position

/-!
# Syntax errors

Every way a template can fail to be read, each with its title and its message.
A `Fault` is what the reader raises: a cause and the bytes it concerns. An
`Error` is a fault whose spans have been located in the template.
-/

set_option autoImplicit false

namespace Stencil.Syntax

open Stencil.Text (Span Location LineIndex)

/-- Why a template cannot be read. -/
inductive Cause where
  /-- A character that starts no word inside a tag. -/
  | invalidCharacter (found : Char)
  /-- A tag that is never closed. -/
  | unterminatedMustache
  /-- A comment that is never closed. -/
  | unterminatedComment
  /-- A raw block without its closing tag. -/
  | unterminatedRawBlock (name : String)
  /-- A string literal without its closing quote. -/
  | unterminatedString
  /-- A strip marker away from the delimiters of its tag. -/
  | invalidStripMarker
  /-- A token in the wrong place, with what was expected there if that is one
  thing. -/
  | unexpectedToken (expected : Option String) (found : String)
  /-- The end of the template in the middle of a construct. -/
  | unexpectedEnd (expected : String)
  /-- A closing tag of another name than the block it closes. -/
  | mismatchedBlock (openName closeName : String)
  /-- A path with a scope word after a name, or with an empty segment. -/
  | invalidPath (path : String)
  /-- A closing tag without an open block. -/
  | unexpectedClose (name : String)
  /-- An `else` outside of a block. -/
  | unexpectedElse
  /-- A block still open at the end of the template. -/
  | unclosedBlock (name : String)
  /-- A partial with more than one context. -/
  | tooManyPartialArguments (count : Nat)
  /-- A decorator tag. -/
  | unsupportedDecorator
  /-- Blocks or calls nested past the limit. -/
  | nestingTooDeep (limit : Nat)
deriving DecidableEq

/-- The short name of a class of errors. -/
def Cause.title : Cause → String
  | .invalidCharacter _ => "invalid character"
  | .unterminatedMustache => "unterminated mustache"
  | .unterminatedComment => "unterminated comment"
  | .unterminatedRawBlock _ => "unterminated raw block"
  | .unterminatedString => "unterminated string"
  | .invalidStripMarker => "invalid strip marker"
  | .unexpectedToken _ _ => "unexpected token"
  | .unexpectedEnd _ => "unexpected end of template"
  | .mismatchedBlock _ _ => "mismatched block"
  | .invalidPath _ => "invalid path"
  | .unexpectedClose _ => "unexpected close"
  | .unexpectedElse => "unexpected inverse"
  | .unclosedBlock _ => "unclosed block"
  | .tooManyPartialArguments _ => "unsupported partial arguments"
  | .unsupportedDecorator => "unsupported decorator"
  | .nestingTooDeep _ => "nesting too deep"

/-- The message of an error. -/
def Cause.message : Cause → String
  | .invalidCharacter found => "invalid character '" ++ String.ofList [found] ++ "'"
  | .unterminatedMustache => "expected '\x7d\x7d' to close the mustache"
  | .unterminatedComment => "comment is never closed"
  | .unterminatedRawBlock name =>
    "raw block '" ++ name ++ "' is never closed with \x7b\x7b\x7b\x7b/" ++ name ++
      "\x7d\x7d\x7d\x7d"
  | .unterminatedString => "string literal is never closed"
  | .invalidStripMarker =>
    "'~' is only allowed right after '\x7b\x7b' or right before '\x7d\x7d'"
  | .unexpectedToken (some expected) found => "expected " ++ expected ++ ", found " ++ found
  | .unexpectedToken none found => "unexpected " ++ found
  | .unexpectedEnd expected => "unexpected end of template, expected " ++ expected
  | .mismatchedBlock openName closeName => openName ++ " doesn't match " ++ closeName
  | .invalidPath path => "Invalid path: " ++ path
  | .unexpectedClose name => "closing tag \x7b\x7b/" ++ name ++ "\x7d\x7d has no open block"
  | .unexpectedElse => "'else' is only allowed inside a block"
  | .unclosedBlock name => "block '" ++ name ++ "' is never closed"
  | .tooManyPartialArguments count =>
    "Unsupported number of partial arguments: " ++ toString count
  | .unsupportedDecorator => "decorators are not supported"
  | .nestingTooDeep limit => "nesting depth exceeds maximum of " ++ toString limit

/-- A cause, the bytes it concerns, and other bytes that explain it. -/
structure Fault where
  cause : Cause
  span : Span
  related : List (Span × String) := []
deriving DecidableEq

/-- A place that explains an error. -/
structure Related where
  span : Span
  location : Location
  message : String
deriving DecidableEq

/-- A fault with its places as lines and columns. -/
structure Error where
  cause : Cause
  span : Span
  location : Location
  related : List Related
deriving DecidableEq

/-- The error of a fault in an indexed template of the given name. -/
def Fault.locate (index : LineIndex) (source : Option String) (f : Fault) : Error where
  cause := f.cause
  span := f.span
  location := index.locate source f.span
  related := f.related.map fun r => ⟨r.1, index.locate source r.1, r.2⟩

/-- An error as one line of text. -/
def Error.text (e : Error) : String :=
  "Parse error on " ++ e.location.text ++ ": " ++ e.cause.message

end Stencil.Syntax
