import Stencil.Text.Blank
import Stencil.Text.Scan
import Stencil.Syntax.Token
import Stencil.Syntax.Error

/-!
# Words inside a tag

The word at the start of a text: a bracket, sign or separator of one character,
a string, a bracketed segment, a number, a keyword or an identifier. The longest
word wins; of a number, a keyword and an identifier of one length the identifier
comes last.

Three words never fall back to a shorter one. A quote after a backslash never
closes a string, a bracket after a backslash never closes a segment, and `as`
with spaces after it needs the bar of a parameter list.

The kind of a word may hang on the character after it: a point that stands alone
is the current context, and a literal is one only where it ends.
-/

set_option autoImplicit false

namespace Stencil.Syntax

open Stencil.Text

/-- The single quote. -/
def singleQuote : Char := Char.ofNat 0x27

/-- The double quote. -/
def doubleQuote : Char := Char.ofNat 0x22

/-- The backslash. -/
def backslash : Char := Char.ofNat 0x5C

/-- The characters that end an identifier. All others belong to it. -/
def nameStops : List Char :=
  " \t\r\n".toList ++ [Char.ofNat 0x0C] ++ "!\"#%&'()*+,./;<=>@[\\]^`\x7b|\x7d~".toList

/-- Whether a character may stand in an identifier. -/
def isNameChar (c : Char) : Bool := !nameStops.contains c

/-- The blanks that may stand between `as` and the bar of a parameter list. -/
def isParamsGap (c : Char) : Bool := c == ' ' || c == '\t' || c == '\r' || c == '\n'

/-- The text up to and with the first `stop` that no backslash precedes, and the
text after it. -/
def throughUnescaped? (stop : Char) : List Char → Option (List Char × List Char)
  | [] => none
  | c :: cs =>
    if c = stop then some ([c], cs)
    else
      match cs with
      | d :: ds =>
        if c = backslash ∧ d = stop then
          (throughUnescaped? stop ds).map fun r => (c :: d :: r.1, r.2)
        else (throughUnescaped? stop (d :: ds)).map fun r => (c :: r.1, r.2)
      | [] => none

/-- The number at the start of a text: an optional sign, digits, and a point with
digits after it. Nothing when there is no digit. -/
def numberChars (cs : List Char) : List Char :=
  let (sign, body) :=
    match cs with
    | '-' :: r => (['-'], r)
    | r => ([], r)
  let whole := body.takeWhile Char.isDigit
  if whole.isEmpty then []
  else
    let fraction :=
      match body.dropWhile Char.isDigit with
      | '.' :: r =>
        let digits := r.takeWhile Char.isDigit
        if digits.isEmpty then [] else '.' :: digits
      | _ => []
    sign ++ whole ++ fraction

/-- What a word is before the character after it is looked at. -/
inductive WordClass where
  | fixed (kind : TokenKind)
  | dot
  | literal (kind : TokenKind)
deriving DecidableEq

/-- A word of a tag: what it is and the characters it takes. -/
structure Word where
  sort : WordClass
  text : List Char
deriving DecidableEq

/-- The identifier, keyword or number at the start of a text, or the opening of a
parameter list. -/
def plainWord? (cs : List Char) : Option Word :=
  let run := cs.takeWhile isNameChar
  let number := numberChars cs
  let gap := (cs.drop run.length).takeWhile isParamsGap
  if run.isEmpty then none
  else if run.length ≤ number.length then some ⟨.literal .number, number⟩
  else if run = ['a', 's'] ∧ !gap.isEmpty then
    match cs.drop (run.length + gap.length) with
    | '|' :: _ => some ⟨.fixed .openParams, run ++ gap ++ ['|']⟩
    | _ => none
  else if run = "true".toList ∨ run = "false".toList then some ⟨.literal .boolean, run⟩
  else if run = "undefined".toList then some ⟨.literal .undefined, run⟩
  else if run = "null".toList then some ⟨.literal .null, run⟩
  else some ⟨.fixed .name, run⟩

/-- The word at the start of a text that is neither empty nor starts with a
blank; nothing when no word starts there. -/
def word? : List Char → Option Word
  | [] => none
  | c :: cs =>
    if c = '(' then some ⟨.fixed .openCall, [c]⟩
    else if c = ')' then some ⟨.fixed .closeCall, [c]⟩
    else if c = '=' then some ⟨.fixed .equals, [c]⟩
    else if c = '@' then some ⟨.fixed .at, [c]⟩
    else if c = '|' then some ⟨.fixed .closeParams, [c]⟩
    else if c = '/' then some ⟨.fixed .separator, [c]⟩
    else if c = '.' then
      match cs with
      | '.' :: _ => some ⟨.fixed .name, [c, '.']⟩
      | _ => some ⟨.dot, [c]⟩
    else if c = singleQuote ∨ c = doubleQuote then
      (throughUnescaped? c cs).map fun r => ⟨.fixed .string, c :: r.1⟩
    else if c = '[' then
      (throughUnescaped? ']' cs).map fun r => ⟨.fixed .name, c :: r.1⟩
    else plainWord? (c :: cs)

/-- Whether the text goes on with a blank, with one of `stops`, or not at all. -/
def endsBefore (stops : List Char) : List Char → Bool
  | [] => true
  | c :: _ => isBlank c || stops.contains c

/-- The kind of a word, given the text after it. -/
def WordClass.kind (rest : List Char) : WordClass → TokenKind
  | .fixed kind => kind
  | .dot => if endsBefore "=~\x7d/.)|".toList rest then .name else .separator
  | .literal kind => if endsBefore "~\x7d)".toList rest then kind else .name

/-- Why no word starts with a character. -/
def wordCause (c : Char) : Cause :=
  if c = singleQuote ∨ c = doubleQuote then .unterminatedString else .invalidCharacter c

end Stencil.Syntax
