import Stencil.Syntax.Word

/-!
# The tokens of a template

`tokens?` splits a template into tokens. Outside of tags it looks for the next
opening brace pair and for the backslashes before it: one backslash makes the
tag plain text, two stand for one backslash before a live tag. Inside a tag it
reads words, skipping blanks, until a closing delimiter. A comment, and an
`else` or caret alone in its tag, is one token. A raw block is read up to the
closing tag at its own depth.

Every step takes characters off the front of the rest of the template, so the
length of the rest bounds the number of steps.
-/

set_option autoImplicit false

namespace Stencil.Syntax

open Stencil.Text

/-- The pair of braces that opens a tag. -/
def openBraces : List Char := ['\x7b', '\x7b']

/-- The pair of braces that closes a tag. -/
def closeBraces : List Char := ['\x7d', '\x7d']

/-- The four braces that open a raw block. -/
def rawBraces : List Char := openBraces ++ openBraces

/-- The four braces that close the tags of a raw block. -/
def closeRawBraces : List Char := closeBraces ++ closeBraces

/-- The rest of a template and the offset at which it starts. -/
structure Rest where
  at_ : Nat
  chars : List Char

/-- The rest after `taken` more characters, which must stand at its front. -/
def Rest.skip (r : Rest) (taken : List Char) : Rest :=
  ⟨r.at_ + size taken, r.chars.drop taken.length⟩

/-- The offset at which the template ends. -/
def Rest.stop (r : Rest) : Nat := r.at_ + size r.chars

/-- The token that `taken` makes at the front of the rest. -/
def Rest.token (r : Rest) (kind : TokenKind) (taken : List Char) : Token := ⟨kind, r.at_, taken⟩

/-- Tokens read and what is left. -/
abbrev Scanned := List Token × Rest

/-! ## Inside a tag -/

/-- The delimiter that closes a tag at the front of a text, if one does. Four
braces close only a tag that opened with four. -/
def closer? (raw : Bool) (cs : List Char) : Option (TokenKind × List Char) :=
  if raw && startsWith closeRawBraces cs then some (.closeRaw, closeRawBraces)
  else if startsWith ['\x7d', '~', '\x7d', '\x7d'] cs then
    some (.closeUnescaped, ['\x7d', '~', '\x7d', '\x7d'])
  else if startsWith ['\x7d', '\x7d', '\x7d'] cs then
    some (.closeUnescaped, ['\x7d', '\x7d', '\x7d'])
  else if startsWith ['~', '\x7d', '\x7d'] cs then some (.close, ['~', '\x7d', '\x7d'])
  else if startsWith closeBraces cs then some (.close, closeBraces)
  else none

/-- The words of a tag that opened at `opened`, up to and with its closing
delimiter. -/
def inside (opened : Nat) (raw : Bool) : Nat → Rest → Except Fault Scanned
  | 0, r => .error ⟨.unterminatedMustache, ⟨opened, r.at_⟩, []⟩
  | fuel + 1, r =>
    let r := r.skip (leadingBlanks r.chars)
    match closer? raw r.chars with
    | some (kind, taken) => .ok ([r.token kind taken], r.skip taken)
    | none =>
      match r.chars with
      | [] => .error ⟨.unterminatedMustache, ⟨opened, r.at_⟩, []⟩
      | c :: _ =>
        if c = '~' then .error ⟨.invalidStripMarker, ⟨r.at_, r.at_ + 1⟩, []⟩
        else if startsWith openBraces r.chars then
          .error ⟨.unterminatedMustache, ⟨opened, r.at_⟩, []⟩
        else
          match word? r.chars with
          | none => .error ⟨wordCause c, ⟨r.at_, r.at_ + c.utf8Size⟩, []⟩
          | some w =>
            let next := r.skip w.text
            match inside opened raw fuel next with
            | .error f => .error f
            | .ok (tokens, left) => .ok (r.token (w.sort.kind next.chars) w.text :: tokens, left)

/-- A tag whose opening delimiter is `taken`, and the words up to its close. -/
def tagFrom (r : Rest) (kind : TokenKind) (taken : List Char) : Except Fault Scanned :=
  let next := r.skip taken
  match inside r.at_ false (next.chars.length + 1) next with
  | .error f => .error f
  | .ok (tokens, left) => .ok (r.token kind taken :: tokens, left)

/-! ## Comments -/

/-- Whether the text of a long comment, read backwards, may end before the
closing braces. -/
def endsComment (seen : List Char) : Bool :=
  startsWith ['-', '-'] seen || startsWith ['~', '-', '-'] seen

/-- The text of a long comment before its closing braces; `seen` is what was
passed over already, backwards. -/
def longComment? (seen : List Char) : List Char → Option (List Char)
  | [] => none
  | c :: cs =>
    if startsWith closeBraces (c :: cs) && endsComment seen then some seen.reverse
    else longComment? (c :: seen) cs

/-- The comment whose text starts after `opener`: a long one ends at dashes and
braces, a short one at the first closing braces. -/
def commentFrom (r : Rest) (opener : List Char) (long : Bool) : Except Fault Scanned :=
  let body := r.chars.drop opener.length
  let text? :=
    if long then longComment? [] body
    else
      let (text, rest) := breakOn closeBraces body
      if rest.isEmpty then none else some text
  match text? with
  | none => .error ⟨.unterminatedComment, ⟨r.at_, r.stop⟩, []⟩
  | some text =>
    let taken := opener ++ text ++ closeBraces
    .ok ([r.token .comment taken], r.skip taken)

/-! ## Raw blocks -/

/-- Whether a character ends the name in the closing tag of a raw block. -/
def endsRawName (c : Char) : Bool := isBlank c || c == '\x7d' || c == '=' || c == '/' || c == '.'

/-- The closing tag of a raw block at the front of a text. -/
def rawEnd? (cs : List Char) : Option (List Char) :=
  if startsWith (rawBraces ++ ['/']) cs then
    let name := (cs.drop 5).takeWhile fun c => !endsRawName c
    if !name.isEmpty && startsWith closeRawBraces (cs.drop (5 + name.length)) then
      some (rawBraces ++ '/' :: name ++ closeRawBraces)
    else none
  else none

/-- The text of a raw block and its closing tag. `depth` counts the raw blocks
opened inside it. -/
def rawBody? : Nat → Nat → List Char → Option (List Char × List Char)
  | 0, _, _ => none
  | fuel + 1, depth, cs =>
    let (before, rest) := breakOn rawBraces cs
    if rest.isEmpty then none
    else
      let deeper (depth : Nat) :=
        (rawBody? fuel depth (rest.drop 4)).map fun r => (before ++ rawBraces ++ r.1, r.2)
      match rawEnd? rest with
      | some closing => if depth = 0 then some (before, closing) else deeper (depth - 1)
      | none => if startsWith ['/'] (rest.drop 4) then deeper depth else deeper (depth + 1)

/-- The name of a raw block as its opening tag spells it. -/
def rawName (r : Rest) : String :=
  String.ofList ((trimStart (r.chars.drop 4)).takeWhile fun c => !(isBlank c || c == '\x7d'))

/-- A raw block: its opening tag, its text and its closing tag. -/
def rawFrom (r : Rest) : Except Fault Scanned :=
  let next := r.skip rawBraces
  match inside r.at_ true (next.chars.length + 1) next with
  | .error f => .error f
  | .ok (tokens, body) =>
    match rawBody? (body.chars.length + 1) 0 body.chars with
    | none => .error ⟨.unterminatedRawBlock (rawName r), ⟨r.at_, r.stop⟩, []⟩
    | some (text, closing) =>
      let after := body.skip text
      let content := if text.isEmpty then [] else [body.token .content text]
      .ok (r.token .openRaw rawBraces :: tokens ++ content ++ [after.token .endRaw closing],
        after.skip closing)

/-! ## Tags -/

/-- The closing braces of an otherwise empty tag, with the blanks and the strip
marker before them. -/
def emptyTagEnd? (cs : List Char) : Option (List Char) :=
  let blanks := leadingBlanks cs
  let rest := cs.drop blanks.length
  if startsWith ('~' :: closeBraces) rest then some (blanks ++ '~' :: closeBraces)
  else if startsWith closeBraces rest then some (blanks ++ closeBraces)
  else none

/-- The word `else` at the front of a text, with the blanks before it. -/
def elseWord? (cs : List Char) : Option (List Char) :=
  let blanks := leadingBlanks cs
  if startsWith "else".toList (cs.drop blanks.length) then some (blanks ++ "else".toList)
  else none

/-- The tag that starts at the front of the rest. -/
def tag (r : Rest) : Except Fault Scanned :=
  if startsWith rawBraces r.chars then rawFrom r
  else
    let opener :=
      if startsWith ['~'] (r.chars.drop 2) then openBraces ++ ['~'] else openBraces
    let after := r.chars.drop opener.length
    if startsWith ['#', '>'] after then tagFrom r .openPartialBlock (opener ++ ['#', '>'])
    else if startsWith ['#', '*'] after || startsWith ['*'] after then
      .error ⟨.unsupportedDecorator, ⟨r.at_, r.at_ + opener.length + 1⟩, []⟩
    else if startsWith ['>'] after then tagFrom r .openPartial (opener ++ ['>'])
    else if startsWith ['#'] after then tagFrom r .openBlock (opener ++ ['#'])
    else if startsWith ['/'] after then tagFrom r .openEnd (opener ++ ['/'])
    else if startsWith ['^'] after then
      match emptyTagEnd? (after.drop 1) with
      | some closing =>
        let taken := opener ++ '^' :: closing
        .ok ([r.token .loneElse taken], r.skip taken)
      | none => tagFrom r .openInverted (opener ++ ['^'])
    else if startsWith ['!', '-', '-'] after then commentFrom r (opener ++ ['!', '-', '-']) true
    else if startsWith ['!'] after then commentFrom r (opener ++ ['!']) false
    else if startsWith ['\x7b'] after then tagFrom r .openUnescaped (opener ++ ['\x7b'])
    else if startsWith ['&'] after then tagFrom r .openMustache (opener ++ ['&'])
    else
      match elseWord? after with
      | none => tagFrom r .openMustache opener
      | some word =>
        let rest := after.drop word.length
        match emptyTagEnd? rest with
        | some closing =>
          let taken := opener ++ word ++ closing
          .ok ([r.token .loneElse taken], r.skip taken)
        | none =>
          match rest with
          | c :: _ =>
            if isBlank c then tagFrom r .openElse (opener ++ word)
            else tagFrom r .openMustache opener
          | [] => tagFrom r .openMustache opener

/-! ## The template -/

/-- A content token of a text, or none when the text is empty. -/
def contentOf (r : Rest) (text : List Char) : List Token :=
  if text.isEmpty then [] else [r.token .content text]

/-- The plain text that an escaped tag stands for: from its braces up to the next
opening braces, less the one or two backslashes that escape those. -/
def verbatim (cs : List Char) : List Char :=
  let (text, rest) := breakOn openBraces (cs.drop 2)
  let kept :=
    if rest.isEmpty then text
    else if endsWith [backslash, backslash] text then text.dropLast.dropLast
    else if endsWith [backslash] text then text.dropLast
    else text
  openBraces ++ kept

/-- The text up to the next tag, and that tag. -/
def piece (r : Rest) : Except Fault Scanned :=
  let (before, rest) := breakOn openBraces r.chars
  if rest.isEmpty then .ok (contentOf r before, r.skip before)
  else
    let opened := r.skip before
    if endsWith [backslash, backslash] before then
      match tag opened with
      | .error f => .error f
      | .ok (tokens, left) => .ok (contentOf r before.dropLast ++ tokens, left)
    else if endsWith [backslash] before then
      let text := verbatim rest
      .ok (contentOf r before.dropLast ++ [opened.token .content text], opened.skip text)
    else
      match tag opened with
      | .error f => .error f
      | .ok (tokens, left) => .ok (contentOf r before ++ tokens, left)

/-- The pieces of the rest of a template, and the token that ends it. -/
def pieces : Nat → Rest → Except Fault (List Token)
  | 0, r => .ok [r.token .eof []]
  | fuel + 1, r =>
    if r.chars.isEmpty then .ok [r.token .eof []]
    else
      match piece r with
      | .error f => .error f
      | .ok (tokens, left) =>
        match pieces fuel left with
        | .error f => .error f
        | .ok more => .ok (tokens ++ more)

/-- The tokens of a template. The last one is the end. -/
def tokens? (cs : List Char) : Except Fault (List Token) := pieces cs.length ⟨0, cs⟩

end Stencil.Syntax
