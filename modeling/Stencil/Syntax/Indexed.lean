import Stencil.Syntax.Grammar

/-!
# The grammar by index

The grammar once more, as a program over a vector of tokens: it keeps the index of the token it
stands on, the number of constructs that are open, and how far it has looked. The limit on nesting
is a check of that number whenever a construct is opened.

A run goes wrong, and has no result, when it looks beyond the last token or passes that token, when
it makes a span that ends before it starts, and when it goes on without end. What a run comes to
otherwise is what the grammar says of the tokens.
-/

set_option autoImplicit false

namespace Stencil.Syntax.Indexed

open Stencil.Text
open Stencil.Tree

/-! ## Steps -/

/-- What a run keeps. -/
structure State where
  /-- The index of the token here. -/
  current : Nat := 0
  /-- How many constructs are open. -/
  depth : Nat := 0
  /-- How many tokens were looked at, or passed by one that was. -/
  seen : Nat := 0

/-- A part of a run: a result or a fault, and what is kept after it. Nothing, if it goes wrong. -/
def Step (α : Type) : Type := List Token → State → Option (Except Fault α × State)

namespace Step

/-- Runs one part after another, up to the first fault. -/
def bind {α β : Type} (first : Step α) (next : α → Step β) : Step β := fun ts s =>
  match first ts s with
  | none => none
  | some (.error f, s) => some (.error f, s)
  | some (.ok a, s) => next a ts s

instance : Monad Step where
  pure a := fun _ s => some (.ok a, s)
  bind := bind

variable {α : Type}

/-- Goes wrong. -/
def wrong : Step α := fun _ _ => none

/-- Ends with a fault. -/
def fail (f : Fault) : Step α := fun _ s => some (.error f, s)

/-- How many tokens there are. -/
def count : Step Nat := fun ts s => some (.ok ts.length, s)

/-- The token `ahead` of the one here. -/
def peek (ahead : Nat) : Step Token := fun ts s =>
  (ts[s.current + ahead]?).map fun t =>
    (.ok t, { s with seen := max s.seen (s.current + ahead + 1) })

/-- The token passed last, or the first one. -/
def prev : Step Token := fun ts s => (ts[s.current - 1]?).map fun t => (.ok t, s)

/-- Passes the token here, which is not the last one. -/
def advance : Step Token := fun ts s =>
  if s.current + 1 < ts.length then
    (ts[s.current]?).map fun t => (.ok t, { s with current := s.current + 1 })
  else none

/-- The span between two offsets. -/
def span (start stop : Nat) : Step Span := if start ≤ stop then pure ⟨start, stop⟩ else wrong

/-- Fails at the token here, where something else is expected. -/
def unexpected (expected : Option String) : Step α := do
  fail ((Cursor.ofTokens [← peek 0]).unexpected expected)

/-- Passes a token of the given kind. -/
def expect (kind : TokenKind) : Step Token := do
  if (← peek 0).kind = kind then advance else unexpected (some kind.describe)

/-- Opens a construct at a token, reads it, and closes it whether it could be read or not. -/
def nested (opened : Token) (inner : Step α) : Step α := fun ts s =>
  if maxNesting ≤ s.depth then some (.error (tooDeep opened), s)
  else
    (inner ts { s with depth := s.depth + 1 }).map fun r =>
      (r.1, { r.2 with depth := r.2.depth - 1 })

/-- Reads items as long as there is one. Goes wrong where `fuel` rounds are not enough. -/
def readWhile (more : Step Bool) (item : Step α) : Nat → Step (List α)
  | 0 => wrong
  | fuel + 1 => do
    if ← more then
      let a ← item
      let as ← readWhile more item fuel
      return a :: as
    else return []

/-- Reads items as long as there is one. -/
def many (more : Step Bool) (item : Step α) : Step (List α) := do readWhile more item (← count)

end Step

open Step

/-! ## Expressions -/

/-- The segments after the first one of a path, and the last token of the path. -/
def moreSegments (start : Nat) : Nat → Token → List Char → Step (List Segment × Token)
  | 0, _, _ => wrong
  | fuel + 1, last, spelled => do
    let next ← peek 0
    if next.start ≠ last.stop then return ([], last)
    else if next.kind = .separator then
      let _ ← advance
      let after ← peek 0
      if after.kind ≠ .name ∨ after.start ≠ next.stop then
        fail ⟨.invalidPath (String.ofList (spelled ++ next.text)), ← span start next.stop, []⟩
      else
        let _ ← advance
        let (segments, last) ← moreSegments start fuel after (spelled ++ next.text ++ after.text)
        return (Segment.ofToken next.text.head? after :: segments, last)
    else if next.kind = .name then
      fail ⟨.invalidPath (String.ofList (spelled ++ next.text)), ← span start next.stop, []⟩
    else return ([], last)

/-- Reads a path whose `@`, if it has one, was passed already. -/
def path (data : Bool) : Step (Path Span) := do
  let first ← expect .name
  let (segments, last) ← moreSegments first.start (← count) first first.text
  let mark ← span first.start last.stop
  match foldSegments ⟨0, [], if data then ['@'] else []⟩
    (Segment.ofToken none first :: segments) with
  | .error spelled => fail ⟨.invalidPath (String.ofList spelled), mark, []⟩
  | .ok p =>
    return { data, depth := p.depth, parts := p.parts, spelling := String.ofList p.spelling, mark }

/-- Reads a path, a data path or a literal. -/
def simpleExpr : Step (Expr Span) := do
  let here ← peek 0
  let text := String.ofList here.text
  match here.kind with
  | .name => return .path (← path false)
  | .at =>
    let _ ← advance
    return .path (← path true)
  | .string =>
    let _ ← advance
    let value := String.ofList (stringValue here.text)
    return .string value value here.span
  | .number =>
    let _ ← advance
    return .number (numberValue here.text) text here.span
  | .boolean =>
    let _ ← advance
    return .boolean (text == "true") text here.span
  | .undefined =>
    let _ ← advance
    return .undefined here.span
  | .null =>
    let _ ← advance
    return .null here.span
  | _ => unexpected (some "a helper name or path")

/-- Whether a named argument is here. -/
def atPair : Step Bool := do
  if (← peek 0).kind = .name then return (← peek 1).kind == .equals else return false

/-- Whether a parameter is here. -/
def atParam : Step Bool := do
  match (← peek 0).kind with
  | .name => return (← peek 1).kind != .equals
  | .at | .openCall => return true
  | kind => return kind.isLiteral

section Expressions

variable (param : Step (Expr Span))

/-- Reads a named argument. -/
def pair : Step (Pair Span) := do
  let key ← advance
  let _ ← advance
  let value ← param
  let mark ← span key.start (← prev).stop
  return ⟨String.ofList (segmentName key.text), value, mark⟩

/-- Reads named arguments, as many as there are. -/
def hash? : Step (Option (Hash Span)) := do
  let start := (← peek 0).start
  let pairs ← many atPair (pair param)
  if pairs.isEmpty then return none
  else
    let mark ← span start (← prev).stop
    return some ⟨pairs, mark⟩

/-- Reads a head with parameters and named arguments. -/
def callParts : Step CallParts := do
  let start := (← peek 0).start
  let head ← simpleExpr
  let params ← many atParam param
  let hash ← hash? param
  let mark ← span start (← prev).stop
  return ⟨head, params, hash, mark⟩

/-- Reads the call after an opening parenthesis. -/
def parenthesised (opened : Token) : Step (Expr Span) := do
  let parts ← callParts param
  let closed ← expect .closeCall
  let mark ← span opened.start closed.stop
  return .call ⟨parts.head.headPath, parts.params, parts.hash, some true, mark⟩

end Expressions

/-- Whether the name of a block parameter is here. -/
def atBlockParam : Step Bool := do
  return (← peek 0).kind == .name

/-- Reads the name of a block parameter. -/
def blockParam : Step String := do
  return String.ofList (segmentName (← advance).text)

/-- Reads a list of block parameters between bars, if one is here. -/
def blockParams : Step (List String) := do
  if (← peek 0).kind ≠ .openParams then return []
  else
    let _ ← advance
    let names ← many atBlockParam blockParam
    if names.isEmpty then unexpected (some "a block parameter name")
    else
      let _ ← expect .closeParams
      return names

/-! ## Parts of blocks -/

/-- Whether a statement is here, and not what ends a program. -/
def atStatement : Step Bool := do
  match (← peek 0).kind with
  | .eof | .openEnd | .loneElse | .openElse => return false
  | _ => return true

/-- Where a program ends whose statements were read from `start` on. -/
def programStop (start : Nat) (body : List (Statement Span)) : Step Nat := do
  if body.isEmpty then return start else return (← prev).stop

/-- Reads statements up to a closing tag, an `else` or the end. -/
def program (statement : Step (Statement Span)) (blockParams : List String) :
    Step (Program Span) := do
  let start := (← peek 0).start
  let body ← many atStatement statement
  let mark ← span start (← programStop start body)
  return ⟨body, blockParams, false, mark⟩

/-- Reads the rest of an opening tag. -/
def openTag (param : Step (Expr Span)) (opened : Token) : Step OpenTag := do
  let call ← callParts param
  let names ← blockParams
  let closed ← expect .close
  let mark ← span opened.start closed.stop
  return ⟨call, names, stripOf opened closed, mark⟩

/-- Reads the closing tag of a block of the given name that was opened in the given span. -/
def closingTag (name : String) (opening : Span) : Step (Path Span × Strip × Token) := do
  let opened ← peek 0
  if opened.kind = .eof then fail ⟨.unclosedBlock name, opening, []⟩
  else if opened.kind ≠ .openEnd then unexpected (some "a closing tag")
  else
    let _ ← advance
    let closing ← simpleExpr
    let closed ← expect .close
    let mark ← span opened.start closed.stop
    if closing.spelling = name then return (closing.headPath, stripOf opened closed, closed)
    else fail ⟨.mismatchedBlock name closing.spelling, mark, [(opening, "block opened here")]⟩

/-! ## Plain statements -/

section Statements

variable (param : Step (Expr Span))

/-- Reads a tag that shows a value. -/
def mustache : Step (Statement Span) := do
  let opened ← advance
  let unescaped := opened.kind == .openUnescaped
  let call ← callParts param
  let closed ← expect (if unescaped then .closeUnescaped else .close)
  let mark ← span opened.start closed.stop
  return .mustache { expr := call.expr
                     escaped := !unescaped && opened.text.getLast? != some '&'
                     strip := stripOf opened closed
                     mark }

/-- Reads the name and the arguments of a partial. -/
def partialParts : Step PartialParts := do
  let name ← param
  let start := (← peek 0).start
  let params ← many atParam param
  if 1 < params.length then
    fail ⟨.tooManyPartialArguments params.length, ← span start (← prev).stop, []⟩
  else
    let hash ← hash? param
    return ⟨name, params, hash⟩

/-- Reads a partial. -/
def partialCall : Step (Statement Span) := do
  let opened ← advance
  let parts ← partialParts param
  let closed ← expect .close
  let mark ← span opened.start closed.stop
  return .partialCall { name := parts.name, params := parts.params, hash := parts.hash
                        strip := stripOf opened closed, mark }

/-- Reads the text of a raw block, if it has any. -/
def rawBody : Step (List (Statement Span)) := do
  if (← peek 0).kind = .content then return [.content (contentOfToken (← advance))] else return []

/-- Reads a raw block, whose body is one text. -/
def rawBlock : Step (Statement Span) := do
  let opened ← advance
  let call ← callParts param
  let closed ← expect .closeRaw
  let opening ← span opened.start closed.stop
  let body ← rawBody
  let ending ← expect .endRaw
  let closeName := String.ofList (rawEndName ending.text)
  if closeName = call.head.spelling then
    let inner ← span closed.stop ending.start
    let mark ← span opened.start ending.stop
    return .block { expr := call.expr
                    program := some ⟨body, [], false, inner⟩
                    inverse := none
                    openStrip := {}, inverseStrip := {}, closeStrip := {}
                    close := some (Path.ofParts [closeName] ending.span)
                    mark }
  else
    fail ⟨.mismatchedBlock call.head.spelling closeName, ending.span,
      [(opening, "raw block opened here")]⟩

end Statements

/-! ## Levels -/

/-- The readers of a parameter, of a statement, and of the section after an `else`, if there is
one. -/
structure Level where
  param : Step (Expr Span)
  statement : Step (Statement Span)
  otherwise : Step (Option ElseSection)

section Levels

variable (below : Level)

/-- Reads a parameter: a path, a literal or a parenthesised call. -/
def paramOver : Step (Expr Span) := do
  if (← peek 0).kind = .openCall then
    let opened ← expect .openCall
    nested opened (parenthesised below.param opened)
  else simpleExpr

/-- Reads a block whose opening delimiter was passed. -/
def block (opened : Token) : Step (Statement Span) := do
  let opening ← openTag below.param opened
  let main ← program below.statement opening.blockParams
  let section? ← below.otherwise
  let (closePath, closeStrip, closed) ← closingTag opening.call.head.spelling opening.span
  let mark ← span opened.start closed.stop
  let alternative := section?.map fun s => Program.closeChain closeStrip s.program
  let inverseStrip := (section?.map ElseSection.strip).getD {}
  let inverted := opened.kind == .openInverted
  return .block { expr := opening.call.expr
                  program := if inverted then alternative else some main
                  inverse := if inverted then some main else alternative
                  openStrip := opening.strip
                  inverseStrip, closeStrip
                  close := some closePath
                  mark }

/-- Reads a partial block whose opening delimiter was passed. -/
def partialBlock (opened : Token) : Step (Statement Span) := do
  let parts ← partialParts below.param
  let closed ← expect .close
  let opening ← span opened.start closed.stop
  let body ← program below.statement []
  let here ← peek 0
  if here.kind = .loneElse ∨ here.kind = .openElse then fail ⟨.unexpectedElse, here.span, []⟩
  else
    let (_, closeStrip, ending) ← closingTag parts.name.spelling opening
    let mark ← span opened.start ending.stop
    return .partialBlock { name := parts.name, params := parts.params, hash := parts.hash
                           program := body
                           openStrip := stripOf opened closed
                           closeStrip
                           mark }

/-- Reads a statement. -/
def statementOver : Step (Statement Span) := do
  let here ← peek 0
  match here.kind with
  | .content =>
    let _ ← advance
    return .content (contentOfToken here)
  | .comment =>
    let _ ← advance
    return .comment { value := String.ofList (commentText here.text), strip := stripOf here here,
                      mark := here.span }
  | .openMustache | .openUnescaped => mustache (paramOver below)
  | .openBlock | .openInverted =>
    let opened ← advance
    nested opened (block below opened)
  | .openRaw => rawBlock (paramOver below)
  | .openPartial => partialCall (paramOver below)
  | .openPartialBlock =>
    let opened ← advance
    nested opened (partialBlock below opened)
  | _ => unexpected none

/-- Reads a chained section whose opening delimiter was passed. -/
def chain (opened : Token) : Step ElseSection := do
  let opening ← openTag below.param opened
  let main ← program below.statement opening.blockParams
  let section? ← below.otherwise
  let mark ← span opened.start (← prev).stop
  let block : Block Span :=
    { expr := opening.call.expr
      program := some main
      inverse := section?.map ElseSection.program
      openStrip := opening.strip
      inverseStrip := (section?.map ElseSection.strip).getD {}
      closeStrip := {}
      close := none
      mark }
  return ⟨opening.strip, ⟨[.block block], [], true, mark⟩⟩

/-- Reads the section after an `else`, if there is one. -/
def otherwiseOver : Step (Option ElseSection) := do
  let here ← peek 0
  match here.kind with
  | .loneElse =>
    let _ ← advance
    let body ← program (statementOver below) []
    return some ⟨stripOf here here, body⟩
  | .openElse =>
    let opened ← advance
    return some (← nested opened (chain below opened))
  | _ => return none

end Levels

/-- The readers over those of the constructs in theirs. -/
def Level.over (below : Level) : Level :=
  ⟨paramOver below, statementOver below, otherwiseOver below⟩

/-- The readers that go wrong where more constructs are nested than their number. -/
def Level.ofNat : Nat → Level
  | 0 => ⟨wrong, wrong, wrong⟩
  | n + 1 => Level.over (Level.ofNat n)

/-! ## Templates -/

/-- The tree of a template whose statements were read: after them comes the end, or a tag that no
block has. -/
def rootOf (root : Program Span) : Step (Program Span) := do
  let here ← peek 0
  match here.kind with
  | .eof => return { root with mark := ⟨0, here.stop⟩ }
  | .openEnd =>
    let _ ← advance
    let name ← simpleExpr
    fail ⟨.unexpectedClose name.spelling, here.span, []⟩
  | .loneElse | .openElse => fail ⟨.unexpectedElse, here.span, []⟩
  | _ => unexpected none

/-- Reads a template. -/
def template : Step (Program Span) := do
  let root ← program (Level.ofNat (maxNesting + 1)).statement []
  rootOf root

end Stencil.Syntax.Indexed
