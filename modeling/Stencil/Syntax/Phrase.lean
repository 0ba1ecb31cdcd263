import Stencil.Decimal.Reader
import Stencil.Syntax.Cursor
import Stencil.Syntax.Word
import Stencil.Tree.Expr

/-!
# Phrases

The expressions of a tag: paths, literals, calls with parameters and named
arguments, and lists of block parameters.

A path is a run of segments joined by points or slashes without blanks. `..`
climbs, `.` and `this` stand for the context reached so far, and after a name no
such word may follow unless it is bracketed.

Readers of expressions take the reader of a single parameter as an argument; the
grammar supplies it together with the limit on nesting.
-/

set_option autoImplicit false

namespace Stencil.Syntax

open Stencil.Text
open Stencil.Tree

/-! ## Spellings -/

/-- The name a segment spells: itself, or the text between its brackets with
escaped closing brackets and backslashes read as such. -/
def segmentName (text : List Char) : List Char :=
  match text with
  | '[' :: rest =>
    if rest.getLast? = some ']' then
      let inner := rest.dropLast
      if hasPair backslash ']' inner || hasPair backslash backslash inner then
        contract backslash backslash backslash (contract backslash ']' ']' inner)
      else inner
    else text
  | _ => text

/-- The value of a string literal: the text between its quotes, where a backslash
before the quote character is dropped. -/
def stringValue (text : List Char) : List Char :=
  match text with
  | [] => []
  | quote :: rest => contract backslash quote quote rest.dropLast

/-! ## Paths -/

/-- A segment of a path: the separator before it, its name, and whether it was
bracketed. -/
structure Segment where
  separator : Option Char
  name : List Char
  bracketed : Bool

/-- The segment of a token. -/
def Segment.ofToken (separator : Option Char) (t : Token) : Segment :=
  let name := segmentName t.text
  ⟨separator, name, size name != size t.text⟩

/-- The words that stand for a context instead of a name. -/
def isScopeWord (name : List Char) : Bool :=
  name == ['.', '.'] || name == ['.'] || name == "this".toList

/-- The fault of a path that is spelled wrongly up to `stop`. -/
def invalidPath (spelled : List Char) (start stop : Nat) : Fault :=
  ⟨.invalidPath (String.ofList spelled), ⟨start, stop⟩, []⟩

/-- The segments after the first one of a path, and the last token of the path.
`spelled` is the path so far, which began at `start`. -/
def moreSegments (start : Nat) : Nat → Token → List Char → Reader (List Segment × Token)
  | 0, last, _, c => .ok (([], last), c)
  | fuel + 1, last, spelled, c =>
    if c.here.start ≠ last.stop then .ok (([], last), c)
    else if c.kind = .separator then
      let separator := c.here
      let spelled := spelled ++ separator.text
      let c := c.advance
      if c.kind ≠ .name ∨ c.here.start ≠ separator.stop then
        .error (invalidPath spelled start separator.stop)
      else
        let segment := Segment.ofToken separator.text.head? c.here
        match moreSegments start fuel c.here (spelled ++ c.here.text) c.advance with
        | .error f => .error f
        | .ok ((segments, last), c) => .ok ((segment :: segments, last), c)
    else if c.kind = .name then
      .error (invalidPath (spelled ++ c.here.text) start c.here.stop)
    else .ok (([], last), c)

/-- What the segments read so far make of a path. -/
structure PathSoFar where
  depth : Nat
  parts : List String
  spelling : List Char

/-- Folds segments into a path. A scope word after a name is refused, with the
spelling up to it. -/
def foldSegments : PathSoFar → List Segment → Except (List Char) PathSoFar
  | p, [] => .ok p
  | p, s :: rest =>
    let spelling := p.spelling ++ s.separator.toList ++ s.name
    if !s.bracketed && isScopeWord s.name then
      if p.parts.isEmpty then
        foldSegments
          ⟨if s.name == ['.', '.'] then p.depth + 1 else p.depth, p.parts, spelling⟩ rest
      else .error spelling
    else foldSegments ⟨p.depth, p.parts ++ [String.ofList s.name], spelling⟩ rest

/-- Reads a path whose `@`, if it has one, was passed already. -/
def path (data : Bool) : Reader (Path Span) := fun c =>
  match c.expect .name with
  | .error f => .error f
  | .ok (first, c) =>
    match moreSegments first.start c.rest.length first first.text c with
    | .error f => .error f
    | .ok ((segments, last), c) =>
      let start : PathSoFar := ⟨0, [], if data then ['@'] else []⟩
      match foldSegments start (Segment.ofToken none first :: segments) with
      | .error spelled => .error (invalidPath spelled first.start last.stop)
      | .ok p =>
        .ok ({ data, depth := p.depth, parts := p.parts, spelling := String.ofList p.spelling,
               mark := first.to last }, c)

/-! ## Expressions -/

/-- The number a numeral spells. -/
def numberValue (text : List Char) : Float :=
  match Decimal.Numeral.read? text with
  | some n => n.toFloat
  | none => 0

/-- Reads a path, a data path or a literal. -/
def simpleExpr : Reader (Expr Span) := fun c =>
  let text := String.ofList c.here.text
  let mark := c.here.span
  match c.kind with
  | .name =>
    match path false c with
    | .error f => .error f
    | .ok (p, c) => .ok (.path p, c)
  | .at =>
    match path true c.advance with
    | .error f => .error f
    | .ok (p, c) => .ok (.path p, c)
  | .string =>
    let value := String.ofList (stringValue c.here.text)
    .ok (.string value value mark, c.advance)
  | .number => .ok (.number (numberValue c.here.text) text mark, c.advance)
  | .boolean => .ok (.boolean (text == "true") text mark, c.advance)
  | .undefined => .ok (.undefined mark, c.advance)
  | .null => .ok (.null mark, c.advance)
  | _ => .error (c.unexpected (some "a helper name or path"))

/-- Whether the cursor stands before a named argument. -/
def atPair (c : Cursor) : Bool := c.kind == .name && c.nextKind == .equals

/-- Whether the cursor stands before a parameter. -/
def atParam (c : Cursor) : Bool :=
  match c.kind with
  | .name => c.nextKind != .equals
  | .at | .openCall => true
  | kind => kind.isLiteral

/-- Reads a named argument. -/
def pair (param : Reader (Expr Span)) : Reader (Pair Span) := fun c =>
  let key := c.here
  match param c.advance.advance with
  | .error f => .error f
  | .ok (value, c) => .ok (⟨String.ofList (segmentName key.text), value, key.to c.prev⟩, c)

/-- Reads named arguments, as many as there are. -/
def hash? (param : Reader (Expr Span)) : Reader (Option (Hash Span)) := fun c =>
  let start := c.here.start
  match c.many atPair (pair param) with
  | .error f => .error f
  | .ok (pairs, c) =>
    if pairs.isEmpty then .ok (none, c) else .ok (some ⟨pairs, ⟨start, c.prev.stop⟩⟩, c)

/-- The parts of a call and the bytes they take. -/
structure CallParts where
  head : Expr Span
  params : List (Expr Span)
  hash : Option (Hash Span)
  span : Span

/-- Reads a head with parameters and named arguments. -/
def callParts (param : Reader (Expr Span)) : Reader CallParts := fun c =>
  let start := c.here.start
  match simpleExpr c with
  | .error f => .error f
  | .ok (head, c) =>
    match c.many atParam param with
    | .error f => .error f
    | .ok (params, c) =>
      match hash? param c with
      | .error f => .error f
      | .ok (hash, c) => .ok (⟨head, params, hash, ⟨start, c.prev.stop⟩⟩, c)

/-- The expression of a tag: the bare head, or a call when it has arguments. -/
def CallParts.expr (p : CallParts) : Expr Span :=
  if p.params.isEmpty && p.hash.isNone then p.head
  else .call ⟨p.head.headPath, p.params, p.hash, none, p.span⟩

/-- Reads the call after an opening parenthesis. -/
def parenthesised (param : Reader (Expr Span)) (opened : Token) : Reader (Expr Span) := fun c =>
  match callParts param c with
  | .error f => .error f
  | .ok (parts, c) =>
    match c.expect .closeCall with
    | .error f => .error f
    | .ok (closed, c) =>
      .ok (.call ⟨parts.head.headPath, parts.params, parts.hash, some true, opened.to closed⟩, c)

/-- Reads the name of a block parameter. -/
def blockParam : Reader String := fun c =>
  .ok (String.ofList (segmentName c.here.text), c.advance)

/-- Reads a list of block parameters between bars, if one is here. -/
def blockParams : Reader (List String) := fun c =>
  if c.kind ≠ .openParams then .ok ([], c)
  else
    match c.advance.many (fun c => c.kind == .name) blockParam with
    | .error f => .error f
    | .ok (names, c) =>
      if names.isEmpty then .error (c.unexpected (some "a block parameter name"))
      else
        match c.expect .closeParams with
        | .error f => .error f
        | .ok (_, c) => .ok (names, c)

end Stencil.Syntax
