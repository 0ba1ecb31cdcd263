import Stencil.Json.Decode
import Stencil.Text.Position
import Stencil.Tree.Program

/-!
# Trees as JSON

The interchange form of trees. Every statement and expression is an object tagged
with its type; locations are left out where a node has none. The flags that
record what was stripped from content are not part of the form.

`Program.ofJson?` reads a tree back. It refuses members of the wrong type and
missing members without a default. Inside a statement, a type may also be given by
its number.
-/

set_option autoImplicit false

namespace Stencil.Text

/-- A position as JSON. -/
def Position.toJson (p : Position) : Json := .obj [("line", .int p.line), ("column", .int p.column)]

/-- Reads a position. -/
def Position.ofJson? (j : Json) : Option Position :=
  match j.record? 2 with
  | none => none
  | some r => do
    let line ← r.required 0 "line" Json.word32?
    let column ← r.required 1 "column" Json.word32?
    pure ⟨line, column⟩

/-- A location as JSON. -/
def Location.toJson (l : Location) : Json :=
  Json.compactObj [("source", l.source.map Json.str), ("start", some l.start.toJson),
    ("end", some l.stop.toJson)]

/-- Reads a location. -/
def Location.ofJson? (j : Json) : Option Location :=
  match j.record? 3 with
  | none => none
  | some r => do
    let source ← r.optional 0 "source" Json.str?
    let start ← r.required 1 "start" Position.ofJson?
    let stop ← r.required 2 "end" Position.ofJson?
    pure ⟨source, start, stop⟩

end Stencil.Text

namespace Stencil.Tree

open Stencil.Text (Location)

/-- The mark of a node in the interchange form: its location, if it has one. -/
abbrev Mark : Type := Option Location

/-- The member that holds the location of a node. -/
def Mark.member (m : Mark) : String × Option Json := ("loc", m.map Location.toJson)

/-- Reads the location of a node, the member at the given place. -/
def Mark.read (r : Json.Record) (place : Nat) : Option Mark :=
  r.optional place "loc" Location.ofJson?

/-! ## Expressions -/

/-- The members of a path. -/
def Path.members (p : Path Mark) : List (String × Option Json) :=
  [("data", some (.bool p.data)), ("depth", some (.int p.depth)),
    ("parts", some (.arr (p.parts.map Json.str))), ("original", some (.str p.spelling)),
    Mark.member p.mark]

/-- A path as JSON, without a tag. -/
def Path.toJson (p : Path Mark) : Json := Json.compactObj p.members

/-- An object tagged with the type of a node. -/
def taggedObj (tag : String) (members : List (String × Option Json)) : Json :=
  Json.compactObj (("type", some (.str tag)) :: members)

/-- The members of a literal with a value. -/
def literalMembers (value : Json) (spelling : String) (mark : Mark) :
    List (String × Option Json) :=
  [("value", some value), ("original", some (.str spelling)), Mark.member mark]

mutual

/-- An expression as JSON. -/
def Expr.toJson : Expr Mark → Json
  | .call c => Call.toJson c
  | .path p => taggedObj "PathExpression" p.members
  | .string v o m => taggedObj "StringLiteral" (literalMembers (.str v) o m)
  | .number v o m => taggedObj "NumberLiteral" (literalMembers (.float v) o m)
  | .boolean v o m => taggedObj "BooleanLiteral" (literalMembers (.bool v) o m)
  | .undefined m => taggedObj "UndefinedLiteral" [Mark.member m]
  | .null m => taggedObj "NullLiteral" [Mark.member m]

/-- A call as JSON. -/
def Call.toJson : Call Mark → Json
  | ⟨path, params, hash, parenthesised, mark⟩ =>
    taggedObj "SubExpression"
      [("path", some path.toJson), ("params", some (.arr (Expr.toJsons params))),
        ("hash", Hash.toJsonOpt hash), ("isHelper", parenthesised.map Json.bool),
        Mark.member mark]

/-- Expressions as JSON, one by one. -/
def Expr.toJsons : List (Expr Mark) → List Json
  | [] => []
  | e :: es => e.toJson :: Expr.toJsons es

/-- Named arguments as JSON, if there are any. -/
def Hash.toJsonOpt : Option (Hash Mark) → Option Json
  | none => none
  | some h => some (Hash.toJson h)

/-- Named arguments as JSON. -/
def Hash.toJson : Hash Mark → Json
  | ⟨pairs, mark⟩ => Json.compactObj [("pairs", some (.arr (Pair.toJsons pairs))), Mark.member mark]

/-- Arguments as JSON, one by one. -/
def Pair.toJsons : List (Pair Mark) → List Json
  | [] => []
  | p :: ps => Pair.toJson p :: Pair.toJsons ps

/-- An argument as JSON. -/
def Pair.toJson : Pair Mark → Json
  | ⟨key, value, mark⟩ =>
    Json.compactObj [("key", some (.str key)), ("value", some value.toJson), Mark.member mark]

end

/-- Reads a path. -/
def Path.ofJson? (j : Json) : Option (Path Mark) := do
  let r ← j.record? 5
  let data ← r.withDefault 0 "data" false Json.bool?
  let depth ← r.withDefault 1 "depth" 0 Json.word32?
  let parts ← r.required 2 "parts" (Json.list? Json.str?)
  let spelling ← r.required 3 "original" Json.str?
  let mark ← Mark.read r 4
  pure { data, depth, parts, spelling, mark }

/-- Reads a literal with a value. -/
def literalOf? {α : Type} (j : Json) (value : Json → Option α)
    (make : α → String → Mark → Expr Mark) : Option (Expr Mark) := do
  let r ← j.record? 3
  let v ← r.required 0 "value" value
  let spelling ← r.required 1 "original" Json.str?
  let mark ← Mark.read r 2
  pure (make v spelling mark)

/-- Reads a literal that is nothing but its type. -/
def bareLiteral? (j : Json) (make : Mark → Expr Mark) : Option (Expr Mark) := do
  let r ← j.record? 1
  let mark ← Mark.read r 0
  pure (make mark)

/-- Reads a named argument, given the reader of its value. -/
def Pair.ofJson? (value : Json → Option (Expr Mark)) (j : Json) : Option (Pair Mark) := do
  let r ← j.record? 3
  let key ← r.required 0 "key" Json.str?
  let v ← r.required 1 "value" value
  let mark ← Mark.read r 2
  pure ⟨key, v, mark⟩

/-- Reads named arguments, given the reader of their values. -/
def Hash.ofJson? (value : Json → Option (Expr Mark)) (j : Json) : Option (Hash Mark) := do
  let r ← j.record? 2
  let pairs ← r.required 0 "pairs" (Json.list? (Pair.ofJson? value))
  let mark ← Mark.read r 1
  pure ⟨pairs, mark⟩

/-- Reads a call, given the reader of its arguments. -/
def Call.ofJson? (value : Json → Option (Expr Mark)) (j : Json) : Option (Call Mark) := do
  let r ← j.record? 5
  let path ← r.required 0 "path" Path.ofJson?
  let params ← r.withDefault 1 "params" [] (Json.list? value)
  let hash ← r.optional 2 "hash" (Hash.ofJson? value)
  let parenthesised ← r.optional 3 "isHelper" Json.bool?
  let mark ← Mark.read r 4
  pure ⟨path, params, hash, parenthesised, mark⟩

/-- The types of expressions in the order of their numbers. -/
def exprTypes : List String :=
  ["SubExpression", "PathExpression", "StringLiteral", "NumberLiteral", "BooleanLiteral",
    "UndefinedLiteral", "NullLiteral"]

/-- Reads an expression that nests at most as deep as the first argument. -/
def Expr.ofJsonWithin? : Nat → Json → Option (Expr Mark)
  | 0, _ => none
  | fuel + 1, j =>
    match j.tagged? exprTypes true with
    | none => none
    | some (tag, body) =>
      match tag with
      | "SubExpression" => (Call.ofJson? (Expr.ofJsonWithin? fuel) body).map .call
      | "PathExpression" => (Path.ofJson? body).map .path
      | "StringLiteral" => literalOf? body Json.str? .string
      | "NumberLiteral" => literalOf? body Json.float? .number
      | "BooleanLiteral" => literalOf? body Json.bool? .boolean
      | "UndefinedLiteral" => bareLiteral? body .undefined
      | "NullLiteral" => bareLiteral? body .null
      | _ => none

/-- Reads an expression. -/
def Expr.ofJson? (j : Json) : Option (Expr Mark) := Expr.ofJsonWithin? (j.depth + 1) j

/-! ## Statements -/

/-- Strip markers as JSON. -/
def Strip.toJson (s : Strip) : Json := .obj [("open", .bool s.before), ("close", .bool s.after)]

/-- Reads strip markers. -/
def Strip.ofJson? (j : Json) : Option Strip := do
  let r ← j.record? 2
  let before ← r.withDefault 0 "open" false Json.bool?
  let after ← r.withDefault 1 "close" false Json.bool?
  pure ⟨before, after⟩

/-- A mustache as JSON. -/
def Mustache.toJson (m : Mustache Mark) : Json :=
  taggedObj "MustacheStatement"
    [("expr", some m.expr.toJson), ("escaped", some (.bool m.escaped)),
      ("strip", some m.strip.toJson), Mark.member m.mark]

/-- A partial as JSON. -/
def PartialCall.toJson (p : PartialCall Mark) : Json :=
  taggedObj "PartialStatement"
    [("name", some p.name.toJson), ("params", some (.arr (Expr.toJsons p.params))),
      ("hash", Hash.toJsonOpt p.hash), ("indent", some (.str p.indent)),
      ("strip", some p.strip.toJson), Mark.member p.mark]

/-- Content as JSON. -/
def Content.toJson (c : Content Mark) : Json :=
  taggedObj "ContentStatement"
    [("value", some (.str c.value)), ("original", some (.str c.written)), Mark.member c.mark]

/-- A comment as JSON. -/
def Comment.toJson (c : Comment Mark) : Json :=
  taggedObj "CommentStatement"
    [("value", some (.str c.value)), ("strip", some c.strip.toJson), Mark.member c.mark]

mutual

/-- A program as JSON. -/
def Program.toJson : Program Mark → Json
  | ⟨body, blockParams, chained, mark⟩ =>
    Json.compactObj
      [("body", some (.arr (Statement.toJsons body))),
        ("blockParams",
          if blockParams.isEmpty then none else some (.arr (blockParams.map Json.str))),
        ("chained", if chained then some (.bool true) else none), Mark.member mark]

/-- A statement as JSON. -/
def Statement.toJson : Statement Mark → Json
  | .mustache m => m.toJson
  | .block b => Block.toJson b
  | .partialCall p => p.toJson
  | .partialBlock p => PartialBlock.toJson p
  | .content c => c.toJson
  | .comment c => c.toJson

/-- Statements as JSON, one by one. -/
def Statement.toJsons : List (Statement Mark) → List Json
  | [] => []
  | s :: rest => s.toJson :: Statement.toJsons rest

/-- A block as JSON. -/
def Block.toJson : Block Mark → Json
  | ⟨expr, program, inverse, openStrip, inverseStrip, closeStrip, close, mark⟩ =>
    taggedObj "BlockStatement"
      [("expr", some expr.toJson), ("program", some (Program.toJsonOpt program)),
        ("inverse", some (Program.toJsonOpt inverse)), ("openStrip", some openStrip.toJson),
        ("inverseStrip", some inverseStrip.toJson), ("closeStrip", some closeStrip.toJson),
        ("close", close.map Path.toJson), Mark.member mark]

/-- A section as JSON, null if there is none. -/
def Program.toJsonOpt : Option (Program Mark) → Json
  | none => .null
  | some p => p.toJson

/-- A partial block as JSON. -/
def PartialBlock.toJson : PartialBlock Mark → Json
  | ⟨name, params, hash, program, openStrip, closeStrip, mark⟩ =>
    taggedObj "PartialBlockStatement"
      [("name", some name.toJson), ("params", some (.arr (Expr.toJsons params))),
        ("hash", Hash.toJsonOpt hash), ("program", some program.toJson),
        ("openStrip", some openStrip.toJson), ("closeStrip", some closeStrip.toJson),
        Mark.member mark]

end

/-- Reads a program, given the reader of its statements. -/
def Program.ofJsonOver? (statement : Json → Option (Statement Mark)) (j : Json) :
    Option (Program Mark) := do
  let r ← j.record? 4
  let body ← r.required 0 "body" (Json.list? statement)
  let blockParams ← r.withDefault 1 "blockParams" [] (Json.list? Json.str?)
  let chained ← r.withDefault 2 "chained" false Json.bool?
  let mark ← Mark.read r 3
  pure ⟨body, blockParams, chained, mark⟩

/-- Reads a mustache. -/
def Mustache.ofJson? (j : Json) : Option (Mustache Mark) := do
  let r ← j.record? 4
  let expr ← r.required 0 "expr" Expr.ofJson?
  let escaped ← r.required 1 "escaped" Json.bool?
  let strip ← r.withDefault 2 "strip" {} Strip.ofJson?
  let mark ← Mark.read r 3
  pure { expr, escaped, strip, mark }

/-- Reads a block, given the reader of its sections. -/
def Block.ofJson? (section? : Json → Option (Program Mark)) (j : Json) : Option (Block Mark) := do
  let r ← j.record? 8
  let expr ← r.required 0 "expr" Expr.ofJson?
  let program ← r.optional 1 "program" section?
  let inverse ← r.optional 2 "inverse" section?
  let openStrip ← r.withDefault 3 "openStrip" {} Strip.ofJson?
  let inverseStrip ← r.withDefault 4 "inverseStrip" {} Strip.ofJson?
  let closeStrip ← r.withDefault 5 "closeStrip" {} Strip.ofJson?
  let close ← r.optional 6 "close" Path.ofJson?
  let mark ← Mark.read r 7
  pure ⟨expr, program, inverse, openStrip, inverseStrip, closeStrip, close, mark⟩

/-- Reads a partial. -/
def PartialCall.ofJson? (j : Json) : Option (PartialCall Mark) := do
  let r ← j.record? 6
  let name ← r.required 0 "name" Expr.ofJson?
  let params ← r.withDefault 1 "params" [] (Json.list? Expr.ofJson?)
  let hash ← r.optional 2 "hash" (Hash.ofJson? Expr.ofJson?)
  let indent ← r.withDefault 3 "indent" "" Json.str?
  let strip ← r.withDefault 4 "strip" {} Strip.ofJson?
  let mark ← Mark.read r 5
  pure { name, params, hash, indent, strip, mark }

/-- Reads a partial block, given the reader of its body. -/
def PartialBlock.ofJson? (section? : Json → Option (Program Mark)) (j : Json) :
    Option (PartialBlock Mark) := do
  let r ← j.record? 7
  let name ← r.required 0 "name" Expr.ofJson?
  let params ← r.withDefault 1 "params" [] (Json.list? Expr.ofJson?)
  let hash ← r.optional 2 "hash" (Hash.ofJson? Expr.ofJson?)
  let program ← r.required 3 "program" section?
  let openStrip ← r.withDefault 4 "openStrip" {} Strip.ofJson?
  let closeStrip ← r.withDefault 5 "closeStrip" {} Strip.ofJson?
  let mark ← Mark.read r 6
  pure ⟨name, params, hash, program, openStrip, closeStrip, mark⟩

/-- Reads content. Nothing has been stripped from it yet. -/
def Content.ofJson? (j : Json) : Option (Content Mark) := do
  let r ← j.record? 3
  let value ← r.required 0 "value" Json.str?
  let written ← r.required 1 "original" Json.str?
  let mark ← Mark.read r 2
  pure { value, written, mark }

/-- Reads a comment. -/
def Comment.ofJson? (j : Json) : Option (Comment Mark) := do
  let r ← j.record? 3
  let value ← r.required 0 "value" Json.str?
  let strip ← r.withDefault 1 "strip" {} Strip.ofJson?
  let mark ← Mark.read r 2
  pure { value, strip, mark }

/-- The types of statements in the order of their numbers. -/
def statementTypes : List String :=
  ["MustacheStatement", "BlockStatement", "PartialStatement", "PartialBlockStatement",
    "ContentStatement", "CommentStatement"]

/-- Reads a statement that nests at most as deep as the first argument. Its type may be
`numbered` if it is inside another one. -/
def Statement.ofJsonWithin? (numbered : Bool) : Nat → Json → Option (Statement Mark)
  | 0, _ => none
  | fuel + 1, j =>
    let section? := Program.ofJsonOver? (Statement.ofJsonWithin? true fuel)
    match j.tagged? statementTypes numbered with
    | none => none
    | some (tag, body) =>
      match tag with
      | "MustacheStatement" => (Mustache.ofJson? body).map .mustache
      | "BlockStatement" => (Block.ofJson? section? body).map .block
      | "PartialStatement" => (PartialCall.ofJson? body).map .partialCall
      | "PartialBlockStatement" => (PartialBlock.ofJson? section? body).map .partialBlock
      | "ContentStatement" => (Content.ofJson? body).map .content
      | "CommentStatement" => (Comment.ofJson? body).map .comment
      | _ => none

/-- Reads a program. -/
def Program.ofJson? (j : Json) : Option (Program Mark) :=
  Program.ofJsonOver? (Statement.ofJsonWithin? false j.depth) j

end Stencil.Tree
