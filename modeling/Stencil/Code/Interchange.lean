import Stencil.Code.Spec
import Stencil.Tree.Interchange

/-!
# Compiled templates as JSON

The interchange form of specs. A variant is an object with the name of the
variant as its only member, or just that name when the variant has no data.
-/

set_option autoImplicit false

namespace Stencil.Code

open Stencil.Text (Location)

/-- A variant with data as JSON. -/
def variantObj (name : String) (data : Json) : Json := .obj [(name, data)]

/-- A value or null. -/
def orNull {α : Type} (f : α → Json) : Option α → Json
  | none => .null
  | some a => f a

/-- The member that holds a location. -/
def locMember (loc : Option Location) : String × Option Json := ("loc", loc.map Location.toJson)

/-- A natural number as JSON. -/
def natJson (n : Nat) : Json := .int n

/-! ## Writing -/

/-- The name of a lookup kind. -/
def LookupKind.name : LookupKind → String
  | .context => "context"
  | .data => "data"
  | .helper => "helper"
  | .partialName => "partial"

/-- An accessor as JSON. -/
def Accessor.toJson : Accessor → Json
  | .context depth => variantObj "context" (.obj [("depth", natJson depth)])
  | .data depth => variantObj "data" (.obj [("depth", natJson depth)])
  | .blockParam depth index =>
    variantObj "blockParam" (.obj [("depth", natJson depth), ("index", natJson index)])
  | .helpers => .str "helpers"
  | .partials => .str "partials"
  | .anyContext name => variantObj "depthed" (.obj [("name", .str name)])
  | .member base name kind =>
    variantObj "member"
      (.obj [("base", base.toJson), ("name", .str name), ("kind", .str kind.name)])

/-- A literal as JSON. -/
def Literal.toJson : Literal → Json
  | .string v => variantObj "string" (.str v)
  | .number v => variantObj "number" (.float v)
  | .boolean v => variantObj "boolean" (.bool v)
  | .undefined => .str "undefined"
  | .null => .str "null"

/-- A lookup as JSON. -/
def Lookup.toJson (l : Lookup) : Json :=
  Json.compactObj
    [("accessor", some l.accessor.toJson), ("requireTerminal", some (.bool l.requireTerminal)),
      ("original", some (.str l.spelling)), locMember l.loc]

/-- The paths of arguments as JSON. -/
def CallIds.toJson (i : CallIds) : Json :=
  .obj [("params", .arr (i.params.map (orNull Json.str))),
    ("hash", .obj (Table.mapValues (orNull Json.str) i.hash))]

mutual

/-- An operand as JSON. -/
def Operand.toJson : Operand → Json
  | .literal v => variantObj "literal" v.toJson
  | .lookup l => variantObj "lookup" l.toJson
  | .lambda l => variantObj "lambda" l.toJson
  | .call c => variantObj "call" (Call.toJson c)
  | .ambiguous c => variantObj "ambiguous" (Call.toJson c)

/-- A call as JSON. -/
def Call.toJson : Call → Json
  | ⟨name, helper, value, params, hash, ids, loc⟩ =>
    Json.compactObj
      [("name", some (.str name)), ("helper", helper.map Accessor.toJson),
        ("value", value.map Lookup.toJson), ("params", some (.arr (Operand.toJsons params))),
        ("hash", some (.obj (Operand.toJsonTable hash))), ("ids", ids.map CallIds.toJson),
        locMember loc]

/-- Operands as JSON, one by one. -/
def Operand.toJsons : List Operand → List Json
  | [] => []
  | o :: os => o.toJson :: Operand.toJsons os

/-- Named operands as JSON, one by one. -/
def Operand.toJsonTable : List (String × Operand) → List (String × Json)
  | [] => []
  | (k, o) :: rest => (k, o.toJson) :: Operand.toJsonTable rest

end

/-- What opens a block, as JSON. -/
def BlockKind.toJson : BlockKind → Json
  | .helper c => variantObj "helper" c.toJson
  | .ambiguous c => variantObj "ambiguous" c.toJson
  | .section v => variantObj "section" v.toJson

/-- A block as JSON. -/
def BlockCall.toJson (b : BlockCall) : Json :=
  Json.compactObj
    [("kind", some b.kind.toJson), ("name", some (.str b.name)),
      ("program", some (orNull natJson b.program)), ("inverse", some (orNull natJson b.inverse)),
      locMember b.loc]

/-- The name of a partial as JSON. -/
def PartialName.toJson : PartialName → Json
  | .fixed name accessor =>
    variantObj "static" (.obj [("name", .str name), ("accessor", accessor.toJson)])
  | .computed v => variantObj "dynamic" v.toJson

/-- A partial as JSON. -/
def PartialInvocation.toJson (p : PartialInvocation) : Json :=
  Json.compactObj
    [("name", some p.name.toJson), ("context", some p.context.toJson),
      ("hash", some (.obj (Operand.toJsonTable p.hash))), ("indent", some (.str p.indent)),
      ("program", some (orNull natJson p.program)), locMember p.loc]

/-- An instruction as JSON. -/
def Instruction.toJson : Instruction → Json
  | .content text => variantObj "appendContent" (.str text)
  | .append value escape =>
    variantObj "append" (.obj [("value", value.toJson), ("escape", .bool escape)])
  | .block b => variantObj "block" b.toJson
  | .partialCall p => variantObj "partial" p.toJson

/-- A program as JSON. -/
def Chunk.toJson (c : Chunk) : Json :=
  .obj [("instructions", .arr (c.instructions.map Instruction.toJson)),
    ("blockParams", natJson c.blockParams)]

/-- A set of features as JSON. -/
def Features.toJson (f : Features) : Json := natJson f.bits.toNat

/-- A stamp as JSON. -/
def Stamp.toJson (s : Stamp) : Json :=
  .obj [("revision", natJson s.revision), ("version", .str s.version),
    ("features", s.features.toJson)]

/-- The name of a kind of buffer. -/
def BufferKind.name : BufferKind → String
  | .string => "string"
  | .fragments => "fragments"

/-- A spec as JSON. -/
def Spec.toJson (s : Spec) : Json :=
  .obj [("compiler", s.stamp.toJson), ("main", natJson s.main),
    ("programs", .arr (s.programs.map Chunk.toJson)), ("options", s.options.toJson),
    ("buffer", .str s.buffer.name)]

/-! ## Reading -/

/-- Reads a lookup kind. -/
def LookupKind.ofJson? (j : Json) : Option LookupKind :=
  match j.variant? with
  | some ("context", .null) => some .context
  | some ("data", .null) => some .data
  | some ("helper", .null) => some .helper
  | some ("partial", .null) => some .partialName
  | _ => none

/-- Reads a depth, the only member of a record. -/
def depth? (j : Json) : Option Nat := do
  let r ← j.record? 1
  r.required 0 "depth" Json.word32?

/-- Reads an accessor that nests at most as deep as the first argument. -/
def Accessor.ofJsonWithin? : Nat → Json → Option Accessor
  | 0, _ => none
  | fuel + 1, j =>
    match j.variant? with
    | none => none
    | some (tag, body) =>
      match tag with
      | "context" => (depth? body).map .context
      | "data" => (depth? body).map .data
      | "blockParam" => do
        let r ← body.record? 2
        let depth ← r.required 0 "depth" Json.word64?
        let index ← r.required 1 "index" Json.word64?
        pure (.blockParam depth index)
      | "helpers" => if body matches .null then some .helpers else none
      | "partials" => if body matches .null then some .partials else none
      | "depthed" => do
        let r ← body.record? 1
        let name ← r.required 0 "name" Json.str?
        pure (.anyContext name)
      | "member" => do
        let r ← body.record? 3
        let base ← r.required 0 "base" (Accessor.ofJsonWithin? fuel)
        let name ← r.required 1 "name" Json.str?
        let kind ← r.required 2 "kind" LookupKind.ofJson?
        pure (.member base name kind)
      | _ => none

/-- Reads an accessor. -/
def Accessor.ofJson? (j : Json) : Option Accessor := Accessor.ofJsonWithin? (j.depth + 1) j

/-- Reads a literal. -/
def Literal.ofJson? (j : Json) : Option Literal :=
  match j.variant? with
  | some ("string", data) => (Json.str? data).map .string
  | some ("number", data) => (Json.float? data).map .number
  | some ("boolean", data) => (Json.bool? data).map .boolean
  | some ("undefined", .null) => some .undefined
  | some ("null", .null) => some .null
  | _ => none

/-- Reads the location of a record, the member at the given place. -/
def loc? (r : Json.Record) (place : Nat) : Option (Option Location) :=
  r.optional place "loc" Location.ofJson?

/-- Reads a lookup. -/
def Lookup.ofJson? (j : Json) : Option Lookup := do
  let r ← j.record? 4
  let accessor ← r.required 0 "accessor" Accessor.ofJson?
  let requireTerminal ← r.withDefault 1 "requireTerminal" false Json.bool?
  let spelling ← r.required 2 "original" Json.str?
  let loc ← loc? r 3
  pure { accessor, requireTerminal, spelling, loc }

/-- Reads the paths of arguments. -/
def CallIds.ofJson? (j : Json) : Option CallIds := do
  let r ← j.record? 2
  let params ← r.required 0 "params" (Json.list? (Json.option? Json.str?))
  let hash ← r.required 1 "hash" (Json.table? (Json.option? Json.str?))
  pure ⟨params, hash⟩

/-- Reads a call, given the reader of its arguments. -/
def Call.ofJson? (operand : Json → Option Operand) (j : Json) : Option Call := do
  let r ← j.record? 7
  let name ← r.required 0 "name" Json.str?
  let helper ← r.optional 1 "helper" Accessor.ofJson?
  let value ← r.optional 2 "value" Lookup.ofJson?
  let params ← r.withDefault 3 "params" [] (Json.list? operand)
  let hash ← r.withDefault 4 "hash" [] (Json.table? operand)
  let ids ← r.optional 5 "ids" CallIds.ofJson?
  let loc ← loc? r 6
  pure ⟨name, helper, value, params, hash, ids, loc⟩

/-- Reads an operand that nests at most as deep as the first argument. -/
def Operand.ofJsonWithin? : Nat → Json → Option Operand
  | 0, _ => none
  | fuel + 1, j =>
    match j.variant? with
    | none => none
    | some (tag, body) =>
      match tag with
      | "literal" => (Literal.ofJson? body).map .literal
      | "lookup" => (Lookup.ofJson? body).map .lookup
      | "lambda" => (Lookup.ofJson? body).map .lambda
      | "call" => (Call.ofJson? (Operand.ofJsonWithin? fuel) body).map .call
      | "ambiguous" => (Call.ofJson? (Operand.ofJsonWithin? fuel) body).map .ambiguous
      | _ => none

/-- Reads an operand. -/
def Operand.ofJson? (j : Json) : Option Operand := Operand.ofJsonWithin? (j.depth + 1) j

/-- Reads what opens a block. -/
def BlockKind.ofJson? (j : Json) : Option BlockKind :=
  match j.variant? with
  | some ("helper", data) => (Call.ofJson? Operand.ofJson? data).map .helper
  | some ("ambiguous", data) => (Call.ofJson? Operand.ofJson? data).map .ambiguous
  | some ("section", data) => (Operand.ofJson? data).map .section
  | _ => none

/-- Reads a block. -/
def BlockCall.ofJson? (j : Json) : Option BlockCall := do
  let r ← j.record? 5
  let kind ← r.required 0 "kind" BlockKind.ofJson?
  let name ← r.required 1 "name" Json.str?
  let program ← r.optional 2 "program" Json.word64?
  let inverse ← r.optional 3 "inverse" Json.word64?
  let loc ← loc? r 4
  pure { kind, name, program, inverse, loc }

/-- Reads the name of a partial. -/
def PartialName.ofJson? (j : Json) : Option PartialName :=
  match j.variant? with
  | some ("static", data) => do
    let r ← data.record? 2
    let name ← r.required 0 "name" Json.str?
    let accessor ← r.required 1 "accessor" Accessor.ofJson?
    pure (.fixed name accessor)
  | some ("dynamic", data) => (Operand.ofJson? data).map .computed
  | _ => none

/-- Reads a partial. -/
def PartialInvocation.ofJson? (j : Json) : Option PartialInvocation := do
  let r ← j.record? 6
  let name ← r.required 0 "name" PartialName.ofJson?
  let context ← r.required 1 "context" Operand.ofJson?
  let hash ← r.withDefault 2 "hash" [] (Json.table? Operand.ofJson?)
  let indent ← r.withDefault 3 "indent" "" Json.str?
  let program ← r.optional 4 "program" Json.word64?
  let loc ← loc? r 5
  pure { name, context, hash, indent, program, loc }

/-- Reads an instruction. -/
def Instruction.ofJson? (j : Json) : Option Instruction :=
  match j.variant? with
  | some ("appendContent", data) => (Json.str? data).map .content
  | some ("append", data) => do
    let r ← data.record? 2
    let value ← r.required 0 "value" Operand.ofJson?
    let escape ← r.required 1 "escape" Json.bool?
    pure (.append value escape)
  | some ("block", data) => (BlockCall.ofJson? data).map .block
  | some ("partial", data) => (PartialInvocation.ofJson? data).map .partialCall
  | _ => none

/-- Reads a program. -/
def Chunk.ofJson? (j : Json) : Option Chunk := do
  let r ← j.record? 2
  let instructions ← r.required 0 "instructions" (Json.list? Instruction.ofJson?)
  let blockParams ← r.withDefault 1 "blockParams" 0 Json.word64?
  pure { instructions, blockParams }

/-- Reads a set of features. -/
def Features.ofJson? (j : Json) : Option Features :=
  (Json.word32? j).map fun n => ⟨UInt32.ofNat n⟩

/-- Reads a stamp. -/
def Stamp.ofJson? (j : Json) : Option Stamp := do
  let r ← j.record? 3
  let revision ← r.required 0 "revision" Json.word32?
  let version ← r.required 1 "version" Json.str?
  let features ← r.withDefault 2 "features" Features.none Features.ofJson?
  pure { revision, version, features }

/-- Reads a kind of buffer. -/
def BufferKind.ofJson? (j : Json) : Option BufferKind :=
  match j.variant? with
  | some ("string", .null) => some .string
  | some ("fragments", .null) => some .fragments
  | _ => none

/-- Reads a spec. -/
def Spec.ofJson? (j : Json) : Option Spec := do
  let r ← j.record? 5
  let stamp ← r.required 0 "compiler" Stamp.ofJson?
  let main ← r.required 1 "main" Json.word64?
  let programs ← r.required 2 "programs" (Json.list? Chunk.ofJson?)
  let options ← r.required 3 "options" Options.ofJson?
  let buffer ← r.withDefault 4 "buffer" .string BufferKind.ofJson?
  pure { stamp, main, programs, options, buffer }

end Stencil.Code
