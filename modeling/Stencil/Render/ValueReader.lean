import Stencil.Decimal.Reader
import Stencil.Render.Environment
import Stencil.Render.Stock

/-!
# Reading values

From JSON to values, with functions among them and with arrays and objects that
are told apart. A `Supply` numbers what is built: every array and object gets the
next identity, every function the next number in the list of functions.

An object with one member whose name starts with a dollar sign stands for a value
that JSON has no form for, or for a shared value.
-/

set_option autoImplicit false

namespace Stencil.Render

/-- What has been built so far: how many identities were given out, and the
functions. -/
structure Supply where
  identities : Nat := 0
  customs : List Helper := []

/-- Building values. -/
abbrev Building (α : Type) : Type := StateM Supply α

namespace Building

/-- The next identity. -/
def identity : Building Identity :=
  modifyGet fun s => (.given s.identities, { s with identities := s.identities + 1 })

/-- A function that does what a helper does. -/
def function (h : Helper) : Building FunctionId :=
  modifyGet fun s => (.custom s.customs.length, { s with customs := s.customs ++ [h] })

end Building

/-- A member that is a text, or the empty text. -/
def textMember (members : List (String × Json)) (name : String) : String :=
  ((Table.get? name members).bind Json.str?).getD ""

/-- A stock helper, given its members, of which only a constant's value takes
reading. -/
def stockHelper (members : List (String × Json)) (value : Value) : StockHelper :=
  match textMember members "h" with
  | "const" => .const value
  | "fail" => .fail (textMember members "message")
  | "missing_partial" => .missingPartial (textMember members "name")
  | "missing_helper" => .missingHelper (textMember members "name")
  | "param" => .param (((Table.get? "i" members).bind Json.word64?).getD 0)
  | "this" => .this
  | "data" => .data (textMember members "name")
  | "hash" => .hash (textMember members "name")
  | "join" => .join (textMember members "sep")
  | "sum" => .sum
  | "safe" => .safe
  | "upper" => .upper
  | "list" => .list
  | "object" => .object
  | "apply" => .apply
  | "render" => .render .body
  | "inverse" => .render .inverse
  | "body" => .within .body
  | "inverse_body" => .within .inverse
  | "safe_body" => .safeBody
  | "swapped" => .swapped
  | "repeat" => .repeat
  | "info" => .info
  | _ => .nothing

mutual

/-- The value of a JSON value that nests at most as deep as the first argument. -/
def buildWithin (shared : Table Value) : Nat → Json → Building Value
  | 0, _ => pure .undefined
  | fuel + 1, j =>
    match j with
    | .null => pure .null
    | .bool b => pure (.bool b)
    | .int n => pure (Value.ofInt n)
    | .float x => pure (.float x)
    | .str s => pure (.string s)
    | .arr items => do
      let items ← buildItems shared fuel items
      let id ← Building.identity
      pure (.array id items)
    | .obj [(tag, data)] =>
      if tag.startsWith "$" then buildTagged shared fuel tag data
      else do
        let v ← buildWithin shared fuel data
        let id ← Building.identity
        pure (.object id [(tag, v)])
    | .obj members => do
      let entries ← buildEntries shared fuel members
      let id ← Building.identity
      pure (.object id entries)

/-- The value of an object with one member whose name starts with a dollar sign. -/
def buildTagged (shared : Table Value) : Nat → String → Json → Building Value
  | 0, _, _ => pure .undefined
  | fuel + 1, tag, data =>
    match tag, data with
    | "$safe", .str s => pure (.safe s)
    | "$float", .str s => pure (.float ((Decimal.readFloat? s).getD (0.0 / 0.0)))
    | "$int", .str s => pure (Value.ofInt ((Decimal.readInt? s.toList).getD 0))
    | "$ref", .str s => pure ((shared.get? s).getD .undefined)
    | "$object", .arr pairs => do
      let entries ← buildPairs shared fuel pairs
      let id ← Building.identity
      pure (.object id (Table.ofList entries))
    | "$fn", .obj members => .function <$> buildFunction shared fuel members
    | _, _ => pure .undefined

/-- A function, given the members that describe it. -/
def buildFunction (shared : Table Value) :
    Nat → List (String × Json) → Building FunctionId
  | 0, _ => Building.function StockHelper.nothing.helper
  | fuel + 1, members => do
    let value ←
      match Table.get? "value" members with
      | some j => if textMember members "h" = "const" then buildWithin shared fuel j else pure .null
      | none => pure .null
    Building.function (stockHelper members value).helper

/-- The values of JSON values, one by one. -/
def buildItems (shared : Table Value) : Nat → List Json → Building (List Value)
  | 0, _ => pure []
  | _ + 1, [] => pure []
  | fuel + 1, j :: js => do
    let v ← buildWithin shared fuel j
    let vs ← buildItems shared (fuel + 1) js
    pure (v :: vs)

/-- The entries of the members of a JSON object, one by one. -/
def buildEntries (shared : Table Value) :
    Nat → List (String × Json) → Building (List (String × Value))
  | 0, _ => pure []
  | _ + 1, [] => pure []
  | fuel + 1, (name, j) :: rest => do
    let v ← buildWithin shared fuel j
    let vs ← buildEntries shared (fuel + 1) rest
    pure ((name, v) :: vs)

/-- The entries of lists of a name and a value, one by one. -/
def buildPairs (shared : Table Value) : Nat → List Json → Building (List (String × Value))
  | 0, _ => pure []
  | _ + 1, [] => pure []
  | fuel + 1, .arr [.str name, j] :: rest => do
    let v ← buildWithin shared fuel j
    let vs ← buildPairs shared (fuel + 1) rest
    pure ((name, v) :: vs)
  | fuel + 1, _ :: rest => buildPairs shared (fuel + 1) rest

end

/-- The value of a JSON value. Each of its levels takes at most three steps. -/
def buildValue (shared : Table Value) (j : Json) : Building Value :=
  buildWithin shared (3 * j.depth + 3) j

/-- The function that a JSON value describes. -/
def buildHelper (shared : Table Value) (j : Json) : Building FunctionId :=
  match j with
  | .obj members => buildFunction shared (3 * j.depth + 3) members
  | _ => Building.function StockHelper.nothing.helper

/-- Shared values by name. Each may refer to those before it. -/
def buildShared (shared : Table Value) : List (String × Json) → Building (Table Value)
  | [] => pure shared
  | (name, j) :: rest => do
    let v ← buildValue shared j
    buildShared (shared.insert name v) rest

/-- Named values. -/
def buildTable (shared : Table Value) : List (String × Json) → Building (Table Value)
  | [] => pure []
  | (name, j) :: rest => do
    let v ← buildValue shared j
    let vs ← buildTable shared rest
    pure ((name, v) :: vs)

end Stencil.Render
