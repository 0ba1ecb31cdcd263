import Stencil.Json.Basic
import Stencil.Render.Value

/-!
# Values as JSON

What JSON has a form for is written in that form; the other values are objects
with one member whose name starts with a dollar sign. Objects are among them, so
that their entries keep their order.
-/

set_option autoImplicit false

namespace Stencil.Render

mutual

/-- A value as JSON. -/
def Value.toJson : Value → Json
  | .undefined => .obj [("$undefined", .bool true)]
  | .null => .null
  | .bool b => .bool b
  | .int n => .int n
  | .float x => .obj [("$float", .str (Decimal.rendered x))]
  | .string s => .str s
  | .safe s => .obj [("$safe", .str s)]
  | .array _ items => .arr (Value.toJsons items)
  | .object _ entries => .obj [("$object", .arr (Value.entriesToJson entries))]
  | .function _ => .obj [("$fn", .bool true)]

/-- Values as JSON, one by one. -/
def Value.toJsons : List Value → List Json
  | [] => []
  | v :: vs => v.toJson :: Value.toJsons vs

/-- Entries as JSON: each a list of its name and its value. -/
def Value.entriesToJson : List (String × Value) → List Json
  | [] => []
  | (name, v) :: rest => .arr [.str name, v.toJson] :: Value.entriesToJson rest

end

mutual

/-- A JSON value as a value. Arrays and objects of it are not told apart by
identity. -/
def Value.ofPlainJson : Json → Value
  | .null => .null
  | .bool b => .bool b
  | .int n => .ofInt n
  | .float x => .float x
  | .str s => .string s
  | .arr items => .array (.given 0) (Value.ofPlainJsons items)
  | .obj members => .object (.given 0) (Value.ofPlainMembers members)

/-- JSON values as values, one by one. -/
def Value.ofPlainJsons : List Json → List Value
  | [] => []
  | j :: js => Value.ofPlainJson j :: Value.ofPlainJsons js

/-- The members of a JSON object as entries. -/
def Value.ofPlainMembers : List (String × Json) → List (String × Value)
  | [] => []
  | (name, j) :: rest => (name, Value.ofPlainJson j) :: Value.ofPlainMembers rest

end

end Stencil.Render
