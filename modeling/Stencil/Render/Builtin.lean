import Stencil.Render.Helper

/-!
# Built-in helpers

`if` and `unless` choose between a body and its inverse, `with` renders its body in
another context, `each` renders it once for every item of an array or entry of an
object, `lookup` takes a property whose name is computed, and `log` leaves a
message.
-/

set_option autoImplicit false

namespace Stencil.Render

/-- Goes on with the only parameter of a call; any other number of parameters is an
error. -/
def withOnlyParam (c : HelperCall) (next : Value → Plan) : Plan :=
  match c.params with
  | [v] => next v
  | _ => .fail (.ofRuntime (.helper c.name ("#" ++ c.name ++ " requires exactly one argument")))

/-- Whether a condition does not hold. With `includeZero` zero is no reason. -/
def conditionFails (c : HelperCall) (v : Value) : Bool :=
  (!(c.hashValue "includeZero").isTruthy && !v.isTruthy) || v.isEmpty

/-- Renders a part in the current context and gives its text. -/
def renderHere (c : HelperCall) (part : Part) : Plan :=
  .renderThen part c.this {} fun text => .give (.string text)

/-- The body where the parameter holds, else the inverse. -/
def ifHelper : Helper := fun c =>
  withOnlyParam c fun condition =>
    renderHere c (if conditionFails c condition then .inverse else .body)

/-- The inverse where the parameter holds, else the body. -/
def unlessHelper : Helper := fun c => (ifHelper c).swapped

/-- The path that leads from the root to a parameter, given the path to the current
context and that of the parameter. -/
def joinContextPath (current : Value) (id : String) : String :=
  match current.str? with
  | some path => if path.isEmpty then id else path ++ "." ++ id
  | none => id

/-- The path to the first parameter of a call, when paths are tracked. -/
def contextPath? (c : HelperCall) : Option String :=
  c.firstId?.map (joinContextPath (c.data "contextPath"))

/-- The body in the context of the parameter, or the inverse where that is empty. -/
def withHelper : Helper := fun c =>
  withOnlyParam c fun context =>
    if context.isEmpty then renderHere c .inverse
    else
      let data : Table Value :=
        match contextPath? c with
        | some path => [("contextPath", .string path)]
        | none => []
      .renderThen .body context { data, blockParams := [context] } fun text =>
        .give (.string text)

/-- What one iteration is given: its key, its place and whether it is the last. -/
def iterationArgs (path : Option String) (key item : Value) (index : Nat) (last : Bool) :
    BlockArgs where
  data :=
    [("key", key), ("index", .int index), ("first", .bool (index == 0)), ("last", .bool last)] ++
      match path with
      | some path => [("contextPath", .string (path ++ "." ++ key.text))]
      | none => []
  blockParams := [item, key]

/-- The body once for every item from the given place on, after a text. -/
def eachItem (path : Option String) : Nat → String → List Value → Plan
  | _, text, [] => .give (.string text)
  | index, text, item :: rest =>
    .renderThen .body item (iterationArgs path (.int index) item index rest.isEmpty) fun t =>
      eachItem path (index + 1) (text ++ t) rest

/-- The body once for every entry from the given place on, after a text. -/
def eachEntry (path : Option String) : Nat → String → List (String × Value) → Plan
  | _, text, [] => .give (.string text)
  | index, text, (key, item) :: rest =>
    .renderThen .body item (iterationArgs path (.string key) item index rest.isEmpty) fun t =>
      eachEntry path (index + 1) (text ++ t) rest

/-- The body once for every item or entry of the first parameter, or the inverse
where there is none. -/
def eachHelper : Helper := fun c =>
  match c.params with
  | [] => .fail (.ofRuntime (.helper "each" "Must pass iterator to #each"))
  | .array _ (item :: items) :: _ => eachItem (contextPath? c) 0 "" (item :: items)
  | .object _ (entry :: entries) :: _ => eachEntry (contextPath? c) 0 "" (entry :: entries)
  | _ => renderHere c .inverse

/-- The property of the first parameter that the second names. -/
def lookupHelper : Helper := fun c =>
  match c.params with
  | object :: field :: _ =>
    if object.isTruthy then .give (object.property field.text) else .give object
  | [object] => .give object
  | [] => .give .undefined

/-- The level of a message that a text names. -/
def logLevel (text : String) : LogLevel :=
  match String.ofList (text.toList.map Char.toLower) with
  | "debug" | "0" => .debug
  | "warn" | "2" => .warn
  | "error" | "3" => .error
  | _ => .info

/-- Leaves the parameters as a message, at the level given by name or by a data
variable. -/
def logHelper : Helper := fun c =>
  let named := (c.hashValue "level").text
  let level := if named.isEmpty then (c.data "level").text else named
  .log (logLevel level) (" ".intercalate (c.params.map Value.text)) (.give .undefined)

namespace Builtin

/-- The name of a built-in helper. -/
def name : Builtin → String
  | .ifHelper => "if"
  | .unlessHelper => "unless"
  | .withHelper => "with"
  | .eachHelper => "each"
  | .lookupHelper => "lookup"
  | .logHelper => "log"

/-- What a built-in helper does. -/
def helper : Builtin → Helper
  | .ifHelper => Render.ifHelper
  | .unlessHelper => Render.unlessHelper
  | .withHelper => Render.withHelper
  | .eachHelper => Render.eachHelper
  | .lookupHelper => Render.lookupHelper
  | .logHelper => Render.logHelper

/-- All built-in helpers. -/
def all : List Builtin :=
  [.ifHelper, .unlessHelper, .withHelper, .eachHelper, .lookupHelper, .logHelper]

/-- The built-in helpers under their names. -/
def table : Table FunctionId := all.map fun b => (b.name, .builtin b)

end Builtin

end Stencil.Render
