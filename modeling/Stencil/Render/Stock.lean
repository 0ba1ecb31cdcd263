import Stencil.Render.Helper
import Stencil.Render.ValueJson

/-!
# Stock helpers

Small helpers for trying templates out. Each does one thing that helpers can do: give
a value, fail, pass on what it was called with, render a part of its block.
-/

set_option autoImplicit false

namespace Stencil.Render

/-- A stock helper. -/
inductive StockHelper where
  /-- Gives a value. -/
  | const (value : Value)
  /-- Fails under the name it was called by. -/
  | fail (message : String)
  /-- Fails as if a partial were missing. -/
  | missingPartial (name : String)
  /-- Fails as if a helper were missing. -/
  | missingHelper (name : String)
  /-- Gives a parameter. -/
  | param (index : Nat)
  /-- Gives the current context. -/
  | this
  /-- Gives a data variable. -/
  | data (name : String)
  /-- Gives a named argument. -/
  | hash (name : String)
  /-- Joins the texts of the parameters. -/
  | join (separator : String)
  /-- Adds the parameters up; what is no number counts as zero. -/
  | sum
  /-- Joins the texts of the parameters to a text that is shown as it is. -/
  | safe
  /-- Writes the first parameter, or the current context, in capital letters. -/
  | upper
  /-- Makes an array of the parameters. -/
  | list
  /-- Makes an object of the named arguments. -/
  | object
  /-- Calls the first parameter with the others. -/
  | apply
  /-- Renders a part here. -/
  | render (part : Part)
  /-- Renders a part in the context of the first parameter, with the named arguments
  as data variables and the other parameters as block parameters. -/
  | within (part : Part)
  /-- Does the same with the body, for a text that is shown as it is. -/
  | safeBody
  /-- Tells of its block with the parts exchanged. -/
  | swapped
  /-- Renders the body as many times as the first parameter says, at most fifty. -/
  | repeat
  /-- Tells of its call. -/
  | info
  /-- Gives nothing. -/
  | nothing

/-- The first parameter, or the current context. -/
def paramOrThis (c : HelperCall) : Value := c.params.headD c.this

/-- Renders a part in the context of the first parameter. -/
def renderWithin (c : HelperCall) (part : Part) (finish : String → Value) : Plan :=
  .renderThen part (paramOrThis c) { data := c.hash, blockParams := c.params.tail } fun text =>
    .give (finish text)

/-- How often the body is to be rendered: the whole part of the first parameter. -/
def repeatCount (c : HelperCall) : Nat :=
  match (c.params.head?).bind Value.number? with
  | some x => min 50 x.toUInt64.toNat
  | none => 0

/-- Renders the body so many times more, after a text; the first time has the given
number. -/
def repeatFrom (c : HelperCall) : Nat → Nat → String → Plan
  | 0, _, text => .give (.string text)
  | count + 1, index, text =>
    let i := Value.int index
    .renderThen .body c.this { data := [("index", i)], blockParams := [i] } fun t =>
      repeatFrom c count (index + 1) (text ++ t)

/-- A text, or null. -/
def textOrNull : Option String → Json
  | some s => .str s
  | none => .null

/-- What is known about a call, as compact text. -/
def describeCall (c : HelperCall) : String :=
  let ids : Json :=
    match c.ids with
    | some ids => .arr (ids.map textOrNull)
    | none => .null
  let hashIds : Json :=
    match c.hashIds with
    | some ids => .arr (ids.map fun e => .arr [.str e.1, textOrNull e.2])
    | none => .null
  Json.text
    (.arr
      [.str c.name, .arr (Value.toJsons c.params), .arr (Value.entriesToJson c.hash), ids,
        hashIds, .bool c.isBlock, .bool c.hasInverse, .int c.bodyParams,
        textOrNull (c.loc.map Text.Location.text)])

/-- What a stock helper does. -/
def StockHelper.helper : StockHelper → Helper
  | .const v => fun _ => .give v
  | .fail message => fun c => .fail (.ofRuntime (.helper c.name message))
  | .missingPartial name => fun _ => .fail (.ofRuntime (.missingPartial name))
  | .missingHelper name => fun c => .fail (.ofRuntime (.missingHelper name c.loc))
  | .param index => fun c => .give ((c.params[index]?).getD .undefined)
  | .this => fun c => .give c.this
  | .data name => fun c => .give (c.data name)
  | .hash name => fun c => .give (c.hashValue name)
  | .join separator => fun c => .give (.string (separator.intercalate (c.params.map Value.text)))
  | .sum => fun c =>
    .give (.float (c.params.foldl (fun total v => total + (v.number?).getD 0.0) 0.0))
  | .safe => fun c => .give (.safe (String.join (c.params.map Value.text)))
  | .upper => fun c =>
    .give (.string (String.ofList ((paramOrThis c).text.toList.map Char.toUpper)))
  | .list => fun c => .give (.array c.identity c.params)
  | .object => fun c => .give (.object c.identity c.hash)
  | .apply => fun c =>
    match c.params with
    | .function _ :: _ => .handOver c.params
    | _ => .give (.string "not a function")
  | .render part => fun c => .renderThen part c.this {} fun text => .give (.string text)
  | .within part => fun c => renderWithin c part .string
  | .safeBody => fun c => renderWithin c .body .safe
  | .swapped => fun c =>
    .renderThen .inverse c.this {} fun first =>
      .renderThen .body c.this {} fun second =>
        .give
          (.string
            ("[" ++ c.name ++ "|" ++ toString c.inverseParams ++ "|" ++ first ++ "|" ++ second ++
              "]"))
  | .repeat => fun c => repeatFrom c (repeatCount c) 0 ""
  | .info => fun c => .give (.safe (describeCall c))
  | .nothing => fun _ => .give .undefined

end Stencil.Render
