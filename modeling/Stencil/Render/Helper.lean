import Stencil.Render.Run
import Stencil.Render.Value

/-!
# Helpers

A helper is called with values and answers with a plan: render the body or the
inverse of the block it was called for, leave a message, hand over to a function
among its parameters, and in the end a value or an error. A helper sees how a part
ended, so it may go on after an error. Whoever calls the helper carries the plan
out. So a helper is a pure function, and it can do nothing but what plans can say.
-/

set_option autoImplicit false

namespace Stencil.Render

open Stencil.Text (Location)

/-- The two parts of a block. -/
inductive Part where
  | body
  | inverse
deriving DecidableEq

/-- The other part of a block. -/
def Part.other : Part → Part
  | .body => .inverse
  | .inverse => .body

/-- What one rendering of a part of a block is given beside its context: data
variables for a new frame, none of them leaving the frame as it is, and block
parameters. -/
structure BlockArgs where
  data : Table Value := []
  blockParams : List Value := []

/-- What a helper is told about its call. -/
structure HelperCall where
  /-- The name it was called by. -/
  name : String
  params : List Value
  hash : Table Value
  /-- The paths of the parameters, when they are tracked. -/
  ids : Option (List (Option String))
  /-- The paths of the named arguments, when they are tracked. -/
  hashIds : Option (Table (Option String))
  loc : Option Location
  /-- The current context. -/
  this : Value
  /-- The data variables by name. -/
  data : String → Value
  /-- Whether there is a body. -/
  hasBody : Bool
  /-- Whether there is an inverse. -/
  hasInverse : Bool
  /-- The number of block parameters that the body declares. -/
  bodyParams : Nat
  /-- The number of block parameters that the inverse declares. -/
  inverseParams : Nat
  /-- The identity of an array or object that the helper makes. -/
  identity : Identity

namespace HelperCall

/-- A named argument, or undefined. -/
def hashValue (c : HelperCall) (name : String) : Value := (c.hash.get? name).getD .undefined

/-- Whether the call opens a block. -/
def isBlock (c : HelperCall) : Bool := c.hasBody || c.hasInverse

/-- The path of the first parameter, when it is tracked and is a path. -/
def firstId? (c : HelperCall) : Option String :=
  c.ids.bind fun ids => (ids.head?).bind id

/-- The call with body and inverse exchanged. -/
def swapped (c : HelperCall) : HelperCall :=
  { c with
    hasBody := c.hasInverse, hasInverse := c.hasBody
    bodyParams := c.inverseParams, inverseParams := c.bodyParams }

end HelperCall

/-- What a helper does. -/
inductive Plan where
  /-- It is done and gives a value. -/
  | give (value : Value)
  /-- It fails. -/
  | fail (error : TemplateError)
  /-- It renders a part of its block, nothing if there is none, and goes on with the
  text or the error. -/
  | render (part : Part) (context : Value) (args : BlockArgs)
    (next : Except TemplateError String → Plan)
  /-- It leaves a message and goes on. -/
  | log (level : LogLevel) (message : String) (next : Plan)
  /-- It hands over to the function that is the first of some parameters, which is
  called with the others. -/
  | handOver (params : List Value)

/-- The plan with the parts of the block exchanged. -/
def Plan.swapped : Plan → Plan
  | .give v => .give v
  | .fail e => .fail e
  | .render part context args next =>
    .render part.other context args fun rendered => (next rendered).swapped
  | .log level message next => .log level message next.swapped
  | .handOver params => .handOver params

/-- Renders a part and goes on with its text; an error is passed on. -/
def Plan.renderThen (part : Part) (context : Value) (args : BlockArgs) (next : String → Plan) :
    Plan :=
  .render part context args fun
    | .ok text => next text
    | .error e => .fail e

/-- A helper. -/
abbrev Helper : Type := HelperCall → Plan

/-- Carries a plan out, given how the parts of the block are rendered and how a
function is called with parameters. -/
def Plan.run {m : Type → Type} [Monad m] [Carrier m] (render : Part → Value → BlockArgs → m String)
    (callFirst : List Value → m Value) : Plan → m Value
  | .give v => pure v
  | .fail e => Carrier.ofRun (.fail e)
  | .render part context args next => do
    let rendered ← Carrier.attempt (render part context args)
    (next rendered).run render callFirst
  | .log level message next => do
    Carrier.ofRun (.emit (.logged level message))
    next.run render callFirst
  | .handOver params => callFirst params

end Stencil.Render
