import Stencil.Code.Spec
import Stencil.Render.Value

/-!
# Scopes

What names mean at a place of a template: a stack of contexts, a stack of block
parameters, a stack of frames of data variables, and the body of the innermost
partial block. A nested program extends the scope of its place and leaves it as it
was.
-/

set_option autoImplicit false

namespace Stencil.Render

open Stencil.Code (Spec)

mutual

/-- What names mean. Each stack has its innermost entry first. -/
structure Scope where
  contexts : List Value
  blockParams : List (List Value)
  data : List (List (String × Value))
  partialBlock : Option PartialBody

/-- The body of a partial block: a program of a template, and the scope at the
place of the block. -/
structure PartialBody where
  spec : Spec
  program : Nat
  scope : Scope

end

/-! ## Data variables -/

/-- The value of a data variable in the first frame that has it. -/
def dataValue? (name : String) : List (List (String × Value)) → Option Value
  | [] => none
  | frame :: outer =>
    match Table.get? name frame with
    | some v => some v
    | none => dataValue? name outer

namespace Scope

/-- The scope in which the main program of a template runs. The context is also the
data variable `root`, unless the environment has one. -/
def root (context : Value) (data : Table Value) (blockParams : List Value) : Scope where
  contexts := [context]
  blockParams := [blockParams]
  data := [if data.contains "root" then data else data.insert "root" context]
  partialBlock := none

/-- The current context. -/
def context (s : Scope) : Value := s.contexts.headD .undefined

/-- The value of a data variable so many frames up. -/
def data? (s : Scope) (depth : Nat) (name : String) : Option Value :=
  dataValue? name (s.data.drop depth)

/-- A block parameter so many programs out. -/
def blockParam (s : Scope) (depth index : Nat) : Value :=
  ((s.blockParams[depth]?).bind fun frame => frame[index]?).getD .undefined

/-- The contexts with one more on top, unless it is the same as the current one. -/
def contextsWith (s : Scope) (context : Value) : List Value :=
  if s.context.same context then s.contexts else context :: s.contexts

/-- The scope of a nested program. -/
def enter (s : Scope) (context : Value) (blockParams : List Value) : Scope :=
  { s with contexts := s.contextsWith context, blockParams := blockParams :: s.blockParams }

/-- The scope of a partial: the contexts stay in reach, block parameters do not. -/
def forPartial (s : Scope) (context : Value) : Scope :=
  { s with contexts := s.contextsWith context, blockParams := [[]] }

/-- The scope with another frame of data variables, if there are any. -/
def withData (s : Scope) (frame : Table Value) : Scope :=
  if frame.isEmpty then s else { s with data := frame :: s.data }

/-- The scope with a body of a partial block, and an empty frame of data variables
on top. -/
def withPartialBlock (s : Scope) (body : Option PartialBody) : Scope :=
  { s with data := [] :: s.data, partialBlock := body }

end Scope

/-! ## Visits -/

/-- A program of some code that is run, and the scope that it is run in. -/
structure Visit where
  spec : Spec
  program : Nat
  scope : Scope

end Stencil.Render
