import Stencil.Table
import Stencil.Text.Position

/-!
# Instructions

A compiled program is a list of instructions that append text. Values are
described by operands, which are evaluated against a scope; where a value comes
from is an accessor.
-/

set_option autoImplicit false

namespace Stencil.Code

open Stencil.Text (Location)

/-- What a step of a lookup names. -/
inductive LookupKind where
  | context | data | helper | partialName
deriving DecidableEq

/-- Where a value comes from. -/
inductive Accessor where
  /-- The context so many levels up. -/
  | context (depth : Nat)
  /-- The data frame so many levels up. -/
  | data (depth : Nat)
  /-- A block parameter, so many programs out. -/
  | blockParam (depth index : Nat)
  /-- The registered helpers. -/
  | helpers
  /-- The registered partials. -/
  | partials
  /-- The nearest context that has a value of this name. -/
  | anyContext (name : String)
  /-- A member of what another accessor gives. -/
  | member (base : Accessor) (name : String) (kind : LookupKind)
deriving DecidableEq

/-- A literal. -/
inductive Literal where
  | string (value : String)
  | number (value : Float)
  | boolean (value : Bool)
  | undefined
  | null

/-- A path as compiled. With `requireTerminal` its last step must name an existing
property. -/
structure Lookup where
  accessor : Accessor
  requireTerminal : Bool := false
  spelling : String
  loc : Option Location := none
deriving DecidableEq

/-- The paths of the arguments of a call, where they are paths. -/
structure CallIds where
  params : List (Option String)
  hash : Table (Option String)
deriving DecidableEq

mutual

/-- The description of a value. -/
inductive Operand where
  | literal (value : Literal)
  /-- A value as it is. -/
  | lookup (path : Lookup)
  /-- A value, or what it returns if it is a function. -/
  | lambda (path : Lookup)
  /-- The result of a helper. -/
  | call (call : Call)
  /-- The result of a helper of this name if there is one, else the value of this
  name. -/
  | ambiguous (call : Call)

/-- A call: its name, where a helper of that name is found, where a value of that
name is found, and its arguments. -/
structure Call where
  name : String
  helper : Option Accessor
  value : Option Lookup
  params : List Operand
  hash : List (String × Operand)
  ids : Option CallIds
  loc : Option Location

end

/-- What opens a block. -/
inductive BlockKind where
  | helper (call : Call)
  | ambiguous (call : Call)
  /-- A value: true and false pick a body, arrays repeat one, other values become
  its context. -/
  | section (value : Operand)

/-- A block. The programs are numbers of programs of the same code. -/
structure BlockCall where
  kind : BlockKind
  name : String
  program : Option Nat
  inverse : Option Nat
  loc : Option Location

/-- The name of a partial: written in the template, or computed. -/
inductive PartialName where
  | fixed (name : String) (accessor : Accessor)
  | computed (value : Operand)

/-- A partial. `program` is its own body, if it has one. -/
structure PartialInvocation where
  name : PartialName
  context : Operand
  hash : Table Operand
  indent : String
  program : Option Nat
  loc : Option Location

/-- An instruction. -/
inductive Instruction where
  /-- Appends text of the template. -/
  | content (text : String)
  /-- Appends a value, escaped if wanted and needed. -/
  | append (value : Operand) (escape : Bool)
  | block (block : BlockCall)
  | partialCall (partialCall : PartialInvocation)

end Stencil.Code
