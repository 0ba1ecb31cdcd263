import Stencil.Text.Position

/-!
# Errors of the compiler

Trees that were read from text have the right shape. Trees that were built in
another way may not, and any tree may call helpers that its options do not admit.
-/

set_option autoImplicit false

namespace Stencil.Code

open Stencil.Text (Location)

/-- Why a tree is not compiled. -/
inductive CompileCause where
  /-- A known helper is called with another number of parameters than it takes. -/
  | helperArity (name : String) (expected found : Nat)
  /-- Only known helpers may be called, and this is none. -/
  | unknownHelper (name : String)
  /-- A path has an empty part, which strict templates do not admit. -/
  | emptySegment (path : String)
  /-- A closing tag names another block than the one it closes. -/
  | mismatchedBlock (opened closed : String)
  /-- A block has no body of either kind. -/
  | emptyBlock (name : String)
  /-- An `else` that goes on with a call holds something else than one block. -/
  | invalidChain (name : String)
  /-- A partial takes at most one parameter. -/
  | partialArguments (count : Nat)
deriving DecidableEq

/-- The wording of a cause. -/
def CompileCause.message : CompileCause → String
  | .helperArity name expected found =>
    name ++ " expects " ++ toString expected ++ " parameter(s), got " ++ toString found
  | .unknownHelper name =>
    "You specified knownHelpersOnly, but used the unknown helper " ++ name
  | .emptySegment path => "Invalid path: " ++ path ++ " contains an empty segment"
  | .mismatchedBlock opened closed => opened ++ " doesn't match " ++ closed
  | .emptyBlock name => "block " ++ name ++ " has neither a program nor an inverse"
  | .invalidChain name => "chained inverse of " ++ name ++ " must hold exactly one block"
  | .partialArguments count => "Unsupported number of partial arguments: " ++ toString count

/-- A cause and where in the template it arose, if that is known. -/
structure CompileError where
  cause : CompileCause
  loc : Option Location
deriving DecidableEq

/-- The wording of an error. -/
def CompileError.message (e : CompileError) : String := e.cause.message

end Stencil.Code
