import Stencil.Code.Features
import Stencil.Code.Instruction
import Stencil.Code.Options

/-!
# Compiled templates

A spec is what the compiler hands to the renderer: the programs of a template as
instructions, the number of the main one, the options it was compiled with, and a
stamp that says which revision of the instructions it uses and which features it
needs.
-/

set_option autoImplicit false

namespace Stencil.Code

/-- The revision of the instructions. A renderer takes no other. -/
def revision : Nat := 8

/-- The version of the library. -/
def version : String := "0.3.0"

/-- Who compiled a spec. -/
structure Stamp where
  revision : Nat := Code.revision
  version : String := Code.version
  features : Features := Features.none
deriving DecidableEq

/-- How output is gathered. -/
inductive BufferKind where
  /-- As one growing text. -/
  | string
  /-- As pieces that are joined at the end. -/
  | fragments
deriving DecidableEq

/-- A compiled program and the number of its block parameters. -/
structure Chunk where
  instructions : List Instruction
  blockParams : Nat := 0

/-- A compiled template. -/
structure Spec where
  stamp : Stamp
  main : Nat
  programs : List Chunk
  options : Options
  buffer : BufferKind := .string

/-- The program of a number. -/
def Spec.program? (s : Spec) (id : Nat) : Option Chunk := s.programs[id]?

end Stencil.Code
