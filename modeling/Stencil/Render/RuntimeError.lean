import Stencil.Text.Position

/-!
# Errors of rendering

What can go wrong while a compiled template renders. Some of these errors are
recoverable: a template that is not strict renders nothing in their place.
-/

set_option autoImplicit false

namespace Stencil.Render

open Stencil.Text (Location)

/-- An error of rendering. -/
inductive RuntimeError where
  /-- A path asks for a property that is not there. -/
  | missingProperty (name path : String) (loc : Option Location)
  | missingHelper (name : String) (loc : Option Location)
  | missingPartial (name : String)
  /-- More nested programs and partials than the limit. -/
  | depthExceeded (limit : Nat)
  /-- Code of another revision of the instructions. -/
  | versionMismatch (expected found : Nat)
  /-- Code that needs features which this library does not have. -/
  | unsupportedFeatures (bits : UInt32)
  /-- Code that refers to a program it does not have. -/
  | invalidProgram (id : Nat)
  /-- A text that is not the interchange form of code. -/
  | invalidSpec
  /-- An error that a helper raised. -/
  | helper (name message : String)
  /-- An error of the sink that takes the output. -/
  | io (message : String)
deriving DecidableEq

/-- The lower-case hexadecimal digits of a number. -/
def hexText (n : Nat) : String := String.ofList (Nat.toDigits 16 n)

/-- The wording of an error. -/
def RuntimeError.message : RuntimeError → String
  | .missingProperty name path _ => "\"" ++ name ++ "\" not defined in " ++ path
  | .missingHelper name _ => "Missing helper: \"" ++ name ++ "\""
  | .missingPartial name => "The partial " ++ name ++ " could not be found"
  | .depthExceeded limit => "Exceeded the maximum nesting depth of " ++ toString limit
  | .versionMismatch expected found =>
    "Template was precompiled with compiler revision " ++ toString found ++
      ", the runtime expects " ++ toString expected
  | .unsupportedFeatures bits =>
    "Template requires unsupported features (bits 0x" ++ hexText bits.toNat ++ ")"
  | .invalidProgram id => "Template references missing program " ++ toString id
  | .invalidSpec => "Invalid template spec"
  | .helper name message => name ++ ": " ++ message
  | .io message => "IO error: " ++ message

/-- Whether a template that is not strict renders nothing in place of the
error. -/
def RuntimeError.isRecoverable : RuntimeError → Bool
  | .missingHelper _ _ | .missingPartial _ => true
  | _ => false

end Stencil.Render
