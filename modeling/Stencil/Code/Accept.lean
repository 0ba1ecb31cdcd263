import Stencil.Code.Interchange
import Stencil.Json.Reader
import Stencil.Render.RuntimeError

/-!
# Accepting compiled templates

Code may come from elsewhere: as a spec of another revision, or as text. It is
checked before it renders.
-/

set_option autoImplicit false

namespace Stencil.Code

open Stencil.Render (RuntimeError)

/-- Refuses code of another revision and code that needs unknown features. -/
def Stamp.check (s : Stamp) : Except RuntimeError Unit :=
  if s.revision ≠ Code.revision then .error (.versionMismatch Code.revision s.revision)
  else if s.features.unsupported ≠ Features.none then
    .error (.unsupportedFeatures s.features.unsupported.bits)
  else .ok ()

/-- Refuses a spec that this library cannot render. -/
def Spec.check (s : Spec) : Except RuntimeError Unit := s.stamp.check

/-- The text of a spec. -/
def Spec.text (s : Spec) : String := s.toJson.text

/-- The spec that a text spells. -/
def Spec.ofText? (text : String) : Option Spec := (Json.read? text).bind Spec.ofJson?

/-- The spec that a text spells, if this library can render it. -/
def Spec.load (text : String) : Except RuntimeError Spec :=
  match Spec.ofText? text with
  | none => .error .invalidSpec
  | some s => s.check.map fun _ => s

end Stencil.Code
