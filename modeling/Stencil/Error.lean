import Stencil.Code.CompileError
import Stencil.Render.RuntimeError
import Stencil.Syntax.Error

/-!
# Errors of templates

Whatever can go wrong between the text of a template and its output: the text
does not read, its tree does not compile, or the code does not render. A partial
that is registered as text is read and compiled while another template renders,
so rendering may meet all three.
-/

set_option autoImplicit false

namespace Stencil

/-- An error of any stage. -/
inductive TemplateError where
  | ofSyntax (error : Syntax.Error)
  | ofCompile (error : Code.CompileError)
  | ofRuntime (error : Render.RuntimeError)
deriving DecidableEq

/-- The wording of an error. -/
def TemplateError.message : TemplateError → String
  | .ofSyntax e => e.text
  | .ofCompile e => e.message
  | .ofRuntime e => e.message

/-- Whether a template that is not strict renders nothing in place of the
error. -/
def TemplateError.isRecoverable : TemplateError → Bool
  | .ofRuntime e => e.isRecoverable
  | _ => false

end Stencil
