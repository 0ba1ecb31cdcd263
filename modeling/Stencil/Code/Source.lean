import Stencil.Code.Compile
import Stencil.Error

/-!
# From text to code

The options of the compiler say how a text is read, too.
-/

set_option autoImplicit false

namespace Stencil.Code

/-- The code of a tree. -/
def Compiler.ofTree (compiler : Compiler) (tree : Tree.Located) : Except TemplateError Spec :=
  (compiler.compile tree).mapError .ofCompile

/-- The code of a text, whose locations bear the given name. -/
def Compiler.ofText (compiler : Compiler) (sourceName : Option String) (text : String) :
    Except TemplateError Spec :=
  match Template.read (compiler.options.readOptions sourceName) text with
  | .error e => .error (.ofSyntax e)
  | .ok tree => compiler.ofTree tree

end Stencil.Code
