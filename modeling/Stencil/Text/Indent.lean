import Stencil.Text.Scan

/-!
# Indenting output

The output of a partial that stood alone on its line is indented as the tag
was: every line gets the indentation, except an empty piece after the last line
feed.
-/

set_option autoImplicit false

namespace Stencil.Text

/-- The lines put together again, each after the indentation, the last one bare
when it is empty. -/
def joinIndented (indent : List Char) : List (List Char) → List Char
  | [] => []
  | [last] => if last.isEmpty then [] else indent ++ last
  | line :: rest => indent ++ line ++ '\n' :: joinIndented indent rest

/-- A text with every line indented, a trailing empty line excepted. -/
def indentLines (indent text : String) : String :=
  if indent.isEmpty then text
  else String.ofList (joinIndented indent.toList (splitOn '\n' text.toList))

end Stencil.Text
