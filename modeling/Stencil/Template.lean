import Stencil.Syntax.Grammar
import Stencil.Tree.Layout

/-!
# Templates

From the text of a template to its tree. The tree is read with the spans of its
nodes, which are then located as lines and columns, or dropped when locations are
not wanted; last, the white space around tags is settled.
-/

set_option autoImplicit false

namespace Stencil

open Stencil.Text (Location LineIndex Span)
open Stencil.Tree (Program)

/-- A tree whose nodes may say where in a template they were read. -/
abbrev Tree.Located : Type := Program (Option Location)

namespace Template

/-- How templates are read. -/
structure ReadOptions where
  /-- Whether nodes carry their locations. Errors always do. -/
  trackLocations : Bool := true
  /-- Whether tags that stand alone keep their lines. -/
  ignoreStandalone : Bool := false
  /-- The name of the template in locations. -/
  sourceName : Option String := none
deriving DecidableEq

/-- The tree of a template as it is written. -/
def readAsWritten (options : ReadOptions) (source : String) :
    Except Syntax.Error Tree.Located :=
  let index := LineIndex.ofChars source.toList
  match Syntax.read? source.toList with
  | .error f => .error (f.locate index options.sourceName)
  | .ok tree =>
    .ok (tree.mapMark fun span =>
      if options.trackLocations then some (index.locate options.sourceName span) else none)

/-- The tree of a template with the white space around its tags settled. -/
def read (options : ReadOptions) (source : String) : Except Syntax.Error Tree.Located :=
  (readAsWritten options source).map (Program.layout options.ignoreStandalone true)

/-- The tokens of a template. -/
def tokens (sourceName : Option String) (source : String) :
    Except Syntax.Error (List Syntax.Token) :=
  match Syntax.tokens? source.toList with
  | .error f => .error (f.locate (LineIndex.ofChars source.toList) sourceName)
  | .ok ts => .ok ts

end Template

end Stencil
