import Stencil.Table
import Stencil.Text.Scan
import Stencil.Tree.Edit

/-!
# Ready-made editing rules

Rules that tools on templates share: dropping, duplicating and unwrapping
statements, renaming paths, turning calls and literals into paths. `Rules` names
those to apply; `Rules.edit` puts them together.

Nodes that a rule makes up carry no mark.
-/

set_option autoImplicit false

namespace Stencil.Tree

/-- A choice of editing rules. -/
structure Rules where
  /-- A mustache becomes the spelling of its expression. -/
  mustacheToContent : Bool := false
  /-- A block of this name becomes the body of its program. -/
  unwrap : Option String := none
  /-- Blocks lose their inverse. -/
  dropInverse : Bool := false
  /-- Partials without a body disappear. -/
  dropPartials : Bool := false
  duplicateContent : Bool := false
  dropComments : Bool := false
  /-- Sections of blocks disappear when they end up empty. -/
  dropEmptyPrograms : Bool := false
  /-- The values of string literals are written in capital letters. -/
  upperStrings : Bool := false
  /-- Literals become paths of one part. -/
  literalsToPaths : Bool := false
  /-- Calls become their heads. -/
  callsToPaths : Bool := false
  /-- Paths of these spellings are exchanged for others, given with points. -/
  rename : Table String := []
  /-- Named arguments of this name disappear. -/
  dropHashKey : Option String := none

namespace Rules

variable {ℓ : Type}

/-- The path that a dotted name spells. -/
def dottedPath (name : String) : Path (Option ℓ) :=
  Path.ofParts ((Text.splitOn '.' name.toList).map String.ofList) none

/-- What becomes of a path. -/
def onPath (r : Rules) (p : Path (Option ℓ)) : Path (Option ℓ) :=
  match r.rename.get? p.spelling with
  | some name => dottedPath name
  | none => p

/-- What becomes of an expression. -/
def onExpr (r : Rules) (rebuilt : Expr (Option ℓ)) : Expr (Option ℓ) :=
  match rebuilt with
  | .string value spelling mark =>
    if r.upperStrings then .string (String.ofList (value.toList.map Char.toUpper)) spelling mark
    else if r.literalsToPaths then rebuilt.literalToPath
    else rebuilt
  | e => if r.literalsToPaths && e.isLiteral then e.literalToPath else e

/-- What becomes of a block. -/
def onBlock (r : Rules) (source rebuilt : Block (Option ℓ)) : List (Statement (Option ℓ)) :=
  if r.unwrap = some source.expr.spelling then
    match rebuilt.program with
    | some p => p.body
    | none => []
  else if r.dropInverse then [.block { rebuilt with inverse := none }]
  else [.block rebuilt]

/-- The edit that applies the chosen rules. -/
def edit (r : Rules) : Edit (Option ℓ) where
  path := r.onPath
  call _ c := if r.callsToPaths then .path c.path else .call c
  expr _ e := r.onExpr e
  hash _ h :=
    match r.dropHashKey with
    | some key => { h with pairs := h.pairs.filter fun p => p.key != key }
    | none => h
  mustache source m :=
    if r.mustacheToContent then [.content (Content.ofText source.expr.spelling none)]
    else [.mustache m]
  block := r.onBlock
  partialCall _ p := if r.dropPartials then [] else [.partialCall p]
  content c := if r.duplicateContent then [.content c, .content c] else [.content c]
  comment c := if r.dropComments then [] else [.comment c]
  blockSection p := if r.dropEmptyPrograms && p.isEmpty then none else some p

end Rules

end Stencil.Tree
