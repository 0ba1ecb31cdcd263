import Stencil.Text.Letter

/-!
# Paths

A path names a value: how many contexts to climb, or that it names a data
variable, and the property names to follow from there. `spelling` is the path
as the template spells it, less the brackets of bracketed segments.

Nodes of a tree carry a mark of some type `ℓ` that says where they came from.
-/

set_option autoImplicit false

namespace Stencil.Tree

/-- A path such as `foo.bar`, `../baz`, `this` or `@index`. -/
structure Path (ℓ : Type) where
  data : Bool := false
  depth : Nat := 0
  parts : List String
  spelling : String
  mark : ℓ
deriving DecidableEq

namespace Path

variable {ℓ μ : Type}

/-- The path with the given parts, written with points between them. -/
def ofParts (parts : List String) (mark : ℓ) : Path ℓ :=
  { parts, spelling := ".".intercalate parts, mark }

/-- The first part. -/
def head? (p : Path ℓ) : Option String := p.parts.head?

/-- Whether a spelling starts at the current context by naming it: with a point,
or with the word `this` and no further letter. -/
def startsAtContext : List Char → Bool
  | '.' :: _ => true
  | 't' :: 'h' :: 'i' :: 's' :: rest =>
    match rest with
    | [] => true
    | c :: _ => !(Text.isAlphanumeric c || c == '_')
  | _ => false

/-- Whether the path is anchored at the current context by its spelling. -/
def isScoped (p : Path ℓ) : Bool := startsAtContext p.spelling.toList

/-- Whether the path is one bare name, the only shape that may name a helper or
a block parameter. -/
def isSimple (p : Path ℓ) : Bool :=
  p.parts.length == 1 && p.depth == 0 && !p.data && !p.isScoped

/-- The path with its mark mapped. -/
def mapMark (f : ℓ → μ) (p : Path ℓ) : Path μ :=
  { data := p.data, depth := p.depth, parts := p.parts, spelling := p.spelling, mark := f p.mark }

end Path

end Stencil.Tree
