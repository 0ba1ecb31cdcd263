import Stencil.Tree.Path

/-!
# Expressions

What stands in a tag: a path, a literal, or a call with parameters and named
arguments.
-/

set_option autoImplicit false

namespace Stencil.Tree

mutual

/-- An expression of a tag. -/
inductive Expr (ℓ : Type) where
  | call (call : Call ℓ)
  | path (path : Path ℓ)
  | string (value spelling : String) (mark : ℓ)
  | number (value : Float) (spelling : String) (mark : ℓ)
  | boolean (value : Bool) (spelling : String) (mark : ℓ)
  | undefined (mark : ℓ)
  | null (mark : ℓ)

/-- A head applied to parameters and named arguments. `parenthesised` records
that the call was written in parentheses; without parameters nothing else would
tell it from a plain path. -/
structure Call (ℓ : Type) where
  path : Path ℓ
  params : List (Expr ℓ)
  hash : Option (Hash ℓ)
  parenthesised : Option Bool
  mark : ℓ

/-- The named arguments of a call, in order. -/
structure Hash (ℓ : Type) where
  pairs : List (Pair ℓ)
  mark : ℓ

/-- One named argument. -/
structure Pair (ℓ : Type) where
  key : String
  value : Expr ℓ
  mark : ℓ

end

variable {ℓ μ : Type}

namespace Expr

/-- The mark of an expression. -/
def mark : Expr ℓ → ℓ
  | .call c => c.mark
  | .path p => p.mark
  | .string _ _ m => m
  | .number _ _ m => m
  | .boolean _ _ m => m
  | .undefined m => m
  | .null m => m

/-- The spelling of the head of an expression. Closing tags repeat it. -/
def spelling : Expr ℓ → String
  | .call c => c.path.spelling
  | .path p => p.spelling
  | .string _ o _ => o
  | .number _ o _ => o
  | .boolean _ o _ => o
  | .undefined _ => "undefined"
  | .null _ => "null"

/-- Whether an expression is a literal. -/
def isLiteral : Expr ℓ → Bool
  | .call _ | .path _ => false
  | _ => true

/-- The path an expression stands for as the head of a call: its own, that of a
call, or the path whose single part is the spelling of a literal. -/
def headPath : Expr ℓ → Path ℓ
  | .call c => c.path
  | .path p => p
  | literal => { parts := [literal.spelling], spelling := literal.spelling, mark := literal.mark }

/-- A literal read as a path of one part; other expressions as they are. -/
def literalToPath : Expr ℓ → Expr ℓ
  | .call c => .call c
  | e => .path e.headPath

end Expr

/-- The value of the first argument of a given name. -/
def Hash.get? (h : Hash ℓ) (key : String) : Option (Expr ℓ) :=
  (h.pairs.find? fun p => p.key == key).map Pair.value

/-! ## Marks -/

mutual

/-- The expression with every mark mapped. -/
def Expr.mapMark (f : ℓ → μ) : Expr ℓ → Expr μ
  | .call c => .call (c.mapMark f)
  | .path p => .path (p.mapMark f)
  | .string v o m => .string v o (f m)
  | .number v o m => .number v o (f m)
  | .boolean v o m => .boolean v o (f m)
  | .undefined m => .undefined (f m)
  | .null m => .null (f m)

/-- The call with every mark mapped. -/
def Call.mapMark (f : ℓ → μ) : Call ℓ → Call μ
  | ⟨path, params, hash, parenthesised, mark⟩ =>
    ⟨path.mapMark f, Expr.mapMarks f params, Hash.mapMarkOpt f hash, parenthesised, f mark⟩

/-- The named arguments with every mark mapped. -/
def Hash.mapMark (f : ℓ → μ) : Hash ℓ → Hash μ
  | ⟨pairs, mark⟩ => ⟨Pair.mapMarks f pairs, f mark⟩

/-- The argument with every mark mapped. -/
def Pair.mapMark (f : ℓ → μ) : Pair ℓ → Pair μ
  | ⟨key, value, mark⟩ => ⟨key, value.mapMark f, f mark⟩

/-- The expressions with every mark mapped. -/
def Expr.mapMarks (f : ℓ → μ) : List (Expr ℓ) → List (Expr μ)
  | [] => []
  | e :: es => e.mapMark f :: Expr.mapMarks f es

/-- The arguments, if there are any, with every mark mapped. -/
def Hash.mapMarkOpt (f : ℓ → μ) : Option (Hash ℓ) → Option (Hash μ)
  | none => none
  | some h => some (h.mapMark f)

/-- The arguments with every mark mapped, one by one. -/
def Pair.mapMarks (f : ℓ → μ) : List (Pair ℓ) → List (Pair μ)
  | [] => []
  | p :: ps => p.mapMark f :: Pair.mapMarks f ps

end

end Stencil.Tree
