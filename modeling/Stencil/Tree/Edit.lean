import Stencil.Tree.Program

/-!
# Editing trees

An `Edit` says what becomes of each kind of node. Nodes are rebuilt from the
inside: the rule for a node that holds others is given the node as it was and the
node with its parts edited. The rule for a kind of statements answers with any
number of statements, which take the place of the one; the rule for the section of a
block may remove the section. The rules of an `Edit` that are not stated keep every
node as it was rebuilt.
-/

set_option autoImplicit false

namespace Stencil.Tree

/-- What becomes of the nodes of a tree. -/
structure Edit (ℓ : Type) where
  path : Path ℓ → Path ℓ := fun p => p
  call : (source rebuilt : Call ℓ) → Expr ℓ := fun _ c => .call c
  expr : (source rebuilt : Expr ℓ) → Expr ℓ := fun _ e => e
  hash : (source rebuilt : Hash ℓ) → Hash ℓ := fun _ h => h
  mustache : (source rebuilt : Mustache ℓ) → List (Statement ℓ) := fun _ m => [.mustache m]
  block : (source rebuilt : Block ℓ) → List (Statement ℓ) := fun _ b => [.block b]
  partialCall : (source rebuilt : PartialCall ℓ) → List (Statement ℓ) :=
    fun _ p => [.partialCall p]
  partialBlock : (source rebuilt : PartialBlock ℓ) → List (Statement ℓ) :=
    fun _ p => [.partialBlock p]
  content : Content ℓ → List (Statement ℓ) := fun c => [.content c]
  comment : Comment ℓ → List (Statement ℓ) := fun c => [.comment c]
  /-- The program or the inverse of a block, once its statements are edited. -/
  blockSection : Program ℓ → Option (Program ℓ) := some

variable {ℓ : Type}

mutual

/-- An expression edited. -/
def Expr.edit (r : Edit ℓ) : Expr ℓ → Expr ℓ
  | .call c => r.expr (.call c) (r.call c (Call.edit r c))
  | .path p => r.expr (.path p) (.path (r.path p))
  | .string v o m => r.expr (.string v o m) (.string v o m)
  | .number v o m => r.expr (.number v o m) (.number v o m)
  | .boolean v o m => r.expr (.boolean v o m) (.boolean v o m)
  | .undefined m => r.expr (.undefined m) (.undefined m)
  | .null m => r.expr (.null m) (.null m)

/-- A call with its parts edited. -/
def Call.edit (r : Edit ℓ) : Call ℓ → Call ℓ
  | ⟨path, params, hash, parenthesised, mark⟩ =>
    ⟨r.path path, Expr.edits r params, Hash.editOpt r hash, parenthesised, mark⟩

/-- Expressions edited one by one. -/
def Expr.edits (r : Edit ℓ) : List (Expr ℓ) → List (Expr ℓ)
  | [] => []
  | e :: es => e.edit r :: Expr.edits r es

/-- Named arguments edited, if there are any. -/
def Hash.editOpt (r : Edit ℓ) : Option (Hash ℓ) → Option (Hash ℓ)
  | none => none
  | some h => some (Hash.edit r h)

/-- Named arguments edited. -/
def Hash.edit (r : Edit ℓ) : Hash ℓ → Hash ℓ
  | ⟨pairs, mark⟩ => r.hash ⟨pairs, mark⟩ ⟨Pair.edits r pairs, mark⟩

/-- Arguments edited one by one. -/
def Pair.edits (r : Edit ℓ) : List (Pair ℓ) → List (Pair ℓ)
  | [] => []
  | p :: ps => Pair.edit r p :: Pair.edits r ps

/-- An argument with its value edited. -/
def Pair.edit (r : Edit ℓ) : Pair ℓ → Pair ℓ
  | ⟨key, value, mark⟩ => ⟨key, value.edit r, mark⟩

end

/-- A mustache with its expression edited. -/
def Mustache.edit (r : Edit ℓ) (m : Mustache ℓ) : Mustache ℓ :=
  { m with expr := m.expr.edit r }

/-- A partial with its name and arguments edited. -/
def PartialCall.edit (r : Edit ℓ) (p : PartialCall ℓ) : PartialCall ℓ :=
  { p with name := p.name.edit r, params := Expr.edits r p.params,
           hash := Hash.editOpt r p.hash }

mutual

/-- A program with its statements edited. -/
def Program.edit (r : Edit ℓ) : Program ℓ → Program ℓ
  | ⟨body, blockParams, chained, mark⟩ => ⟨Statement.edits r body, blockParams, chained, mark⟩

/-- Statements edited, each to any number of them. -/
def Statement.edits (r : Edit ℓ) : List (Statement ℓ) → List (Statement ℓ)
  | [] => []
  | s :: rest => s.edit r ++ Statement.edits r rest

/-- What becomes of a statement. -/
def Statement.edit (r : Edit ℓ) : Statement ℓ → List (Statement ℓ)
  | .mustache m => r.mustache m (m.edit r)
  | .block b => r.block b (Block.edit r b)
  | .partialCall p => r.partialCall p (p.edit r)
  | .partialBlock p => r.partialBlock p (PartialBlock.edit r p)
  | .content c => r.content c
  | .comment c => r.comment c

/-- A block with its parts edited, the path of its closing tag among them. -/
def Block.edit (r : Edit ℓ) : Block ℓ → Block ℓ
  | ⟨expr, program, inverse, openStrip, inverseStrip, closeStrip, close, mark⟩ =>
    ⟨expr.edit r, Program.editSection r program, Program.editSection r inverse,
      openStrip, inverseStrip, closeStrip, close.map r.path, mark⟩

/-- A partial block with its parts edited. -/
def PartialBlock.edit (r : Edit ℓ) : PartialBlock ℓ → PartialBlock ℓ
  | ⟨name, params, hash, program, openStrip, closeStrip, mark⟩ =>
    ⟨name.edit r, Expr.edits r params, Hash.editOpt r hash, program.edit r,
      openStrip, closeStrip, mark⟩

/-- A section of a block, if there is one, edited and perhaps removed. -/
def Program.editSection (r : Edit ℓ) : Option (Program ℓ) → Option (Program ℓ)
  | none => none
  | some p => r.blockSection (p.edit r)

end

end Stencil.Tree
