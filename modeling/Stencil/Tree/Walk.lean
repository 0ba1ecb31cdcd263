import Stencil.Tree.Program

/-!
# Walking a tree

`Program.walk` lists the nodes of a tree in the order of their sources: every
node before what it holds, and what it holds from left to right. A node that
`enters` refuses is listed, but not what it holds.
-/

set_option autoImplicit false

namespace Stencil.Tree

/-- The kinds of nodes that a walk tells apart. -/
inductive NodeKind where
  | program | statement | mustache | block | partialCall | partialBlock | content | comment
  | expression | call | path | string | number | boolean | undefined | null | hash | pair
deriving DecidableEq

/-- A node that a walk comes by. An expression is met twice: as an expression and
as what it is. -/
inductive Node (ℓ : Type) where
  | program (p : Program ℓ)
  | statement (s : Statement ℓ)
  | mustache (m : Mustache ℓ)
  | block (b : Block ℓ)
  | partialCall (p : PartialCall ℓ)
  | partialBlock (p : PartialBlock ℓ)
  | content (c : Content ℓ)
  | comment (c : Comment ℓ)
  | expression (e : Expr ℓ)
  | call (c : Call ℓ)
  | path (p : Path ℓ)
  | string (value spelling : String) (mark : ℓ)
  | number (value : Float) (spelling : String) (mark : ℓ)
  | boolean (value : Bool) (spelling : String) (mark : ℓ)
  | undefined (mark : ℓ)
  | null (mark : ℓ)
  | hash (h : Hash ℓ)
  | pair (p : Pair ℓ)

variable {ℓ : Type}

/-- The kind of a node. -/
def Node.kind : Node ℓ → NodeKind
  | .program _ => .program
  | .statement _ => .statement
  | .mustache _ => .mustache
  | .block _ => .block
  | .partialCall _ => .partialCall
  | .partialBlock _ => .partialBlock
  | .content _ => .content
  | .comment _ => .comment
  | .expression _ => .expression
  | .call _ => .call
  | .path _ => .path
  | .string _ _ _ => .string
  | .number _ _ _ => .number
  | .boolean _ _ _ => .boolean
  | .undefined _ => .undefined
  | .null _ => .null
  | .hash _ => .hash
  | .pair _ => .pair

/-- A node, and the nodes it holds if the walk enters its kind. -/
def visit (enters : NodeKind → Bool) (node : Node ℓ) (held : List (Node ℓ)) : List (Node ℓ) :=
  node :: if enters node.kind then held else []

mutual

/-- The nodes of an expression. -/
def Expr.walk (enters : NodeKind → Bool) : Expr ℓ → List (Node ℓ)
  | .call c => visit enters (.expression (.call c)) (Call.walk enters c)
  | .path p => visit enters (.expression (.path p)) [.path p]
  | .string v o m => visit enters (.expression (.string v o m)) [.string v o m]
  | .number v o m => visit enters (.expression (.number v o m)) [.number v o m]
  | .boolean v o m => visit enters (.expression (.boolean v o m)) [.boolean v o m]
  | .undefined m => visit enters (.expression (.undefined m)) [.undefined m]
  | .null m => visit enters (.expression (.null m)) [.null m]

/-- The nodes of a call: its head, its parameters, its named arguments. -/
def Call.walk (enters : NodeKind → Bool) : Call ℓ → List (Node ℓ)
  | ⟨path, params, hash, parenthesised, mark⟩ =>
    visit enters (.call ⟨path, params, hash, parenthesised, mark⟩)
      (.path path :: (Expr.walks enters params ++ Hash.walkOpt enters hash))

/-- The nodes of expressions in a row. -/
def Expr.walks (enters : NodeKind → Bool) : List (Expr ℓ) → List (Node ℓ)
  | [] => []
  | e :: es => e.walk enters ++ Expr.walks enters es

/-- The nodes of named arguments, if there are any. -/
def Hash.walkOpt (enters : NodeKind → Bool) : Option (Hash ℓ) → List (Node ℓ)
  | none => []
  | some h => Hash.walk enters h

/-- The nodes of named arguments. -/
def Hash.walk (enters : NodeKind → Bool) : Hash ℓ → List (Node ℓ)
  | ⟨pairs, mark⟩ => visit enters (.hash ⟨pairs, mark⟩) (Pair.walks enters pairs)

/-- The nodes of arguments in a row. -/
def Pair.walks (enters : NodeKind → Bool) : List (Pair ℓ) → List (Node ℓ)
  | [] => []
  | p :: ps => Pair.walk enters p ++ Pair.walks enters ps

/-- The nodes of a named argument. -/
def Pair.walk (enters : NodeKind → Bool) : Pair ℓ → List (Node ℓ)
  | ⟨key, value, mark⟩ => visit enters (.pair ⟨key, value, mark⟩) (value.walk enters)

end

/-- The nodes of the name and the arguments of a partial. -/
def walkPartialParts (enters : NodeKind → Bool) (name : Expr ℓ) (params : List (Expr ℓ))
    (hash : Option (Hash ℓ)) : List (Node ℓ) :=
  name.walk enters ++ Expr.walks enters params ++ Hash.walkOpt enters hash

mutual

/-- The nodes of a program. -/
def Program.walk (enters : NodeKind → Bool) : Program ℓ → List (Node ℓ)
  | ⟨body, blockParams, chained, mark⟩ =>
    visit enters (.program ⟨body, blockParams, chained, mark⟩) (Statement.walks enters body)

/-- The nodes of statements in a row. -/
def Statement.walks (enters : NodeKind → Bool) : List (Statement ℓ) → List (Node ℓ)
  | [] => []
  | s :: rest => s.walk enters ++ Statement.walks enters rest

/-- The nodes of a statement. It is met as a statement and as what it is. -/
def Statement.walk (enters : NodeKind → Bool) : Statement ℓ → List (Node ℓ)
  | .mustache m =>
    visit enters (.statement (.mustache m)) (visit enters (.mustache m) (m.expr.walk enters))
  | .block b => visit enters (.statement (.block b)) (Block.walk enters b)
  | .partialCall p =>
    visit enters (.statement (.partialCall p))
      (visit enters (.partialCall p) (walkPartialParts enters p.name p.params p.hash))
  | .partialBlock p => visit enters (.statement (.partialBlock p)) (PartialBlock.walk enters p)
  | .content c => visit enters (.statement (.content c)) [.content c]
  | .comment c => visit enters (.statement (.comment c)) [.comment c]

/-- The nodes of a block: its expression, its program, its inverse. -/
def Block.walk (enters : NodeKind → Bool) : Block ℓ → List (Node ℓ)
  | ⟨expr, program, inverse, openStrip, inverseStrip, closeStrip, close, mark⟩ =>
    visit enters
      (.block ⟨expr, program, inverse, openStrip, inverseStrip, closeStrip, close, mark⟩)
      (expr.walk enters ++ Program.walkOpt enters program ++ Program.walkOpt enters inverse)

/-- The nodes of a partial block: its name, its arguments, its body. -/
def PartialBlock.walk (enters : NodeKind → Bool) : PartialBlock ℓ → List (Node ℓ)
  | ⟨name, params, hash, program, openStrip, closeStrip, mark⟩ =>
    visit enters (.partialBlock ⟨name, params, hash, program, openStrip, closeStrip, mark⟩)
      (walkPartialParts enters name params hash ++ program.walk enters)

/-- The nodes of a section, if there is one. -/
def Program.walkOpt (enters : NodeKind → Bool) : Option (Program ℓ) → List (Node ℓ)
  | none => []
  | some p => p.walk enters

end

/-- All nodes of a tree. -/
def Program.nodes (p : Program ℓ) : List (Node ℓ) := p.walk fun _ => true

/-- The paths of a tree, in the order of a walk. -/
def Program.paths (p : Program ℓ) : List (Path ℓ) :=
  p.nodes.filterMap fun
    | .path q => some q
    | _ => none

/-- The content statements of a tree, in the order of a walk. -/
def Program.contents (p : Program ℓ) : List (Content ℓ) :=
  p.nodes.filterMap fun
    | .content c => some c
    | _ => none

end Stencil.Tree
