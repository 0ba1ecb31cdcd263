import Stencil.Tree.Program

/-!
# Outlines

A tree as indented text, one node a line: a form for people to read.
-/

set_option autoImplicit false

namespace Stencil.Tree

variable {ℓ : Type}

/-- The word for a truth value. -/
def boolText (b : Bool) : String := if b then "true" else "false"

/-- A path in an outline: the contexts it climbs and its parts. -/
def Path.outline (p : Path ℓ) : String :=
  (if p.data then "@" else "") ++ "PATH:" ++
    String.join (List.replicate p.depth "../") ++ "/".intercalate p.parts

mutual

/-- An expression on one line. -/
def Expr.outline : Expr ℓ → String
  | .call c => "(" ++ Call.outline c ++ ")"
  | .path p => p.outline
  | .string v _ _ => "\"" ++ v ++ "\""
  | .number _ o _ => "NUMBER\x7b" ++ o ++ "\x7d"
  | .boolean v _ _ => "BOOLEAN\x7b" ++ boolText v ++ "\x7d"
  | .undefined _ => "UNDEFINED"
  | .null _ => "NULL"

/-- A call on one line: its head, its parameters and its named arguments. -/
def Call.outline : Call ℓ → String
  | ⟨path, params, hash, _, _⟩ =>
    path.outline ++ " [" ++ ", ".intercalate (Expr.outlines params) ++ "]" ++ Hash.outlineOpt hash

/-- Expressions, one by one. -/
def Expr.outlines : List (Expr ℓ) → List String
  | [] => []
  | e :: es => e.outline :: Expr.outlines es

/-- Named arguments after a call, with the blank before them. -/
def Hash.outlineOpt : Option (Hash ℓ) → String
  | none => ""
  | some h => " " ++ Hash.outline h

/-- Named arguments in braces. -/
def Hash.outline : Hash ℓ → String
  | ⟨pairs, _⟩ => "HASH\x7b" ++ ", ".intercalate (Pair.outlines pairs) ++ "\x7d"

/-- Named arguments, one by one. -/
def Pair.outlines : List (Pair ℓ) → List String
  | [] => []
  | p :: ps => p.outline :: Pair.outlines ps

/-- A name and its value. -/
def Pair.outline : Pair ℓ → String
  | ⟨key, value, _⟩ => key ++ "=" ++ value.outline

end

/-- The expression of a tag: a call without its parentheses, anything else as a
call without parameters. -/
def Expr.tagOutline : Expr ℓ → String
  | .call c => c.outline
  | e => e.outline ++ " []"

/-- The name of a partial, its first parameter and its named arguments. -/
def partialOutline (name : Expr ℓ) (params : List (Expr ℓ)) (hash : Option (Hash ℓ)) : String :=
  let head :=
    match name with
    | .path p => p.spelling
    | e => e.outline
  let param :=
    match params with
    | [] => ""
    | e :: _ => " " ++ e.outline
  head ++ param ++ Hash.outlineOpt hash

/-- A line of an outline at a depth. -/
def outlineLine (depth : Nat) (text : String) : String :=
  String.join (List.replicate depth "  ") ++ text ++ "\n"

mutual

/-- A program: its block parameters and its statements. -/
def Program.outlineAt (depth : Nat) : Program ℓ → String
  | ⟨body, blockParams, _, _⟩ =>
    (if blockParams.isEmpty then ""
      else outlineLine depth ("BLOCK PARAMS: [ " ++ " ".intercalate blockParams ++ " ]")) ++
      Statement.outlinesAt depth body

/-- Statements, one after the other. -/
def Statement.outlinesAt (depth : Nat) : List (Statement ℓ) → String
  | [] => ""
  | s :: rest => s.outlineAt depth ++ Statement.outlinesAt depth rest

/-- A statement and what it holds. -/
def Statement.outlineAt (depth : Nat) : Statement ℓ → String
  | .mustache m =>
    if m.escaped then outlineLine depth ("\x7b\x7b " ++ m.expr.tagOutline ++ " \x7d\x7d")
    else outlineLine depth ("\x7b\x7b\x7b " ++ m.expr.tagOutline ++ " \x7d\x7d\x7d")
  | .block b => Block.outlineAt depth b
  | .partialCall p =>
    outlineLine depth
      ("\x7b\x7b> PARTIAL:" ++ partialOutline p.name p.params p.hash ++ " \x7d\x7d")
  | .partialBlock p => PartialBlock.outlineAt depth p
  | .content c => outlineLine depth ("CONTENT[ '" ++ c.value ++ "' ]")
  | .comment c => outlineLine depth ("\x7b\x7b! '" ++ c.value ++ "' \x7d\x7d")

/-- A block, its expression and its sections. -/
def Block.outlineAt (depth : Nat) : Block ℓ → String
  | ⟨expr, program, inverse, _, _, _, _, _⟩ =>
    outlineLine depth "BLOCK:" ++ outlineLine (depth + 1) expr.tagOutline ++
      Program.outlineOpt "PROGRAM:" (depth + 1) program ++
      Program.outlineOpt "\x7b\x7b^\x7d\x7d" (depth + 1) inverse

/-- A section under its label, if there is one. -/
def Program.outlineOpt (label : String) (depth : Nat) : Option (Program ℓ) → String
  | none => ""
  | some p => outlineLine depth label ++ p.outlineAt (depth + 1)

/-- A partial block and its body. -/
def PartialBlock.outlineAt (depth : Nat) : PartialBlock ℓ → String
  | ⟨name, params, hash, program, _, _, _⟩ =>
    outlineLine depth ("\x7b\x7b> PARTIAL BLOCK:" ++ partialOutline name params hash ++ " \x7d\x7d")
      ++ outlineLine (depth + 1) "PROGRAM:" ++ program.outlineAt (depth + 2)

end

/-- The outline of a program. -/
def Program.outline (p : Program ℓ) : String := p.outlineAt 0

end Stencil.Tree
