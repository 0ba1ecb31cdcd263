import Stencil.Code.Instruction
import Stencil.Code.Options
import Stencil.Tree.Program

/-!
# Forms of calls

The head of a tag or a parenthesised call is one of three things: certainly a
call, certainly the value of a path, or whichever of the two there is when the
template is rendered. Block parameters, which are known where they are declared,
decide first; arguments, parentheses and the table of known helpers come next.
-/

set_option autoImplicit false

namespace Stencil.Code

open Stencil.Text (Location)
open Stencil.Tree (Expr Hash Path)

/-- The names of the block parameters of the enclosing programs, innermost
first. -/
abbrev Frames : Type := List (List String)

/-- The innermost block parameter of a name: how many programs out it is
declared, and its place there. -/
def Frames.find? (frames : Frames) (name : String) : Option (Nat × Nat) :=
  match frames with
  | [] => none
  | names :: outer =>
    match names.findIdx? (· == name) with
    | some index => some (0, index)
    | none => (Frames.find? outer name).map fun p => (p.1 + 1, p.2)

/-- A head with its arguments. -/
structure Form where
  path : Path (Option Location)
  params : List (Expr (Option Location)) := []
  hash : Option (Hash (Option Location)) := none
  /-- Whether the form was written in parentheses. -/
  parenthesised : Bool := false
  loc : Option Location

namespace Form

/-- The form of a call. -/
def ofCall (c : Tree.Call (Option Location)) : Form where
  path := c.path
  params := c.params
  hash := c.hash
  parenthesised := c.parenthesised == some true
  loc := c.mark

/-- The form of an expression. A literal is read as a path of one part. -/
def ofExpr : Expr (Option Location) → Form
  | .call c => ofCall c
  | e => { path := e.headPath, loc := e.mark }

/-- Whether there are any arguments. -/
def hasArguments (f : Form) : Bool :=
  !f.params.isEmpty || f.hash.any fun h => !h.pairs.isEmpty

/-- The first part of the path, or nothing at all. -/
def head (f : Form) : String := f.path.head?.getD ""

end Form

/-- What a form is. -/
inductive FormKind where
  /-- Certainly a call. -/
  | call
  /-- A call if there is a helper of the name, else a value. -/
  | ambiguous
  /-- The value of a path; arguments do not count. -/
  | value
deriving DecidableEq

/-- What a form is, given the block parameters in scope. -/
def Form.kind (options : Options) (frames : Frames) (f : Form) : FormKind :=
  let simple := f.path.isSimple
  let blockParam := simple && (f.path.head?.any fun name => (frames.find? name).isSome)
  if blockParam then .value
  else if f.parenthesised || f.hasArguments then .call
  else if !simple then .value
  else if options.knownHelpers.contains f.head then .call
  else if options.knownHelpersOnly then .value
  else .ambiguous

/-! ## Paths of arguments -/

/-- The path of an argument as seen from the current context: the spelling less a
leading reference to that context. Arguments that are no paths have none. -/
def argumentPath? : Expr (Option Location) → Option String
  | .path p =>
    match p.spelling.toList with
    | ['t', 'h', 'i', 's'] | ['.'] => some ""
    | 't' :: 'h' :: 'i' :: 's' :: '.' :: rest => some (String.ofList rest)
    | 't' :: 'h' :: 'i' :: 's' :: '/' :: rest => some (String.ofList rest)
    | '.' :: '/' :: rest => some (String.ofList rest)
    | _ => some p.spelling
  | _ => none

/-- The paths of the arguments of a form. -/
def Form.ids (f : Form) : CallIds where
  params := f.params.map argumentPath?
  hash :=
    match f.hash with
    | none => []
    | some h => Table.ofList (h.pairs.map fun p => (p.key, argumentPath? p.value))

end Stencil.Code
