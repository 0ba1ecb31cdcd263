import Stencil.Code.Backend
import Stencil.Code.CompileError
import Stencil.Code.Form

/-!
# Compilation

Each program of a tree becomes one program of the compiled template. They are
numbered in the order in which they are opened, so a program comes before those
inside it and the main one is number zero. Compiling a program whose number is
`n` therefore gives a list whose head is the program itself, and whose further
entries are the programs `n + 1`, `n + 2` and so on that are nested in it.

While it goes, compilation gathers the features that the instructions need.
-/

set_option autoImplicit false

namespace Stencil.Code

open Stencil.Text (Location)
open Stencil.Tree (Expr Hash Pair Path Mustache Program Statement Block PartialCall PartialBlock)

/-- Compiling: gathers features and may fail. -/
abbrev Compiling (α : Type) : Type := StateT Features (Except CompileError) α

namespace Compiling

/-- Fails. -/
def fail {α : Type} (cause : CompileCause) (loc : Option Location) : Compiling α :=
  throw ⟨cause, loc⟩

/-- Records that a feature is needed. -/
def require (feature : Features) : Compiling Unit :=
  modify (Features.union · feature)

/-- Checks the shape of a block: its closing tag names it, it has a body, and a
chained inverse holds one block. -/
def checkBlock (b : Block (Option Location)) : Compiling Unit := do
  let name := b.expr.spelling
  if let some close := b.close then
    if close.spelling != name then
      Compiling.fail (.mismatchedBlock name close.spelling) (close.mark.orElse fun _ => b.mark)
  if b.program.isNone && b.inverse.isNone then
    Compiling.fail (.emptyBlock name) b.mark
  if let some inverse := b.inverse then
    if inverse.chained then
      match inverse.body with
      | [.block _] => pure ()
      | _ => Compiling.fail (.invalidChain name) (inverse.mark.orElse fun _ => b.mark)

end Compiling

/-- What compilation is given: the options and the backend. -/
structure Compiler where
  options : Options := {}
  backend : Backend := Backend.standard

namespace Compiler

variable (compiler : Compiler) (frames : Frames)

/-! ## Paths -/

/-- Where a path starts, the steps that follow, and their kind: at a block
parameter, at a data frame, at any context that knows the first name, or at a
context. -/
def start (p : Path (Option Location)) :
    Compiling (Accessor × List String × LookupKind) := do
  let free := !p.isScoped && p.depth == 0
  let blockParam :=
    if free && !p.data then p.head?.bind frames.find? else none
  if p.depth > 0 then Compiling.require Features.depths
  match blockParam with
  | some (depth, index) =>
    Compiling.require Features.blockParams
    pure (.blockParam depth index, p.parts.tail, .context)
  | none =>
    if p.data then
      Compiling.require Features.data
      pure (.data p.depth, p.parts, .data)
    else
      match p.parts with
      | name :: rest =>
        if compiler.options.compat && free then
          Compiling.require Features.compat
          pure (compiler.backend.anyContext name, rest, .context)
        else pure (.context p.depth, p.parts, .context)
      | [] => pure (.context p.depth, [], .context)

/-- A path as a lookup. -/
def lookup (p : Path (Option Location)) (requireTerminal : Bool) : Compiling Lookup := do
  if compiler.options.strict && p.parts.any String.isEmpty then
    Compiling.fail (.emptySegment p.spelling) p.mark
  let (base, steps, kind) ← compiler.start frames p
  pure
    { accessor := steps.foldl (fun a name => compiler.backend.member a name kind) base
      requireTerminal := requireTerminal && !p.parts.isEmpty
      spelling := p.spelling
      loc := p.mark }

/-! ## Calls -/

/-- A certain call. A known helper is called under its name only; any other name
may also be that of a function in the context. -/
def call (f : Form) (arguments : Compiling (List Operand × Table Operand)) :
    Compiling Call := do
  let simple := f.path.isSimple
  let known := if simple then compiler.options.knownHelpers.get? f.head else none
  match known with
  | some (.exactly expected) =>
    if expected != f.params.length then
      Compiling.fail (.helperArity f.head expected f.params.length) f.loc
  | some .any => pure ()
  | none =>
    if compiler.options.knownHelpersOnly then
      Compiling.fail (.unknownHelper f.path.spelling) f.loc
  let helper :=
    if simple then some (compiler.backend.member .helpers f.head .helper) else none
  let value ←
    match known with
    | some _ => pure none
    | none => some <$> compiler.lookup frames f.path false
  let (params, hash) ← arguments
  pure
    { name := f.path.spelling, helper, value, params, hash
      ids := if compiler.options.trackIds then some f.ids else none
      loc := f.loc }

/-- A bare name that is a helper or a value. -/
def ambiguousCall (f : Form) : Compiling Call := do
  let value ← compiler.lookup frames f.path compiler.options.strict
  pure
    { name := f.path.spelling
      helper := some (compiler.backend.member .helpers f.head .helper)
      value := some value
      params := []
      hash := []
      ids := none
      loc := f.loc }

mutual

/-- An argument, or a computed name, as an operand. -/
def operand : Expr (Option Location) → Compiling Operand
  | .string value _ _ => pure (.literal (.string value))
  | .number value _ _ => pure (.literal (.number value))
  | .boolean value _ _ => pure (.literal (.boolean value))
  | .undefined _ => pure (.literal .undefined)
  | .null _ => pure (.literal .null)
  | .path p => .lookup <$> compiler.lookup frames p false
  | .call ⟨path, params, hash, parenthesised, mark⟩ => do
    let form := Form.ofCall ⟨path, params, hash, parenthesised, mark⟩
    match form.kind compiler.options frames with
    | .call =>
      .call <$> compiler.call frames form (do
        let params ← operands params
        let hash ← hashOperands hash
        pure (params, hash))
    | .ambiguous => .ambiguous <$> compiler.ambiguousCall frames form
    | .value => .lookup <$> compiler.lookup frames path false

/-- Parameters as operands. -/
def operands : List (Expr (Option Location)) → Compiling (List Operand)
  | [] => pure []
  | e :: es => do
    let o ← operand e
    let os ← operands es
    pure (o :: os)

/-- Named arguments as operands. -/
def hashOperands : Option (Hash (Option Location)) → Compiling (Table Operand)
  | none => pure []
  | some ⟨pairs, _⟩ => pairOperands [] pairs

/-- Named arguments entered into a table. Of two with one name the later counts. -/
def pairOperands (table : Table Operand) :
    List (Pair (Option Location)) → Compiling (Table Operand)
  | [] => pure table
  | ⟨key, value, _⟩ :: rest => do
    let o ← operand value
    pairOperands (table.insert key o) rest

end

/-- The arguments of a form as operands. -/
def arguments (f : Form) : Compiling (List Operand × Table Operand) := do
  let params ← compiler.operands frames f.params
  let hash ← compiler.hashOperands frames f.hash
  pure (params, hash)

/-! ## Statements -/

/-- The operand whose value a tag shows. -/
def shown (e : Expr (Option Location)) : Compiling Operand :=
  let form := Form.ofExpr e
  match form.kind compiler.options frames with
  | .call => .call <$> compiler.call frames form (compiler.arguments frames form)
  | .ambiguous => .ambiguous <$> compiler.ambiguousCall frames form
  | .value => .lambda <$> compiler.lookup frames form.path compiler.options.strict

/-- What opens a block. -/
def blockKind (e : Expr (Option Location)) : Compiling BlockKind :=
  let form := Form.ofExpr e
  match form.kind compiler.options frames with
  | .call => .helper <$> compiler.call frames form (compiler.arguments frames form)
  | .ambiguous => .ambiguous <$> compiler.ambiguousCall frames form
  | .value =>
    (fun path => .section (.lambda path)) <$>
      compiler.lookup frames form.path compiler.options.strict

/-- A partial of a written name. -/
def fixedName (name : String) : PartialName :=
  .fixed name (compiler.backend.member .partials name .partialName)

/-- The name of a partial. -/
def partialName : Expr (Option Location) → Compiling PartialName
  | .call c => .computed <$> compiler.operand frames (.call c)
  | .path p => pure (compiler.fixedName p.spelling)
  | .string value _ _ => pure (compiler.fixedName value)
  | literal => pure (compiler.fixedName literal.spelling)

/-- The context of a partial, its only parameter. -/
def partialContext : List (Expr (Option Location)) → Compiling Operand
  | param :: _ => compiler.operand frames param
  | [] =>
    if compiler.options.explicitPartialContext then pure (.literal .undefined)
    else pure (.lookup { accessor := .context 0, spelling := "this" })

/-- The instructions so far with a partial. With `preventIndent` its indentation
becomes text before it. -/
def partialInvocation (name : Expr (Option Location)) (params : List (Expr (Option Location)))
    (hash : Option (Hash (Option Location))) (indent : String) (program : Option Nat)
    (loc : Option Location) (out : List Instruction) : Compiling (List Instruction) := do
  if params.length > 1 then Compiling.fail (.partialArguments params.length) loc
  Compiling.require Features.partials
  let name ← compiler.partialName frames name
  let context ← compiler.partialContext frames params
  let hash ← compiler.hashOperands frames hash
  let aside := compiler.options.preventIndent && !indent.isEmpty
  let out := if aside then compiler.backend.append out (.content indent) false else out
  let invocation : PartialInvocation :=
    { name, context, hash, indent := if aside then "" else indent, program, loc }
  pure (compiler.backend.append out (.partialCall invocation) true)

/-- What compiling some statements of a program gives: its instructions so far
and the programs nested in those statements, in the order of their numbers. -/
structure Progress where
  out : List Instruction := []
  nested : List Chunk := []

mutual

/-- The program numbered `id`, followed by those nested in it. -/
def program (frames : Frames) (id : Nat) : Program (Option Location) → Compiling (List Chunk)
  | ⟨body, blockParams, _, _⟩ => do
    if !blockParams.isEmpty then Compiling.require Features.blockParams
    let done ← statements (blockParams :: frames) (id + 1) body {}
    pure ({ instructions := done.out, blockParams := blockParams.length } :: done.nested)

/-- Statements after those that are done. Their nested programs are numbered from
`next` on, counting those already nested. -/
def statements (frames : Frames) (next : Nat) :
    List (Statement (Option Location)) → Progress → Compiling Progress
  | [], done => pure done
  | s :: rest, done => do
    let done ← statement frames next s done
    statements frames next rest done

/-- One statement after those that are done. -/
def statement (frames : Frames) (next : Nat) :
    Statement (Option Location) → Progress → Compiling Progress
  | .content c, done =>
    pure
      (if c.value.isEmpty then done
      else { done with out := compiler.backend.append done.out (.content c.value) false })
  | .comment _, done => pure done
  | .mustache m, done => do
    let value ← compiler.shown frames m.expr
    let append := Instruction.append value (m.escaped && !compiler.options.noEscape)
    pure { done with out := compiler.backend.append done.out append true }
  | .block b, done => block frames next b done
  | .partialCall p, done => do
    let out ←
      compiler.partialInvocation frames p.name p.params p.hash p.indent none p.mark done.out
    pure { done with out }
  | .partialBlock p, done => partialBlock frames next p done

/-- A block after the statements that are done. -/
def block (frames : Frames) (next : Nat) :
    Block (Option Location) → Progress → Compiling Progress
  | ⟨expr, body, inverse, openStrip, inverseStrip, closeStrip, close, loc⟩, done => do
    Compiling.checkBlock ⟨expr, body, inverse, openStrip, inverseStrip, closeStrip, close, loc⟩
    let kind ← compiler.blockKind frames expr
    let bodyId := next + done.nested.length
    let bodyChunks ← programs frames bodyId body
    let inverseId := bodyId + bodyChunks.length
    let inverseChunks ← programs frames inverseId inverse
    let call : BlockCall :=
      { kind
        name := (Form.ofExpr expr).path.spelling
        program := body.map fun _ => bodyId
        inverse := inverse.map fun _ => inverseId
        loc }
    pure
      { out := compiler.backend.append done.out (.block call) true
        nested := done.nested ++ bodyChunks ++ inverseChunks }

/-- A partial with a body, after the statements that are done. -/
def partialBlock (frames : Frames) (next : Nat) :
    PartialBlock (Option Location) → Progress → Compiling Progress
  | ⟨name, params, hash, body, _, _, loc⟩, done => do
    let bodyId := next + done.nested.length
    let bodyChunks ← program frames bodyId body
    let out ← compiler.partialInvocation frames name params hash "" (some bodyId) loc done.out
    pure { out, nested := done.nested ++ bodyChunks }

/-- The program, if there is one, with those nested in it. -/
def programs (frames : Frames) (id : Nat) :
    Option (Program (Option Location)) → Compiling (List Chunk)
  | none => pure []
  | some p => program frames id p

end

/-- The compiled form of a tree. -/
def compile (tree : Tree.Located) : Except CompileError Spec := do
  let (programs, features) ← (compiler.program [] 0 tree).run Features.none
  let stamp := compiler.backend.stamp
  pure
    { stamp := { stamp with features := stamp.features.union features }
      main := 0
      programs
      options := compiler.options
      buffer := compiler.backend.buffer }

end Compiler

end Stencil.Code
