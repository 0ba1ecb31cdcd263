import Stencil.Render.Environment
import Stencil.Render.Scope
import Stencil.Render.Sink
import Stencil.Text.Entities
import Stencil.Text.Indent

/-!
# Evaluation

From an instruction and a scope to a piece of output. Accessors are followed,
operands evaluated, helpers called, sections and partials rendered.

Nested programs are not run here: a `Frame` says how they are, one level further
down, and how partials are found. Everything in this module is therefore a recursion
on the instruction alone, whatever it is that carries evaluation.
-/

set_option autoImplicit false

namespace Stencil.Render

open Stencil.Code

/-- What evaluation at one level of nesting is given. -/
structure Frame (m : Type → Type := Run) where
  env : Environment
  /-- The code of a partial for a caller with the given options, if there is such a
  partial. -/
  partialSpec : Options → String → m (Option Spec)
  /-- The text of a program, one level further down. -/
  below : Visit → m String
  /-- How many levels are left. -/
  level : Nat

/-! ## Lookups -/

/-- The error of a step that has nothing to go on from, or nowhere to end. -/
def missingProperty {α : Type} (name : String) (path : Lookup) : Except RuntimeError α :=
  .error (.missingProperty name path.spelling path.loc)

/-- One step from a value to a member of it. Nothing follows from null and
undefined, which is an error where the options say so; and a path that must name an
existing property is in error when its last step does not. -/
def memberOf (options : Options) (path : Lookup) (terminal : Bool) (parent : Value)
    (name : String) : Except RuntimeError Value :=
  if parent.isNullish then
    if options.strict || options.assumeObjects then missingProperty name path else .ok .undefined
  else if terminal && path.requireTerminal && !parent.hasProperty name then
    missingProperty name path
  else .ok (parent.property name)

/-- The value of an accessor. `terminal` is true for the accessor of a whole path and
false for what comes before its last step. -/
def resolve (env : Environment) (options : Options) (scope : Scope) (path : Lookup) :
    (terminal : Bool) → Accessor → Except RuntimeError Value
  | _, .context depth => .ok ((scope.contexts[depth]?).getD .undefined)
  | _, .blockParam depth index => .ok (scope.blockParam depth index)
  | _, .anyContext name =>
    .ok (((scope.contexts.map fun c => c.property name).find? fun v => !v.isNullish).getD
      .undefined)
  | _, .data _ | _, .helpers | _, .partials => .ok .undefined
  | _, .member .helpers name _ =>
    .ok (((env.helpers.get? name).map Value.function).getD .undefined)
  | _, .member .partials _ _ => .ok .undefined
  | terminal, .member (.data depth) name _ =>
    match scope.data? depth name with
    | some v => .ok v
    | none =>
      if terminal && path.requireTerminal then missingProperty name path else .ok .undefined
  | terminal, .member base name _ =>
    match resolve env options scope path false base with
    | .ok parent => memberOf options path terminal parent name
    | .error e => .error e

/-- The value of a path. -/
def lookup (env : Environment) (options : Options) (scope : Scope) (path : Lookup) :
    Except RuntimeError Value :=
  resolve env options scope path true path.accessor

/-- The value of an accessor that stands for itself. -/
def lookupBare (env : Environment) (options : Options) (scope : Scope) (accessor : Accessor) :
    Except RuntimeError Value :=
  lookup env options scope { accessor, spelling := "" }

/-- The value of a literal. -/
def literalValue : Literal → Value
  | .string s => .string s
  | .number x => .float x
  | .boolean b => .bool b
  | .undefined => .undefined
  | .null => .null

/-- What the name of a call stands for. -/
inductive Callee where
  /-- A registered helper. -/
  | helper (f : FunctionId)
  /-- A function that was found as a value. -/
  | lambda (f : FunctionId)
  | value (v : Value)

/-- What the name of a call stands for: a registered helper if there is one, else
what the path finds. -/
def callee (env : Environment) (options : Options) (scope : Scope) (helper : Option Accessor)
    (value : Option Lookup) : Except RuntimeError Callee := do
  let registered ←
    match helper with
    | some accessor => lookupBare env options scope accessor
    | none => .ok .undefined
  match registered with
  | .function f => .ok (.helper f)
  | _ =>
    match value with
    | none => .ok (.value .undefined)
    | some path =>
      match ← lookup env options scope path with
      | .function f => .ok (.lambda f)
      | v => .ok (.value v)

/-! ## Helpers -/

/-- A place in a template: the code, the scope, and the level of nesting. -/
structure Place (m : Type → Type := Run) where
  frame : Frame m
  spec : Spec
  scope : Scope

namespace Place

/-- The programs of a block, by part. -/
structure Parts where
  body : Option Nat := none
  inverse : Option Nat := none

/-- The program of a part. -/
def Parts.program (p : Parts) : Part → Option Nat
  | .body => p.body
  | .inverse => p.inverse

variable {m : Type → Type} [Monad m] [Carrier m] (at_ : Place m)

/-- The value of a path at a place. -/
def lookup (path : Lookup) : m Value :=
  Carrier.ofRun (.ofRuntime (Render.lookup at_.frame.env at_.spec.options at_.scope path))

/-- What the name of a call stands for at a place. -/
def callee (helper : Option Accessor) (value : Option Lookup) : m Callee :=
  Carrier.ofRun (.ofRuntime (Render.callee at_.frame.env at_.spec.options at_.scope helper value))

/-- The visit of a nested program. -/
def nestedVisit (id : Nat) (context : Value) (args : BlockArgs) : Visit :=
  ⟨at_.spec, id, (at_.scope.enter context args.blockParams).withData args.data⟩

/-- The text of a nested program, or of none. -/
def invoke (program : Option Nat) (context : Value) (args : BlockArgs) : m String :=
  match program with
  | none => pure ""
  | some id => at_.frame.below (at_.nestedVisit id context args)

/-- The number of block parameters that a program declares. -/
def declared (program : Option Nat) : Nat :=
  ((program.bind at_.spec.program?).map Chunk.blockParams).getD 0

/-- What a helper is told about a call at a place. -/
def helperCall (site : List Nat) (name : String) (params : List Value) (hash : Table Value)
    (ids : Option CallIds) (loc : Option Text.Location) (parts : Parts) : HelperCall where
  name := name
  params := params
  hash := hash
  ids := ids.map CallIds.params
  hashIds := ids.map CallIds.hash
  loc := loc
  this := at_.scope.context
  data := fun name => (at_.scope.data? 0 name).getD .undefined
  hasBody := parts.body.isSome
  hasInverse := parts.inverse.isSome
  bodyParams := at_.declared parts.body
  inverseParams := at_.declared parts.inverse
  identity := .made at_.frame.level site

/-- Carries out what a function does for a call, given how it hands over to another. A
number that stands for no function gives nothing. -/
def carryOut (parts : Parts) (f : FunctionId) (call : HelperCall)
    (handOver : List Value → m Value) : m Value :=
  match at_.frame.env.function? f with
  | none => pure .undefined
  | some helper =>
    (helper call).run
      (fun part context args => at_.invoke (parts.program part) context args) handOver

/-- Calls a function. It may hand over to a function among its parameters, which has
fewer parameters, so as many of these steps are enough as there are parameters. -/
def callFunction (parts : Parts) : (bound : Nat) → FunctionId → HelperCall → m Value
  | 0, f, call => at_.carryOut parts f call fun _ => pure .undefined
  | bound + 1, f, call =>
    at_.carryOut parts f call fun
      | .function g :: rest => callFunction parts bound g { call with params := rest }
      | _ => pure .undefined

/-- Calls a function with all its parameters. -/
def apply (parts : Parts) (f : FunctionId) (call : HelperCall) : m Value :=
  at_.callFunction parts call.params.length f call

/-! ## Operands -/

mutual

/-- The value of an operand. -/
def operand (site : List Nat) : Operand → m Value
  | .literal l => pure (literalValue l)
  | .lookup path => at_.lookup path
  | .lambda path => do
    match ← at_.lookup path with
    | .function f => at_.apply {} f (at_.helperCall site path.spelling [] [] none path.loc {})
    | v => pure v
  | .call c => call site c
  | .ambiguous c => ambiguous site c

/-- The value of a certain call. -/
def call (site : List Nat) : Call → m Value
  | ⟨name, helper, value, params, hash, ids, loc⟩ => do
    match ← at_.callee helper value with
    | .helper f | .lambda f =>
      let params ← operands site 0 params
      let hash ← hashValues site 0 hash
      at_.apply {} f (at_.helperCall site name params hash ids loc {})
    | .value v =>
      if params.isEmpty && hash.isEmpty then pure v
      else Carrier.ofRun (.failRuntime (.missingHelper name loc))

/-- The value of a name that is a helper or a value. -/
def ambiguous (site : List Nat) : Call → m Value
  | ⟨name, helper, value, _, hash, ids, loc⟩ => do
    match ← at_.callee helper value with
    | .helper f | .lambda f =>
      let hash ← hashValues site 0 hash
      at_.apply {} f (at_.helperCall site name [] hash ids loc {})
    | .value v => pure v

/-- The values of parameters, of which the first has the given number. -/
def operands (site : List Nat) (index : Nat) : List Operand → m (List Value)
  | [] => pure []
  | o :: rest => do
    let v ← operand (index :: 0 :: site) o
    let vs ← operands site (index + 1) rest
    pure (v :: vs)

/-- The values of named arguments, of which the first has the given number. -/
def hashValues (site : List Nat) (index : Nat) : List (String × Operand) → m (Table Value)
  | [] => pure []
  | (name, o) :: rest => do
    let v ← operand (index :: 1 :: site) o
    let vs ← hashValues site (index + 1) rest
    pure ((name, v) :: vs)

end

/-! ## Blocks -/

/-- The body of a section for every item from the given place on. -/
def sectionItems (body : Option Nat) : Nat → List Value → m String
  | _, [] => pure ""
  | index, item :: rest => do
    let data : Table Value :=
      [("key", .int index), ("index", .int index), ("first", .bool (index == 0)),
        ("last", .bool rest.isEmpty)]
    let text ← at_.invoke body item { data, blockParams := [item, .int index] }
    let more ← sectionItems body (index + 1) rest
    pure (text ++ more)

/-- A block over a value: true and false pick a part, an array repeats the body, and
any other value becomes its context. -/
def overValue (parts : Parts) (v : Value) : m String :=
  let this := at_.scope.context
  match v with
  | .bool true => at_.invoke parts.body this {}
  | .bool false | .undefined | .null | .array _ [] => at_.invoke parts.inverse this {}
  | .array _ items => at_.sectionItems parts.body 0 items
  | other => at_.invoke parts.body other {}

/-- The text of a block. -/
def block (b : BlockCall) : m String :=
  let parts : Parts := ⟨b.program, b.inverse⟩
  match b.kind with
  | .helper c => do
    match ← at_.callee c.helper c.value with
    | .helper f | .lambda f =>
      let params ← at_.operands [] 0 c.params
      let hash ← at_.hashValues [] 0 c.hash
      let v ← at_.apply parts f (at_.helperCall [] c.name params hash c.ids c.loc parts)
      pure v.text
    | .value _ => Carrier.ofRun (.failRuntime (.missingHelper c.name c.loc))
  | .ambiguous c => do
    match ← at_.callee c.helper c.value with
    | .helper f =>
      let hash ← at_.hashValues [] 0 c.hash
      let v ← at_.apply parts f (at_.helperCall [] c.name [] hash c.ids c.loc parts)
      pure v.text
    | .lambda f =>
      let hash ← at_.hashValues [] 0 c.hash
      let v ← at_.apply parts f (at_.helperCall [] c.name [] hash c.ids c.loc parts)
      at_.overValue parts v
    | .value v => at_.overValue parts v
  | .section o => do
    -- The place that the only parameter of a call has.
    let v ← at_.operand [0, 0] o
    at_.overValue parts v

/-! ## Partials -/

/-- The name by which a partial block's body is called from inside the partial. -/
def partialBlockName : String := "@partial-block"

/-- The name of a partial. -/
def partialName : PartialName → m String
  | .fixed name accessor =>
    match accessor with
    | .member .partials member _ => pure member
    | .partials => pure name
    | other => do
      let v ← Carrier.ofRun
        (.ofRuntime (lookupBare at_.frame.env at_.spec.options at_.scope other))
      pure (v.str?.getD name)
  | .computed o => do
    let v ← at_.operand [0] o
    pure v.text

/-- The context of a partial with its named arguments entered: an object with the
entries of the context, if it is an object, and of the arguments. Without arguments
it is the context itself. -/
def partialContext (context : Value) (hash : Table Value) : Value :=
  if hash.isEmpty then context
  else
    .object (.made at_.frame.level [2])
      (hash.foldl (fun t e => Table.insert e.1 e.2 t) (context.entries?.getD []))

/-- The visit of the body of a partial block, called from inside the partial. It sees
the scope of the block. -/
def bodyVisit (body : PartialBody) (context : Value) : Visit :=
  let scope := body.scope.enter context []
  ⟨body.spec, body.program,
    { scope with data := [] :: at_.scope.data, partialBlock := body.scope.partialBlock }⟩

/-- The visit of a registered partial. With a program of its own, the call lends it
that as the body of a partial block. -/
def partialVisit (spec : Spec) (program : Option Nat) (context : Value) : Visit :=
  let scope :=
    match program with
    | some id =>
      at_.scope.withPartialBlock (some { spec := at_.spec, program := id, scope := at_.scope })
    | none => at_.scope
  ⟨spec, spec.main, scope.forPartial context⟩

/-- The text of a partial whose code was found, or of one that is not registered, for
which the call's own program stands in. -/
def foundText (name : String) (program : Option Nat) (context : Value) : Option Spec → m String
  | some spec => at_.frame.below (at_.partialVisit spec program context)
  | none =>
    if program.isSome then at_.invoke program context {}
    else Carrier.ofRun (.failRuntime (.missingPartial name))

/-- The text of a partial that is called by the given name. -/
def partialText (name : String) (program : Option Nat) (context : Value) : m String :=
  if name = partialBlockName then
    match at_.scope.partialBlock with
    | some body => at_.frame.below (at_.bodyVisit body context)
    | none => Carrier.ofRun (.failRuntime (.missingPartial name))
  else do
    let found ← at_.frame.partialSpec at_.spec.options name
    at_.foundText name program context found

/-- The text of a partial, indented. -/
def partialInvocation (p : PartialInvocation) : m String := do
  let name ← at_.partialName p.name
  let context ← at_.operand [1] p.context
  let hash ← at_.hashValues [2] 0 p.hash
  let text ← at_.partialText name p.program (at_.partialContext context hash)
  pure (Text.indentLines p.indent text)

/-! ## Instructions -/

/-- The piece of output of an instruction. -/
def piece : Instruction → m Append
  | .content text => pure ⟨text, false⟩
  | .append o escape => do
    let v ← at_.operand [] o
    pure ⟨if escape && !v.isSafe then Text.escape v.text else v.text, true⟩
  | .block b => do
    let text ← at_.block b
    pure ⟨text, true⟩
  | .partialCall p => do
    let text ← at_.partialInvocation p
    pure ⟨text, true⟩

end Place

end Stencil.Render
