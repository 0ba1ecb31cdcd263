import Stencil.Render.Evaluate

/-!
# Rendering

Programs are run level by level. `invokeAt n` runs a program when `n` levels of
nesting are left: the instructions are evaluated in a frame whose nested programs
run with one level less, and with none left there is an error. So rendering ends
whatever the code is, and no more programs are ever active than the limit allows.
-/

set_option autoImplicit false

namespace Stencil.Render

open Stencil.Code (Spec Options Chunk)

/-- What renderings are given: the environment, and how partials are found. -/
structure Renderer (m : Type → Type := Run) where
  env : Environment
  partialSpec : Options → String → m (Option Spec)

namespace Renderer

/-- The renderer that compiles a partial each time it is called. -/
def uncached (env : Environment) : Renderer :=
  ⟨env, fun options name => .ofExcept (env.partialSpec options name)⟩

/-- The renderer that keeps compiled partials, for renderings of a template with the
given options. -/
def cached (env : Environment) (options : Options) : Renderer :=
  let library := Library.ofEnvironment env options
  ⟨env, fun caller name => .ofExcept (library.partialSpec caller name)⟩

/-- The instructions of a program. -/
def chunk (spec : Spec) (id : Nat) : Except TemplateError Chunk :=
  match spec.program? id with
  | some c => .ok c
  | none => .error (.ofRuntime (.invalidProgram id))

section

variable {m : Type → Type} [Monad m] [Carrier m] (r : Renderer m)

/-- The error of one level too many. -/
def tooDeep {α : Type} : m α := Carrier.ofRun (.failRuntime (.depthExceeded r.env.maxDepth))

/-- The text of a program when so many levels of nesting are left. -/
def invokeAt : Nat → Visit → m String
  | 0, _ => r.tooDeep
  | level + 1, visit =>
    let ⟨spec, id, scope⟩ := visit
    let frame : Frame m := ⟨r.env, r.partialSpec, invokeAt level, level⟩
    Carrier.nested visit do
      let c ← Carrier.ofRun (.ofExcept (chunk spec id))
      capture spec.buffer spec.options.strict (Place.piece ⟨frame, spec, scope⟩) c.instructions

/-- The text of a template. -/
def text (spec : Spec) (context : Value) (blockParams : List Value) : m String := do
  Carrier.ofRun (.ofRuntime spec.check)
  r.invokeAt r.env.maxDepth ⟨spec, spec.main, Scope.root context r.env.data blockParams⟩

end

variable (r : Renderer) {σ : Type}

/-- Hands the output of a template to a sink. -/
def renderInto (sink : Sink σ) (state : σ) (spec : Spec) (context : Value)
    (blockParams : List Value) : Gathered σ :=
  let scope := Scope.root context r.env.data blockParams
  let visit : Visit := ⟨spec, spec.main, scope⟩
  match spec.check, r.env.maxDepth with
  | .error e, _ => ⟨[], state, .error (.ofRuntime e)⟩
  | .ok _, 0 => ⟨[], state, .error (.ofRuntime (.depthExceeded 0))⟩
  | .ok _, level + 1 =>
    let frame : Frame := ⟨r.env, r.partialSpec, r.invokeAt level, level⟩
    match chunk spec spec.main with
    | .error e => ⟨[.entered visit, .left], state, .error e⟩
    | .ok c =>
      let done :=
        gather sink spec.options.strict (Place.piece ⟨frame, spec, scope⟩) c.instructions state
      { done with trace := .entered visit :: (done.trace ++ [.left]) }

/-- The output of a template, gathered in the way that its code asks for. -/
def render (spec : Spec) (context : Value) (blockParams : List Value) : Run String :=
  match spec.buffer with
  | .string => (r.renderInto Sink.string "" spec context blockParams).run id
  | .fragments => (r.renderInto Sink.fragments [] spec context blockParams).run joinFragments

end Renderer

/-- The output of a template in an environment. -/
def render (env : Environment) (spec : Spec) (context : Value) (blockParams : List Value) :
    Run String :=
  (Renderer.cached env spec.options).render spec context blockParams

/-- The output of a template in an environment, handed to a sink. -/
def renderInto {σ : Type} (env : Environment) (sink : Sink σ) (state : σ) (spec : Spec)
    (context : Value) : Gathered σ :=
  (Renderer.cached env spec.options).renderInto sink state spec context []

/-- Reads, compiles and renders a text with default options. -/
def renderText (env : Environment) (text : String) (context : Value) : Run String := do
  let spec ← Run.ofExcept (({} : Code.Compiler).ofText none text)
  render env spec context []

end Stencil.Render
