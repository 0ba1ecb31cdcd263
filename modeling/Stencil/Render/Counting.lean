import Stencil.Render.Rendering

/-!
# Counting

Programs may refer to each other in a circle and partials may call themselves, so nothing about
the code bounds how deep a rendering goes. A rendering may keep count of the programs that are
active instead: the count goes up when a program begins and down when it is left, however it
ends, and a program that would take the count over the limit is refused.

`Counting` is what carries such a rendering: runs that start from the count and say what it is
after them. How deep programs are nested is bounded by a number of steps, and without an answer
when these are used up.
-/

set_option autoImplicit false

namespace Stencil.Render

open Stencil.Code (Spec)

/-- Runs that start from the number of active programs and say what it is after them. There is no
answer where programs are nested more deeply than was allowed for. -/
def Counting (α : Type) : Type := Nat → Option (Run α × Nat)

namespace Counting

variable {α β : Type}

/-- What follows a run, from the count that it has left. An error ends the whole. -/
def goOn (next : α → Counting β) : Run α × Nat → Option (Run β × Nat)
  | (⟨trace, .error e⟩, count) => some (⟨trace, .error e⟩, count)
  | (⟨trace, .ok a⟩, count) =>
    (next a count).map fun done => (⟨trace ++ done.1.trace, done.1.result⟩, done.2)

/-- One run after another. -/
protected def bind (r : Counting α) (next : α → Counting β) : Counting β := fun active =>
  (r active).bind (goOn next)

instance : Monad Counting where
  pure a active := some (pure a, active)
  bind := Counting.bind

/-- What is done with the run leaves the count as it is. -/
def mapRun (f : Run α → Run β) (r : Counting α) : Counting β := fun active =>
  (r active).map fun done => (f done.1, done.2)

instance : Carrier Counting where
  ofRun r active := some (r, active)
  attempt := mapRun Run.attempt
  recover strict := mapRun (Run.recover strict)
  nested visit := mapRun (Run.nested visit)

end Counting

/-- What is done while one more program is active. It is refused if that would be more than the
limit, and when it is done there is one less again, however it ended. -/
def guarded {β : Type} (limit : Nat) (refused : β) (done : Nat → Option (β × Nat)) :
    Nat → Option (β × Nat) := fun active =>
  if limit < active + 1 then some (refused, active)
  else (done (active + 1)).map fun ended => (ended.1, ended.2 - 1)

/-- Hands the pieces of some instructions to a sink, where active programs are counted. Unless
`strict`, an instruction that fails with a recoverable error gives no piece. -/
def gatherCounting {ι σ : Type} (sink : Sink σ) (strict : Bool) (piece : ι → Counting Append) :
    List ι → σ → Nat → Option (Gathered σ × Nat)
  | [], state, active => some (⟨[], state, .ok ()⟩, active)
  | i :: rest, state, active =>
    let taken : Counting (Option σ) := Carrier.recover strict do
      let a ← piece i
      Carrier.ofRun (.ofRuntime (sink.take state a))
    match taken active with
    | none => none
    | some (⟨trace, .error e⟩, count) => some (⟨trace, state, .error e⟩, count)
    | some (⟨trace, .ok next⟩, count) =>
      (gatherCounting sink strict piece rest (next.getD state) count).map fun done =>
        ({ done.1 with trace := trace ++ done.1.trace }, done.2)

namespace Renderer

variable (r : Renderer)

/-- The place of a visit where programs are counted, the one of the visit among them. -/
def countingPlace (below : Visit → Counting String) (active : Nat) (v : Visit) : Place Counting :=
  let partialSpec options name := Carrier.ofRun (r.partialSpec options name)
  ⟨⟨r.env, partialSpec, below, r.env.maxDepth - active⟩, v.spec, v.scope⟩

/-- The text of a program, where active programs are counted and nested within a number of
steps. -/
def invokeCounting : (steps : Nat) → Visit → Counting String
  | 0, _ => fun _ => none
  | steps + 1, visit =>
    guarded r.env.maxDepth (.failRuntime (.depthExceeded r.env.maxDepth)) fun active =>
      let body : Counting String := Carrier.nested visit do
        let c ← Carrier.ofRun (.ofExcept (chunk visit.spec visit.program))
        capture visit.spec.buffer visit.spec.options.strict
          (r.countingPlace (invokeCounting steps) active visit).piece c.instructions
      body active

/-- Hands the output of a template to a sink, where active programs are counted. None is active at
the start. -/
def countingInto {σ : Type} (steps : Nat) (sink : Sink σ) (state : σ) (spec : Spec)
    (context : Value) (blockParams : List Value) : Option (Gathered σ × Nat) :=
  let visit : Visit := ⟨spec, spec.main, Scope.root context r.env.data blockParams⟩
  match spec.check with
  | .error e => some (⟨[], state, .error (.ofRuntime e)⟩, 0)
  | .ok _ =>
    let refused := ⟨[], state, .error (.ofRuntime (.depthExceeded r.env.maxDepth))⟩
    let main active :=
      match chunk spec spec.main with
      | .error e => some (⟨[.entered visit, .left], state, .error e⟩, active)
      | .ok c =>
        let piece := (r.countingPlace (r.invokeCounting steps) active visit).piece
        (gatherCounting sink spec.options.strict piece c.instructions state active).map
          fun done => ({ done.1 with trace := .entered visit :: (done.1.trace ++ [.left]) }, done.2)
    guarded r.env.maxDepth refused main 0

end Renderer

end Stencil.Render
