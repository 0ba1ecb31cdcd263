import Stencil.Render.Rendering

/-!
# Caching

A rendering may compile the text of a partial when it first calls the partial, and keep the code
for as long as it goes on: under the name of the partial, one piece of code for each set of options
that it was called with. What was kept is not lost when the rendering comes to an error that it
goes on after.

`Caching` is what carries such a rendering: runs that start from what is kept, and say what is kept
after them.
-/

set_option autoImplicit false

namespace Stencil.Render

open Stencil.Code (Spec Options Compiler)

/-- The code of partials by name. The pieces of code under one name were compiled with
different options. -/
abbrev Cache : Type := Table (List Spec)

namespace Cache

/-- The pieces of code that are kept under a name. -/
def variants (cache : Cache) (name : String) : List Spec := (cache.get? name).getD []

/-- The cache with one more piece of code under a name. -/
def keep (cache : Cache) (name : String) (s : Spec) : Cache :=
  cache.insert name (cache.variants name ++ [s])

end Cache

/-- The code of a partial for a template that was compiled with the given options, if there is
such a partial, and what is kept afterwards. A text is compiled only if what is kept holds no code
of it with these options. -/
def Environment.resolvePartial (env : Environment) (options : Options) (name : String)
    (cache : Cache) : Except TemplateError (Option Spec) × Cache :=
  match env.partials.get? name with
  | none => (.ok none, cache)
  | some (.compiled s) => ((s.check.mapError .ofRuntime).map fun _ => some s, cache)
  | some (.source text) =>
    match (cache.variants name).find? fun s => s.options.alike options with
    | some s => (.ok (some s), cache)
    | none =>
      match ({ options : Compiler }).ofText (some name) text with
      | .error e => (.error e, cache)
      | .ok s => (.ok (some s), cache.keep name s)

/-! ## Runs that keep code -/

/-- Runs that start from what is kept and say what is kept after them. -/
def Caching (α : Type) : Type := Cache → Run α × Cache

namespace Caching

variable {α β : Type}

/-- One run after another, which starts from what the first has kept. -/
protected def bind (r : Caching α) (next : α → Caching β) : Caching β := fun cache =>
  match r cache with
  | (⟨trace, .error e⟩, kept) => (⟨trace, .error e⟩, kept)
  | (⟨trace, .ok a⟩, kept) =>
    let done := next a kept
    (⟨trace ++ done.1.trace, done.1.result⟩, done.2)

instance : Monad Caching where
  pure a cache := (pure a, cache)
  bind := Caching.bind

/-- What is kept stays, however a run ends. -/
instance : Carrier Caching where
  ofRun r cache := (r, cache)
  attempt r cache := ((r cache).1.attempt, (r cache).2)
  recover strict r cache := ((r cache).1.recover strict, (r cache).2)
  nested visit r cache := ((r cache).1.nested visit, (r cache).2)

end Caching

/-- The renderer that compiles a text when it is first needed and then keeps the code. -/
def Renderer.caching (env : Environment) : Renderer Caching where
  env := env
  partialSpec options name cache :=
    let found := env.resolvePartial options name cache
    (.ofExcept found.1, found.2)

/-- The text of a template where code is kept. Nothing is kept at the start. -/
def renderCaching (env : Environment) (spec : Spec) (context : Value) (blockParams : List Value) :
    Run String :=
  ((Renderer.caching env).text spec context blockParams []).1

end Stencil.Render
