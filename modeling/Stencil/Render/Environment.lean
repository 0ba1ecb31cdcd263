import Stencil.Code.Accept
import Stencil.Code.Source
import Stencil.Render.Builtin

/-!
# Environments

Everything that a rendering finds by name: helpers, partials, global data variables;
and the limit of nesting.

A partial that is registered as text is compiled with the options of the template
that calls it. `Environment.partialSpec` does that anew each time. `Library` keeps
what was compiled: it has an entry for every text under every set of options that
can come up, and an entry is compiled when it is first needed.
-/

set_option autoImplicit false

namespace Stencil.Render

open Stencil.Code (Spec Options Compiler)

/-- A registered partial. -/
inductive Partial where
  | compiled (spec : Spec)
  | source (text : String)

/-- What a rendering finds by name. -/
structure Environment where
  helpers : Table FunctionId := []
  /-- The functions that are not built in, by number. -/
  customs : List Helper := []
  partials : Table Partial := []
  /-- The global data variables. -/
  data : Table Value := []
  /-- How many programs and partials may be nested. -/
  maxDepth : Nat := 64

namespace Environment

/-- The environment that has the built-in helpers and nothing else. -/
def builtins : Environment := { helpers := Builtin.table }

/-- What a function does. -/
def function? (env : Environment) : FunctionId → Option Helper
  | .builtin b => some b.helper
  | .custom n => env.customs[n]?

/-- The code of a partial for a template that was compiled with the given options,
if there is such a partial. -/
def partialSpec (env : Environment) (options : Options) (name : String) :
    Except TemplateError (Option Spec) :=
  match env.partials.get? name with
  | none => .ok none
  | some (.compiled s) => (s.check.mapError .ofRuntime).map fun _ => some s
  | some (.source text) => (({ options : Compiler }).ofText (some name) text).map some

end Environment

/-! ## Libraries of partials -/

/-- The compiled form of a text under some options, once it is needed. -/
structure LibraryEntry where
  name : String
  options : Options
  spec : Thunk (Except TemplateError Spec)

/-- The partials of an environment as they are compiled. -/
structure Library where
  env : Environment
  entries : List LibraryEntry

namespace Library

/-- The options under which the texts of an environment can be compiled while a
template with the given options renders: these options, and those of partials that
are compiled already. -/
def callers (env : Environment) (options : Options) : List Options :=
  options :: env.partials.filterMap fun e =>
    match e.2 with
    | .compiled s => some s.options
    | .source _ => none

/-- The entries of every text of an environment under some options. -/
def entriesFor (env : Environment) (options : Options) : List LibraryEntry :=
  env.partials.names.filterMap fun name =>
    match env.partials.get? name with
    | some (.source text) =>
      some
        { name, options
          spec := Thunk.mk fun _ => ({ options : Compiler }).ofText (some name) text }
    | _ => none

/-- The library for renderings of a template with the given options. -/
def ofEnvironment (env : Environment) (options : Options) : Library :=
  ⟨env, (callers env options).flatMap (entriesFor env)⟩

/-- The code of a partial for a template that was compiled with the given options,
if there is such a partial. -/
def partialSpec (l : Library) (options : Options) (name : String) :
    Except TemplateError (Option Spec) :=
  match l.entries.find? fun e => e.name == name && e.options.alike options with
  | some e => e.spec.get.map some
  | none => l.env.partialSpec options name

end Library

end Stencil.Render
