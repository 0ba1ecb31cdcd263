import Stencil.Proofs.Code.Erasing
import Stencil.Proofs.Code.ContextPath
import Stencil.Proofs.Render.Backends
import Stencil.Proofs.Render.Noteless
import Stencil.Render.Stock

/-!
# Options that take notes

Two options of the compiler say what is noted in code: `trackLocations`, where in the text things
were read, and `trackIds`, by which paths the arguments of calls were given. What is noted is for
errors and for functions that ask for it, so nothing else depends on these options
(`trackLocations_irrelevant`, `trackIds_irrelevant`). Both are cases of one statement: a tree that
is compiled where notes are taken and where they are not is rendered alike (`runsAlike_renderTree`).

There is one way besides in which the paths of arguments show. Where they are known, `with` opens a
frame of data for the path of its context; that path is a data variable then, and what was one frame
up is two frames up (`ids_told`). So a template must not name that variable
(`Statement.AvoidsContextPath`), and where it climbs to a frame further up, it must not climb past a
frame of this kind (`Visit.passesNoPath`).
-/

set_option autoImplicit false

namespace Stencil.Render

open Stencil.Code (Erasure Options Compiler Spec Backend)
open Stencil.Tree (Program Statement)

variable {n : Erasure} {o : Options}

/-! ## Runs that are alike -/

/-- Two runs that end alike give the same, or fail with the same error up to notes. -/
theorem EndsAlike.mapError_eq {α : Type} {x y : Except TemplateError α} (h : EndsAlike n Eq x y) :
    x.mapError n.error = y.mapError n.error := by
  cases h with
  | ok heq => exact congrArg Except.ok heq
  | error he => exact congrArg Except.error he

/-- Two runs that end with the two texts end with different ones. -/
theorem exists_ne_of_texts {r s : Run String} {a b : String}
    (h : (r.result.toOption.any (·.toList == a.toList) &&
      s.result.toOption.any (·.toList == b.toList)) = true) (hne : a.toList ≠ b.toList) :
    ∃ x y, r.result = .ok x ∧ s.result = .ok y ∧ x ≠ y := by
  obtain ⟨hr, hs⟩ := Bool.and_eq_true_iff.1 h
  obtain ⟨x, hx, hxa⟩ := exists_ok_of_any hr
  obtain ⟨y, hy, hyb⟩ := exists_ok_of_any hs
  refine ⟨x, y, hx, hy, ?_⟩
  rintro rfl
  exact hne ((eq_of_beq hxa).symm.trans (eq_of_beq hyb))

/-! ## Partials -/

theorem Library.options_of_mem {env : Environment} {e : LibraryEntry}
    (h : e ∈ Library.entriesFor env o) : e.options = o := by
  obtain ⟨name, -, hsome⟩ := List.mem_filterMap.1 h
  split at hsome
  · cases hsome
    rfl
  · cases hsome

/-- Every text has an entry under every set of options. -/
theorem Library.exists_entry (o : Options) {env : Environment} {name text : String}
    (h : env.partials.get? name = some (.source text)) :
    ∃ e ∈ Library.entriesFor env o, e.name = name := by
  refine ⟨_, List.mem_filterMap.2 ⟨name, ?_, by rw [h]⟩, rfl⟩
  exact List.mem_map_of_mem (Table.mem_of_get? h)

/-- What a library has under its own options is what the environment has. -/
theorem Library.partialSpec_own (env : Environment) (o : Options) (name : String) :
    (Library.ofEnvironment env o).partialSpec o name = env.partialSpec o name := by
  unfold Library.partialSpec
  split
  next e he =>
    obtain ⟨text, htext, hspec⟩ := Library.spec_of_mem (List.mem_of_find?_eq_some he)
    have hwanted := List.find?_some he
    simp only [Bool.and_eq_true, beq_iff_eq] at hwanted
    obtain ⟨rfl, -⟩ := hwanted
    -- Entries under the library's own options come first, so the one that is found is among them.
    have hown : e.options = o := by
      obtain ⟨first, hmem, hname⟩ := Library.exists_entry o htext
      have hfirst : (first.name == e.name && first.options.alike o) = true := by
        rw [Library.options_of_mem hmem, hname, beq_self_eq_true, Options.alike_refl, Bool.and_self]
      have hentries : (Library.ofEnvironment env o).entries =
          Library.entriesFor env o ++ (Library.callers env o).tail.flatMap
            (Library.entriesFor env) := rfl
      rw [hentries, List.find?_append] at he
      cases hfound : (Library.entriesFor env o).find? fun e' =>
          e'.name == e.name && e'.options.alike o with
      | none => exact absurd hfirst (List.find?_eq_none.1 hfound first hmem)
      | some e' =>
        rw [hfound] at he
        obtain rfl := Option.some.inj he
        exact Library.options_of_mem (List.mem_of_find?_eq_some hfound)
    rw [hspec, hown, Environment.partialSpec, htext]
  next => rfl

variable (o) in
/-- No text of a partial, as it is read under the options, names the path of the context among its
data variables. -/
def Environment.AvoidsContextPath (env : Environment) : Prop :=
  ∀ name text tree, env.partials.get? name = some (.source text) →
    Template.read (o.readOptions (some name)) text = .ok tree →
      tree.Every Statement.AvoidsContextPath

/-- The code of a tree and that code with notes erased are alike, if the tree names no data variable
that holds the notes. -/
theorem specsAlike_of_compile {tree : Tree.Located} {s : Spec}
    (compiled : ({ options := o } : Compiler).compile tree = .ok s)
    (avoids : n.ids = true → tree.Every Statement.AvoidsContextPath) :
    SpecsAlike n o s (n.spec s) where
  erased := rfl
  options := (Compiler.main_of_compile compiled).2
  reads _ _ hc := Compiler.compile_readsVia compiled avoids hc

/-- Partials that are registered as texts are found alike whether notes are taken or not. -/
theorem renderersAlike_cached {env : Environment} (heedless : env.Heedless n)
    (sources : ∀ name spec, env.partials.get? name ≠ some (.compiled spec))
    (avoids : n.ids = true → env.AvoidsContextPath o) :
    RenderersAlike n o (Renderer.cached env o) (Renderer.cached env (n.options o)) where
  env := rfl
  heedless := heedless
  partialSpec name := by
    show RunsAlike n _ (Run.ofExcept ((Library.ofEnvironment env o).partialSpec o name))
      (Run.ofExcept ((Library.ofEnvironment env (n.options o)).partialSpec (n.options o) name))
    rw [Library.partialSpec_own, Library.partialSpec_own]
    refine runsAlike_ofExcept ?_
    unfold Environment.partialSpec
    cases hget : env.partials.get? name with
    | none => exact .ok .none
    | some found =>
      cases found with
      | compiled s => exact absurd hget (sources name s)
      | source text =>
        -- Compiled without notes, the text gives the code with its notes erased, or the same error.
        have herased : ({ options := n.options o } : Compiler).ofText (some name) text =
            ((({ options := o } : Compiler).ofText (some name) text).map n.spec).mapError n.error :=
          Compiler.ofText_erased n { options := o } (Backend.readsNoNotes_standard n)
            (some name) text
        dsimp only
        rw [herased]
        cases hs : ({ options := o } : Compiler).ofText (some name) text with
        | error e => exact .error (n.error_error e).symm
        | ok s =>
          obtain ⟨tree, hread, compiled⟩ := exists_tree_of_ofText hs
          refine .ok (.some (specsAlike_of_compile compiled fun hids => ?_))
          exact avoids hids name text tree hget hread

/-! ## Renderings -/

/-- The output of a text that is compiled under the given options. -/
def renderSource (options : Options) (env : Environment) (name : Option String) (text : String)
    (context : Value) (values : List Value) : Run String := do
  let spec ← Run.ofExcept (({ options } : Compiler).ofText name text)
  render env spec context values

section Renderings

variable {env : Environment} (heedless : env.Heedless n)
  (sources : ∀ name spec, env.partials.get? name ≠ some (.compiled spec))
  (avoids : n.ids = true → env.AvoidsContextPath o)

include heedless sources avoids

/-- Code and the same code with notes erased are rendered alike. -/
theorem runsAlike_render {s : Spec} (hspec : SpecsAlike n o s (n.spec s)) (context : Value)
    (values : List Value) :
    RunsAlike n Eq (render env s context values) (render env (n.spec s) context values) := by
  have herased : (n.spec s).options = n.options o := congrArg n.options hspec.options
  unfold render
  rw [Renderer.render_eq_text, Renderer.render_eq_text, herased, hspec.options]
  exact (renderersAlike_cached heedless sources avoids).text hspec context values

/-- A tree and the same tree with notes erased, compiled where the notes are taken and where they
are not, are rendered alike. -/
theorem runsAlike_renderTree {tree : Tree.Located}
    (own : n.ids = true → tree.Every Statement.AvoidsContextPath) (context : Value)
    (values : List Value) :
    RunsAlike n Eq (renderTree { options := o } env tree context values)
      (renderTree { options := n.options o } env (tree.mapMark n.loc) context values) := by
  have herased : ({ options := n.options o } : Compiler).compile (tree.mapMark n.loc) =
      ((({ options := o } : Compiler).compile tree).map n.spec).mapError n.compileError :=
    Compiler.compile_erased n { options := o } (Backend.readsNoNotes_standard n) tree
  unfold renderTree Compiler.ofTree
  rw [herased]
  cases hs : ({ options := o } : Compiler).compile tree with
  | error e => exact runsAlike_fail (n.error_error (.ofCompile e)).symm
  | ok s =>
    refine runsAlike_bind (runsAlike_pure (specsAlike_of_compile hs own)) fun s t hspec => ?_
    obtain rfl := hspec.erased
    exact runsAlike_render heedless sources avoids hspec context values

/-- A text that is read and compiled where notes are taken is rendered like where they are not. -/
theorem runsAlike_renderSource {name : Option String} {text : String}
    (own : n.ids = true → ∀ tree, Template.read (o.readOptions name) text = .ok tree →
      tree.Every Statement.AvoidsContextPath)
    (context : Value) (values : List Value) :
    RunsAlike n Eq (renderSource o env name text context values)
      (renderSource (n.options o) env name text context values) := by
  unfold renderSource Compiler.ofText
  rw [Code.read_erased]
  cases hread : Template.read (o.readOptions name) text with
  | error e => exact runsAlike_fail rfl
  | ok tree =>
    exact runsAlike_renderTree heedless sources avoids (fun hids => own hids tree hread)
      context values

end Renderings

/-! ## Locations -/

/-- Nothing depends on whether locations are tracked but what is noted of them. A text reads as the
same tree up to locations, or fails to be read with one error; it compiles to the same code up to
locations and that option, or fails with the same error up to its location; and where all partials
are texts and functions do not heed the locations of their calls, it is rendered to the same output,
or fails with the same error up to its location, and leaves the same messages. -/
theorem trackLocations_irrelevant (o : Options) (track : Bool) (name : Option String)
    (text : String) :
    let n : Erasure := { locs := true }
    let other := { o with trackLocations := track }
    ((Template.read (o.readOptions name) text).map
      (Program.mapMark fun _ => (none : Option Text.Location)) =
        (Template.read (other.readOptions name) text).map (Program.mapMark fun _ => none)) ∧
      ((({ options := o } : Compiler).ofText name text).map n.spec).mapError n.error =
        ((({ options := other } : Compiler).ofText name text).map n.spec).mapError n.error ∧
      ∀ env : Environment, (∀ name spec, env.partials.get? name ≠ some (.compiled spec)) →
        env.Heedless n → ∀ (context : Value) (values : List Value),
          (renderSource o env name text context values).result.mapError n.error =
              (renderSource other env name text context values).result.mapError n.error ∧
            told n (renderSource o env name text context values).trace =
              told n (renderSource other env name text context values).trace := by
  intro n other
  -- Both options come to those by which no locations are tracked.
  have hsame : n.options other = n.options o := by
    simp only [other, n, Erasure.options, Bool.not_true, Bool.and_false]
  have hread := Code.read_erased n other name text
  have hcode : ∀ p : Options, ({ options := n.options p } : Compiler).ofText name text =
      ((({ options := p } : Compiler).ofText name text).map n.spec).mapError n.error :=
    fun p => Compiler.ofText_erased n { options := p } (Backend.readsNoNotes_standard n) name text
  rw [hsame] at hread
  refine ⟨?_, ?_, fun env sources heedless context values => ?_⟩
  · exact (Code.read_erased n o name text).symm.trans hread
  · rw [← hcode o, ← hcode other, hsame]
  · have hruns : ∀ p : Options, RunsAlike n Eq (renderSource p env name text context values)
        (renderSource (n.options p) env name text context values) :=
      fun p => runsAlike_renderSource heedless sources nofun nofun context values
    -- No paths are erased, so it does not matter which frames are climbed past.
    obtain ⟨htold, hends⟩ := hruns o nofun
    obtain ⟨hotherTold, hotherEnds⟩ := hruns other nofun
    rw [hsame] at hotherTold hotherEnds
    exact ⟨hends.mapError_eq.trans hotherEnds.mapError_eq.symm, htold.trans hotherTold.symm⟩

/-! ### A roll call, and a call that tells where it is -/

/-- Calls a function of the context for every name, then a partial. -/
def callingText : String :=
  "\x7b\x7b#with who\x7d\x7d\x7b\x7b#each names\x7d\x7d\x7b\x7b../shout this\x7d\x7d" ++
    "\x7b\x7b@index\x7d\x7d\x7b\x7b/each\x7d\x7d\x7b\x7b/with\x7d\x7d\x7b\x7b> by\x7d\x7d"

/-- The partial that the roll call ends with. -/
def callerText : String := " by \x7b\x7b@root.caller\x7d\x7d"

/-- The built-in helpers, the partial, and a function that writes in capital letters. -/
def callingEnvironment : Environment :=
  { Environment.builtins with
    customs := [StockHelper.upper.helper], partials := [("by", .source callerText)] }

/-- Whom to call, and how. -/
def callingContext : Value :=
  .object (.given 0)
    [("caller", .string "me"),
      ("who", .object (.given 1)
        [("names", .array (.given 2) [.string "ann", .string "bob"]),
          ("shout", .function (.custom 0))])]

/-- Writing in capital letters does not depend on where one is asked to, or by which path. -/
theorem upper_heedless : StockHelper.upper.helper.Heedless n := by
  intro c d h
  show PlansAlike n (.give (.string (String.ofList ((paramOrThis c).text.toList.map Char.toUpper))))
    _
  have hparam : paramOrThis c = paramOrThis d := by
    unfold paramOrThis
    rw [h.params, h.this]
  rw [hparam]
  exact .give _

theorem callingEnvironment_heedless : callingEnvironment.Heedless n := by
  intro helper hmem
  obtain rfl := List.mem_singleton.1 hmem
  exact upper_heedless

theorem callingEnvironment_sources (name : String) (spec : Spec) :
    callingEnvironment.partials.get? name ≠ some (.compiled spec) := by
  intro h
  cases List.mem_singleton.1 (Table.mem_of_get? h)

/-- The roll call with locations tracked and without. -/
theorem trackLocations_irrelevant_calling :
    ∃ on off,
      (renderSource { trackLocations := true } callingEnvironment none callingText
          callingContext []).result = .ok on ∧
        (renderSource { trackLocations := false } callingEnvironment none callingText
          callingContext []).result = .ok off ∧
        on = off ∧ on.toList = "ANN0BOB1 by me".toList := by
  obtain ⟨on, hon, hsame⟩ :
      ∃ on,
        (renderSource { trackLocations := true } callingEnvironment none callingText
          callingContext []).result = .ok on ∧ (on.toList == "ANN0BOB1 by me".toList) = true :=
    exists_ok_of_any (by decide +kernel)
  obtain ⟨-, -, hrender⟩ :=
    trackLocations_irrelevant { trackLocations := true } false none callingText
  obtain ⟨hresult, -⟩ :=
    hrender callingEnvironment callingEnvironment_sources callingEnvironment_heedless
      callingContext []
  rw [hon] at hresult
  cases hoff : (renderSource { trackLocations := false } callingEnvironment none callingText
      callingContext []).result with
  | error e => rw [hoff] at hresult; cases hresult
  | ok off =>
    rw [hoff] at hresult
    exact ⟨on, off, hon, rfl, Except.ok.inj hresult, eq_of_beq hsame⟩

/-- Calls a function of the context. -/
def telltaleText : String := "\x7b\x7bf a\x7d\x7d"

/-- The built-in helpers, and a function that tells of its call. -/
def telltaleEnvironment : Environment :=
  { Environment.builtins with customs := [StockHelper.info.helper] }

/-- What that function tells of a call, the paths of arguments and the location among it. -/
def telltale (ids loc : String) : String :=
  "[\"f\",[true],[]," ++ ids ++ ",false,false,0," ++ loc ++ "]"

def telltaleContext : Value :=
  .object (.given 0) [("a", .bool true), ("f", .function (.custom 0))]

/-- A function of the context may show the location of its call, and then it shows whether locations
are tracked. -/
theorem location_told :
    ∃ on off,
      (renderSource { trackLocations := true } telltaleEnvironment none telltaleText
          telltaleContext []).result = .ok on ∧
        (renderSource { trackLocations := false } telltaleEnvironment none telltaleText
          telltaleContext []).result = .ok off ∧ on ≠ off :=
  exists_ne_of_texts (a := telltale "null,null" "\"line 1, column 2\"")
    (b := telltale "null,null" "null")
    (by decide +kernel) (by decide +kernel)

/-! ## Paths of arguments -/

/-- Nothing that is rendered depends on whether the paths of arguments are tracked, where all
partials are texts, functions heed neither the paths of their arguments nor that of their context,
neither the template nor a partial names the path of its context, and no program that is run where
they are tracked climbs past a frame of data that is there for such a path alone, as `with` opens
it: the output or the error is the same, and so are the messages. -/
theorem trackIds_irrelevant {o : Options} {env : Environment} {tree : Tree.Located}
    (own : tree.Every Statement.AvoidsContextPath) (avoids : env.AvoidsContextPath o)
    (sources : ∀ name spec, env.partials.get? name ≠ some (.compiled spec))
    (heedless : env.Heedless { ids := true }) (context : Value) (values : List Value) :
    let on := renderTree { options := { o with trackIds := true } } env tree context values
    let off := renderTree { options := { o with trackIds := false } } env tree context values
    (∀ v, .entered v ∈ on.trace → v.passesNoPath = true) →
      on.result = off.result ∧ told { ids := true } on.trace = told { ids := true } off.trace := by
  intro on off passes
  have hruns : RunsAlike { ids := true } Eq on off := by
    have halike := runsAlike_renderTree (o := { o with trackIds := true }) heedless sources
      (fun _ => avoids) (fun _ => own) context values
    have hoptions : ({ ids := true } : Erasure).options { o with trackIds := true } =
        { o with trackIds := false } := by
      simp only [Erasure.options, Bool.not_true, Bool.not_false, Bool.and_false, Bool.and_true]
    have htree : tree.mapMark ({ ids := true } : Erasure).loc = tree := tree.mapMark_self
    rw [hoptions, htree] at halike
    exact halike
  have herror : ∀ x : Except TemplateError String,
      x.mapError ({ ids := true } : Erasure).error = x := by
    intro x
    cases x with
    | ok text => rfl
    | error e => exact congrArg Except.error (Erasure.error_of_locs rfl e)
  obtain ⟨htold, hends⟩ := hruns fun _ => passes
  have hresult := hends.mapError_eq
  rw [herror, herror] at hresult
  exact ⟨hresult, htold⟩

/-- Counts the cells of a grid by rows, within a block over what the grid is in, then calls a
partial. -/
def gridText : String :=
  "\x7b\x7b#with who\x7d\x7d\x7b\x7b#each rows\x7d\x7d\x7b\x7b#each this\x7d\x7d" ++
    "\x7b\x7b@../index\x7d\x7d-\x7b\x7b@index\x7d\x7d;\x7b\x7b/each\x7d\x7d\x7b\x7b/each\x7d\x7d" ++
    "\x7b\x7b/with\x7d\x7d\x7b\x7b> by\x7d\x7d"

/-- A grid of two rows, and who counts. -/
def gridContext : Value :=
  .object (.given 0)
    [("caller", .string "me"),
      ("who", .object (.given 1)
        [("rows", .array (.given 2)
          [.array (.given 3) [.string "a"], .array (.given 4) [.string "b", .string "c"]])])]

/-- The grid with the paths of arguments tracked and without. The number of a row is read one frame
up from its cells; the frame of `with` is further up. -/
theorem trackIds_irrelevant_grid :
    ∃ tree output,
      Template.read (({} : Options).readOptions none) gridText = .ok tree ∧
      tree.Every Statement.AvoidsContextPath ∧ callingEnvironment.AvoidsContextPath {} ∧
      (∀ v, .entered v ∈
          (renderTree { options := { trackIds := true } } callingEnvironment tree
            gridContext []).trace →
        v.passesNoPath = true) ∧
      (renderTree { options := { trackIds := true } } callingEnvironment tree
        gridContext []).result = .ok output ∧
      (renderTree { options := { trackIds := false } } callingEnvironment tree
        gridContext []).result = .ok output ∧
      output.toList = "0-0;1-0;1-1; by me".toList := by
  obtain ⟨tree, read, hrest⟩ :
      ∃ tree, Template.read (({} : Options).readOptions none) gridText = .ok tree ∧
        (decide (tree.Every Statement.AvoidsContextPath) &&
          ((renderTree { options := { trackIds := true } } callingEnvironment tree
              gridContext []).trace.all (fun
                | .entered v => v.passesNoPath
                | .logged .. | .replaced _ | .left => true) &&
            (renderTree { options := { trackIds := true } } callingEnvironment tree
              gridContext []).result.toOption.any
                fun output => output.toList == "0-0;1-0;1-1; by me".toList)) = true :=
    exists_ok_of_any (by decide +kernel)
  obtain ⟨own, hrest⟩ := Bool.and_eq_true_iff.1 hrest
  obtain ⟨hall, hrest⟩ := Bool.and_eq_true_iff.1 hrest
  have passes := fun v hv => List.all_eq_true.1 hall (.entered v) hv
  obtain ⟨output, houtput, hsame⟩ := exists_ok_of_any hrest
  obtain ⟨caller, hread, hcaller⟩ :
      ∃ tree, Template.read (({} : Options).readOptions (some "by")) callerText = .ok tree ∧
        decide (tree.Every Statement.AvoidsContextPath) = true :=
    exists_ok_of_any (by decide +kernel)
  have avoids : callingEnvironment.AvoidsContextPath {} := by
    intro name text tree h htree
    cases List.mem_singleton.1 (Table.mem_of_get? h)
    cases hread.symm.trans htree
    exact of_decide_eq_true hcaller
  obtain ⟨hresult, -⟩ :=
    trackIds_irrelevant (of_decide_eq_true own) avoids callingEnvironment_sources
      callingEnvironment_heedless gridContext [] passes
  exact ⟨tree, output, read, of_decide_eq_true own, avoids, passes, houtput,
    hresult.symm.trans houtput, eq_of_beq hsame⟩

/-- Reads the index of an item from within a further block. -/
def climbingText : String :=
  "\x7b\x7b#each a\x7d\x7d\x7b\x7b#with this\x7d\x7d\x7b\x7b@../index\x7d\x7d" ++
    "\x7b\x7b/with\x7d\x7d\x7b\x7b/each\x7d\x7d"

def climbingContext : Value :=
  .object (.given 0) [("a", .array (.given 1) [.string "x", .string "y"])]

/-- Where the paths of arguments are tracked, `with` opens a frame for that of its context, so that
the index is one frame up; else it is not. And a function of the context may show the paths that it
is told. -/
theorem ids_told :
    (∃ tree on off,
      Template.read (({} : Options).readOptions none) climbingText = .ok tree ∧
        tree.Every Statement.AvoidsContextPath ∧
        (renderTree { options := { trackIds := true } } .builtins tree climbingContext []).result =
          .ok on ∧
        (renderTree { options := { trackIds := false } } .builtins tree climbingContext []).result =
          .ok off ∧
        on ≠ off) ∧
      ∃ tree on off,
        Template.read (({} : Options).readOptions none) telltaleText = .ok tree ∧
          tree.Every Statement.AvoidsContextPath ∧
          (renderTree { options := { trackIds := true } } telltaleEnvironment tree telltaleContext
            []).result = .ok on ∧
          (renderTree { options := { trackIds := false } } telltaleEnvironment tree telltaleContext
            []).result = .ok off ∧
          on ≠ off := by
  refine ⟨?_, ?_⟩
  · obtain ⟨tree, read, hrest⟩ :
        ∃ tree, Template.read (({} : Options).readOptions none) climbingText = .ok tree ∧
          (decide (tree.Every Statement.AvoidsContextPath) &&
            ((renderTree { options := { trackIds := true } } .builtins tree climbingContext
                []).result.toOption.any (·.toList == "01".toList) &&
              (renderTree { options := { trackIds := false } } .builtins tree climbingContext
                []).result.toOption.any (·.toList == "".toList))) = true :=
      exists_ok_of_any (by decide +kernel)
    obtain ⟨avoids, hrest⟩ := Bool.and_eq_true_iff.1 hrest
    obtain ⟨on, off, hends⟩ := exists_ne_of_texts hrest (by decide)
    exact ⟨tree, on, off, read, of_decide_eq_true avoids, hends⟩
  · obtain ⟨tree, read, hrest⟩ :
        ∃ tree, Template.read (({} : Options).readOptions none) telltaleText = .ok tree ∧
          (decide (tree.Every Statement.AvoidsContextPath) &&
            ((renderTree { options := { trackIds := true } }
              telltaleEnvironment tree telltaleContext
                []).result.toOption.any
                  (·.toList == (telltale "[\"a\"],[]" "\"line 1, column 2\"").toList) &&
              (renderTree { options := { trackIds := false } }
                telltaleEnvironment tree telltaleContext
                []).result.toOption.any
                  (·.toList == (telltale "null,null" "\"line 1, column 2\"").toList))) = true :=
      exists_ok_of_any (by decide +kernel)
    obtain ⟨avoids, hrest⟩ := Bool.and_eq_true_iff.1 hrest
    obtain ⟨on, off, hends⟩ := exists_ne_of_texts hrest (by decide +kernel)
    exact ⟨tree, on, off, read, of_decide_eq_true avoids, hends⟩

end Stencil.Render
