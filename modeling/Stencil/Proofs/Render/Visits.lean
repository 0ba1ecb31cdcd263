import Stencil.Code.Source
import Stencil.Proofs.Render.Correspondence

/-!
# Visits

The visits that a rendering makes. Each of them is that of the main program of some template, run
with one frame of block parameters, or of a program that the chunk of an earlier visit refers to,
run with one frame more than that visit (`Called`). The body of a partial block is called from
inside another template, but it is lent together with the scope of the visit that refers to it
(`Lent`), so it makes no exception. Whichever way a visit is entered, its first frame holds the
values that it is passed on entry (`Passed`).

`Rendering env template context values trace` says that `trace` is what a rendering leaves, into
whichever sink it goes; every visit of such a trace is `Called` from visits of the same trace
(`Rendering.called`), and what it was passed is what its program finds (`Rendering.passed_iff`).
-/

set_option autoImplicit false

namespace Stencil.Render

open Stencil.Code (Spec Options Chunk Compiler)

/-! ## Values that are passed -/

/-- The values that a visit has for the block parameters of its program. -/
def Visit.given (v : Visit) : List Value := v.scope.blockParams.headD []

section Given

variable (p : Place)

theorem given_rootVisit (r : Renderer) (spec : Spec) (context : Value) (values : List Value) :
    (r.rootVisit spec context values).given = values := rfl

theorem given_nestedVisit (id : Nat) (context : Value) (args : BlockArgs) :
    (p.nestedVisit id context args).given = args.blockParams := by
  show ((p.scope.enter _ _).withData _).blockParams.headD [] = _
  rw [Scope.blockParams_withData]
  rfl

theorem given_bodyVisit (body : PartialBody) (context : Value) :
    (p.bodyVisit body context).given = [] := rfl

theorem given_partialVisit (spec : Spec) (program : Option Nat) (context : Value) :
    (p.partialVisit spec program context).given = [] := rfl

end Given

section

variable (r : Renderer) (template : Spec) (context : Value) (values : List Value)
  (seen : Visit → Prop)

/-- A visit is entered, and these are the values that it is passed on entry. The main program of the
rendered template is passed what the rendering is; a program that is invoked from a place of a visit
that has been seen, what the arguments of the call hold; the lent body of a partial block and the
main program of a registered partial are passed nothing. -/
inductive Passed : Visit → List Value → Prop
  | root : Passed (r.rootVisit template context values) values
  | nested {u : Visit} {c : Chunk} {id : Nat} (before : seen u)
    (chunk : u.spec.program? u.program = some c) (reference : id ∈ c.references) (level : Nat)
    (item : Value) (args : BlockArgs) :
    Passed ((r.placeAt level u).nestedVisit id item args) args.blockParams
  | body {u : Visit} {b : PartialBody} (before : seen u) (lent : u.scope.partialBlock = some b)
    (level : Nat) (item : Value) : Passed ((r.placeAt level u).bodyVisit b item) []
  | registered {u : Visit} {spec : Spec} {name : String} (before : seen u)
    (found : r.partialSpec u.spec.options name = .ofExcept (.ok (some spec)))
    (program : Option Nat) (level : Nat) (item : Value) :
    Passed ((r.placeAt level u).partialVisit spec program item) []

end

/-- What a visit is passed becomes the first frame of its block parameters, on every way in. -/
theorem Passed.eq_given {r : Renderer} {template : Spec} {context : Value}
    {values passed : List Value} {seen : Visit → Prop} {v : Visit}
    (h : Passed r template context values seen v passed) :
    passed = v.given := by
  cases h with
  | root => exact (given_rootVisit r template context values).symm
  | nested _ _ _ level item args => exact (given_nestedVisit _ _ item args).symm
  | body _ _ level item => exact (given_bodyVisit _ _ item).symm
  | registered _ _ program level item => exact (given_partialVisit _ _ program item).symm

/-! ## Where visits come from -/

/-- The code that a rendering of a template may come to: the template's own, and that of
partials. -/
def Renderer.Reaches (r : Renderer) (template spec : Spec) : Prop :=
  spec = template ∨ ∃ options name, r.partialSpec options name = .ofExcept (.ok (some spec))

section

variable (r : Renderer) (template : Spec) (seen : Visit → Prop)

mutual

/-- A visit that a rendering makes, where visits from which others are made have been seen. -/
inductive Called : Visit → Prop
  | main {spec : Spec} {scope : Scope} {values : List Value} (reached : r.Reaches template spec)
    (frames : scope.blockParams = [values]) (lent : Lent scope.partialBlock) :
    Called ⟨spec, spec.main, scope⟩
  | nested {u : Visit} {c : Chunk} {id : Nat} {scope : Scope} {values : List Value}
    (before : seen u) (called : Called u) (chunk : u.spec.program? u.program = some c)
    (reference : id ∈ c.references) (frames : scope.blockParams = values :: u.scope.blockParams)
    (lent : Lent scope.partialBlock) : Called ⟨u.spec, id, scope⟩

/-- The body of a partial block: a program that the chunk of a visit refers to, with the scope of
that visit. -/
inductive Lent : Option PartialBody → Prop
  | none : Lent none
  | some {u : Visit} {c : Chunk} {id : Nat} (before : seen u) (called : Called u)
    (chunk : u.spec.program? u.program = some c) (reference : id ∈ c.references) :
    Lent (some ⟨u.spec, id, u.scope⟩)

end

end

variable {r : Renderer} {template : Spec} {seen : Visit → Prop}

theorem Called.lent {v : Visit} (h : Called r template seen v) :
    Lent r template seen v.scope.partialBlock := by
  cases h with
  | main _ _ lent => exact lent
  | nested _ _ _ _ _ lent => exact lent

/-- A visit is of code that the rendering may come to. -/
theorem Called.reaches : ∀ {v : Visit}, Called r template seen v → r.Reaches template v.spec
  | _, .main reached _ _ => reached
  | _, .nested _ called _ _ _ _ => called.reaches

/-- The agreement of a rendering with itself, by which its visits are called and passed values. -/
def calledAgreement (r : Renderer) (template : Spec) (context : Value) (values : List Value)
    (seen : Visit → Prop) (errors : TemplateError → Prop) : Agreement where
  visits u v :=
    u = v ∧ Called r template seen u ∧ ∃ passed, Passed r template context values seen u passed
  seen := seen
  errors := errors

/-- Looking for a partial leaves no events, and its errors are of some kind. -/
def Renderer.LooksUp (r : Renderer) (errors : TemplateError → Prop) : Prop :=
  ∀ options name, ∃ found, r.partialSpec options name = .ofExcept found ∧
    ∀ e, found = .error e → errors e

/-- A renderer makes called visits from called visits, and each way in passes values. -/
theorem keeps_called {context : Value} {values : List Value} {errors : TemplateError → Prop}
    (allows : (calledAgreement r template context values seen errors).Allows r.env)
    (looksUp : r.LooksUp errors)
    (missing : ∀ v, Called r template seen v → v.spec.program? v.program = none →
      errors (.ofRuntime (.invalidProgram v.program))) :
    r.Keeps r (calledAgreement r template context values seen errors).comparison fun u _ i j =>
      i = j ∧ ∃ chunk, u.spec.program? u.program = some chunk ∧ i ∈ chunk.references where
  allows := allows
  maxDepth := rfl
  functions _ := rfl
  chunk := by
    rintro u v ⟨rfl, -⟩
    cases hchunk : u.spec.program? u.program with
    | none => exact .none
    | some chunk =>
      exact .some ((Chunk.Alike.refl chunk).counterpart fun id hid => ⟨rfl, chunk, rfl, hid⟩)
  missing := by
    rintro u v ⟨rfl, called, -⟩ hnone
    exact ⟨rfl, missing u called hnone⟩
  helpers _ _ _ _ _ _ _ := rfl
  onward := by
    rintro u v ⟨rfl, called, -⟩ before
    refine ⟨u.spec.options.alike_refl, rfl, ?_, ?_, ?_, ?_⟩
    · rintro i j ⟨rfl, -⟩
      rfl
    · rintro i j ⟨rfl, chunk, hchunk, hid⟩ level item args
      have passed : Passed r template context values seen _ args.blockParams :=
        .nested before hchunk hid level item args
      refine ⟨rfl, .nested before called hchunk hid (Scope.blockParams_withData _ _) ?_, _, passed⟩
      show Lent r template seen ((u.scope.enter _ _).withData _).partialBlock
      rw [Scope.partialBlock_withData]
      exact called.lent
    · have lent := called.lent
      generalize hbody : u.scope.partialBlock = lentBody at lent
      cases lent with
      | none => exact .none
      | some earlier called hc hid =>
        -- The body runs in the scope of the visit that refers to it, wherever it is called from.
        exact .some fun level item =>
          ⟨rfl, .nested earlier called hc hid rfl called.lent, _, .body before hbody level item⟩
    · intro name
      obtain ⟨found, hfound, herror⟩ := looksUp u.spec.options name
      rw [hfound]
      refine Comparison.finds_ofExcept _ herror fun spec hspec => ?_
      have hspec : r.partialSpec u.spec.options name = .ofExcept (.ok (some spec)) := by
        rw [hfound, hspec]
      have reached : r.Reaches template spec := .inr ⟨_, name, hspec⟩
      intro program program' hprogram level item
      have passed : Passed r template context values seen _ [] :=
        .registered before hspec program level item
      -- Without a body of its own the call passes on what was lent to its template.
      cases hprogram with
      | none => exact ⟨rfl, .main reached rfl called.lent, _, passed⟩
      | some hij =>
        obtain ⟨rfl, chunk, hchunk, hid⟩ := hij
        exact ⟨rfl, .main reached rfl (.some before called hchunk hid), _, passed⟩

/-! ## Compiled code -/

/-- The spec is what the standard compiler makes of a tree, under some options. -/
def IsCompiled (s : Spec) : Prop :=
  ∃ (options : Options) (tree : Tree.Located), ({ options } : Compiler).compile tree = .ok s

/-- Every partial that is registered as code was compiled by the standard compiler. -/
def Environment.Compiled (env : Environment) : Prop :=
  ∀ name spec, (name, Partial.compiled spec) ∈ env.partials → IsCompiled spec

/-- The code of a text is what the standard compiler makes of some tree. -/
theorem exists_tree_of_ofText {options : Options} {name : Option String} {text : String} {s : Spec}
    (h : ({ options } : Compiler).ofText name text = .ok s) :
    ∃ tree, Template.read (options.readOptions name) text = .ok tree ∧
      ({ options } : Compiler).compile tree = .ok s := by
  unfold Compiler.ofText at h
  split at h
  · cases h
  next tree hread =>
    unfold Compiler.ofTree at h
    cases hcompile : ({ options } : Compiler).compile tree with
    | error e => rw [hcompile] at h; cases h
    | ok t =>
      rw [hcompile] at h
      cases h
      exact ⟨tree, hread, hcompile⟩

/-- What is kept in a library is the code of a text that is registered, under the options of the
entry. -/
theorem Library.spec_of_mem {env : Environment} {options : Options} {e : LibraryEntry}
    (h : e ∈ (Library.ofEnvironment env options).entries) :
    ∃ text, env.partials.get? e.name = some (.source text) ∧
      e.spec.get = ({ options := e.options } : Compiler).ofText (some e.name) text := by
  obtain ⟨o, -, hmem⟩ := List.mem_flatMap.1 h
  obtain ⟨name, -, hsome⟩ := List.mem_filterMap.1 hmem
  split at hsome
  next text htext =>
    cases hsome
    exact ⟨text, htext, rfl⟩
  next => cases hsome

/-- How a partial is found: as code, which is checked, or as a text, which is compiled under options
alike those of the caller, or not at all. -/
theorem Library.partialSpec_cases (env : Environment) (options caller : Options) (name : String) :
    (∃ s, env.partials.get? name = some (.compiled s) ∧
        (Library.ofEnvironment env options).partialSpec caller name =
          (s.check.mapError .ofRuntime).map fun _ => some s) ∨
      (∃ (o : Options) (text : String), o.alike caller = true ∧
        env.partials.get? name = some (.source text) ∧
        (Library.ofEnvironment env options).partialSpec caller name =
          (({ options := o } : Compiler).ofText (some name) text).map some) ∨
      (Library.ofEnvironment env options).partialSpec caller name = .ok none := by
  unfold Library.partialSpec
  split
  next e he =>
    have hwanted := List.find?_some he
    simp only [Bool.and_eq_true, beq_iff_eq] at hwanted
    obtain ⟨rfl, halike⟩ := hwanted
    obtain ⟨text, htext, hspec⟩ := Library.spec_of_mem (List.mem_of_find?_eq_some he)
    exact .inr (.inl ⟨e.options, text, halike, htext, by rw [hspec]⟩)
  next =>
    unfold Environment.partialSpec
    generalize hget : Table.get? name (Library.ofEnvironment env options).env.partials = found
    cases found with
    | none => exact .inr (.inr rfl)
    | some found =>
      cases found with
      | compiled s => exact .inl ⟨s, hget, rfl⟩
      | source text => exact .inr (.inl ⟨caller, text, caller.alike_refl, hget, rfl⟩)

/-- A partial is found if it is registered, or an error in its text or code is. -/
theorem Library.partialSpec_ne_none {env : Environment} {options caller : Options} {name : String}
    (registered : env.partials.get? name ≠ none) :
    (Library.ofEnvironment env options).partialSpec caller name ≠ .ok none := by
  have mapped : ∀ {x : Except TemplateError Spec}, x.map some ≠ .ok none := by
    intro x
    cases x <;> nofun
  unfold Library.partialSpec
  split
  · exact mapped
  · show env.partialSpec caller name ≠ .ok none
    unfold Environment.partialSpec
    split
    next hnone => exact absurd hnone registered
    next s _ =>
      cases s.check.mapError TemplateError.ofRuntime <;> nofun
    next => exact mapped

/-- The code of a partial that is found is registered as it is, or is what the standard compiler
makes of a registered text, under options alike those of the caller. -/
theorem Library.found_cases {env : Environment} {options caller : Options} {name : String}
    {s : Spec} (h : (Library.ofEnvironment env options).partialSpec caller name = .ok (some s)) :
    env.partials.get? name = some (.compiled s) ∨
      ∃ (o : Options) (text : String) (tree : Tree.Located), o.alike caller = true ∧
        env.partials.get? name = some (.source text) ∧
        Template.read (o.readOptions (some name)) text = .ok tree ∧
        ({ options := o } : Compiler).compile tree = .ok s := by
  rcases Library.partialSpec_cases env options caller name with
    ⟨t, hget, heq⟩ | ⟨o, text, halike, hget, heq⟩ | heq
  · rw [heq] at h
    cases hcheck : t.check with
    | error e => rw [hcheck] at h; cases h
    | ok _ =>
      rw [hcheck] at h
      cases h
      exact .inl hget
  · rw [heq] at h
    cases hs : ({ options := o } : Compiler).ofText (some name) text with
    | error e => rw [hs] at h; cases h
    | ok t =>
      rw [hs] at h
      cases h
      obtain ⟨tree, hread, compiled⟩ := exists_tree_of_ofText hs
      exact .inr ⟨o, text, tree, halike, hget, hread, compiled⟩
  · rw [heq] at h
    cases h

theorem Renderer.Reaches.isCompiled {env : Environment} {options : Options} {template spec : Spec}
    (h : (Renderer.cached env options).Reaches template spec) (ht : IsCompiled template)
    (he : env.Compiled) : IsCompiled spec := by
  rcases h with rfl | ⟨caller, name, hspec⟩
  · exact ht
  · rcases Library.found_cases (congrArg Run.result hspec) with
      hget | ⟨o, text, tree, -, -, -, compiled⟩
    · exact he name spec (Table.mem_of_get? hget)
    · exact ⟨o, tree, compiled⟩

/-! ## Renderings -/

/-- The trace is that of a rendering of a template, into some sink. -/
inductive Rendering (env : Environment) (template : Spec) (context : Value) (values : List Value) :
    List Event → Prop
  | into {σ : Type} (sink : Sink σ) (state : σ) :
    Rendering env template context values
      ((Renderer.cached env template.options).renderInto sink state template context values).trace

/-- A rendering that gives a text is one. -/
theorem rendering_render (env : Environment) (template : Spec) (context : Value)
    (values : List Value) :
    Rendering env template context values (render env template context values).trace := by
  unfold render Renderer.render
  cases template.buffer with
  | string => exact .into Sink.string ""
  | fragments => exact .into Sink.fragments []

theorem called_rootVisit (r : Renderer) (template : Spec) (seen : Visit → Prop) (context : Value)
    (values : List Value) : Called r template seen (r.rootVisit template context values) :=
  .main (.inl rfl) rfl .none

/-- Looking for a partial among kept ones leaves no events. -/
theorem Renderer.looksUp_cached (env : Environment) (options : Options)
    {errors : TemplateError → Prop}
    (h : ∀ caller name e,
      (Library.ofEnvironment env options).partialSpec caller name = .error e → errors e) :
    (Renderer.cached env options).LooksUp errors :=
  fun caller name => ⟨_, rfl, h caller name⟩

/-- Every visit of a rendering is called from visits of it, and is passed values on entry. -/
theorem Rendering.entered {env : Environment} {template : Spec} {context : Value}
    {values : List Value} {trace : List Event} (h : Rendering env template context values trace)
    {v : Visit} (hv : .entered v ∈ trace) :
    Called (Renderer.cached env template.options) template (fun u => .entered u ∈ trace) v ∧
      ∃ passed, Passed (Renderer.cached env template.options) template context values
        (fun u => .entered u ∈ trace) v passed := by
  cases h with
  | @into σ sink state =>
    let r := Renderer.cached env template.options
    let a := calledAgreement r template context values
      (fun u => .entered u ∈ (r.renderInto sink state template context values).trace) fun _ => True
    have keeps : r.Keeps r a.comparison _ := keeps_called
      (Agreement.allows_of_all (fun _ => trivial) _)
      (Renderer.looksUp_cached env template.options fun _ _ _ _ => trivial) fun _ _ _ => trivial
    have runs : a.Runs ((r.renderInto sink state template context values).run id) _ :=
      keeps.runs_renderInto ⟨rfl, called_rootVisit _ template _ context values, values, .root⟩
        (fun _ _ => trivial) fun _ _ _ _ => trivial
    obtain ⟨_, -, -, entered⟩ := (runs fun _ hu => hu).exists_of_entered hv
    exact entered

section

variable {env : Environment} {context : Value} {values : List Value} {trace : List Event}
  (h : Rendering env template context values trace) {v : Visit} (hv : .entered v ∈ trace)

include h hv

theorem Rendering.called :
    Called (Renderer.cached env template.options) template (fun u => .entered u ∈ trace) v :=
  (h.entered hv).1

/-- A visit of a rendering is passed one list of values, and it is the first frame that it has. -/
theorem Rendering.passed_iff (passed : List Value) :
    Passed (Renderer.cached env template.options) template context values
      (fun u => .entered u ∈ trace) v passed ↔ passed = v.given := by
  refine ⟨Passed.eq_given, ?_⟩
  rintro rfl
  obtain ⟨passed, hpassed⟩ := (h.entered hv).2
  rw [hpassed.eq_given] at hpassed
  exact hpassed

end

end Stencil.Render
