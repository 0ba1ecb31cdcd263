import Stencil.Proofs.Render.BlockParams

/-!
# Validity of references

The references of compiled code lead somewhere: each is the number of a program that there is,
greater than that of the chunk that holds it, and each program but the main one is referred to once,
by the chunk of the program that it stands in (`Code.Compiler.compile_valid`). So no rendering of
compiled code comes to a program that is missing, unless a helper makes that error up.
-/

set_option autoImplicit false

namespace Stencil.Render

open Stencil.Code (Spec Options Compiler)
open Stencil.Tree (Nesting)

/-! ## Errors of helpers -/

section Helpers

variable {errors : TemplateError → Prop}

theorem Plan.RaisesOnly.renderThen {part : Part} {context : Value} {args : BlockArgs}
    {next : String → Plan} (h : ∀ text, (next text).RaisesOnly errors) :
    (Plan.renderThen part context args next).RaisesOnly errors := by
  refine .render fun rendered hrendered => ?_
  cases rendered with
  | ok text => exact h text
  | error e => exact .fail (hrendered e rfl)

theorem Plan.RaisesOnly.swapped {plan : Plan} (h : plan.RaisesOnly errors) :
    plan.swapped.RaisesOnly errors := by
  induction h with
  | give value => exact .give value
  | fail herror => exact .fail herror
  | render _ ih => exact .render ih
  | log _ ih => exact .log ih
  | handOver params => exact .handOver params

variable (c : HelperCall) (fails : ∀ name message, errors (.ofRuntime (.helper name message)))

include fails

theorem raisesOnly_withOnlyParam {next : Value → Plan} (h : ∀ v, (next v).RaisesOnly errors) :
    (withOnlyParam c next).RaisesOnly errors := by
  unfold withOnlyParam
  split
  · exact h _
  · exact .fail (fails _ _)

omit fails in
theorem raisesOnly_renderHere (part : Part) : (renderHere c part).RaisesOnly errors :=
  .renderThen fun text => .give (.string text)

omit fails in
theorem raisesOnly_eachItem (path : Option String) :
    ∀ (items : List Value) (index : Nat) (text : String),
      (eachItem path index text items).RaisesOnly errors
  | [], _, _ => .give _
  | _ :: rest, index, text => .renderThen fun t =>
    raisesOnly_eachItem path rest (index + 1) (text ++ t)

omit fails in
theorem raisesOnly_eachEntry (path : Option String) :
    ∀ (entries : List (String × Value)) (index : Nat) (text : String),
      (eachEntry path index text entries).RaisesOnly errors
  | [], _, _ => .give _
  | (_, _) :: rest, index, text => .renderThen fun t =>
    raisesOnly_eachEntry path rest (index + 1) (text ++ t)

theorem raisesOnly_ifHelper : (ifHelper c).RaisesOnly errors :=
  raisesOnly_withOnlyParam c fails fun _ => raisesOnly_renderHere c _

/-- The built-in helpers fail with errors of helpers, and with those of the parts they render. -/
theorem Builtin.raisesOnly_helper (b : Builtin) : Helper.RaisesOnly errors b.helper := by
  intro c
  cases b with
  | ifHelper => exact raisesOnly_ifHelper c fails
  | unlessHelper => exact (raisesOnly_ifHelper c fails).swapped
  | withHelper =>
    refine raisesOnly_withOnlyParam c fails fun context => ?_
    split
    · exact raisesOnly_renderHere c .inverse
    · exact .renderThen fun text => .give (.string text)
  | eachHelper =>
    show (Render.eachHelper c).RaisesOnly errors
    unfold Render.eachHelper
    split
    · exact .fail (fails _ _)
    · exact raisesOnly_eachItem _ _ _ _
    · exact raisesOnly_eachEntry _ _ _ _
    · exact raisesOnly_renderHere c .inverse
  | lookupHelper =>
    show (Render.lookupHelper c).RaisesOnly errors
    unfold Render.lookupHelper
    split
    · split
      · exact .give _
      · exact .give _
    · exact .give _
    · exact .give _
  | logHelper => exact .log (.give .undefined)

/-- If the functions of the environment itself fail with errors of the kind only, so do all
functions. -/
theorem Environment.raisesOnly_of_function? {env : Environment}
    (customs : ∀ h ∈ env.customs, Helper.RaisesOnly errors h) :
    ∀ f h, env.function? f = some h → h.RaisesOnly errors := by
  intro f h hf
  cases f with
  | builtin b =>
    obtain rfl : b.helper = h := Option.some.inj hf
    exact b.raisesOnly_helper fails
  | custom number => exact customs h (List.mem_of_getElem? hf)

end Helpers

/-! ## Programs that are there -/

/-- The error is not that of a missing program. -/
def NoneMissing (e : TemplateError) : Prop := ∀ id, e ≠ .ofRuntime (.invalidProgram id)

theorem noneMissing_of_check {s : Spec} {e : RuntimeError} (h : s.check = .error e) :
    NoneMissing (.ofRuntime e) := by
  intro id he
  unfold Spec.check Code.Stamp.check at h
  split at h
  · cases h
    cases he
  · split at h
    · cases h
      cases he
    · cases h

theorem noneMissing_of_ofText {compiler : Compiler} {name : Option String} {text : String}
    {e : TemplateError} (h : compiler.ofText name text = .error e) : NoneMissing e := by
  intro id he
  unfold Compiler.ofText at h
  split at h
  · cases h
    cases he
  next tree _ =>
    unfold Compiler.ofTree at h
    cases hcompile : compiler.compile tree with
    | error cause =>
      rw [hcompile] at h
      cases h
      cases he
    | ok s => rw [hcompile] at h; cases h

theorem noneMissing_of_partialSpec {env : Environment} {options caller : Options} {name : String}
    {e : TemplateError}
    (h : (Library.ofEnvironment env options).partialSpec caller name = .error e) :
    NoneMissing e := by
  rcases Library.partialSpec_cases env options caller name with ⟨s, -, heq⟩ |
      ⟨o, text, -, -, heq⟩ | heq
  · rw [heq] at h
    cases hs : s.check with
    | error cause =>
      rw [hs] at h
      cases h
      exact noneMissing_of_check hs
    | ok _ => rw [hs] at h; cases h
  · rw [heq] at h
    cases hs : ({ options := o } : Compiler).ofText (some name) text with
    | error cause =>
      rw [hs] at h
      cases h
      exact noneMissing_of_ofText hs
    | ok s => rw [hs] at h; cases h
  · rw [heq] at h
    cases h

/-- No helper of the environment itself fails as if a program were missing. -/
def Environment.RaisesNoneMissing (env : Environment) : Prop :=
  ∀ h ∈ env.customs, Helper.RaisesOnly NoneMissing h

theorem allows_noneMissing {env : Environment} (raises : env.RaisesNoneMissing) (options : Options)
    (template : Spec) (context : Value) (values : List Value) (seen : Visit → Prop) :
    (calledAgreement (Renderer.cached env options) template context values seen NoneMissing).Allows
      (Renderer.cached env options).env where
  missingProperty _ _ _ _ := nofun
  missingHelper _ _ _ := nofun
  missingPartial _ _ := nofun
  depthExceeded _ := nofun
  helpers := Environment.raisesOnly_of_function? (fun _ _ _ => nofun) raises

/-- Every program that a rendering of compiled code runs is there. -/
theorem Called.exists_program {env : Environment} {template : Spec} {seen : Visit → Prop}
    {v : Visit} (h : Called (Renderer.cached env template.options) template seen v)
    (ht : IsCompiled template) (he : env.Compiled) : ∃ c, v.spec.program? v.program = some c := by
  obtain ⟨options, tree, compiled⟩ := h.reaches.isCompiled ht he
  obtain ⟨n, hn, -⟩ := h.enclosed compiled
  obtain ⟨c, hc, -⟩ := Compiler.exists_chunk Code.Backend.keepsTags_standard compiled hn
  exact ⟨c, hc⟩

/-- A rendering of compiled code does not fail because a program is missing. -/
theorem noneMissing_of_render {env : Environment} {template : Spec} (ht : IsCompiled template)
    (he : env.Compiled) (raises : env.RaisesNoneMissing) (context : Value) (values : List Value)
    {e : TemplateError} (h : (render env template context values).result = .error e) :
    NoneMissing e := by
  have keeps := keeps_called
    (allows_noneMissing raises template.options template context values
      fun u => .entered u ∈ (render env template context values).trace)
    (Renderer.looksUp_cached env template.options fun _ _ _ => noneMissing_of_partialSpec)
    fun v called hnone => by
      obtain ⟨c, hc⟩ := called.exists_program ht he
      rw [hnone] at hc
      cases hc
  have runs := keeps.rel_text ⟨rfl, called_rootVisit _ _ _ context values, values, .root⟩ rfl
    fun _ hcheck => noneMissing_of_check hcheck
  rw [← Renderer.render_eq_text] at runs
  exact (runs fun _ hu => hu).error e h

end Stencil.Render

namespace Stencil.Code.Compiler

open Stencil.Render (Environment Value Rendering IsCompiled)
open Stencil.Tree (Nesting)

/-- Code that the standard compiler makes of a tree. Its main program is the first. What its
instructions refer to are programs that there are, with greater numbers than that of the chunk that
refers to them; each program but the main one is referred to once; and each chunk is what its own
program compiles to, where it refers to those that this program holds. So every program that a
rendering runs is there, and a rendering does not fail because one is missing, unless a helper of
the environment makes that error up. -/
theorem compile_valid {options : Options} {tree : Tree.Located} {spec : Spec}
    (compiled : ({ options } : Compiler).compile tree = .ok spec) :
    spec.main = 0 ∧
      (∀ id c, spec.program? id = some c → ∀ r ∈ c.references,
        id < r ∧ r < spec.programs.length) ∧
      (∀ id, id ≠ spec.main → id < spec.programs.length →
        (spec.programs.flatMap Chunk.references).count id = 1) ∧
      spec.programs.length = tree.count ∧
      (∀ id c, spec.program? id = some c →
        ∃ n, (tree.nestings [] 0)[id]? = some n ∧ ({ options } : Compiler).Compiles n c ∧
          c.references = (Nesting.opened n).map Tree.Opened.id ∧
          ∀ o ∈ Nesting.opened n, (tree.nestings [] 0)[o.id]? = some (o :: n)) ∧
      ∀ env : Environment, env.Compiled → ∀ (context : Value) (values : List Value),
        (∀ trace, Rendering env spec context values trace → ∀ v, .entered v ∈ trace →
          ∃ c, v.spec.program? v.program = some c) ∧
        (env.RaisesNoneMissing → ∀ id,
          (Render.render env spec context values).result ≠
            .error (.ofRuntime (.invalidProgram id))) := by
  have keeps := Backend.keepsTags_standard
  have isCompiled : IsCompiled spec := ⟨options, tree, compiled⟩
  refine ⟨(main_of_compile compiled).1, ?_, ?_, length_programs keeps compiled, ?_, ?_⟩
  · intro id c hc r hr
    exact compile_references_bounds keeps compiled hc hr
  · intro id hid hlt
    rw [(main_of_compile compiled).1] at hid
    have hmem : id ∈ List.range' 1 (spec.programs.length - 1) := by
      rw [List.mem_range'_1]
      omega
    -- All references together are the numbers from 1 on, each of them once.
    rw [(compile_references_perm keeps compiled).count_eq, (List.nodup_range' 1).count, if_pos hmem]
  · intro id c hc
    obtain ⟨here, outer, -, hn, hcompiles⟩ := exists_nesting keeps compiled hc
    refine ⟨here :: outer, hn, hcompiles, hcompiles.references_eq keeps, fun o ho => ?_⟩
    have hmem := tree.nestings_opened [] 0 _ (List.mem_of_getElem? hn) o ho
    exact Tree.Program.nestings_getElem?.2 hmem
  · intro env he context values
    refine ⟨fun trace h v hv => (h.called hv).exists_program isCompiled he, fun raises id h => ?_⟩
    exact Render.noneMissing_of_render isCompiled he raises context values h id rfl

/-- The code of a section: its one reference leads to the section's program, and a rendering with
the built-in helpers does not miss it. -/
theorem compile_valid_section :
    ({} : Compiler).compile Render.sectionTree = .ok Render.sectionSpec ∧
      (Render.sectionSpec.programs.flatMap Chunk.references).count 1 = 1 ∧
      ∀ id, (Render.render .builtins Render.sectionSpec Render.sectionContext []).result ≠
        .error (.ofRuntime (.invalidProgram id)) := by
  have compiled : ({} : Compiler).compile Render.sectionTree = .ok Render.sectionSpec := rfl
  obtain ⟨-, -, hcount, -, -, hrender⟩ := compile_valid compiled
  -- There are no partials and no helpers beside the built-in ones.
  have hpartials : Environment.builtins.Compiled := fun name spec h => absurd h List.not_mem_nil
  have hhelpers : Environment.builtins.RaisesNoneMissing :=
    fun h hmem => absurd hmem List.not_mem_nil
  exact ⟨compiled, hcount 1 (by decide) (by decide),
    (hrender .builtins hpartials Render.sectionContext []).2 hhelpers⟩

end Stencil.Code.Compiler
