import Stencil.Proofs.Render.BlockParams

/-!
# Sandboxing

Code that may call known helpers only does not depend on any other helper. No lookup of such code
asks for a helper that is not known (`Code.Compiler.Compiles.known`), and the texts of partials are
compiled for their caller, so what is true of a template is true of every partial that it comes to
(`corresponds_sandboxed`). Two environments that differ in other helpers only therefore give one and
the same run (`render_eq_of_knownHelpersOnly`).
-/

set_option autoImplicit false

namespace Stencil.Render

open Stencil.Code (Spec Options Compiler)

/-! ## Identical runs -/

/-- Visits that are alike because their programs are identical are identical. -/
theorem Visit.Like.eq {P : Spec → Nat → Spec → Nat → Prop}
    (identical : ∀ {s i t j}, P s i t j → s = t ∧ i = j) {u v : Visit} (h : Visit.Like P u v) :
    u = v := by
  -- The induction is on the bodies of partial blocks that were lent one inside another.
  refine @Visit.Like.rec P (fun u v _ => u = v) (fun x y _ => x = y) ?_ ?_ rfl u v h
  · rintro ⟨s, i, contexts, values, data, body⟩ ⟨t, j, contexts', values', data', body'⟩
      program names - hbody
    obtain ⟨rfl, rfl⟩ : s = t ∧ i = j := identical program
    obtain ⟨rfl, rfl, rfl⟩ : contexts = contexts' ∧ values = values' ∧ data = data' := by
      simpa [Scope.names] using names
    obtain rfl : body = body' := hbody
    rfl
  · rintro ⟨s, i, scope⟩ ⟨t, j, scope'⟩ - hvisit
    cases hvisit
    rfl

/-- Runs that match because their visits are of identical programs are one and the same. -/
theorem Agreement.Matches.eq {P : Spec → Nat → Spec → Nat → Prop}
    (identical : ∀ {s i t j}, P s i t j → s = t ∧ i = j) {α : Type} {r s : Run α}
    (h : (likeAgreement P).Matches r s) : r = s := by
  refine Run.ext ?_ h.result
  rw [← List.forall₂_eq_eq_eq]
  refine h.trace.imp fun x y hevents => ?_
  cases hevents with
  | logged level message => rfl
  | replaced error => rfl
  | entered hvisits => rw [Visit.Like.eq identical hvisits]
  | left => rfl

/-! ## Code that may call known helpers only -/

/-- The spec is what the compiler makes of a tree, under options that are alike. -/
def CompiledFor (options : Options) (s : Spec) : Prop :=
  ∃ (o : Options) (tree : Tree.Located), o.alike options = true ∧
    ({ options := o } : Compiler).compile tree = .ok s

theorem CompiledFor.alike {options : Options} {s : Spec} (h : CompiledFor options s) :
    s.options.alike options = true := by
  obtain ⟨o, tree, halike, compiled⟩ := h
  rw [(Compiler.main_of_compile compiled).2]
  exact halike

/-- Where only known helpers may be called, the lookups of compiled code ask for no other ones. -/
theorem CompiledFor.known {options : Options} (only : options.knownHelpersOnly = true) {s : Spec}
    (h : CompiledFor options s) {id : Nat} {chunk : Code.Chunk}
    (hchunk : s.program? id = some chunk) {l : Code.Lookup} (hl : l ∈ chunk.lookups) {name : String}
    (hname : l.accessor.helper? = some name) : options.knownHelpers.contains name = true := by
  obtain ⟨o, tree, halike, compiled⟩ := h
  obtain ⟨known, rfl, hknown⟩ := Options.alike_iff.1 halike
  obtain ⟨here, outer, -, -, hcompiles⟩ :=
    Compiler.exists_nesting Code.Backend.keepsTags_standard compiled hchunk
  have honly : o.knownHelpersOnly = true := only
  have hcontains := hcompiles.known honly hl hname
  rw [Table.contains, ← hknown name] at hcontains
  exact hcontains

/-- The text of a partial is compiled for its caller. -/
theorem CompiledFor.of_partial {env : Environment}
    (sources : ∀ name s, env.partials.get? name ≠ some (.compiled s)) {options template : Options}
    {caller : Options} (halike : caller.alike options = true) {name : String} {s : Spec}
    (h : (Library.ofEnvironment env template).partialSpec caller name = .ok (some s)) :
    CompiledFor options s := by
  rcases Library.found_cases h with hget | ⟨o, text, tree, ho, -, -, compiled⟩
  · exact absurd hget (sources name s)
  · exact ⟨o, tree, Options.alike_trans ho halike, compiled⟩

/-! ## Other helpers -/

/-- One and the same program of code that is compiled under alike options. -/
def SandboxedPrograms (options : Options) (s : Spec) (i : Nat) (t : Spec) (j : Nat) : Prop :=
  CompiledFor options s ∧ s = t ∧ i = j

/-- Renderings correspond, program by program, in environments that differ only in helpers that are
not known. -/
theorem corresponds_sandboxed {env : Environment} {other : Table FunctionId} {options : Options}
    (only : options.knownHelpersOnly = true)
    (known : ∀ name, options.knownHelpers.contains name = true →
      other.get? name = env.helpers.get? name)
    (sources : ∀ name s, env.partials.get? name ≠ some (.compiled s)) (template : Options) :
    (Renderer.cached { env with helpers := other } template).Corresponds
      (Renderer.cached env template)
      (likeAgreement (SandboxedPrograms options)).comparison where
  maxDepth := rfl
  functions _ := rfl
  options := by
    rintro s i t j ⟨-, rfl, -⟩
    exact s.options.alike_refl
  chunk := by
    rintro s i t j ⟨compiled, rfl, rfl⟩
    cases s.program? i with
    | none => exact .none
    | some chunk =>
      exact .some ((Code.Chunk.Alike.refl chunk).counterpart fun id _ => ⟨compiled, rfl, rfl⟩)
  missing := fun h _ => h.2.2
  helpers := by
    rintro s i t j ⟨compiled, rfl, rfl⟩ chunk hchunk l hl name hname
    exact known name (compiled.known only hchunk hl hname)
  registered := by
    rintro s i t j ⟨compiled, rfl, rfl⟩ name
    refine Comparison.finds_ofExcept _ (fun _ _ => trivial) fun t ht => ?_
    exact ⟨.of_partial sources compiled.alike ht, rfl, rfl⟩

/-- Code that may call known helpers only does not depend on any other helper, nor do the partials
that it calls if they are all registered as texts. Environments that register the same helper under
every known name, but may differ in other helpers, give one and the same run: the same output or
error, by way of the same visits and messages. -/
theorem render_eq_of_knownHelpersOnly {env : Environment} {other : Table FunctionId}
    {options : Options} (only : options.knownHelpersOnly = true)
    (known : ∀ name, options.knownHelpers.contains name = true →
      other.get? name = env.helpers.get? name)
    (sources : ∀ name s, env.partials.get? name ≠ some (.compiled s)) {tree : Tree.Located}
    {spec : Spec} (compiled : ({ options } : Compiler).compile tree = .ok spec) (context : Value)
    (values : List Value) :
    render { env with helpers := other } spec context values = render env spec context values := by
  have main : SandboxedPrograms options spec spec.main spec spec.main :=
    ⟨⟨options, tree, options.alike_refl, compiled⟩, rfl, rfl⟩
  have hmatches : (likeAgreement (SandboxedPrograms options)).Matches
      (render { env with helpers := other } spec context values)
        (render env spec context values) := by
    unfold render
    rw [Renderer.render_eq_text, Renderer.render_eq_text]
    exact (corresponds_sandboxed only known sources spec.options).rel_text main rfl rfl
      context values
      fun _ _ => trivial
  exact hmatches.eq fun h => h.2

/-- The built-in helpers, and one more under the name that the section is about. -/
def sectionHelpers : Table FunctionId := ("y", .builtin .logHelper) :: Builtin.table

theorem render_eq_section_of_other_helper :
    ∃ spec, ({ options := { knownHelpersOnly := true } } : Compiler).compile sectionTree =
      .ok spec ∧
      (render { Environment.builtins with helpers := sectionHelpers } spec sectionContext
        [.string "a"]).result = .ok "a" ∧
      render { Environment.builtins with helpers := sectionHelpers }
        spec sectionContext [.string "a"] =
        render Environment.builtins spec sectionContext [.string "a"] := by
  obtain ⟨spec, compiled, hresult⟩ :
      ∃ spec, ({ options := { knownHelpersOnly := true } } : Compiler).compile sectionTree =
        .ok spec ∧
        (render { Environment.builtins with helpers := sectionHelpers } spec sectionContext
          [.string "a"]).result = .ok "a" := ⟨_, rfl, rfl⟩
  refine ⟨spec, compiled, hresult, render_eq_of_knownHelpersOnly rfl ?_ ?_ compiled _ _⟩
  · intro name hname
    have hother : "y" ≠ name := by
      rintro rfl
      cases hname
    exact if_neg hother
  · intro name s h
    cases h

end Stencil.Render
