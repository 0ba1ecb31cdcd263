import Stencil.Code.Source
import Stencil.Proofs.Render.Correspondence

/-!
# Backends

The ways in which compiled code may be cut into texts and its output be gathered, none of which
shows in what is rendered. Two alike templates make alike visits: of programs of one number in alike
code, with the same names in scope, where the bodies of partial blocks that were lent are alike
again. So their renderings have one result, and the same messages and replaced errors on the way
(`render_alike`).
-/

set_option autoImplicit false

namespace Stencil.Render

open Stencil.Code (Backend Compiler Options Spec KeepsStrokes appendPlain keepsStrokes_plain
  keepsStrokes_joining)

/-! ## Alike programs -/

/-- Programs of one number in alike specs. -/
def AlikePrograms (s : Spec) (i : Nat) (t : Spec) (j : Nat) : Prop := s.Alike t ∧ i = j

/-- The agreement of renderings of alike templates. -/
def alikeAgreement : Agreement := likeAgreement AlikePrograms

/-- Alike programs do the same, and from alike code the same partials are found. -/
theorem corresponds_alike (env : Environment) (options : Options) :
    (Renderer.cached env options).Corresponds (Renderer.cached env options)
      (likeAgreement AlikePrograms).comparison where
  maxDepth := rfl
  functions _ := rfl
  options := by
    rintro s i t j ⟨alike, -⟩
    rw [alike.options]
    exact t.options.alike_refl
  chunk := by
    rintro s i t j ⟨alike, rfl⟩
    have hrel := alike.program? i
    generalize s.program? i = x, t.program? i = y at hrel
    cases hrel with
    | none => exact .none
    | some halike => exact .some (halike.counterpart fun id _ => ⟨alike, rfl⟩)
  missing := fun h _ => h.2
  helpers _ _ _ _ _ _ _ := rfl
  registered := by
    rintro s i t j ⟨alike, -⟩ name
    rw [alike.options]
    exact Comparison.finds_ofExcept _ (fun _ _ => trivial) fun s _ => ⟨.refl s, rfl⟩

/-! ## Renderings of alike templates -/

/-- Renderings of alike templates leave the same messages, replace the same errors and visit alike
programs in the same order, and end in the same way. -/
theorem render_alike (env : Environment) {s t : Spec} (alike : s.Alike t) (context : Value)
    (values : List Value) :
    alikeAgreement.Matches (render env s context values) (render env t context values) := by
  have check : s.check = t.check := congrArg Code.Stamp.check alike.stamp
  unfold render
  rw [← alike.options, Renderer.render_eq_text, Renderer.render_eq_text]
  exact (corresponds_alike env s.options).rel_text ⟨alike, alike.main⟩ check rfl context values
    fun _ _ => trivial

/-- The output of a tree that is compiled in a given way. -/
def renderTree (compiler : Compiler) (env : Environment) (tree : Tree.Located) (context : Value)
    (values : List Value) : Run String := do
  let spec ← Run.ofExcept (compiler.ofTree tree)
  render env spec context values

/-- Two compilers that differ only in how they append instructions and gather output give the same
output, or the same error, for every tree. -/
theorem renderTree_alike {compiler other : Compiler} (same : compiler.plain = other.plain)
    (hc : KeepsStrokes compiler.backend.append) (ho : KeepsStrokes other.backend.append)
    (env : Environment) (tree : Tree.Located) (context : Value) (values : List Value) :
    alikeAgreement.Matches (renderTree compiler env tree context values)
      (renderTree other env tree context values) := by
  unfold renderTree Compiler.ofTree
  rcases Compiler.compile_alike same hc ho tree with ⟨e, hce, hoe⟩ | ⟨s, t, hs, ht, alike⟩
  · rw [hce, hoe]
    exact ⟨.nil, rfl, fun _ _ => trivial⟩
  · rw [hs, ht]
    exact render_alike env alike context values

/-- Whether texts are joined when code is compiled, and in which way output is gathered, shows
neither in the output nor in the error of a rendering, nor in its messages and the errors that it
replaces. -/
theorem renderTree_backend_irrelevant (options : Options) (env : Environment)
    (tree : Tree.Located) (context : Value) (values : List Value) :
    let standard := renderTree { options } env tree context values
    let unjoined := renderTree
      { options, backend := { Backend.standard with append := appendPlain } }
        env tree context values
    let pieces := renderTree
      { options, backend := { Backend.standard with buffer := .fragments } } env tree context values
    (unjoined.result = standard.result ∧
        List.Forall₂ alikeAgreement.Events unjoined.trace standard.trace) ∧
      pieces.result = standard.result ∧
        List.Forall₂ alikeAgreement.Events pieces.trace standard.trace := by
  intro standard unjoined pieces
  have hunjoined : alikeAgreement.Matches unjoined standard := by
    refine renderTree_alike ?_ keepsStrokes_plain keepsStrokes_joining env tree context values
    rfl
  have hpieces : alikeAgreement.Matches pieces standard := by
    refine renderTree_alike ?_ keepsStrokes_joining keepsStrokes_joining env tree context values
    rfl
  exact ⟨⟨hunjoined.result, hunjoined.trace⟩, hpieces.result, hpieces.trace⟩

end Stencil.Render
