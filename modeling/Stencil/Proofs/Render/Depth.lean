import Stencil.Proofs.Code.Gathering
import Stencil.Proofs.Code.SelfContained
import Stencil.Proofs.Render.Validity
import Stencil.Proofs.Syntax.Shape

/-!
# Depth

Without partials, a program that is run has as many programs active around it as stand around it in
the tree. So a rendering needs no more levels than the tree is high, and with as many it does not
fail for want of one (`render_depthSuffices`).

The tree of a template may be higher than the grammar lets constructs be nested, because the main
program counts, too, and a raw block has a program that the grammar does not count. With as many
levels as the grammar allows constructs, the deepest templates are not rendered
(`not_render_depthSuffices`).
-/

set_option autoImplicit false

namespace Stencil.Render

open Stencil.Code (Spec Options Compiler)
open Stencil.Tree (Statement)

/-- The error is not that of nesting too deep. -/
def NotTooDeep (e : TemplateError) : Prop := ∀ limit, e ≠ .ofRuntime (.depthExceeded limit)

/-- Nothing is asked of visits, and no error may be that of nesting too deep. -/
def depthAgreement : Agreement where
  visits := fun _ _ => True
  seen := fun _ => True
  errors := NotTooDeep

/-- What goes on in one program does not make up the error, if the functions of the environment do
not. -/
theorem depthAgreement_admits {env : Environment}
    (raises : ∀ h ∈ env.customs, Helper.RaisesOnly NotTooDeep h) : depthAgreement.Admits env where
  missingProperty _ _ _ _ := nofun
  missingHelper _ _ _ := nofun
  helpers := Environment.raisesOnly_of_function? (fun _ _ _ => nofun) raises

namespace Renderer

section Levels

variable {r : Renderer} (raises : ∀ h ∈ r.env.customs, Helper.RaisesOnly NotTooDeep h)
  {options : Options} {tree : Tree.Located} (own : tree.Every Statement.NoPartial) {spec : Spec}
  (compiled : ({ options } : Compiler).compile tree = .ok spec)

include raises own compiled

/-- A program has enough levels if they and the programs around it are more than the tree is
high. -/
theorem runs_invokeAt_of_height :
    ∀ (level : Nat) (v : Visit), v.spec = spec →
      ∀ n, (tree.nestings [] 0)[v.program]? = some n → tree.height < level + n.length →
        depthAgreement.Runs (r.invokeAt level v) (r.invokeAt level v) := by
  intro level
  induction level with
  | zero =>
    -- No program stands so deep in the tree.
    intro v _ n hn hlevel
    have hlength := Tree.Program.length_nestings_le n (List.mem_of_getElem? hn)
    rw [List.length_nil] at hlength
    omega
  | succ level ih =>
    rintro v rfl n hn hlevel
    have keeps := Code.Backend.keepsTags_standard
    obtain ⟨c, hc, hcompiles⟩ := Compiler.exists_chunk keeps compiled hn
    let comparison := depthAgreement.comparison
    have sections : comparison.Sections (fun i j => i = j ∧ i ∈ c.references) (fun _ => True)
        (r.placeAt level v) (r.placeAt level v) := by
      refine ⟨depthAgreement_admits raises, fun _ => rfl, rfl, fun _ _ => rfl, rfl,
        fun _ => rfl, ?_, ?_⟩
      · rintro i j ⟨rfl, -⟩
        rfl
      · rintro i j ⟨rfl, hi⟩ context args
        -- The program that is run below stands directly in this one.
        obtain ⟨child, hchild⟩ := Compiler.exists_child_of_reference keeps compiled hc hn hi
        refine ih _ rfl (child :: n) hchild ?_
        rw [List.length_cons]
        omega
    rw [r.invokeAt_of_program? level hc, ← capture_eq_textOf v.spec.buffer]
    refine comparison.rel_nested trivial fun _ => comparison.rel_capture _ _ fun i hi => ?_
    have hpartial := hcompiles.ne_partialCall keeps own (List.mem_of_getElem? hn) hi
    refine sections.rel_ownPiece (Code.Instruction.counterpart_self fun id hid => ?_) hpartial
      fun _ _ => trivial
    exact ⟨rfl, List.mem_flatMap.2 ⟨i, hi, hid⟩⟩

end Levels

end Renderer

/-- A template without partials has a tree that is at most two higher than constructs may be nested.
With as many levels as the tree is high no rendering fails because it is nested too deep, whatever
the context and the helpers are, unless a helper that is not built in makes that error up. -/
theorem render_depthSuffices {readOptions : Template.ReadOptions} {source : String}
    {tree : Tree.Located} (read : Template.read readOptions source = .ok tree)
    (own : tree.Every Statement.NoPartial) {options : Options} {spec : Spec}
    (compiled : ({ options } : Compiler).compile tree = .ok spec) :
    tree.height ≤ Syntax.maxNesting + 2 ∧
      ∀ env : Environment, (∀ h ∈ env.customs, Helper.RaisesOnly NotTooDeep h) →
        tree.height ≤ env.maxDepth → ∀ (context : Value) (values : List Value) (limit : Nat),
          (render env spec context values).result ≠ .error (.ofRuntime (.depthExceeded limit)) := by
  refine ⟨Template.height_of_read read, fun env raises hheight context values limit hresult => ?_⟩
  let r := Renderer.cached env spec.options
  let main := r.rootVisit spec context values
  have hmain : (tree.nestings [] 0)[main.program]? = some [⟨0, tree⟩] :=
    Compiler.nestings_main compiled
  have hlevel : tree.height < env.maxDepth + 1 := Nat.lt_succ_of_le hheight
  have hruns := r.runs_invokeAt_of_height raises own compiled env.maxDepth main rfl _ hmain hlevel
  rw [render, Renderer.render_eq_text, r.text_eq_invokeAt (Compiler.check_of_compile rfl compiled)]
    at hresult
  exact (hruns fun _ _ => trivial).error _ hresult limit rfl

end Stencil.Render

/-! ## The limits -/

namespace Stencil.Template

open Stencil.Text (LineIndex)

/-- Reading a text that is given by its characters. -/
theorem read_ofList (options : ReadOptions) (cs : List Char) :
    read options (String.ofList cs) =
      match Syntax.read? cs with
      | .error f => .error (f.locate (LineIndex.ofChars cs) options.sourceName)
      | .ok tree =>
        .ok ((tree.mapMark fun span =>
          if options.trackLocations then some
            ((LineIndex.ofChars cs).locate options.sourceName span)
          else none).layout options.ignoreStandalone true) := by
  rw [read, readAsWritten, String.toList_ofList]
  cases Syntax.read? cs <;> rfl

end Stencil.Template

namespace Stencil.Render

open Stencil.Code (Spec Options Compiler)
open Stencil.Tree (Statement)

/-- So many sections over the property `a` in each other, with a letter in the innermost one. -/
def nestedText (count : Nat) : String :=
  String.ofList
    ((List.replicate count ['\x7b', '\x7b', '#', 'a', '\x7d', '\x7d']).flatten ++
      'x' :: (List.replicate count ['\x7b', '\x7b', '/', 'a', '\x7d', '\x7d']).flatten)

/-- An object whose property `a` is true. -/
def trueContext : Value := .object (.given 0) [("a", .bool true)]

/-- Four levels are enough for three sections in each other. -/
theorem render_depthSuffices_three :
    ∃ tree spec,
      Template.read {} (nestedText 3) = .ok tree ∧ tree.Every Statement.NoPartial ∧
        ({} : Compiler).compile tree = .ok spec ∧ tree.height = 4 ∧
          ∀ limit, (render { helpers := Builtin.table, maxDepth := 4 } spec trueContext []).result ≠
            .error (.ofRuntime (.depthExceeded limit)) := by
  have hread : ((Template.read {} (nestedText 3)).toOption.any fun tree =>
      decide (tree.Every Statement.NoPartial ∧ tree.height = 4) &&
        (({} : Compiler).compile tree).toOption.any fun _ => true) = true := by
    rw [nestedText, Template.read_ofList]
    decide +kernel
  obtain ⟨tree, read, hrest⟩ := exists_ok_of_any hread
  obtain ⟨htree, hrest⟩ := Bool.and_eq_true_iff.1 hrest
  obtain ⟨own, height⟩ := of_decide_eq_true htree
  obtain ⟨spec, compiled, -⟩ := exists_ok_of_any hrest
  have customs : ∀ h ∈ ([] : List Helper), Helper.RaisesOnly NotTooDeep h :=
    fun _ hmem => absurd hmem List.not_mem_nil
  refine ⟨tree, spec, read, own, compiled, height, fun limit => ?_⟩
  exact (render_depthSuffices read own compiled).2 { helpers := Builtin.table, maxDepth := 4 }
    customs
    (Nat.le_of_eq height) trueContext [] limit

/-- The rendering failed because it nests deeper than so many levels. -/
def failedBeyond (limit : Nat) : Except TemplateError String → Bool
  | .error (.ofRuntime (.depthExceeded allowed)) => allowed == limit
  | _ => false

theorem eq_of_failedBeyond {limit : Nat} {result : Except TemplateError String}
    (h : failedBeyond limit result = true) :
    result = .error (.ofRuntime (.depthExceeded limit)) := by
  unfold failedBeyond at h
  split at h
  next allowed => rw [eq_of_beq h]
  next => cases h

/-- The deepest sections that the grammar allows need one level more than there are by default. -/
theorem not_render_depthSuffices :
    ∃ tree spec,
      Template.read {} (nestedText Syntax.maxNesting) = .ok tree ∧ tree.Every Statement.NoPartial ∧
        ({} : Compiler).compile tree = .ok spec ∧ tree.height = 65 ∧
          Environment.builtins.maxDepth = 64 ∧
            (render .builtins spec trueContext []).result =
              .error (.ofRuntime (.depthExceeded 64)) := by
  have hread : ((Template.read {} (nestedText Syntax.maxNesting)).toOption.any fun tree =>
      decide (tree.Every Statement.NoPartial ∧ tree.height = 65) &&
        (({} : Compiler).compile tree).toOption.any fun spec =>
          failedBeyond 64 (render .builtins spec trueContext []).result) = true := by
    rw [nestedText, Template.read_ofList]
    decide +kernel
  obtain ⟨tree, read, hrest⟩ := exists_ok_of_any hread
  obtain ⟨htree, hrest⟩ := Bool.and_eq_true_iff.1 hrest
  obtain ⟨own, height⟩ := of_decide_eq_true htree
  obtain ⟨spec, compiled, hresult⟩ := exists_ok_of_any hrest
  exact ⟨tree, spec, read, own, compiled, height, rfl, eq_of_failedBeyond hresult⟩

end Stencil.Render
