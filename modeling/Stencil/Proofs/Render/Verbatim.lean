import Stencil.Proofs.Render.Sequencing
import Stencil.Proofs.Syntax.EscapedTags

/-!
# Texts that render as themselves

Contents compile to their texts, however these are cut and joined (`statements_contents`), and a
main program of nothing but texts renders to them, if there is a level for it at all
(`render_letters`). So a text with its tags escaped renders as the text itself
(`renderText_escapeTags`), except where the limit of nested programs is zero: the main program
counts as one of them.
-/

set_option autoImplicit false

namespace Stencil.Code.Compiler

open Stencil.Text (Location)
open Stencil.Tree (Content Statement)
open Compiling (Gives gives_pure)

variable {compiler : Compiler} {frames : Frames} {next : Nat}

/-- Contents compile to instructions with their letters, after those that are done. -/
theorem statements_contents (keeps : KeepsStrokes compiler.backend.append)
    (contents : List (Content (Option Location))) :
    ∀ done : Progress, ∃ out, compiler.statements frames next (contents.map .content) done =
        pure { done with out } ∧
      strokes out = strokes done.out ++ (contents.flatMap fun c => c.value.toList).map .inl := by
  induction contents with
  | nil => exact fun done => ⟨done.out, rfl, (List.append_nil _).symm⟩
  | cons c rest ih =>
    intro done
    let first := compiler.backend.append done.out (.content c.value) false
    let after : Progress := if c.value.isEmpty then done else { done with out := first }
    have hstrokes : strokes after.out = strokes done.out ++ c.value.toList.map .inl ∧
        after.nested = done.nested := by
      simp only [after]
      split
      · rename_i hempty
        rw [String.isEmpty_iff.1 hempty]
        exact ⟨(List.append_nil _).symm, rfl⟩
      · exact ⟨keeps _ _ _, rfl⟩
    obtain ⟨out, hout, hletters⟩ := ih after
    refine ⟨out, ?_, ?_⟩
    · rw [List.map_cons, statements, statement, pure_bind]
      exact hout.trans (by rw [hstrokes.2])
    · rw [hletters, hstrokes.1, List.flatMap_cons, List.map_append, List.append_assoc]

/-- A tree of contents compiles to a single program of their letters. -/
theorem compile_contents {tree : Tree.Located} {contents : List (Content (Option Location))}
    (hbody : tree.body = contents.map .content) (hparams : tree.blockParams = []) :
    ∃ spec out, ({} : Compiler).compile tree = .ok spec ∧ spec.program? spec.main = some ⟨out, 0⟩ ∧
      strokes out = (contents.flatMap fun c => c.value.toList).map .inl := by
  obtain ⟨out, hout, hletters⟩ :=
    @statements_contents {} (tree.blockParams :: []) 1 keepsStrokes_joining contents {}
  rw [← hbody] at hout
  have hgives : Gives (({} : Compiler).statements (tree.blockParams :: []) 1 tree.body {})
      ⟨out, []⟩ := by
    rw [hout]
    exact gives_pure.2 rfl
  obtain ⟨spec, hspec, hprograms, hmain, -⟩ := exists_compile (program_gives hgives)
  refine ⟨spec, out, hspec, ?_, hletters⟩
  rw [Spec.program?, hprograms, hmain, hparams]
  rfl

end Stencil.Code.Compiler

namespace Stencil.Render

open Stencil.Code (Spec Instruction strokes Compiler)
open Stencil.Syntax

/-- A main program of letters renders to them, if there is a level for it. -/
theorem render_letters {spec : Spec} (check : spec.check = .ok ()) {out : List Instruction}
    {count : Nat} (hmain : spec.program? spec.main = some ⟨out, count⟩) {text : List Char}
    (hletters : strokes out = text.map .inl) (env : Environment) (context : Value)
    (values : List Value) :
    (render env spec context values).result =
      if env.maxDepth = 0 then .error (.ofRuntime (.depthExceeded 0)) else .ok
        (String.ofList text) := by
  rw [render, Renderer.render_eq_text, result_text check hmain]
  have hlimit : (Renderer.cached env spec.options).env.maxDepth = env.maxDepth := rfl
  rw [hlimit]
  cases env.maxDepth with
  | zero => rfl
  | succ level =>
    have hrest := strokeText_letters (m := Run) spec.options.strict
      ((Renderer.cached env spec.options).placeAt level
        ((Renderer.cached env spec.options).rootVisit spec context values)).piece [] text
    rw [List.append_nil] at hrest
    dsimp only
    rw [textOf_eq_strokeText _ (fun _ => rfl), hletters, hrest]
    show Except.ok (String.ofList text ++ "") = _
    rw [String.append_empty]
    rfl

/-- A text whose tags are escaped is read as contents whatever the options are, and renders with
default options as the text itself, whatever the context and the environment are, exactly if the
environment lets a program run at all. A text without tags needs no escaping. -/
theorem renderText_escapeTags {text : List Char} (h : NoEscape text) :
    (∀ options : Template.ReadOptions,
      ∃ (tree : Tree.Located) (contents : List (Tree.Content (Option Text.Location))),
        Template.read options (String.ofList (escapeTags text)) = .ok tree ∧
        tree.body = contents.map .content ∧
        (contents.flatMap fun c => c.value.toList) = text) ∧
    (∀ (env : Environment) (context : Value),
      (renderText env (String.ofList (escapeTags text)) context).result =
      if env.maxDepth = 0 then .error (.ofRuntime (.depthExceeded 0)) else .ok
        (String.ofList text)) ∧
    (NoTag text → escapeTags text = text) := by
  refine ⟨fun options => ?_, fun env context => ?_, escapeTags_of_noTag⟩
  · obtain ⟨tree, contents, hread, hbody, -, htext⟩ :=
      Template.exists_contents_of_escapeTags options h
    exact ⟨tree, contents, hread, hbody, htext⟩
  · obtain ⟨tree, contents, hread, hbody, hparams, htext⟩ :=
      Template.exists_contents_of_escapeTags (({} : Compiler).options.readOptions none) h
    obtain ⟨spec, out, hspec, hmain, hletters⟩ := Compiler.compile_contents hbody hparams
    rw [htext] at hletters
    have hcode : ({} : Compiler).ofText none (String.ofList (escapeTags text)) = .ok spec := by
      rw [Compiler.ofText, hread]
      show (({} : Compiler).compile tree).mapError _ = _
      rw [hspec]
      rfl
    rw [renderText, hcode]
    show (pure spec >>= fun spec => render env spec context []).result = _
    rw [Run.pure_bind, render_letters (Compiler.check_of_compile rfl hspec) hmain hletters]

/-- Braces in runs and a backslash at the end. -/
theorem renderText_escapeTags_braces :
    NoEscape "a\x7b\x7b\x7bb\x7d\x7d\x7b\x7b\x7b\x7bc\\".toList ∧
    String.ofList (escapeTags "a\x7b\x7b\x7bb\x7d\x7d\x7b\x7b\x7b\x7bc\\".toList) =
      "a\\\x7b\x7b\x7bb\x7d\x7d\\\x7b\x7b\\\x7b\x7bc\\" ∧
    (renderText .builtins "a\\\x7b\x7b\x7bb\x7d\x7d\\\x7b\x7b\\\x7b\x7bc\\" .null).result =
      .ok "a\x7b\x7b\x7bb\x7d\x7d\x7b\x7b\x7b\x7bc\\" := by
  have h : NoEscape "a\x7b\x7b\x7bb\x7d\x7d\x7b\x7b\x7b\x7bc\\".toList := by decide +kernel
  have hescaped : String.ofList (escapeTags "a\x7b\x7b\x7bb\x7d\x7d\x7b\x7b\x7b\x7bc\\".toList) =
      "a\\\x7b\x7b\x7bb\x7d\x7d\\\x7b\x7b\\\x7b\x7bc\\" := by decide +kernel
  have hresult := (renderText_escapeTags h).2.1 .builtins .null
  rw [hescaped] at hresult
  exact ⟨h, hescaped, hresult⟩

/-- Plain text does not render where no nested programs are allowed, though it has none. -/
theorem plainText_depthExceeded :
    NoEscape ['a'] ∧ escapeTags ['a'] = ['a'] ∧
      (renderText { maxDepth := 0 } "a" .null).result = .error (.ofRuntime (.depthExceeded 0)) :=
  ⟨by decide, by decide, by decide +kernel⟩

end Stencil.Render
