import Stencil.Code.Compile
import Stencil.Proofs.Tree.Cleared

/-!
# What compilation reads of content

Of content, compilation reads the text that it renders as. Trees that differ in what else their
content says compile to the same, under every options and every backend
(`Compiler.compile_mapContent`); so do a tree and the one without notes of cuts
(`Compiler.compile_cleared`).
-/

set_option autoImplicit false

namespace Stencil.Code

open Stencil.Text (Location)
open Stencil.Tree (Content Program Statement Block PartialBlock)

variable {f : Content (Option Location) → Content (Option Location)}

/-- The check of a block looks at no content. -/
theorem Compiling.checkBlock_mapContent
    (f : Content (Option Location) → Content (Option Location)) :
    ∀ b : Block (Option Location), Compiling.checkBlock (b.mapContent f) = Compiling.checkBlock b
  | ⟨_, program, none, _, _, _, _, _⟩ => by cases program <;> rfl
  | ⟨_, program, some ⟨body, _, _, _⟩, _, _, _, _, _⟩ => by
    rcases body with _ | ⟨s, _ | ⟨t, rest⟩⟩
    · cases program <;> rfl
    · cases s <;> cases program <;> rfl
    · cases s <;> cases program <;> rfl

namespace Compiler

variable (compiler : Compiler)

theorem map_mapContentOpt {α : Type} (p : Option (Program (Option Location))) (a : α) :
    (Program.mapContentOpt f p).map (fun _ => a) = p.map fun _ => a := by
  cases p <;> rfl

mutual

/-- A program compiles to the same, whatever its content says besides the text that it renders
as. -/
theorem program_mapContent (hf : ∀ c, (f c).value = c.value) (frames : Frames) (id : Nat) :
    ∀ p : Program (Option Location),
      compiler.program frames id (p.mapContent f) = compiler.program frames id p
  | ⟨body, blockParams, chained, mark⟩ => by
    rw [Program.mapContent, program, program]
    rw [statements_mapContents hf (blockParams :: frames) (id + 1) body]

theorem statements_mapContents (hf : ∀ c, (f c).value = c.value) (frames : Frames) (next : Nat) :
    ∀ (body : List (Statement (Option Location))) (done : Progress),
      compiler.statements frames next (Statement.mapContents f body) done =
        compiler.statements frames next body done
  | [], _ => rfl
  | s :: rest, done => by
    rw [Statement.mapContents, statements, statements, statement_mapContent hf frames next s done]
    exact bind_congr fun done => statements_mapContents hf frames next rest done

theorem statement_mapContent (hf : ∀ c, (f c).value = c.value) (frames : Frames) (next : Nat) :
    ∀ (s : Statement (Option Location)) (done : Progress),
      compiler.statement frames next (s.mapContent f) done = compiler.statement frames next s done
  | .content c, done => by
    rw [Statement.mapContent, statement, statement, hf]
  | .block b, done => block_mapContent hf frames next b done
  | .partialBlock p, done => partialBlock_mapContent hf frames next p done
  | .mustache _, _ | .partialCall _, _ | .comment _, _ => rfl

theorem block_mapContent (hf : ∀ c, (f c).value = c.value) (frames : Frames) (next : Nat) :
    ∀ (b : Block (Option Location)) (done : Progress),
      compiler.block frames next (b.mapContent f) done = compiler.block frames next b done
  | ⟨expr, body, inverse, openStrip, inverseStrip, closeStrip, close, loc⟩, done => by
    have hcheck := Compiling.checkBlock_mapContent f
      ⟨expr, body, inverse, openStrip, inverseStrip, closeStrip, close, loc⟩
    rw [Block.mapContent] at hcheck ⊢
    rw [block, block, hcheck]
    simp only [programs_mapContentOpt hf frames, map_mapContentOpt]

theorem partialBlock_mapContent (hf : ∀ c, (f c).value = c.value) (frames : Frames) (next : Nat) :
    ∀ (p : PartialBlock (Option Location)) (done : Progress),
      compiler.partialBlock frames next (p.mapContent f) done =
        compiler.partialBlock frames next p done
  | ⟨name, params, hash, body, _, _, loc⟩, done => by
    rw [PartialBlock.mapContent, partialBlock, partialBlock, program_mapContent hf frames _ body]

theorem programs_mapContentOpt (hf : ∀ c, (f c).value = c.value) (frames : Frames) (id : Nat) :
    ∀ p : Option (Program (Option Location)),
      compiler.programs frames id (Program.mapContentOpt f p) = compiler.programs frames id p
  | none => rfl
  | some p => program_mapContent hf frames id p

end

/-- A tree compiles to the same, whatever its content says besides the text that it renders as. -/
theorem compile_mapContent (hf : ∀ c, (f c).value = c.value) (tree : Tree.Located) :
    compiler.compile (tree.mapContent f) = compiler.compile tree := by
  rw [compile, program_mapContent compiler hf, compile]

/-- A tree compiles to the same with notes of cuts and without. -/
theorem compile_cleared (tree : Tree.Located) :
    compiler.compile tree.cleared = compiler.compile tree :=
  compiler.compile_mapContent (f := Content.cleared) (fun _ => rfl) tree

end Compiler

end Stencil.Code
