import Stencil.Proofs.Code.Numbering
import Stencil.Proofs.Tree.Every

/-!
# Templates without partials

A tree that calls no partial compiles to code that calls none (`Compiler.Compiles.ne_partialCall`).
All that its programs refer to are programs of the tree, each directly in the one that refers to it
(`Compiler.exists_child_of_reference`).
-/

set_option autoImplicit false

namespace Stencil.Tree

variable {ℓ : Type}

/-- The statement calls no partial, with a body or without one. -/
def Statement.NoPartial : Statement ℓ → Prop
  | .partialCall _ | .partialBlock _ => False
  | .mustache _ | .block _ | .content _ | .comment _ => True

instance : (s : Statement ℓ) → Decidable s.NoPartial
  | .partialCall _ | .partialBlock _ => .isFalse id
  | .mustache _ | .block _ | .content _ | .comment _ => .isTrue trivial

/-- The tags of a program are statements of it. -/
theorem Statement.mem_of_tagsFrom {t : Nat × Statement ℓ} :
    ∀ {body : List (Statement ℓ)} {next : Nat}, t ∈ Statement.tagsFrom next body → t.2 ∈ body
  | [], _, h => absurd h List.not_mem_nil
  | s :: rest, next, h => by
    rw [Statement.tagsFrom] at h
    split at h
    · rcases List.mem_cons.1 h with rfl | h
      · exact List.mem_cons_self
      · exact List.mem_cons_of_mem _ (Statement.mem_of_tagsFrom h)
    · exact List.mem_cons_of_mem _ (Statement.mem_of_tagsFrom h)

/-- What is true of every statement of a tree is true of the tags of every program that it holds. -/
theorem Program.Every.of_tags {P : Statement ℓ → Prop} {tree : Program ℓ} (h : tree.Every P)
    {n : Nesting ℓ} (hn : n ∈ tree.nestings [] 0) {t : Nat × Statement ℓ}
    (ht : t ∈ Nesting.tags n) :
    P t.2 := by
  cases n with
  | nil => exact absurd ht List.not_mem_nil
  | cons here outer => exact h.of_nestings [] 0 _ hn here rfl t.2 (Statement.mem_of_tagsFrom ht)

end Stencil.Tree

namespace Stencil.Code.Compiler

open Stencil.Text (Location)
open Stencil.Tree (Statement Nesting)

variable {compiler : Compiler} (keeps : compiler.backend.KeepsTags) {tree : Tree.Located}
  {spec : Spec}

include keeps

/-- A tree without partials compiles to instructions that are no calls of partials. -/
theorem Compiles.ne_partialCall (own : tree.Every Statement.NoPartial)
    {n : Nesting (Option Location)} (hn : n ∈ tree.nestings [] 0) {c : Chunk}
    (h : compiler.Compiles n c) {i : Instruction} (hi : i ∈ c.instructions)
    (call : PartialInvocation) : i ≠ .partialCall call := by
  rintro rfl
  obtain ⟨t, ht, hemits⟩ := h.exists_tag keeps hi rfl
  obtain ⟨next, s⟩ := t
  have hown : s.NoPartial := own.of_tags hn ht
  cases hemits with
  | partialCall => exact hown
  | partialBlock => exact hown

/-- A program that is referred to stands directly in the one that refers to it. -/
theorem exists_child_of_reference (compiled : compiler.compile tree = .ok spec) {id r : Nat}
    {c : Chunk} (hc : spec.program? id = some c) {n : Nesting (Option Location)}
    (hn : (tree.nestings [] 0)[id]? = some n) (hr : r ∈ c.references) :
    ∃ child, (tree.nestings [] 0)[r]? = some (child :: n) := by
  obtain ⟨child, here, outer, -, -, hparent, hchild, -⟩ :=
    exists_opened_of_reference keeps compiled hc hr
  rw [hparent] at hn
  obtain rfl := Option.some.inj hn
  exact ⟨child, hchild⟩

end Stencil.Code.Compiler
