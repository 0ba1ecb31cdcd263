import Stencil.Tree.Interchange

/-!
# Trees without notes of cuts

`Program.mapContent f` changes the content of a tree at every nesting and nothing else. What the
layout noted of its cuts is cleared in this way (`Program.cleared`). The interchange form does not
show the notes, so it is the same with them and without (`Program.toJson_cleared`).
-/

set_option autoImplicit false

namespace Stencil.Tree

variable {ℓ : Type}

mutual

/-- The program with its content changed, at every nesting. -/
def Program.mapContent (f : Content ℓ → Content ℓ) : Program ℓ → Program ℓ
  | ⟨body, blockParams, chained, mark⟩ =>
    ⟨Statement.mapContents f body, blockParams, chained, mark⟩

/-- The statements with their content changed. -/
def Statement.mapContents (f : Content ℓ → Content ℓ) : List (Statement ℓ) → List (Statement ℓ)
  | [] => []
  | s :: rest => s.mapContent f :: Statement.mapContents f rest

/-- The statement with its content changed. -/
def Statement.mapContent (f : Content ℓ → Content ℓ) : Statement ℓ → Statement ℓ
  | .content c => .content (f c)
  | .block b => .block (b.mapContent f)
  | .partialBlock p => .partialBlock (p.mapContent f)
  | .mustache m => .mustache m
  | .partialCall p => .partialCall p
  | .comment c => .comment c

/-- The block with its content changed. -/
def Block.mapContent (f : Content ℓ → Content ℓ) : Block ℓ → Block ℓ
  | ⟨expr, program, inverse, openStrip, inverseStrip, closeStrip, close, mark⟩ =>
    ⟨expr, Program.mapContentOpt f program, Program.mapContentOpt f inverse, openStrip,
      inverseStrip, closeStrip, close, mark⟩

/-- The partial with a body with its content changed. -/
def PartialBlock.mapContent (f : Content ℓ → Content ℓ) : PartialBlock ℓ → PartialBlock ℓ
  | ⟨name, params, hash, program, openStrip, closeStrip, mark⟩ =>
    ⟨name, params, hash, program.mapContent f, openStrip, closeStrip, mark⟩

/-- The section, if it is there, with its content changed. -/
def Program.mapContentOpt (f : Content ℓ → Content ℓ) : Option (Program ℓ) → Option (Program ℓ)
  | none => none
  | some p => some (p.mapContent f)

end

theorem Statement.mapContents_eq_map (f : Content ℓ → Content ℓ) (body : List (Statement ℓ)) :
    Statement.mapContents f body = body.map (Statement.mapContent f) := by
  induction body with
  | nil => rfl
  | cons s rest ih => rw [Statement.mapContents, List.map_cons, ih]

theorem Program.mapContentOpt_eq_map (f : Content ℓ → Content ℓ) (p : Option (Program ℓ)) :
    Program.mapContentOpt f p = p.map (Program.mapContent f) := by
  cases p <;> rfl

/-- The content without notes of what was cut off it. -/
def Content.cleared (c : Content ℓ) : Content ℓ :=
  { c with leftStripped := false, rightStripped := false }

/-- The statement without notes of cuts. -/
def Statement.cleared (s : Statement ℓ) : Statement ℓ := s.mapContent Content.cleared

/-- The tree without notes of cuts. -/
def Program.cleared (p : Program ℓ) : Program ℓ := p.mapContent Content.cleared

/-! ## Interchange -/

section Interchange

variable {f : Content Mark → Content Mark}

mutual

/-- A change of content that its form does not show is not shown by that of a tree. -/
theorem Program.toJson_mapContent (hf : ∀ c, (f c).toJson = c.toJson) :
    ∀ p : Program Mark, (p.mapContent f).toJson = p.toJson
  | ⟨body, _, _, _⟩ => by
    rw [Program.mapContent, Program.toJson, Statement.toJsons_mapContents hf body, Program.toJson]

theorem Statement.toJsons_mapContents (hf : ∀ c, (f c).toJson = c.toJson) :
    ∀ body : List (Statement Mark),
      Statement.toJsons (Statement.mapContents f body) = Statement.toJsons body
  | [] => rfl
  | s :: rest => by
    rw [Statement.mapContents, Statement.toJsons, Statement.toJson_mapContent hf s,
      Statement.toJsons_mapContents hf rest, Statement.toJsons]

theorem Statement.toJson_mapContent (hf : ∀ c, (f c).toJson = c.toJson) :
    ∀ s : Statement Mark, (s.mapContent f).toJson = s.toJson
  | .content c => hf c
  | .block b => Block.toJson_mapContent hf b
  | .partialBlock p => PartialBlock.toJson_mapContent hf p
  | .mustache _ | .partialCall _ | .comment _ => rfl

theorem Block.toJson_mapContent (hf : ∀ c, (f c).toJson = c.toJson) :
    ∀ b : Block Mark, (b.mapContent f).toJson = b.toJson
  | ⟨_, program, inverse, _, _, _, _, _⟩ => by
    rw [Block.mapContent, Block.toJson, Program.toJsonOpt_mapContentOpt hf program,
      Program.toJsonOpt_mapContentOpt hf inverse, Block.toJson]

theorem PartialBlock.toJson_mapContent (hf : ∀ c, (f c).toJson = c.toJson) :
    ∀ p : PartialBlock Mark, (p.mapContent f).toJson = p.toJson
  | ⟨_, _, _, program, _, _, _⟩ => by
    rw [PartialBlock.mapContent, PartialBlock.toJson, Program.toJson_mapContent hf program,
      PartialBlock.toJson]

theorem Program.toJsonOpt_mapContentOpt (hf : ∀ c, (f c).toJson = c.toJson) :
    ∀ p : Option (Program Mark), Program.toJsonOpt (Program.mapContentOpt f p) = Program.toJsonOpt p
  | none => rfl
  | some p => Program.toJson_mapContent hf p

end

/-- The form of a tree does not show notes of cuts. -/
theorem Program.toJson_cleared (p : Program Mark) : p.cleared.toJson = p.toJson :=
  Program.toJson_mapContent (f := Content.cleared) (fun _ => rfl) p

end Interchange

end Stencil.Tree
