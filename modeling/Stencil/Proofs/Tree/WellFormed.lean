import Stencil.Proofs.Layout.Cut

/-!
# Well-formed trees

A tree is well-formed if its content is as it was read and its chained programs are the links of
chains. A chain begins at a section of a block whose other section is not chained. Each link holds
one block, which has taken over the strip markers of the `else` before it and those of the closing
tag of the whole chain; it has no closing tag of its own. The section after the `else` of a link is
the next link or, at the end of a chain, an ordinary program.
-/

set_option autoImplicit false

namespace Stencil.Tree

variable {ℓ : Type}

mutual

/-- The program is not chained, and what it holds is well-formed. -/
def Program.WellFormed : Program ℓ → Prop
  | ⟨body, _, chained, _⟩ => chained = false ∧ Statement.AllWellFormed body

/-- The program is a link. `opening` are the markers of the `else` before it, `closing` those of the
closing tag. -/
def Program.IsLink (opening closing : Strip) : Program ℓ → Prop
  | ⟨body, _, chained, _⟩ => chained = true ∧ Statement.AreLink opening closing body

/-- Each of the statements is well-formed. -/
def Statement.AllWellFormed : List (Statement ℓ) → Prop
  | [] => True
  | s :: rest => s.WellFormed ∧ Statement.AllWellFormed rest

/-- The statements are the one block of a link. -/
def Statement.AreLink (opening closing : Strip) : List (Statement ℓ) → Prop
  | [] => False
  | s :: rest => rest = [] ∧ s.IsLink opening closing

/-- What the statement holds is well-formed. -/
def Statement.WellFormed : Statement ℓ → Prop
  | .mustache _ | .partialCall _ | .comment _ => True
  | .block b => b.WellFormed
  | .partialBlock p => p.WellFormed
  | .content c => c.IsFresh

/-- The statement is the block of a link. -/
def Statement.IsLink (opening closing : Strip) : Statement ℓ → Prop
  | .block b => b.IsLink opening closing
  | .mustache _ | .partialCall _ | .partialBlock _ | .content _ | .comment _ => False

/-- The sections of the block are well-formed, or one of two begins a chain. -/
def Block.WellFormed : Block ℓ → Prop
  | ⟨_, program, inverse, _, inverseStrip, closeStrip, _, _⟩ =>
    (Program.WellFormedOpt program ∧ Program.WellFormedOpt inverse) ∨
      (program.isSome ∧ Program.WellFormedOpt program ∧
        Program.IsLinkOpt inverseStrip closeStrip inverse) ∨
      (Program.IsLinkOpt inverseStrip closeStrip program ∧
        inverse.isSome ∧ Program.WellFormedOpt inverse)

/-- The block is that of a link. -/
def Block.IsLink (opening closing : Strip) : Block ℓ → Prop
  | ⟨_, program, inverse, openStrip, inverseStrip, closeStrip, close, _⟩ =>
    openStrip = opening ∧ closeStrip = closing ∧ close = none ∧
      program.isSome ∧ Program.WellFormedOpt program ∧
        (Program.WellFormedOpt inverse ∨ Program.IsLinkOpt inverseStrip closing inverse)

/-- The body of the partial block is well-formed. -/
def PartialBlock.WellFormed : PartialBlock ℓ → Prop
  | ⟨_, _, _, program, _, _, _⟩ => program.WellFormed

/-- The section is well-formed if it is there. -/
def Program.WellFormedOpt : Option (Program ℓ) → Prop
  | none => True
  | some p => p.WellFormed

/-- The section is there, and a link. -/
def Program.IsLinkOpt (opening closing : Strip) : Option (Program ℓ) → Prop
  | none => False
  | some p => p.IsLink opening closing

end

/-! ## Marks -/

section Marks

variable {μ : Type}

theorem Program.isSome_mapMarkOpt (f : ℓ → μ) {p : Option (Program ℓ)} (h : p.isSome) :
    (Program.mapMarkOpt f p).isSome := by
  cases p with
  | none => exact absurd h Bool.false_ne_true
  | some p => rfl

mutual

/-- What a tree is marked with does not matter to its form. -/
theorem Program.WellFormed.mapMark (f : ℓ → μ) :
    ∀ {p : Program ℓ}, p.WellFormed → (p.mapMark f).WellFormed
  | ⟨_, _, _, _⟩, h => ⟨h.1, Statement.AllWellFormed.mapMarks f h.2⟩

theorem Program.IsLink.mapMark (f : ℓ → μ) {opening closing : Strip} :
    ∀ {p : Program ℓ}, p.IsLink opening closing → (p.mapMark f).IsLink opening closing
  | ⟨_, _, _, _⟩, h => ⟨h.1, Statement.AreLink.mapMarks f h.2⟩

theorem Statement.AllWellFormed.mapMarks (f : ℓ → μ) :
    ∀ {body : List (Statement ℓ)}, Statement.AllWellFormed body →
      Statement.AllWellFormed (Statement.mapMarks f body)
  | [], _ => trivial
  | _ :: _, h => ⟨Statement.WellFormed.mapMark f h.1, Statement.AllWellFormed.mapMarks f h.2⟩

theorem Statement.AreLink.mapMarks (f : ℓ → μ) {opening closing : Strip} :
    ∀ {body : List (Statement ℓ)}, Statement.AreLink opening closing body →
      Statement.AreLink opening closing (Statement.mapMarks f body)
  | [], h => h
  | s :: _, h => by
    obtain ⟨rfl, hs⟩ := h
    exact ⟨rfl, Statement.IsLink.mapMark f hs⟩

theorem Statement.WellFormed.mapMark (f : ℓ → μ) :
    ∀ {s : Statement ℓ}, s.WellFormed → (s.mapMark f).WellFormed
  | .mustache _, _ | .partialCall _, _ | .comment _, _ => trivial
  | .block _, h => Block.WellFormed.mapMark f h
  | .partialBlock _, h => PartialBlock.WellFormed.mapMark f h
  | .content _, h => h

theorem Statement.IsLink.mapMark (f : ℓ → μ) {opening closing : Strip} :
    ∀ {s : Statement ℓ}, s.IsLink opening closing → (s.mapMark f).IsLink opening closing
  | .block _, h => Block.IsLink.mapMark f h
  | .mustache _, h | .partialCall _, h | .partialBlock _, h | .content _, h | .comment _, h =>
    h.elim

theorem Block.WellFormed.mapMark (f : ℓ → μ) :
    ∀ {b : Block ℓ}, b.WellFormed → (b.mapMark f).WellFormed
  | ⟨_, _, _, _, _, _, _, _⟩, h => by
    rcases h with ⟨hp, hq⟩ | ⟨hsome, hp, hq⟩ | ⟨hp, hsome, hq⟩
    · exact Or.inl ⟨Program.WellFormedOpt.mapMarkOpt f hp, Program.WellFormedOpt.mapMarkOpt f hq⟩
    · exact Or.inr (Or.inl ⟨Program.isSome_mapMarkOpt f hsome,
        Program.WellFormedOpt.mapMarkOpt f hp, Program.IsLinkOpt.mapMarkOpt f hq⟩)
    · exact Or.inr (Or.inr ⟨Program.IsLinkOpt.mapMarkOpt f hp,
        Program.isSome_mapMarkOpt f hsome, Program.WellFormedOpt.mapMarkOpt f hq⟩)

theorem Block.IsLink.mapMark (f : ℓ → μ) {opening closing : Strip} :
    ∀ {b : Block ℓ}, b.IsLink opening closing → (b.mapMark f).IsLink opening closing
  | ⟨_, _, _, _, _, _, _, _⟩, h => by
    obtain ⟨hopen, hclosing, rfl, hsome, hp, hq⟩ := h
    exact ⟨hopen, hclosing, rfl, Program.isSome_mapMarkOpt f hsome,
      Program.WellFormedOpt.mapMarkOpt f hp,
      hq.imp (Program.WellFormedOpt.mapMarkOpt f) (Program.IsLinkOpt.mapMarkOpt f)⟩

theorem PartialBlock.WellFormed.mapMark (f : ℓ → μ) :
    ∀ {p : PartialBlock ℓ}, p.WellFormed → (p.mapMark f).WellFormed
  | ⟨_, _, _, _, _, _, _⟩, h => Program.WellFormed.mapMark f h

theorem Program.WellFormedOpt.mapMarkOpt (f : ℓ → μ) :
    ∀ {p : Option (Program ℓ)}, Program.WellFormedOpt p →
      Program.WellFormedOpt (Program.mapMarkOpt f p)
  | none, _ => trivial
  | some _, h => Program.WellFormed.mapMark f h

theorem Program.IsLinkOpt.mapMarkOpt (f : ℓ → μ) {opening closing : Strip} :
    ∀ {p : Option (Program ℓ)}, Program.IsLinkOpt opening closing p →
      Program.IsLinkOpt opening closing (Program.mapMarkOpt f p)
  | none, h => h
  | some _, h => Program.IsLink.mapMark f h

end

end Marks

theorem Program.WellFormed.chained_eq {p : Program ℓ} (h : p.WellFormed) : p.chained = false := by
  cases p
  exact h.1

end Stencil.Tree
