import Stencil.Proofs.Layout.Bare
import Stencil.Proofs.Tree.Every

/-!
# The shape of trees

What the compiler asks of a tree besides names: a closing tag repeats the name of its block, a block
has a body of one kind at least, a section after an `else` that goes on with a call holds one block,
and a partial has one parameter at most. Neither the marks of a tree nor its layout bear on that.
-/

set_option autoImplicit false

namespace Stencil.Tree

variable {ℓ μ : Type}

/-- If the program is chained, it holds one block and nothing else. -/
def Program.HoldsLink (p : Program ℓ) : Prop := p.chained = true → ∃ link, p.body = [.block link]

/-- The block is closed under its own name, has a body, and goes on with a block after a chained
`else`. -/
structure Block.WellShaped (b : Block ℓ) : Prop where
  closes : ∀ close, b.close = some close → close.spelling = b.expr.spelling
  hasBody : b.program.isSome ∨ b.inverse.isSome
  chain : ∀ inverse, b.inverse = some inverse → inverse.HoldsLink

/-- The shape of a block is right, and a partial has one parameter at most. -/
def Statement.WellShaped : Statement ℓ → Prop
  | .block b => b.WellShaped
  | .partialCall p => p.params.length ≤ 1
  | .partialBlock p => p.params.length ≤ 1
  | .mustache _ | .content _ | .comment _ => True

/-! ## Marks -/

theorem Expr.spelling_mapMark (f : ℓ → μ) (e : Expr ℓ) : (e.mapMark f).spelling = e.spelling := by
  cases e with
  | call c => cases c; rfl
  | _ => rfl

theorem Expr.length_mapMarks (f : ℓ → μ) (es : List (Expr ℓ)) :
    (Expr.mapMarks f es).length = es.length := by
  induction es with
  | nil => rfl
  | cons e es ih => exact congrArg (· + 1) ih

/-- What a chained program holds is no matter of marks. -/
theorem Program.HoldsLink.mapMark (f : ℓ → μ) {p : Program ℓ} (h : p.HoldsLink) :
    (p.mapMark f).HoldsLink := by
  obtain ⟨body, blockParams, chained, mark⟩ := p
  intro hchained
  obtain ⟨link, rfl⟩ := h hchained
  exact ⟨link.mapMark f, rfl⟩

theorem Program.isSome_mapMarkOpt_iff (f : ℓ → μ) (p : Option (Program ℓ)) :
    (Program.mapMarkOpt f p).isSome = p.isSome := by
  cases p <;> rfl

/-- Nor is the shape of a block. -/
theorem Block.WellShaped.mapMark (f : ℓ → μ) {b : Block ℓ} (h : b.WellShaped) :
    (b.mapMark f).WellShaped := by
  obtain ⟨expr, program, inverse, openStrip, inverseStrip, closeStrip, close, mark⟩ := b
  refine ⟨?_, ?_, ?_⟩
  · intro path hpath
    obtain ⟨close, rfl, rfl⟩ := Option.map_eq_some_iff.1 hpath
    exact (h.closes close rfl).trans (expr.spelling_mapMark f).symm
  · exact h.hasBody.imp (Program.isSome_mapMarkOpt_iff f program).trans
      (Program.isSome_mapMarkOpt_iff f inverse).trans
  · intro p hp
    cases inverse with
    | none => cases hp
    | some q =>
      cases hp
      exact (h.chain q rfl).mapMark f

theorem Statement.WellShaped.mapMark (f : ℓ → μ) :
    ∀ s : Statement ℓ, s.WellShaped → (s.mapMark f).WellShaped
  | .block _, h => Block.WellShaped.mapMark f h
  | .partialCall p, h => Nat.le_trans (Nat.le_of_eq (Expr.length_mapMarks f p.params)) h
  | .partialBlock ⟨_, params, _, _, _, _, _⟩, h =>
    Nat.le_trans (Nat.le_of_eq (Expr.length_mapMarks f params)) h
  | .mustache _, _ | .content _, _ | .comment _, _ => trivial

/-! ## Layout -/

/-- Baring leaves one block one block. -/
theorem Program.holdsLink_bare {p : Program ℓ} : p.bare.HoldsLink ↔ p.HoldsLink := by
  obtain ⟨body, blockParams, chained, mark⟩ := p
  refine forall_congr' fun _ => ⟨?_, ?_⟩
  · rintro ⟨link, hlink⟩
    match body, hlink with
    | [.block b], _ => exact ⟨b, rfl⟩
  · rintro ⟨link, hbody⟩
    cases hbody
    exact ⟨link.bare, rfl⟩

theorem Program.isSome_bareOpt (p : Option (Program ℓ)) :
    (Program.bareOpt p).isSome = p.isSome := by
  cases p <;> rfl

/-- Sections that are there stay there, and a chained one holds what it held. -/
theorem Block.wellShaped_bare {b : Block ℓ} : b.bare.WellShaped ↔ b.WellShaped := by
  obtain ⟨expr, program, inverse, openStrip, inverseStrip, closeStrip, close, mark⟩ := b
  have hbody : (Program.bareOpt program).isSome ∨ (Program.bareOpt inverse).isSome ↔
      program.isSome ∨ inverse.isSome := by
    rw [Program.isSome_bareOpt, Program.isSome_bareOpt]
  have hchain : (∀ p, Program.bareOpt inverse = some p → p.HoldsLink) ↔
      ∀ p, inverse = some p → p.HoldsLink := by
    cases inverse with
    | none => exact ⟨fun _ => nofun, fun _ => nofun⟩
    | some q =>
      constructor
      · rintro h _ ⟨⟩
        exact Program.holdsLink_bare.1 (h _ rfl)
      · rintro h _ ⟨⟩
        exact Program.holdsLink_bare.2 (h _ rfl)
  exact ⟨fun h => ⟨h.closes, hbody.1 h.hasBody, hchain.1 h.chain⟩,
    fun h => ⟨h.closes, hbody.2 h.hasBody, hchain.2 h.chain⟩⟩

theorem Statement.wellShaped_bare : ∀ s : Statement ℓ, s.bare.WellShaped ↔ s.WellShaped
  | .block _ => Block.wellShaped_bare
  | .partialBlock ⟨_, _, _, _, _, _, _⟩ => Iff.rfl
  | .partialCall _ | .mustache _ | .content _ | .comment _ => Iff.rfl

section Bare

variable {P : Statement ℓ → Prop}

mutual

/-- A property that bare statements share is one that bare trees share. -/
theorem Program.every_bare (hP : ∀ s : Statement ℓ, P s.bare ↔ P s) :
    ∀ p : Program ℓ, p.bare.Every P ↔ p.Every P
  | ⟨body, _, _, _⟩ => Statement.allEvery_bares hP body

theorem Statement.allEvery_bares (hP : ∀ s : Statement ℓ, P s.bare ↔ P s) :
    ∀ body : List (Statement ℓ),
      Statement.AllEvery P (Statement.bares body) ↔ Statement.AllEvery P body
  | [] => Iff.rfl
  | s :: rest => and_congr (Statement.every_bare hP s) (Statement.allEvery_bares hP rest)

/-- A property that baring does not change is judged throughout a tree either before or after it. -/
theorem Statement.every_bare (hP : ∀ s : Statement ℓ, P s.bare ↔ P s) :
    ∀ s : Statement ℓ, s.bare.Every P ↔ s.Every P
  | .block b => and_congr (hP (.block b)) (Block.every_bare hP b)
  | .partialBlock p => and_congr (hP (.partialBlock p)) (PartialBlock.every_bare hP p)
  | .partialCall p => hP (.partialCall p)
  | .content c => hP (.content c)
  | .mustache m => hP (.mustache m)
  | .comment c => hP (.comment c)

theorem Block.every_bare (hP : ∀ s : Statement ℓ, P s.bare ↔ P s) :
    ∀ b : Block ℓ, b.bare.Every P ↔ b.Every P
  | ⟨_, program, inverse, _, _, _, _, _⟩ =>
    and_congr (Program.everyOpt_bareOpt hP program) (Program.everyOpt_bareOpt hP inverse)

theorem PartialBlock.every_bare (hP : ∀ s : Statement ℓ, P s.bare ↔ P s) :
    ∀ p : PartialBlock ℓ, p.bare.Every P ↔ p.Every P
  | ⟨_, _, _, program, _, _, _⟩ => Program.every_bare hP program

theorem Program.everyOpt_bareOpt (hP : ∀ s : Statement ℓ, P s.bare ↔ P s) :
    ∀ p : Option (Program ℓ), Program.EveryOpt P (Program.bareOpt p) ↔ Program.EveryOpt P p
  | none => Iff.rfl
  | some p => Program.every_bare hP p

end

/-- Such a property is true of a tree after the layout as it was before. -/
theorem Program.every_layout (hP : ∀ s : Statement ℓ, P s.bare ↔ P s) (ignoreStandalone root : Bool)
    (p : Program ℓ) : (p.layout ignoreStandalone root).Every P ↔ p.Every P := by
  rw [← Program.every_bare hP, Program.bare_layout, Program.every_bare hP]

end Bare

end Stencil.Tree
