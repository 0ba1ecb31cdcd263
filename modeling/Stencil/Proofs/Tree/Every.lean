import Stencil.Proofs.Tree.Nesting

/-!
# Properties of every statement

`Program.Every P p` says that `P` is true of every statement of the tree `p`, at any nesting: of all
that `Program.statements` lists (`Program.every_iff_statements`). It passes to the body of every
program that the tree holds (`Program.Every.of_nestings`).
-/

set_option autoImplicit false

namespace Stencil.Tree

variable {ℓ : Type} (P : Statement ℓ → Prop)

mutual

/-- The property is true of every statement of the program, at any nesting. -/
def Program.Every : Program ℓ → Prop
  | ⟨body, _, _, _⟩ => Statement.AllEvery body

/-- The property is true of every one of the statements, and of every statement in them. -/
def Statement.AllEvery : List (Statement ℓ) → Prop
  | [] => True
  | s :: rest => s.Every ∧ Statement.AllEvery rest

/-- The property is true of the statement and of every statement in it. -/
def Statement.Every : Statement ℓ → Prop
  | .mustache m => P (.mustache m)
  | .block b => P (.block b) ∧ b.Every
  | .partialCall p => P (.partialCall p)
  | .partialBlock p => P (.partialBlock p) ∧ p.Every
  | .content c => P (.content c)
  | .comment c => P (.comment c)

/-- The property is true of every statement in the block. -/
def Block.Every : Block ℓ → Prop
  | ⟨_, program, inverse, _, _, _, _, _⟩ =>
    Program.EveryOpt program ∧ Program.EveryOpt inverse

/-- The property is true of every statement in the body of the partial block. -/
def PartialBlock.Every : PartialBlock ℓ → Prop
  | ⟨_, _, _, program, _, _, _⟩ => program.Every

/-- The property is true of every statement of the section, if it is there. -/
def Program.EveryOpt : Option (Program ℓ) → Prop
  | none => True
  | some p => p.Every

end

variable {P}

/-- What holds throughout a statement holds of the statement. -/
theorem Statement.Every.self {s : Statement ℓ} (h : s.Every P) : P s := by
  cases s with
  | block b => exact h.1
  | partialBlock p => exact h.1
  | _ => exact h

/-- Statements in a row are judged one by one. -/
theorem Statement.allEvery_iff {body : List (Statement ℓ)} :
    Statement.AllEvery P body ↔ ∀ s ∈ body, s.Every P := by
  induction body with
  | nil => exact ⟨fun _ _ h => absurd h List.not_mem_nil, fun _ => trivial⟩
  | cons s rest ih => rw [Statement.AllEvery, List.forall_mem_cons, ih]

theorem Program.every_iff {p : Program ℓ} : p.Every P ↔ ∀ s ∈ p.body, s.Every P := by
  obtain ⟨body, blockParams, chained, mark⟩ := p
  exact Statement.allEvery_iff

/-- Within a block are the statements of its two sections. -/
theorem Block.every_iff {b : Block ℓ} :
    b.Every P ↔ Program.EveryOpt P b.program ∧ Program.EveryOpt P b.inverse := by
  cases b
  rfl

theorem PartialBlock.every_iff {p : PartialBlock ℓ} : p.Every P ↔ p.program.Every P := by
  cases p
  rfl

/-! ## All statements -/

mutual

/-- The statements of a program at any nesting, each before those in it. -/
def Program.statements : Program ℓ → List (Statement ℓ)
  | ⟨body, _, _, _⟩ => Statement.statementsAll body

def Statement.statementsAll : List (Statement ℓ) → List (Statement ℓ)
  | [] => []
  | s :: rest => s.statements ++ Statement.statementsAll rest

def Statement.statements : Statement ℓ → List (Statement ℓ)
  | .mustache m => [.mustache m]
  | .block b => .block b :: b.statements
  | .partialCall p => [.partialCall p]
  | .partialBlock p => .partialBlock p :: p.statements
  | .content c => [.content c]
  | .comment c => [.comment c]

def Block.statements : Block ℓ → List (Statement ℓ)
  | ⟨_, program, inverse, _, _, _, _, _⟩ =>
    Program.statementsOpt program ++ Program.statementsOpt inverse

def PartialBlock.statements : PartialBlock ℓ → List (Statement ℓ)
  | ⟨_, _, _, program, _, _, _⟩ => program.statements

def Program.statementsOpt : Option (Program ℓ) → List (Statement ℓ)
  | none => []
  | some p => p.statements

end

mutual

/-- A property is true of every statement if it is true of each one that is listed. -/
theorem Program.every_iff_statements : ∀ {p : Program ℓ}, p.Every P ↔ ∀ s ∈ p.statements, P s
  | ⟨_, _, _, _⟩ => Statement.allEvery_iff_statements

theorem Statement.allEvery_iff_statements :
    ∀ {body : List (Statement ℓ)},
      Statement.AllEvery P body ↔ ∀ s ∈ Statement.statementsAll body, P s
  | [] => ⟨fun _ _ h => absurd h List.not_mem_nil, fun _ => trivial⟩
  | _ :: _ =>
    (and_congr Statement.every_iff_statements Statement.allEvery_iff_statements).trans
      List.forall_mem_append.symm

theorem Statement.every_iff_statements :
    ∀ {s : Statement ℓ}, s.Every P ↔ ∀ t ∈ s.statements, P t
  | .mustache _ | .partialCall _ | .content _ | .comment _ =>
    (List.forall_mem_singleton (p := P)).symm
  | .block _ => (and_congr_right' Block.every_iff_statements).trans List.forall_mem_cons.symm
  | .partialBlock _ =>
    (and_congr_right' PartialBlock.every_iff_statements).trans List.forall_mem_cons.symm

theorem Block.every_iff_statements : ∀ {b : Block ℓ}, b.Every P ↔ ∀ s ∈ b.statements, P s
  | ⟨_, _, _, _, _, _, _, _⟩ =>
    (and_congr Program.everyOpt_iff_statements Program.everyOpt_iff_statements).trans
      List.forall_mem_append.symm

theorem PartialBlock.every_iff_statements :
    ∀ {p : PartialBlock ℓ}, p.Every P ↔ ∀ s ∈ p.statements, P s
  | ⟨_, _, _, _, _, _, _⟩ => Program.every_iff_statements

theorem Program.everyOpt_iff_statements :
    ∀ {p : Option (Program ℓ)}, Program.EveryOpt P p ↔ ∀ s ∈ Program.statementsOpt p, P s
  | none => ⟨fun _ _ h => absurd h List.not_mem_nil, fun _ => trivial⟩
  | some _ => Program.every_iff_statements

end

/-! ## Deciding -/

section Deciding

variable [DecidablePred P]

mutual

/-- Looks at every statement of the program. -/
def Program.decidableEvery : (p : Program ℓ) → Decidable (p.Every P)
  | ⟨body, _, _, _⟩ => Statement.decidableAllEvery body

/-- Looks at every one of the statements. -/
def Statement.decidableAllEvery :
    (body : List (Statement ℓ)) → Decidable (Statement.AllEvery P body)
  | [] => .isTrue trivial
  | s :: rest => @instDecidableAnd _ _ s.decidableEvery (Statement.decidableAllEvery rest)

/-- Looks at the statement and at every statement in it. -/
def Statement.decidableEvery : (s : Statement ℓ) → Decidable (s.Every P)
  | .mustache m => inferInstanceAs (Decidable (P (.mustache m)))
  | .block b => @instDecidableAnd _ _ (inferInstanceAs (Decidable (P (.block b)))) b.decidableEvery
  | .partialCall p => inferInstanceAs (Decidable (P (.partialCall p)))
  | .partialBlock p =>
    @instDecidableAnd _ _ (inferInstanceAs (Decidable (P (.partialBlock p)))) p.decidableEvery
  | .content c => inferInstanceAs (Decidable (P (.content c)))
  | .comment c => inferInstanceAs (Decidable (P (.comment c)))

/-- Looks at every statement in the block. -/
def Block.decidableEvery : (b : Block ℓ) → Decidable (b.Every P)
  | ⟨_, program, inverse, _, _, _, _, _⟩ =>
    @instDecidableAnd _ _ (Program.decidableEveryOpt program) (Program.decidableEveryOpt inverse)

/-- Looks at every statement in the body of the partial block. -/
def PartialBlock.decidableEvery : (p : PartialBlock ℓ) → Decidable (p.Every P)
  | ⟨_, _, _, program, _, _, _⟩ => program.decidableEvery

/-- Looks at every statement of the section, if it is there. -/
def Program.decidableEveryOpt : (p : Option (Program ℓ)) → Decidable (Program.EveryOpt P p)
  | none => .isTrue trivial
  | some p => p.decidableEvery

end

instance (p : Program ℓ) : Decidable (p.Every P) := p.decidableEvery

end Deciding

/-! ## Programs that a tree holds -/

/-- The property is true of the statements of the innermost program of every nesting. -/
def Nesting.AllEvery (P : Statement ℓ → Prop) (nestings : List (Nesting ℓ)) : Prop :=
  ∀ n ∈ nestings, ∀ here ∈ n.head?, ∀ s ∈ here.program.body, P s

theorem Nesting.allEvery_nil : Nesting.AllEvery P [] := fun _ h => absurd h List.not_mem_nil

/-- Two lists of programs in one. -/
theorem Nesting.AllEvery.append {ns ms : List (Nesting ℓ)} (hn : Nesting.AllEvery P ns)
    (hm : Nesting.AllEvery P ms) : Nesting.AllEvery P (ns ++ ms) := by
  intro n h
  rcases List.mem_append.1 h with h | h
  · exact hn n h
  · exact hm n h

mutual

/-- By recursion over the tree: every program in it has a body of such statements. -/
theorem Program.Every.of_nestings (outer : Nesting ℓ) (id : Nat) :
    ∀ {p : Program ℓ}, p.Every P → Nesting.AllEvery P (p.nestings outer id)
  | ⟨_, _, _, _⟩, h => by
    intro n hn
    rcases List.mem_cons.1 hn with rfl | hn
    · rintro here ⟨⟩ s hs
      exact (Statement.allEvery_iff.1 h s hs).self
    · exact Statement.AllEvery.of_nestings _ _ h n hn

theorem Statement.AllEvery.of_nestings (outer : Nesting ℓ) (next : Nat) :
    ∀ {body : List (Statement ℓ)}, Statement.AllEvery P body →
      Nesting.AllEvery P (Statement.nestingsAll outer next body)
  | [], _ => Nesting.allEvery_nil
  | _ :: _, h =>
    (Statement.Every.of_nestings _ _ h.1).append (Statement.AllEvery.of_nestings _ _ h.2)

theorem Statement.Every.of_nestings (outer : Nesting ℓ) (next : Nat) :
    ∀ {s : Statement ℓ}, s.Every P → Nesting.AllEvery P (s.nestings outer next)
  | .mustache _, _ | .partialCall _, _ | .content _, _ | .comment _, _ => Nesting.allEvery_nil
  | .block _, h => Block.Every.of_nestings _ _ h.2
  | .partialBlock _, h => PartialBlock.Every.of_nestings _ _ h.2

theorem Block.Every.of_nestings (outer : Nesting ℓ) (next : Nat) :
    ∀ {b : Block ℓ}, b.Every P → Nesting.AllEvery P (b.nestings outer next)
  | ⟨_, _, _, _, _, _, _, _⟩, h =>
    (Program.EveryOpt.of_nestings _ _ h.1).append (Program.EveryOpt.of_nestings _ _ h.2)

theorem PartialBlock.Every.of_nestings (outer : Nesting ℓ) (next : Nat) :
    ∀ {p : PartialBlock ℓ}, p.Every P → Nesting.AllEvery P (p.nestings outer next)
  | ⟨_, _, _, _, _, _, _⟩, h => Program.Every.of_nestings _ _ h

theorem Program.EveryOpt.of_nestings (outer : Nesting ℓ) (id : Nat) :
    ∀ {p : Option (Program ℓ)}, Program.EveryOpt P p →
      Nesting.AllEvery P (Program.nestingsOpt outer id p)
  | none, _ => Nesting.allEvery_nil
  | some _, h => Program.Every.of_nestings _ _ h

end

/-! ## Marks -/

section Marks

variable {μ : Type} {Q : Statement μ → Prop}

mutual

/-- A property that passes to statements with other marks passes to trees with other marks. -/
theorem Program.Every.mapMark {f : ℓ → μ} (passes : ∀ s, P s → Q (s.mapMark f)) :
    ∀ {p : Program ℓ}, p.Every P → (p.mapMark f).Every Q
  | ⟨_, _, _, _⟩, h => Statement.AllEvery.mapMarks passes h

/-- What passes from a statement to the one with other marks passes throughout a row. -/
theorem Statement.AllEvery.mapMarks {f : ℓ → μ} (passes : ∀ s, P s → Q (s.mapMark f)) :
    ∀ {body : List (Statement ℓ)}, Statement.AllEvery P body →
      Statement.AllEvery Q (Statement.mapMarks f body)
  | [], _ => trivial
  | _ :: _, h => ⟨Statement.Every.mapMark passes h.1, Statement.AllEvery.mapMarks passes h.2⟩

theorem Statement.Every.mapMark {f : ℓ → μ} (passes : ∀ s, P s → Q (s.mapMark f)) :
    ∀ {s : Statement ℓ}, s.Every P → (s.mapMark f).Every Q
  | .mustache m, h => passes (.mustache m) h
  | .block b, h => ⟨passes (.block b) h.1, Block.Every.mapMark passes h.2⟩
  | .partialCall p, h => passes (.partialCall p) h
  | .partialBlock p, h => ⟨passes (.partialBlock p) h.1, PartialBlock.Every.mapMark passes h.2⟩
  | .content c, h => passes (.content c) h
  | .comment c, h => passes (.comment c) h

/-- It passes to both sections. -/
theorem Block.Every.mapMark {f : ℓ → μ} (passes : ∀ s, P s → Q (s.mapMark f)) :
    ∀ {b : Block ℓ}, b.Every P → (b.mapMark f).Every Q
  | ⟨_, _, _, _, _, _, _, _⟩, h =>
    ⟨Program.EveryOpt.mapMarkOpt passes h.1, Program.EveryOpt.mapMarkOpt passes h.2⟩

theorem PartialBlock.Every.mapMark {f : ℓ → μ} (passes : ∀ s, P s → Q (s.mapMark f)) :
    ∀ {p : PartialBlock ℓ}, p.Every P → (p.mapMark f).Every Q
  | ⟨_, _, _, _, _, _, _⟩, h => Program.Every.mapMark passes h

theorem Program.EveryOpt.mapMarkOpt {f : ℓ → μ} (passes : ∀ s, P s → Q (s.mapMark f)) :
    ∀ {p : Option (Program ℓ)}, Program.EveryOpt P p → Program.EveryOpt Q (Program.mapMarkOpt f p)
  | none, _ => trivial
  | some _, h => Program.Every.mapMark passes h

end

end Marks

end Stencil.Tree
