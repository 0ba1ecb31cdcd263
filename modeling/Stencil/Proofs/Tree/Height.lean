import Stencil.Proofs.Tree.Nesting

/-!
# Height

How many programs of a tree are nested in each other at most, the whole tree counted. No program of
the tree has more programs around it than that allows (`Program.length_nestings_le`).
-/

set_option autoImplicit false

namespace Stencil.Tree

variable {ℓ μ : Type}

mutual

/-- How many programs are nested in each other at most, this one counted. -/
def Program.height : Program ℓ → Nat
  | ⟨body, _, _, _⟩ => Statement.heightAll body + 1

/-- How many programs are nested in each other at most in some statements. -/
def Statement.heightAll : List (Statement ℓ) → Nat
  | [] => 0
  | s :: rest => max s.height (Statement.heightAll rest)

/-- How many programs are nested in each other at most in a statement. -/
def Statement.height : Statement ℓ → Nat
  | .block b => b.height
  | .partialBlock p => p.height
  | .mustache _ | .partialCall _ | .content _ | .comment _ => 0

/-- How many programs are nested in each other at most in a block. -/
def Block.height : Block ℓ → Nat
  | ⟨_, program, inverse, _, _, _, _, _⟩ =>
    max (Program.heightOpt program) (Program.heightOpt inverse)

/-- How many programs are nested in each other at most in a partial with a body. -/
def PartialBlock.height : PartialBlock ℓ → Nat
  | ⟨_, _, _, program, _, _, _⟩ => program.height

/-- How many programs are nested in each other at most in a section, if it is there. -/
def Program.heightOpt : Option (Program ℓ) → Nat
  | none => 0
  | some p => p.height

end

/-- The height of a row is that of the highest statement in it. -/
theorem Statement.heightAll_le_iff {body : List (Statement ℓ)} {n : Nat} :
    Statement.heightAll body ≤ n ↔ ∀ s ∈ body, s.height ≤ n := by
  induction body with
  | nil => simp [Statement.heightAll]
  | cons s rest ih => rw [Statement.heightAll, Nat.max_le, List.forall_mem_cons, ih]

/-! ## Programs around a program -/

mutual

/-- A program that the tree holds has not more programs around it than the height of the tree. -/
theorem Program.length_nestings_le {outer : Nesting ℓ} {id : Nat} :
    ∀ {p : Program ℓ}, ∀ n ∈ p.nestings outer id, n.length ≤ outer.length + p.height
  | ⟨body, _, _, _⟩, n, hn => by
    rw [Program.height]
    rcases List.mem_cons.1 hn with rfl | hn
    · rw [List.length_cons]
      omega
    · have hlength := Statement.length_nestingsAll_le n hn
      rw [List.length_cons] at hlength
      omega

/-- Around a program in a row there are as many programs as outside and as the row is high, at
most. -/
theorem Statement.length_nestingsAll_le {outer : Nesting ℓ} {next : Nat} :
    ∀ {body : List (Statement ℓ)}, ∀ n ∈ Statement.nestingsAll outer next body,
      n.length ≤ outer.length + Statement.heightAll body
  | [], _, hn => absurd hn List.not_mem_nil
  | s :: rest, n, hn => by
    rw [Statement.heightAll]
    rcases List.mem_append.1 hn with hn | hn
    · have hlength := Statement.length_nestings_le n hn
      omega
    · have hlength := Statement.length_nestingsAll_le n hn
      omega

theorem Statement.length_nestings_le {outer : Nesting ℓ} {next : Nat} :
    ∀ {s : Statement ℓ}, ∀ n ∈ s.nestings outer next, n.length ≤ outer.length + s.height
  | .block _, n, hn => Block.length_nestings_le n hn
  | .partialBlock _, n, hn => PartialBlock.length_nestings_le n hn
  | .mustache _, _, hn | .partialCall _, _, hn | .content _, _, hn | .comment _, _, hn =>
    absurd hn List.not_mem_nil

/-- Either section of a block is no higher than the block. -/
theorem Block.length_nestings_le {outer : Nesting ℓ} {next : Nat} :
    ∀ {b : Block ℓ}, ∀ n ∈ b.nestings outer next, n.length ≤ outer.length + b.height
  | ⟨_, program, inverse, _, _, _, _, _⟩, n, hn => by
    rw [Block.height]
    rcases List.mem_append.1 hn with hn | hn
    · have hlength := Program.length_nestingsOpt_le n hn
      omega
    · have hlength := Program.length_nestingsOpt_le n hn
      omega

theorem PartialBlock.length_nestings_le {outer : Nesting ℓ} {next : Nat} :
    ∀ {p : PartialBlock ℓ}, ∀ n ∈ p.nestings outer next, n.length ≤ outer.length + p.height
  | ⟨_, _, _, program, _, _, _⟩, n, hn => Program.length_nestings_le (p := program) n hn

theorem Program.length_nestingsOpt_le {outer : Nesting ℓ} {id : Nat} :
    ∀ {p : Option (Program ℓ)}, ∀ n ∈ Program.nestingsOpt outer id p,
      n.length ≤ outer.length + Program.heightOpt p
  | none, _, hn => absurd hn List.not_mem_nil
  | some p, n, hn => Program.length_nestings_le (p := p) n hn

end

/-! ## Programs in a program -/

mutual

/-- No more programs are nested in each other than there are. -/
theorem Program.height_le_count : ∀ p : Program ℓ, p.height ≤ p.count
  | ⟨body, _, _, _⟩ => Nat.succ_le_succ (Statement.heightAll_le_countAll body)

/-- Each level has a program of its own, which is counted. -/
theorem Statement.heightAll_le_countAll :
    ∀ body : List (Statement ℓ), Statement.heightAll body ≤ Statement.countAll body
  | [] => Nat.le_refl 0
  | s :: rest => by
    have hs := Statement.height_le_count s
    have hrest := Statement.heightAll_le_countAll rest
    rw [Statement.heightAll, Statement.countAll]
    omega

theorem Statement.height_le_count : ∀ s : Statement ℓ, s.height ≤ s.count
  | .block b => Block.height_le_count b
  | .partialBlock p => PartialBlock.height_le_count p
  | .mustache _ | .partialCall _ | .content _ | .comment _ => Nat.le_refl 0

/-- The higher section has its share of the count. -/
theorem Block.height_le_count : ∀ b : Block ℓ, b.height ≤ b.count
  | ⟨_, program, inverse, _, _, _, _, _⟩ => by
    have hprogram := Program.heightOpt_le_countOpt program
    have hinverse := Program.heightOpt_le_countOpt inverse
    rw [Block.height, Block.count]
    omega

theorem PartialBlock.height_le_count : ∀ p : PartialBlock ℓ, p.height ≤ p.count
  | ⟨_, _, _, program, _, _, _⟩ => Program.height_le_count program

theorem Program.heightOpt_le_countOpt :
    ∀ p : Option (Program ℓ), Program.heightOpt p ≤ Program.countOpt p
  | none => Nat.le_refl 0
  | some p => Program.height_le_count p

end

/-! ## Marks -/

mutual

/-- The height has nothing to do with marks. -/
theorem Program.height_mapMark (f : ℓ → μ) : ∀ p : Program ℓ, (p.mapMark f).height = p.height
  | ⟨body, _, _, _⟩ => congrArg (· + 1) (Statement.heightAll_mapMarks f body)

theorem Statement.heightAll_mapMarks (f : ℓ → μ) :
    ∀ body : List (Statement ℓ),
      Statement.heightAll (Statement.mapMarks f body) = Statement.heightAll body
  | [] => rfl
  | s :: rest => congrArg₂ max (Statement.height_mapMark f s) (Statement.heightAll_mapMarks f rest)

theorem Statement.height_mapMark (f : ℓ → μ) : ∀ s : Statement ℓ, (s.mapMark f).height = s.height
  | .block b => Block.height_mapMark f b
  | .partialBlock p => PartialBlock.height_mapMark f p
  | .mustache _ | .partialCall _ | .content _ | .comment _ => rfl

theorem Block.height_mapMark (f : ℓ → μ) : ∀ b : Block ℓ, (b.mapMark f).height = b.height
  | ⟨_, program, inverse, _, _, _, _, _⟩ =>
    congrArg₂ max (Program.heightOpt_mapMarkOpt f program) (Program.heightOpt_mapMarkOpt f inverse)

theorem PartialBlock.height_mapMark (f : ℓ → μ) :
    ∀ p : PartialBlock ℓ, (p.mapMark f).height = p.height
  | ⟨_, _, _, program, _, _, _⟩ => Program.height_mapMark f program

theorem Program.heightOpt_mapMarkOpt (f : ℓ → μ) :
    ∀ p : Option (Program ℓ), Program.heightOpt (Program.mapMarkOpt f p) = Program.heightOpt p
  | none => rfl
  | some p => Program.height_mapMark f p

end

end Stencil.Tree
