import Stencil.Tree.Program

/-!
# Depth

How deep the constructs of a tree are nested that may be nested only so deep: blocks, the sections
chained to them, partials with a body and calls in parentheses. A raw block does not count, since it
holds nothing but text. A tree does not say which of its blocks are raw, so that is told by their
marks.

The depth of a tree is the greatest number of such constructs on a path from its root to a leaf.
-/

set_option autoImplicit false

namespace Stencil.Tree

variable {ℓ : Type}

/-! ## Expressions -/

mutual

/-- How many calls in parentheses are nested in each other at most in an expression. -/
def Expr.depth : Expr ℓ → Nat
  | .call c => c.depth
  | .path _ | .string _ _ _ | .number _ _ _ | .boolean _ _ _ | .undefined _ | .null _ => 0

/-- A call counts if it stands in parentheses. -/
def Call.depth : Call ℓ → Nat
  | ⟨_, params, hash, parenthesised, _⟩ =>
    max (Expr.depthAll params) (Hash.depthOpt hash) + if parenthesised = some true then 1 else 0

/-- The greatest depth of some expressions. -/
def Expr.depthAll : List (Expr ℓ) → Nat
  | [] => 0
  | e :: es => max e.depth (Expr.depthAll es)

/-- The greatest depth of named arguments, if there are any. -/
def Hash.depthOpt : Option (Hash ℓ) → Nat
  | none => 0
  | some ⟨pairs, _⟩ => Pair.depthAll pairs

/-- The greatest depth of the values of named arguments. -/
def Pair.depthAll : List (Pair ℓ) → Nat
  | [] => 0
  | ⟨_, value, _⟩ :: ps => max value.depth (Pair.depthAll ps)

end

theorem Expr.depthAll_le_iff {es : List (Expr ℓ)} {n : Nat} :
    Expr.depthAll es ≤ n ↔ ∀ e ∈ es, e.depth ≤ n := by
  induction es with
  | nil => simp [Expr.depthAll]
  | cons e es ih => rw [Expr.depthAll, Nat.max_le, List.forall_mem_cons, ih]

theorem Pair.depthAll_le_iff {ps : List (Pair ℓ)} {n : Nat} :
    Pair.depthAll ps ≤ n ↔ ∀ p ∈ ps, p.value.depth ≤ n := by
  induction ps with
  | nil => simp [Pair.depthAll]
  | cons p ps ih =>
    obtain ⟨key, value, mark⟩ := p
    rw [Pair.depthAll, Nat.max_le, List.forall_mem_cons, ih]

/-! ## Programs -/

section Programs

variable (raw : ℓ → Bool)

mutual

/-- How many constructs are nested in each other at most in a program. -/
def Program.depth : Program ℓ → Nat
  | ⟨body, _, _, _⟩ => Statement.depthAll body

/-- The greatest depth of some statements. -/
def Statement.depthAll : List (Statement ℓ) → Nat
  | [] => 0
  | s :: rest => max s.depth (Statement.depthAll rest)

/-- How many constructs are nested in each other at most in a statement, itself counted. -/
def Statement.depth : Statement ℓ → Nat
  | .mustache m => m.expr.depth
  | .block b => b.depth
  | .partialCall p => max (Expr.depthAll (p.name :: p.params)) (Hash.depthOpt p.hash)
  | .partialBlock p => p.depth
  | .content _ | .comment _ => 0

/-- A block counts if it is not raw. -/
def Block.depth : Block ℓ → Nat
  | ⟨expr, program, inverse, _, _, _, _, mark⟩ =>
    max expr.depth (max (Program.depthOpt program) (Program.depthOpt inverse)) +
      if raw mark then 0 else 1

/-- A partial with a body counts. -/
def PartialBlock.depth : PartialBlock ℓ → Nat
  | ⟨name, params, hash, program, _, _, _⟩ =>
    max (max (Expr.depthAll (name :: params)) (Hash.depthOpt hash)) program.depth + 1

/-- The depth of a section, if it is there. -/
def Program.depthOpt : Option (Program ℓ) → Nat
  | none => 0
  | some p => p.depth

end

end Programs

variable {raw : ℓ → Bool}

theorem Statement.depthAll_le_iff {body : List (Statement ℓ)} {n : Nat} :
    Statement.depthAll raw body ≤ n ↔ ∀ s ∈ body, s.depth raw ≤ n := by
  induction body with
  | nil => simp [Statement.depthAll]
  | cons s rest ih => rw [Statement.depthAll, Nat.max_le, List.forall_mem_cons, ih]

theorem Program.depth_le_iff {p : Program ℓ} {n : Nat} :
    p.depth raw ≤ n ↔ ∀ s ∈ p.body, s.depth raw ≤ n := by
  obtain ⟨body, blockParams, chained, mark⟩ := p
  exact Statement.depthAll_le_iff

end Stencil.Tree
