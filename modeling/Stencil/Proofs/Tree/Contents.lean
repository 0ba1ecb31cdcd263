import Stencil.Proofs.Layout.Tags

/-!
# The contents of a tree

A walk through a tree meets the contents of the tree in the order of its row
(`Program.contents_eq_slots`). Expressions hold no content, so only the bodies of blocks count.
-/

set_option autoImplicit false

namespace Stencil.Tree

variable {ℓ : Type}

/-- The content of a node that is content. -/
def Node.content? : Node ℓ → Option (Content ℓ)
  | .content c => some c
  | _ => none

/-- The contents among the nodes of a full walk. -/
def contentsOf (nodes : List (Node ℓ)) : List (Content ℓ) := nodes.filterMap Node.content?

@[simp] theorem contentsOf_append (xs ys : List (Node ℓ)) :
    contentsOf (xs ++ ys) = contentsOf xs ++ contentsOf ys :=
  List.filterMap_append

/-- A node that is no content adds nothing to what it holds. -/
theorem contentsOf_visit {node : Node ℓ} (h : node.content? = none) (held : List (Node ℓ)) :
    contentsOf (visit (fun _ => true) node held) = contentsOf held := by
  rw [visit, if_pos rfl, contentsOf, List.filterMap_cons_none h]
  rfl

/-! ## Expressions -/

mutual

/-- By recursion over the expression: there is no content in it. -/
theorem Expr.contentsOf_walk : ∀ e : Expr ℓ, contentsOf (e.walk fun _ => true) = []
  | .call c => (contentsOf_visit rfl _).trans (Call.contentsOf_walk c)
  | .path _ | .string _ _ _ | .number _ _ _ | .boolean _ _ _ | .undefined _ | .null _ => rfl

theorem Call.contentsOf_walk : ∀ c : Call ℓ, contentsOf (c.walk fun _ => true) = []
  | ⟨path, params, hash, parenthesised, mark⟩ => by
    rw [Call.walk, contentsOf_visit rfl, ← List.singleton_append, contentsOf_append,
      contentsOf_append, Expr.contentsOf_walks params, Hash.contentsOf_walkOpt hash]
    rfl

theorem Expr.contentsOf_walks :
    ∀ es : List (Expr ℓ), contentsOf (Expr.walks (fun _ => true) es) = []
  | [] => rfl
  | e :: es => by
    rw [Expr.walks, contentsOf_append, Expr.contentsOf_walk e, Expr.contentsOf_walks es]
    rfl

theorem Hash.contentsOf_walkOpt :
    ∀ h : Option (Hash ℓ), contentsOf (Hash.walkOpt (fun _ => true) h) = []
  | none => rfl
  | some h => Hash.contentsOf_walk h

theorem Hash.contentsOf_walk : ∀ h : Hash ℓ, contentsOf (h.walk fun _ => true) = []
  | ⟨pairs, _⟩ => (contentsOf_visit rfl _).trans (Pair.contentsOf_walks pairs)

theorem Pair.contentsOf_walks :
    ∀ ps : List (Pair ℓ), contentsOf (Pair.walks (fun _ => true) ps) = []
  | [] => rfl
  | p :: ps => by
    rw [Pair.walks, contentsOf_append, Pair.contentsOf_walk p, Pair.contentsOf_walks ps]
    rfl

theorem Pair.contentsOf_walk : ∀ p : Pair ℓ, contentsOf (p.walk fun _ => true) = []
  | ⟨_, value, _⟩ => (contentsOf_visit rfl _).trans (Expr.contentsOf_walk value)

end

/-- Nor is there in the name and the arguments of a partial. -/
theorem contentsOf_walkPartialParts (name : Expr ℓ) (params : List (Expr ℓ))
    (hash : Option (Hash ℓ)) :
    contentsOf (walkPartialParts (fun _ => true) name params hash) = [] := by
  rw [walkPartialParts, contentsOf_append, contentsOf_append, Expr.contentsOf_walk,
    Expr.contentsOf_walks, Hash.contentsOf_walkOpt]
  rfl

/-! ## Statements -/

/-- Whether a block stands in a chain decides about its tags alone. -/
theorem contentsOf_slotsOver (link : Bool) (b : Block ℓ) (first second : Slots ℓ) :
    (b.slotsOver link first second).filterMap id =
      first.filterMap id ++ second.filterMap id := by
  rw [Block.slotsOver]
  cases link <;> cases b.hasElse <;> simp

mutual

/-- By recursion over the tree: the contents come in the order of its slots. -/
theorem Program.contentsOf_walk :
    ∀ p : Program ℓ, contentsOf (p.walk fun _ => true) = p.slots.filterMap id
  | ⟨body, _, chained, _⟩ =>
    (contentsOf_visit rfl _).trans (Statement.contentsOf_walks chained body)

/-- Slots of statements in a row follow one another. -/
theorem Statement.contentsOf_walks (link : Bool) :
    ∀ body : List (Statement ℓ), contentsOf (Statement.walks (fun _ => true) body) =
      (Statement.slotsOf link body).filterMap id
  | [] => rfl
  | s :: rest => by
    rw [Statement.walks, contentsOf_append, Statement.contentsOf_walk link s,
      Statement.contentsOf_walks link rest, Statement.slotsOf, List.filterMap_append]

theorem Statement.contentsOf_walk (link : Bool) :
    ∀ s : Statement ℓ, contentsOf (s.walk fun _ => true) = (s.slots link).filterMap id
  | .mustache m =>
    (contentsOf_visit rfl _).trans ((contentsOf_visit rfl _).trans (Expr.contentsOf_walk m.expr))
  | .block b => (contentsOf_visit rfl _).trans (Block.contentsOf_walk link b)
  | .partialCall p =>
    (contentsOf_visit rfl _).trans
      ((contentsOf_visit rfl _).trans (contentsOf_walkPartialParts p.name p.params p.hash))
  | .partialBlock p => (contentsOf_visit rfl _).trans (PartialBlock.contentsOf_walk p)
  | .content _ => rfl
  | .comment _ => rfl

/-- The program of a block comes before its inverse, and what else it has holds no content. -/
theorem Block.contentsOf_walk (link : Bool) :
    ∀ b : Block ℓ, contentsOf (b.walk fun _ => true) = (b.slots link).filterMap id
  | ⟨expr, program, inverse, openStrip, inverseStrip, closeStrip, close, mark⟩ => by
    -- the expression of a block holds no content, and its sections are walked in the tree's order
    rw [Block.walk, contentsOf_visit rfl, contentsOf_append, contentsOf_append,
      Expr.contentsOf_walk, Program.contentsOf_walkOpt program, Program.contentsOf_walkOpt inverse,
      Block.slots, contentsOf_slotsOver]
    rfl

theorem PartialBlock.contentsOf_walk :
    ∀ p : PartialBlock ℓ, contentsOf (p.walk fun _ => true) = p.slots.filterMap id
  | ⟨name, params, hash, program, openStrip, closeStrip, mark⟩ => by
    rw [PartialBlock.walk, contentsOf_visit rfl, contentsOf_append, contentsOf_walkPartialParts,
      Program.contentsOf_walk program, PartialBlock.slots]
    simp

theorem Program.contentsOf_walkOpt :
    ∀ p : Option (Program ℓ), contentsOf (Program.walkOpt (fun _ => true) p) =
      (Program.slotsOpt p).filterMap id
  | none => rfl
  | some p => Program.contentsOf_walk p

end

/-- A walk meets the contents of a tree in the order of its row. -/
theorem Program.contents_eq_slots (p : Program ℓ) : p.contents = p.slots.filterMap id :=
  Program.contentsOf_walk p

end Stencil.Tree
