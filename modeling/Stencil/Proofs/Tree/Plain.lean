import Stencil.Proofs.Tree.WellFormed
import Stencil.Proofs.Tree.Contents

/-!
# Trees without chains

A plain tree has no chained program, and its content is as it was read. Every plain tree is
well-formed. What makes a tree plain can be read off the nodes that a walk meets
(`Program.isPlain_of_nodes`).
-/

set_option autoImplicit false

namespace Stencil.Tree

variable {ℓ : Type}

mutual

/-- No program in the tree is chained, and its content is as it was read. -/
def Program.IsPlain : Program ℓ → Prop
  | ⟨body, _, chained, _⟩ => chained = false ∧ Statement.ArePlain body

/-- Each of the statements is plain. -/
def Statement.ArePlain : List (Statement ℓ) → Prop
  | [] => True
  | s :: rest => s.IsPlain ∧ Statement.ArePlain rest

/-- What the statement holds is plain. -/
def Statement.IsPlain : Statement ℓ → Prop
  | .mustache _ | .partialCall _ | .comment _ => True
  | .block b => b.IsPlain
  | .partialBlock p => p.IsPlain
  | .content c => c.IsFresh

/-- The sections of the block are plain. -/
def Block.IsPlain : Block ℓ → Prop
  | ⟨_, program, inverse, _, _, _, _, _⟩ =>
    Program.IsPlainOpt program ∧ Program.IsPlainOpt inverse

/-- The body of the partial block is plain. -/
def PartialBlock.IsPlain : PartialBlock ℓ → Prop
  | ⟨_, _, _, program, _, _, _⟩ => program.IsPlain

/-- The section is plain if it is there. -/
def Program.IsPlainOpt : Option (Program ℓ) → Prop
  | none => True
  | some p => p.IsPlain

end

/-! ## Plain trees are well-formed -/

mutual

/-- By recursion over the tree: without chains there is nothing to be well-formed about them. -/
theorem Program.IsPlain.wellFormed : ∀ {p : Program ℓ}, p.IsPlain → p.WellFormed
  | ⟨_, _, _, _⟩, h => ⟨h.1, Statement.ArePlain.allWellFormed h.2⟩

theorem Statement.ArePlain.allWellFormed :
    ∀ {body : List (Statement ℓ)}, Statement.ArePlain body → Statement.AllWellFormed body
  | [], _ => trivial
  | _ :: _, h => ⟨Statement.IsPlain.wellFormed h.1, Statement.ArePlain.allWellFormed h.2⟩

theorem Statement.IsPlain.wellFormed : ∀ {s : Statement ℓ}, s.IsPlain → s.WellFormed
  | .mustache _, _ | .partialCall _, _ | .comment _, _ => trivial
  | .block _, h => Block.IsPlain.wellFormed h
  | .partialBlock _, h => PartialBlock.IsPlain.wellFormed h
  | .content _, h => h

theorem Block.IsPlain.wellFormed : ∀ {b : Block ℓ}, b.IsPlain → b.WellFormed
  | ⟨_, _, _, _, _, _, _, _⟩, h =>
    Or.inl ⟨Program.IsPlainOpt.wellFormedOpt h.1, Program.IsPlainOpt.wellFormedOpt h.2⟩

theorem PartialBlock.IsPlain.wellFormed : ∀ {p : PartialBlock ℓ}, p.IsPlain → p.WellFormed
  | ⟨_, _, _, _, _, _, _⟩, h => Program.IsPlain.wellFormed h

theorem Program.IsPlainOpt.wellFormedOpt :
    ∀ {p : Option (Program ℓ)}, Program.IsPlainOpt p → Program.WellFormedOpt p
  | none, _ => trivial
  | some _, h => Program.IsPlain.wellFormed h

end

/-! ## Plain trees by their nodes -/

/-- Of the nodes, no program is chained and all content is as it was read. -/
def ArePlainNodes (nodes : List (Node ℓ)) : Prop :=
  (∀ p, Node.program p ∈ nodes → p.chained = false) ∧ ∀ c, Node.content c ∈ nodes → c.IsFresh

theorem ArePlainNodes.subset {xs ys : List (Node ℓ)} (h : ArePlainNodes ys) (hsub : xs ⊆ ys) :
    ArePlainNodes xs :=
  ⟨fun p hp => h.1 p (hsub hp), fun c hc => h.2 c (hsub hc)⟩

theorem ArePlainNodes.append {xs ys : List (Node ℓ)} (h : ArePlainNodes (xs ++ ys)) :
    ArePlainNodes xs ∧ ArePlainNodes ys :=
  ⟨h.subset (List.subset_append_left _ _), h.subset (List.subset_append_right _ _)⟩

/-- What stands in a node is among what is walked. -/
theorem ArePlainNodes.held {node : Node ℓ} {nodes : List (Node ℓ)}
    (h : ArePlainNodes (visit (fun _ => true) node nodes)) : ArePlainNodes nodes := by
  rw [visit, if_pos rfl] at h
  exact h.subset (List.subset_cons_self node nodes)

mutual

/-- By recursion over the tree: every program of a plain tree is a node of its walk. -/
theorem Program.isPlain_of_walk :
    ∀ p : Program ℓ, ArePlainNodes (p.walk fun _ => true) → p.IsPlain
  | ⟨body, _, _, _⟩, h =>
    ⟨h.1 _ List.mem_cons_self, Statement.arePlain_of_walks body h.held⟩

theorem Statement.arePlain_of_walks :
    ∀ body : List (Statement ℓ), ArePlainNodes (Statement.walks (fun _ => true) body) →
      Statement.ArePlain body
  | [], _ => trivial
  | s :: rest, h =>
    ⟨Statement.isPlain_of_walk s h.append.1, Statement.arePlain_of_walks rest h.append.2⟩

theorem Statement.isPlain_of_walk :
    ∀ s : Statement ℓ, ArePlainNodes (s.walk fun _ => true) → s.IsPlain
  | .mustache _, _ | .partialCall _, _ | .comment _, _ => trivial
  | .block b, h => Block.isPlain_of_walk b h.held
  | .partialBlock p, h => PartialBlock.isPlain_of_walk p h.held
  | .content c, h => h.held.2 c List.mem_cons_self

/-- The sections of a block are walked one after the other. -/
theorem Block.isPlain_of_walk : ∀ b : Block ℓ, ArePlainNodes (b.walk fun _ => true) → b.IsPlain
  | ⟨_, program, inverse, _, _, _, _, _⟩, h =>
    ⟨Program.isPlainOpt_of_walkOpt program h.held.append.1.append.2,
      Program.isPlainOpt_of_walkOpt inverse h.held.append.2⟩

theorem PartialBlock.isPlain_of_walk :
    ∀ p : PartialBlock ℓ, ArePlainNodes (p.walk fun _ => true) → p.IsPlain
  | ⟨_, _, _, program, _, _, _⟩, h => Program.isPlain_of_walk program h.held.append.2

theorem Program.isPlainOpt_of_walkOpt :
    ∀ p : Option (Program ℓ), ArePlainNodes (Program.walkOpt (fun _ => true) p) →
      Program.IsPlainOpt p
  | none, _ => trivial
  | some p, h => Program.isPlain_of_walk p h

end

/-- A tree is plain if its nodes are. -/
theorem Program.isPlain_of_nodes {p : Program ℓ}
    (hchained : ∀ q, Node.program q ∈ p.nodes → q.chained = false)
    (hfresh : ∀ c ∈ p.contents, c.IsFresh) : p.IsPlain := by
  refine Program.isPlain_of_walk p ⟨hchained, fun c hc => hfresh c ?_⟩
  exact List.mem_filterMap.2 ⟨.content c, hc, rfl⟩

end Stencil.Tree
