import Mathlib.Logic.Basic
import Stencil.Tree.Program

/-!
# Mapping marks

Marks are mapped node by node. Mapping them twice is mapping them once by the composition
(`Program.mapMark_mapMark`), and mapping every mark to itself changes nothing
(`Program.mapMark_self`).
-/

set_option autoImplicit false

namespace Stencil.Tree

variable {ℓ μ ν : Type}

/-! ## One map after another -/

section Composition

variable (f : ℓ → μ) (g : μ → ν)

/-- A path has one mark, which is mapped twice. -/
theorem Path.mapMark_mapMark (p : Path ℓ) : (p.mapMark f).mapMark g = p.mapMark fun m => g (f m) :=
  rfl

mutual

/-- By recursion over the expression, every mark in it is mapped twice. -/
theorem Expr.mapMark_mapMark : ∀ e : Expr ℓ, (e.mapMark f).mapMark g = e.mapMark fun m => g (f m)
  | .call c => congrArg Expr.call (Call.mapMark_mapMark c)
  | .path _ | .string _ _ _ | .number _ _ _ | .boolean _ _ _ | .undefined _ | .null _ => rfl

/-- A call has marks of its own, in its head and in its arguments. -/
theorem Call.mapMark_mapMark : ∀ c : Call ℓ, (c.mapMark f).mapMark g = c.mapMark fun m => g (f m)
  | ⟨_, params, hash, _, _⟩ => by
    simp only [Call.mapMark, Expr.mapMarks_mapMarks params, Hash.mapMarkOpt_mapMarkOpt hash,
      Path.mapMark_mapMark]

theorem Expr.mapMarks_mapMarks :
    ∀ es : List (Expr ℓ), Expr.mapMarks g (Expr.mapMarks f es) = Expr.mapMarks (fun m => g (f m)) es
  | [] => rfl
  | e :: es => congrArg₂ List.cons (Expr.mapMark_mapMark e) (Expr.mapMarks_mapMarks es)

theorem Hash.mapMarkOpt_mapMarkOpt :
    ∀ h : Option (Hash ℓ), Hash.mapMarkOpt g (Hash.mapMarkOpt f h) =
      Hash.mapMarkOpt (fun m => g (f m)) h
  | none => rfl
  | some ⟨pairs, m⟩ =>
    congrArg (fun pairs => some (⟨pairs, g (f m)⟩ : Hash ν)) (Pair.mapMarks_mapMarks pairs)

theorem Pair.mapMarks_mapMarks :
    ∀ ps : List (Pair ℓ), Pair.mapMarks g (Pair.mapMarks f ps) = Pair.mapMarks (fun m => g (f m)) ps
  | [] => rfl
  | ⟨key, value, m⟩ :: ps =>
    congrArg₂ (fun value ps => (⟨key, value, g (f m)⟩ : Pair ν) :: ps) (Expr.mapMark_mapMark value)
      (Pair.mapMarks_mapMarks ps)

end

mutual

/-- By recursion over the tree, as for expressions. -/
theorem Program.mapMark_mapMark :
    ∀ p : Program ℓ, (p.mapMark f).mapMark g = p.mapMark fun m => g (f m)
  | ⟨body, blockParams, chained, m⟩ =>
    congrArg (fun body => (⟨body, blockParams, chained, g (f m)⟩ : Program ν))
      (Statement.mapMarks_mapMarks body)

theorem Statement.mapMarks_mapMarks :
    ∀ body : List (Statement ℓ),
      Statement.mapMarks g (Statement.mapMarks f body) = Statement.mapMarks (fun m => g (f m)) body
  | [] => rfl
  | s :: rest =>
    congrArg₂ List.cons (Statement.mapMark_mapMark s) (Statement.mapMarks_mapMarks rest)

theorem Statement.mapMark_mapMark :
    ∀ s : Statement ℓ, (s.mapMark f).mapMark g = s.mapMark fun m => g (f m)
  | .mustache m => by
    simp only [Statement.mapMark, Mustache.mapMark, Expr.mapMark_mapMark]
  | .partialCall p => by
    simp only [Statement.mapMark, PartialCall.mapMark, Expr.mapMark_mapMark, Expr.mapMarks_mapMarks,
      Hash.mapMarkOpt_mapMarkOpt]
  | .block b => congrArg Statement.block (Block.mapMark_mapMark b)
  | .partialBlock p => congrArg Statement.partialBlock (PartialBlock.mapMark_mapMark p)
  | .content _ | .comment _ => rfl

/-- A block has a mark of its own, in its head, in its sections and in its closing tag. -/
theorem Block.mapMark_mapMark : ∀ b : Block ℓ, (b.mapMark f).mapMark g = b.mapMark fun m => g (f m)
  | ⟨_, program, inverse, _, _, _, close, _⟩ => by
    cases close <;> simp only [Block.mapMark, Expr.mapMark_mapMark,
      Program.mapMarkOpt_mapMarkOpt program, Program.mapMarkOpt_mapMarkOpt inverse, Option.map,
      Path.mapMark_mapMark]

theorem PartialBlock.mapMark_mapMark :
    ∀ p : PartialBlock ℓ, (p.mapMark f).mapMark g = p.mapMark fun m => g (f m)
  | ⟨_, _, _, program, _, _, _⟩ => by
    simp only [PartialBlock.mapMark, Expr.mapMark_mapMark, Expr.mapMarks_mapMarks,
      Hash.mapMarkOpt_mapMarkOpt, Program.mapMark_mapMark program]

theorem Program.mapMarkOpt_mapMarkOpt :
    ∀ p : Option (Program ℓ),
      Program.mapMarkOpt g (Program.mapMarkOpt f p) = Program.mapMarkOpt (fun m => g (f m)) p
  | none => rfl
  | some p => congrArg some (Program.mapMark_mapMark p)

end

end Composition

/-! ## Marks that stay -/

theorem Path.mapMark_self (p : Path ℓ) : p.mapMark (fun m => m) = p := rfl

mutual

/-- Marks that are mapped to themselves leave an expression as it is. -/
theorem Expr.mapMark_self : ∀ e : Expr ℓ, e.mapMark (fun m => m) = e
  | .call c => congrArg Expr.call (Call.mapMark_self c)
  | .path _ | .string _ _ _ | .number _ _ _ | .boolean _ _ _ | .undefined _ | .null _ => rfl

theorem Call.mapMark_self : ∀ c : Call ℓ, c.mapMark (fun m => m) = c
  | ⟨_, params, hash, _, _⟩ => by
    simp only [Call.mapMark, Expr.mapMarks_self params, Hash.mapMarkOpt_self hash,
      Path.mapMark_self]

theorem Expr.mapMarks_self : ∀ es : List (Expr ℓ), Expr.mapMarks (fun m => m) es = es
  | [] => rfl
  | e :: es => congrArg₂ List.cons (Expr.mapMark_self e) (Expr.mapMarks_self es)

theorem Hash.mapMarkOpt_self : ∀ h : Option (Hash ℓ), Hash.mapMarkOpt (fun m => m) h = h
  | none => rfl
  | some ⟨pairs, m⟩ => congrArg (fun pairs => some (⟨pairs, m⟩ : Hash ℓ)) (Pair.mapMarks_self pairs)

theorem Pair.mapMarks_self : ∀ ps : List (Pair ℓ), Pair.mapMarks (fun m => m) ps = ps
  | [] => rfl
  | ⟨key, value, m⟩ :: ps =>
    congrArg₂ (fun value ps => (⟨key, value, m⟩ : Pair ℓ) :: ps) (Expr.mapMark_self value)
      (Pair.mapMarks_self ps)

end

mutual

/-- They leave a tree as it is. -/
theorem Program.mapMark_self : ∀ p : Program ℓ, p.mapMark (fun m => m) = p
  | ⟨body, blockParams, chained, m⟩ =>
    congrArg (fun body => (⟨body, blockParams, chained, m⟩ : Program ℓ))
      (Statement.mapMarks_self body)

theorem Statement.mapMarks_self :
    ∀ body : List (Statement ℓ), Statement.mapMarks (fun m => m) body = body
  | [] => rfl
  | s :: rest => congrArg₂ List.cons (Statement.mapMark_self s) (Statement.mapMarks_self rest)

theorem Statement.mapMark_self : ∀ s : Statement ℓ, s.mapMark (fun m => m) = s
  | .mustache m => by
    simp only [Statement.mapMark, Mustache.mapMark, Expr.mapMark_self]
  | .partialCall p => by
    simp only [Statement.mapMark, PartialCall.mapMark, Expr.mapMark_self, Expr.mapMarks_self,
      Hash.mapMarkOpt_self]
  | .block b => congrArg Statement.block (Block.mapMark_self b)
  | .partialBlock p => congrArg Statement.partialBlock (PartialBlock.mapMark_self p)
  | .content _ | .comment _ => rfl

theorem Block.mapMark_self : ∀ b : Block ℓ, b.mapMark (fun m => m) = b
  | ⟨_, program, inverse, _, _, _, close, _⟩ => by
    cases close <;> simp only [Block.mapMark, Expr.mapMark_self, Program.mapMarkOpt_self program,
      Program.mapMarkOpt_self inverse, Option.map, Path.mapMark_self]

theorem PartialBlock.mapMark_self : ∀ p : PartialBlock ℓ, p.mapMark (fun m => m) = p
  | ⟨_, _, _, program, _, _, _⟩ => by
    simp only [PartialBlock.mapMark, Expr.mapMark_self, Expr.mapMarks_self, Hash.mapMarkOpt_self,
      Program.mapMark_self program]

theorem Program.mapMarkOpt_self : ∀ p : Option (Program ℓ), Program.mapMarkOpt (fun m => m) p = p
  | none => rfl
  | some p => congrArg some (Program.mapMark_self p)

end

end Stencil.Tree
