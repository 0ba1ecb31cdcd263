import Stencil.Proofs.Code.Addresses
import Stencil.Proofs.Tree.Shape

/-!
# The paths of a tree

The paths in the tags of a statement, those in the closing tags of blocks among them, and those in
the tags of all statements of a tree (`Program.pathsThroughout`). They are the same after the layout
of the tree, and have other marks where the tree has.
-/

set_option autoImplicit false

namespace Stencil.Tree

variable {ℓ μ : Type}

/-- The path in the closing tag of a block. -/
def Statement.closing : Statement ℓ → List (Path ℓ)
  | .block b => b.close.toList
  | _ => []

/-- The paths in the tags of a statement, that of its closing tag among them; those in the programs
that it holds are left out. -/
def Statement.pathsWithin (s : Statement ℓ) : List (Path ℓ) := s.paths ++ s.closing

/-- The paths in the tags of all statements of a tree. -/
def Program.pathsThroughout (p : Program ℓ) : List (Path ℓ) :=
  p.statements.flatMap Statement.pathsWithin

theorem Statement.pathsWithin_bare (s : Statement ℓ) : s.bare.pathsWithin = s.pathsWithin := by
  cases s with
  | block b => cases b; rfl
  | partialBlock p => cases p; rfl
  | _ => rfl

mutual

theorem Expr.paths_mapMark (f : ℓ → μ) :
    ∀ e : Expr ℓ, (e.mapMark f).paths = e.paths.map (Path.mapMark f)
  | .call ⟨path, params, hash, _, _⟩ => by
    rw [Expr.paths, List.map_cons, List.map_append, ← Expr.pathsAll_mapMarks f params,
      ← Hash.pathsOpt_mapMarkOpt f hash]
    rfl
  | .path _ | .string _ _ _ | .number _ _ _ | .boolean _ _ _ | .undefined _ | .null _ => rfl

theorem Expr.pathsAll_mapMarks (f : ℓ → μ) :
    ∀ es : List (Expr ℓ), Expr.pathsAll (Expr.mapMarks f es) =
      (Expr.pathsAll es).map (Path.mapMark f)
  | [] => rfl
  | e :: es => by
    rw [Expr.pathsAll, List.map_append, ← Expr.paths_mapMark f e, ← Expr.pathsAll_mapMarks f es]
    rfl

theorem Hash.pathsOpt_mapMarkOpt (f : ℓ → μ) :
    ∀ h : Option (Hash ℓ), Hash.pathsOpt (Hash.mapMarkOpt f h) =
      (Hash.pathsOpt h).map (Path.mapMark f)
  | none => rfl
  | some ⟨pairs, _⟩ => Pair.pathsAll_mapMarks f pairs

theorem Pair.pathsAll_mapMarks (f : ℓ → μ) :
    ∀ ps : List (Pair ℓ), Pair.pathsAll (Pair.mapMarks f ps) =
      (Pair.pathsAll ps).map (Path.mapMark f)
  | [] => rfl
  | ⟨_, value, _⟩ :: rest => by
    rw [Pair.pathsAll, List.map_append, ← Expr.paths_mapMark f value, ←
      Pair.pathsAll_mapMarks f rest]
    rfl

end

theorem Statement.pathsWithin_mapMark (f : ℓ → μ) (s : Statement ℓ) :
    (s.mapMark f).pathsWithin = s.pathsWithin.map (Path.mapMark f) := by
  cases s with
  | mustache m =>
    rw [pathsWithin, pathsWithin, List.map_append]
    exact congrArg (· ++ []) (Expr.paths_mapMark f m.expr)
  | block b =>
    obtain ⟨expr, program, inverse, openStrip, inverseStrip, closeStrip, close, mark⟩ := b
    rw [pathsWithin, pathsWithin, List.map_append]
    refine congrArg₂ (· ++ ·) (Expr.paths_mapMark f expr) ?_
    cases close <;> rfl
  | partialCall p =>
    obtain ⟨name, params, hash, indent, strip, mark⟩ := p
    simp only [pathsWithin, paths, closing, mapMark, PartialCall.mapMark, List.append_nil,
      List.map_append, Expr.paths_mapMark, Expr.pathsAll_mapMarks, Hash.pathsOpt_mapMarkOpt]
  | partialBlock p =>
    obtain ⟨name, params, hash, program, openStrip, closeStrip, mark⟩ := p
    simp only [pathsWithin, paths, closing, mapMark, PartialBlock.mapMark, List.append_nil,
      List.map_append, Expr.paths_mapMark, Expr.pathsAll_mapMarks, Hash.pathsOpt_mapMarkOpt]
  | content c => rfl
  | comment c => rfl

end Stencil.Tree
