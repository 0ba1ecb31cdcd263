import Stencil.Proofs.Tree.Arrangement
import Stencil.Proofs.Tree.Shape
import Stencil.Tree.Walk

/-!
# The paths that a walk comes by

A full walk comes by the head of every call and by every path that stands for itself, the program of
a block before its inverse; a literal is no path, and the closing tag of a block is not walked
(`Program.paths_eq`). The layout of a tree changes nothing of that, and other marks give the same
paths with other marks.

An inverted block has its sections exchanged, so its program may be the later one. A block has its
sections in order when, if both hold paths, its program is marked before its inverse
(`Statement.SectionsInOrder`).
-/

set_option autoImplicit false

namespace Stencil.Tree

variable {ℓ μ : Type}

/-! ## Visited paths -/

mutual

/-- The paths that a walk through the expression comes by. -/
def Expr.visited : Expr ℓ → List (Path ℓ)
  | .call ⟨path, params, hash, _, _⟩ => path :: (Expr.visitedAll params ++ Hash.visitedOpt hash)
  | .path p => [p]
  | .string _ _ _ | .number _ _ _ | .boolean _ _ _ | .undefined _ | .null _ => []

/-- The paths that a walk through expressions in a row comes by. -/
def Expr.visitedAll : List (Expr ℓ) → List (Path ℓ)
  | [] => []
  | e :: es => e.visited ++ Expr.visitedAll es

/-- The paths that a walk through named arguments comes by, if there are any. -/
def Hash.visitedOpt : Option (Hash ℓ) → List (Path ℓ)
  | none => []
  | some ⟨pairs, _⟩ => Pair.visitedAll pairs

/-- The paths that a walk through arguments in a row comes by. -/
def Pair.visitedAll : List (Pair ℓ) → List (Path ℓ)
  | [] => []
  | ⟨_, value, _⟩ :: ps => value.visited ++ Pair.visitedAll ps

end

mutual

/-- The paths that a walk through the program comes by. -/
def Program.visited : Program ℓ → List (Path ℓ)
  | ⟨body, _, _, _⟩ => Statement.visitedAll body

/-- The paths that a walk through statements in a row comes by. -/
def Statement.visitedAll : List (Statement ℓ) → List (Path ℓ)
  | [] => []
  | s :: rest => s.visited ++ Statement.visitedAll rest

/-- The paths that a walk through the statement comes by. -/
def Statement.visited : Statement ℓ → List (Path ℓ)
  | .mustache m => m.expr.visited
  | .block b => b.visited
  | .partialCall p => p.name.visited ++ Expr.visitedAll p.params ++ Hash.visitedOpt p.hash
  | .partialBlock p => p.visited
  | .content _ | .comment _ => []

/-- The paths that a walk through the block comes by. -/
def Block.visited : Block ℓ → List (Path ℓ)
  | ⟨expr, program, inverse, _, _, _, _, _⟩ =>
    expr.visited ++ Program.visitedOpt program ++ Program.visitedOpt inverse

/-- The paths that a walk through the partial block comes by. -/
def PartialBlock.visited : PartialBlock ℓ → List (Path ℓ)
  | ⟨name, params, hash, program, _, _, _⟩ =>
    name.visited ++ Expr.visitedAll params ++ Hash.visitedOpt hash ++ program.visited

/-- The paths that a walk through the section comes by, if it is there. -/
def Program.visitedOpt : Option (Program ℓ) → List (Path ℓ)
  | none => []
  | some p => p.visited

end

/-! ## Walks -/

/-- The path of a node that is a path. -/
def Node.path? : Node ℓ → Option (Path ℓ)
  | .path p => some p
  | _ => none

/-- The paths among the nodes of a full walk. -/
def pathsOf (nodes : List (Node ℓ)) : List (Path ℓ) := nodes.filterMap Node.path?

@[simp] theorem pathsOf_append (xs ys : List (Node ℓ)) :
    pathsOf (xs ++ ys) = pathsOf xs ++ pathsOf ys :=
  List.filterMap_append

/-- A node that is no path adds nothing to what it holds. -/
theorem pathsOf_visit {node : Node ℓ} (h : node.path? = none) (held : List (Node ℓ)) :
    pathsOf (visit (fun _ => true) node held) = pathsOf held := by
  rw [visit, if_pos rfl, pathsOf, List.filterMap_cons_none h]
  rfl

mutual

theorem Expr.pathsOf_walk : ∀ e : Expr ℓ, pathsOf (e.walk fun _ => true) = e.visited
  | .call ⟨path, params, hash, parenthesised, mark⟩ => by
    rw [Expr.walk, pathsOf_visit rfl, Call.walk, pathsOf_visit rfl, ← List.singleton_append,
      pathsOf_append, pathsOf_append, Expr.pathsOf_walks params, Hash.pathsOf_walkOpt hash]
    rfl
  | .path _ | .string _ _ _ | .number _ _ _ | .boolean _ _ _ | .undefined _ | .null _ => rfl

theorem Expr.pathsOf_walks :
    ∀ es : List (Expr ℓ), pathsOf (Expr.walks (fun _ => true) es) = Expr.visitedAll es
  | [] => rfl
  | e :: es => by
    rw [Expr.walks, pathsOf_append, Expr.pathsOf_walk e, Expr.pathsOf_walks es, Expr.visitedAll]

theorem Hash.pathsOf_walkOpt :
    ∀ h : Option (Hash ℓ), pathsOf (Hash.walkOpt (fun _ => true) h) = Hash.visitedOpt h
  | none => rfl
  | some ⟨pairs, _⟩ => (pathsOf_visit rfl _).trans (Pair.pathsOf_walks pairs)

theorem Pair.pathsOf_walks :
    ∀ ps : List (Pair ℓ), pathsOf (Pair.walks (fun _ => true) ps) = Pair.visitedAll ps
  | [] => rfl
  | ⟨_, value, _⟩ :: ps => by
    rw [Pair.walks, pathsOf_append, Pair.walk, pathsOf_visit rfl, Expr.pathsOf_walk value,
      Pair.pathsOf_walks ps, Pair.visitedAll]

end

theorem pathsOf_walkPartialParts (name : Expr ℓ) (params : List (Expr ℓ)) (hash : Option (Hash ℓ)) :
    pathsOf (walkPartialParts (fun _ => true) name params hash) =
      name.visited ++ Expr.visitedAll params ++ Hash.visitedOpt hash := by
  rw [walkPartialParts, pathsOf_append, pathsOf_append, Expr.pathsOf_walk, Expr.pathsOf_walks,
    Hash.pathsOf_walkOpt]

mutual

theorem Program.pathsOf_walk : ∀ p : Program ℓ, pathsOf (p.walk fun _ => true) = p.visited
  | ⟨body, _, _, _⟩ => (pathsOf_visit rfl _).trans (Statement.pathsOf_walks body)

theorem Statement.pathsOf_walks :
    ∀ body : List (Statement ℓ), pathsOf (Statement.walks (fun _ => true) body) =
      Statement.visitedAll body
  | [] => rfl
  | s :: rest => by
    rw [Statement.walks, pathsOf_append, Statement.pathsOf_walk s, Statement.pathsOf_walks rest,
      Statement.visitedAll]

theorem Statement.pathsOf_walk : ∀ s : Statement ℓ, pathsOf (s.walk fun _ => true) = s.visited
  | .mustache m =>
    (pathsOf_visit rfl _).trans ((pathsOf_visit rfl _).trans (Expr.pathsOf_walk m.expr))
  | .block b => (pathsOf_visit rfl _).trans (Block.pathsOf_walk b)
  | .partialCall p =>
    (pathsOf_visit rfl _).trans
      ((pathsOf_visit rfl _).trans (pathsOf_walkPartialParts p.name p.params p.hash))
  | .partialBlock p => (pathsOf_visit rfl _).trans (PartialBlock.pathsOf_walk p)
  | .content _ | .comment _ => rfl

theorem Block.pathsOf_walk : ∀ b : Block ℓ, pathsOf (b.walk fun _ => true) = b.visited
  | ⟨expr, program, inverse, openStrip, inverseStrip, closeStrip, close, mark⟩ => by
    rw [Block.walk, pathsOf_visit rfl, pathsOf_append, pathsOf_append, Expr.pathsOf_walk,
      Program.pathsOf_walkOpt program, Program.pathsOf_walkOpt inverse, Block.visited]

theorem PartialBlock.pathsOf_walk : ∀ p : PartialBlock ℓ, pathsOf (p.walk fun _ => true) = p.visited
  | ⟨name, params, hash, program, openStrip, closeStrip, mark⟩ => by
    rw [PartialBlock.walk, pathsOf_visit rfl, pathsOf_append, pathsOf_walkPartialParts,
      Program.pathsOf_walk program, PartialBlock.visited]

/-- A section that is not there is not walked. -/
theorem Program.pathsOf_walkOpt :
    ∀ p : Option (Program ℓ), pathsOf (Program.walkOpt (fun _ => true) p) = Program.visitedOpt p
  | none => rfl
  | some p => Program.pathsOf_walk p

end

/-- The paths of a tree are those that a full walk comes by. -/
theorem Program.paths_eq (p : Program ℓ) : p.paths = p.visited := Program.pathsOf_walk p

/-- Expressions in a row are visited one by one. -/
theorem Expr.visitedAll_eq (es : List (Expr ℓ)) : Expr.visitedAll es = es.flatMap Expr.visited := by
  induction es with
  | nil => rfl
  | cons e es ih => rw [Expr.visitedAll, ih, List.flatMap_cons]

theorem Pair.visitedAll_eq (ps : List (Pair ℓ)) :
    Pair.visitedAll ps = ps.flatMap fun p => p.value.visited := by
  induction ps with
  | nil => rfl
  | cons p ps ih =>
    cases p
    rw [Pair.visitedAll, ih, List.flatMap_cons]

/-- Statements in a row are visited one by one. -/
theorem Statement.visitedAll_eq (body : List (Statement ℓ)) :
    Statement.visitedAll body = body.flatMap Statement.visited := by
  induction body with
  | nil => rfl
  | cons s rest ih => rw [Statement.visitedAll, ih, List.flatMap_cons]

/-! ## Sections -/

/-- If both programs hold paths, the first comes before the second. -/
def Program.Precedes (before : ℓ → ℓ → Prop) (p q : Program ℓ) : Prop :=
  p.visited ≠ [] → q.visited ≠ [] → before p.mark q.mark

/-- If both sections of a block hold paths, the program comes before the inverse. -/
def Statement.SectionsInOrder (before : ℓ → ℓ → Prop) : Statement ℓ → Prop
  | .block b => ∀ p ∈ b.program, ∀ q ∈ b.inverse, p.Precedes before q
  | _ => True

instance (before : ℓ → ℓ → Prop) [DecidableRel before] (p q : Program ℓ) :
    Decidable (p.Precedes before q) :=
  inferInstanceAs (Decidable (_ → _ → _))

instance (before : ℓ → ℓ → Prop) [DecidableRel before] :
    DecidablePred (Statement.SectionsInOrder before)
  | .block b => inferInstanceAs (Decidable (∀ p ∈ b.program, ∀ q ∈ b.inverse, p.Precedes before q))
  | .mustache _ | .partialCall _ | .partialBlock _ | .content _ | .comment _ => .isTrue trivial

/-! ## Layout -/

mutual

/-- Neither texts nor indentation have paths, so a bared tree is visited as the tree is. -/
theorem Program.visited_bare : ∀ p : Program ℓ, p.bare.visited = p.visited
  | ⟨body, _, _, _⟩ => Statement.visitedAll_bares body

theorem Statement.visitedAll_bares :
    ∀ body : List (Statement ℓ), Statement.visitedAll (Statement.bares body) =
      Statement.visitedAll body
  | [] => rfl
  | s :: rest => congrArg₂ (· ++ ·) (Statement.visited_bare s) (Statement.visitedAll_bares rest)

theorem Statement.visited_bare : ∀ s : Statement ℓ, s.bare.visited = s.visited
  | .block b => Block.visited_bare b
  | .partialBlock p => PartialBlock.visited_bare p
  | .mustache _ | .partialCall _ | .content _ | .comment _ => rfl

/-- The head of a block is visited before its sections, of which each is bared alone. -/
theorem Block.visited_bare : ∀ b : Block ℓ, b.bare.visited = b.visited
  | ⟨_, program, inverse, _, _, _, _, _⟩ => by
    rw [Block.bare, Block.visited, Program.visitedOpt_bareOpt program,
      Program.visitedOpt_bareOpt inverse, Block.visited]

theorem PartialBlock.visited_bare : ∀ p : PartialBlock ℓ, p.bare.visited = p.visited
  | ⟨_, _, _, program, _, _, _⟩ => by
    rw [PartialBlock.bare, PartialBlock.visited, Program.visited_bare program, PartialBlock.visited]

theorem Program.visitedOpt_bareOpt :
    ∀ p : Option (Program ℓ), Program.visitedOpt (Program.bareOpt p) = Program.visitedOpt p
  | none => rfl
  | some p => Program.visited_bare p

end

/-- The paths of a tree after the layout are those before it. -/
theorem Program.paths_layout (ignoreStandalone root : Bool) (p : Program ℓ) :
    (p.layout ignoreStandalone root).paths = p.paths := by
  rw [Program.paths_eq, ← Program.visited_bare, Program.bare_layout, Program.visited_bare,
    Program.paths_eq]

/-- Whether a program stands before another is a matter of their marks and paths, which baring
keeps. -/
theorem Program.precedes_bare {before : ℓ → ℓ → Prop} (p q : Program ℓ) :
    p.bare.Precedes before q.bare ↔ p.Precedes before q := by
  have hmark : ∀ p : Program ℓ, p.bare.mark = p.mark := fun p => by cases p; rfl
  rw [Precedes, Program.visited_bare, Program.visited_bare, hmark, hmark, Precedes]

/-- What holds of a bared section, if there is one, is said of the section bared. -/
theorem Program.forall_mem_bareOpt {P : Program ℓ → Prop} (section? : Option (Program ℓ)) :
    (∀ p ∈ Program.bareOpt section?, P p) ↔ ∀ p ∈ section?, P p.bare := by
  cases section? <;> simp [Program.bareOpt]

/-- The order of the sections of a block is a matter of their marks and paths, which the layout
keeps. -/
theorem Statement.sectionsInOrder_bare (before : ℓ → ℓ → Prop) :
    ∀ s : Statement ℓ, s.bare.SectionsInOrder before ↔ s.SectionsInOrder before
  | .block ⟨_, program, inverse, _, _, _, _, _⟩ =>
    (Program.forall_mem_bareOpt program).trans <| forall₂_congr fun p _ =>
      (Program.forall_mem_bareOpt inverse).trans <| forall₂_congr fun q _ => p.precedes_bare q
  | .mustache _ | .partialCall _ | .partialBlock _ | .content _ | .comment _ => Iff.rfl

/-! ## Marks -/

mutual

/-- Under other marks the same paths are visited, with those marks. -/
theorem Expr.visited_mapMark (f : ℓ → μ) :
    ∀ e : Expr ℓ, (e.mapMark f).visited = e.visited.map (Path.mapMark f)
  | .call ⟨path, params, hash, _, _⟩ => by
    rw [Expr.visited, List.map_cons, List.map_append, ← Expr.visitedAll_mapMarks f params,
      ← Hash.visitedOpt_mapMarkOpt f hash]
    rfl
  | .path _ | .string _ _ _ | .number _ _ _ | .boolean _ _ _ | .undefined _ | .null _ => rfl

theorem Expr.visitedAll_mapMarks (f : ℓ → μ) :
    ∀ es : List (Expr ℓ), Expr.visitedAll (Expr.mapMarks f es) =
      (Expr.visitedAll es).map (Path.mapMark f)
  | [] => rfl
  | e :: es => by
    rw [Expr.visitedAll, List.map_append, ← Expr.visited_mapMark f e, ←
      Expr.visitedAll_mapMarks f es]
    rfl

theorem Hash.visitedOpt_mapMarkOpt (f : ℓ → μ) :
    ∀ h : Option (Hash ℓ), Hash.visitedOpt (Hash.mapMarkOpt f h) =
      (Hash.visitedOpt h).map (Path.mapMark f)
  | none => rfl
  | some ⟨pairs, _⟩ => Pair.visitedAll_mapMarks f pairs

theorem Pair.visitedAll_mapMarks (f : ℓ → μ) :
    ∀ ps : List (Pair ℓ), Pair.visitedAll (Pair.mapMarks f ps) =
      (Pair.visitedAll ps).map (Path.mapMark f)
  | [] => rfl
  | ⟨_, value, _⟩ :: ps => by
    rw [Pair.visitedAll, List.map_append, ← Expr.visited_mapMark f value, ←
      Pair.visitedAll_mapMarks f ps]
    rfl

end

mutual

/-- By recursion over the tree, as for expressions. -/
theorem Program.visited_mapMark (f : ℓ → μ) :
    ∀ p : Program ℓ, (p.mapMark f).visited = p.visited.map (Path.mapMark f)
  | ⟨body, _, _, _⟩ => Statement.visitedAll_mapMarks f body

theorem Statement.visitedAll_mapMarks (f : ℓ → μ) :
    ∀ body : List (Statement ℓ),
      Statement.visitedAll (Statement.mapMarks f body) =
        (Statement.visitedAll body).map (Path.mapMark f)
  | [] => rfl
  | s :: rest => by
    rw [Statement.visitedAll, List.map_append, ← Statement.visited_mapMark f s,
      ← Statement.visitedAll_mapMarks f rest]
    rfl

theorem Statement.visited_mapMark (f : ℓ → μ) :
    ∀ s : Statement ℓ, (s.mapMark f).visited = s.visited.map (Path.mapMark f)
  | .mustache m => Expr.visited_mapMark f m.expr
  | .block b => Block.visited_mapMark f b
  | .partialCall p => by
    simp only [Statement.visited, Statement.mapMark, PartialCall.mapMark, List.map_append,
      Expr.visited_mapMark, Expr.visitedAll_mapMarks, Hash.visitedOpt_mapMarkOpt]
  | .partialBlock p => PartialBlock.visited_mapMark f p
  | .content _ | .comment _ => rfl

/-- The closing tag of a block is not visited, so its marks do not matter here. -/
theorem Block.visited_mapMark (f : ℓ → μ) :
    ∀ b : Block ℓ, (b.mapMark f).visited = b.visited.map (Path.mapMark f)
  | ⟨expr, program, inverse, _, _, _, _, _⟩ => by
    rw [Block.mapMark, Block.visited, Expr.visited_mapMark, Program.visitedOpt_mapMarkOpt f program,
      Program.visitedOpt_mapMarkOpt f inverse, Block.visited, List.map_append, List.map_append]

theorem PartialBlock.visited_mapMark (f : ℓ → μ) :
    ∀ p : PartialBlock ℓ, (p.mapMark f).visited = p.visited.map (Path.mapMark f)
  | ⟨name, params, hash, program, _, _, _⟩ => by
    simp only [PartialBlock.mapMark, PartialBlock.visited, List.map_append, Expr.visited_mapMark,
      Expr.visitedAll_mapMarks, Hash.visitedOpt_mapMarkOpt, Program.visited_mapMark f program]

theorem Program.visitedOpt_mapMarkOpt (f : ℓ → μ) :
    ∀ p : Option (Program ℓ),
      Program.visitedOpt (Program.mapMarkOpt f p) = (Program.visitedOpt p).map (Path.mapMark f)
  | none => rfl
  | some p => Program.visited_mapMark f p

end

section Marks

variable {P R : Statement ℓ → Prop} {Q : Statement μ → Prop} {f : ℓ → μ}

mutual

/-- Where a property of statements with other marks comes to one of the statements, one of trees
with other marks comes to one of the trees. -/
theorem Program.every_mapMark_iff (passes : ∀ s, P s → (Q (s.mapMark f) ↔ R s)) :
    ∀ {p : Program ℓ}, p.Every P → ((p.mapMark f).Every Q ↔ p.Every R)
  | ⟨_, _, _, _⟩, h => Statement.allEvery_mapMarks_iff passes h

/-- A property of the statements of a row under other marks is judged one by one. -/
theorem Statement.allEvery_mapMarks_iff (passes : ∀ s, P s → (Q (s.mapMark f) ↔ R s)) :
    ∀ {body : List (Statement ℓ)}, Statement.AllEvery P body →
      (Statement.AllEvery Q (Statement.mapMarks f body) ↔ Statement.AllEvery R body)
  | [], _ => Iff.rfl
  | _ :: _, h =>
    and_congr (Statement.every_mapMark_iff passes h.1) (Statement.allEvery_mapMarks_iff passes h.2)

/-- By recursion over the statement: what passes judges one statement, with its sections left to the
recursion. -/
theorem Statement.every_mapMark_iff (passes : ∀ s, P s → (Q (s.mapMark f) ↔ R s)) :
    ∀ {s : Statement ℓ}, s.Every P → ((s.mapMark f).Every Q ↔ s.Every R)
  | .mustache m, h => passes (.mustache m) h
  | .block b, h => and_congr (passes (.block b) h.1) (Block.every_mapMark_iff passes h.2)
  | .partialCall p, h => passes (.partialCall p) h
  | .partialBlock p, h =>
    and_congr (passes (.partialBlock p) h.1) (PartialBlock.every_mapMark_iff passes h.2)
  | .content c, h => passes (.content c) h
  | .comment c, h => passes (.comment c) h

theorem Block.every_mapMark_iff (passes : ∀ s, P s → (Q (s.mapMark f) ↔ R s)) :
    ∀ {b : Block ℓ}, b.Every P → ((b.mapMark f).Every Q ↔ b.Every R)
  | ⟨_, _, _, _, _, _, _, _⟩, h =>
    and_congr (Program.everyOpt_mapMarkOpt_iff passes h.1)
      (Program.everyOpt_mapMarkOpt_iff passes h.2)

theorem PartialBlock.every_mapMark_iff (passes : ∀ s, P s → (Q (s.mapMark f) ↔ R s)) :
    ∀ {p : PartialBlock ℓ}, p.Every P → ((p.mapMark f).Every Q ↔ p.Every R)
  | ⟨_, _, _, _, _, _, _⟩, h => Program.every_mapMark_iff passes h

theorem Program.everyOpt_mapMarkOpt_iff (passes : ∀ s, P s → (Q (s.mapMark f) ↔ R s)) :
    ∀ {p : Option (Program ℓ)}, Program.EveryOpt P p →
      (Program.EveryOpt Q (Program.mapMarkOpt f p) ↔ Program.EveryOpt R p)
  | none, _ => Iff.rfl
  | some _, h => Program.every_mapMark_iff passes h

end

end Marks

variable {A : Arrangement ℓ} {before : ℓ → ℓ → Prop} {later : μ → μ → Prop} {f : ℓ → μ}

/-- Marks that keep the order of two programs at their own marks keep it altogether. -/
theorem Program.precedes_mapMark {p q : Program ℓ}
    (keeps : later (f p.mark) (f q.mark) ↔ before p.mark q.mark) :
    (p.mapMark f).Precedes later (q.mapMark f) ↔ p.Precedes before q := by
  rw [Precedes, Program.visited_mapMark, Program.visited_mapMark, Program.mark_mapMark,
    Program.mark_mapMark, keeps, Ne, List.map_eq_nil_iff, Ne, List.map_eq_nil_iff, Precedes]

theorem Program.forall_mem_mapMarkOpt {P : Program μ → Prop} (section? : Option (Program ℓ)) :
    (∀ p ∈ Program.mapMarkOpt f section?, P p) ↔ ∀ p ∈ section?, P (p.mapMark f) := by
  cases section? <;> simp [Program.mapMarkOpt]

/-- Sections under other marks are in order exactly if they were, where the marks keep the order of
proper ones. -/
theorem Statement.Arranged.sectionsInOrder_mapMark
    (keeps : ∀ {m n}, A.proper m → A.proper n → (later (f m) (f n) ↔ before m n)) :
    ∀ s : Statement ℓ, s.Arranged A →
      ((s.mapMark f).SectionsInOrder later ↔ s.SectionsInOrder before)
  | .block ⟨_, program, inverse, _, _, _, _, _⟩, ⟨_, _, hprogram, hinverse, _⟩ =>
    (Program.forall_mem_mapMarkOpt program).trans <| forall₂_congr fun p hp =>
      (Program.forall_mem_mapMarkOpt inverse).trans <| forall₂_congr fun q hq =>
        Program.precedes_mapMark (keeps (hprogram p hp).1.proper (hinverse q hq).1.proper)
  | .mustache _, _ | .partialCall _, _ | .partialBlock _, _ | .content _, _ | .comment _, _ =>
    Iff.rfl

end Stencil.Tree
