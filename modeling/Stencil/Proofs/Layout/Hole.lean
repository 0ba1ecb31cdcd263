import Stencil.Proofs.Layout.Tags
import Stencil.Proofs.Tree.WellFormed

/-!
# A place in a tree

A `Hole` is a tree with one statement missing. The row of the tree that a statement makes of it is
that of the statement between what stands before the hole and what stands after it
(`Hole.row_fill`). A block with a closing tag of its own never fills a hole in the middle of a
chain, so its row has its own tags around it (`Hole.not_link`).
-/

set_option autoImplicit false

namespace Stencil.Tree

variable {ℓ : Type}

/-! ## Holes -/

/-- A program around one of its statements. -/
structure Around (ℓ : Type) where
  before : List (Statement ℓ)
  after : List (Statement ℓ)
  blockParams : List String
  chained : Bool
  mark : ℓ

/-- The program with the statement in its place. -/
def Around.fill (a : Around ℓ) (s : Statement ℓ) : Program ℓ :=
  ⟨a.before ++ s :: a.after, a.blockParams, a.chained, a.mark⟩

/-- A tree with one statement missing: in the program itself, or in a section of one of its blocks.
The section that holds the hole takes the place of the one the block is given with. -/
inductive Hole (ℓ : Type) where
  | here (around : Around ℓ)
  | program (around : Around ℓ) (b : Block ℓ) (inner : Hole ℓ)
  | inverse (around : Around ℓ) (b : Block ℓ) (inner : Hole ℓ)
  | partialBlock (around : Around ℓ) (p : PartialBlock ℓ) (inner : Hole ℓ)

/-- The tree with the statement in the hole. -/
def Hole.fill : Hole ℓ → Statement ℓ → Program ℓ
  | .here around, s => around.fill s
  | .program around b inner, s => around.fill (.block { b with program := some (inner.fill s) })
  | .inverse around b inner, s => around.fill (.block { b with inverse := some (inner.fill s) })
  | .partialBlock around p inner, s =>
    around.fill (.partialBlock { p with program := inner.fill s })

/-! ## Rows around a place in a list of statements -/

namespace Around

/-- The chain that the program is a link of, if it is one. -/
def link (reach : Reach) (a : Around ℓ) : Option Reach := if a.chained then some reach else none

/-- Whether the line is blank before the missing statement. -/
def blankBefore (root : Bool) (a : Around ℓ) : Bool := Tree.blankBefore root a.before.reverse

/-- Whether the line is blank after the missing statement. -/
def blankAfter (root : Bool) (a : Around ℓ) : Bool := Tree.blankAfter root a.after

/-- The row of the statements before `s`. -/
def rowBefore (ignoreStandalone root : Bool) (reach : Reach) (a : Around ℓ) (s : Statement ℓ) :
    Row :=
  Statement.rows ignoreStandalone root (a.link reach) [] (s :: a.after) a.before

/-- The row of the statements after `s`. -/
def rowAfter (ignoreStandalone root : Bool) (reach : Reach) (a : Around ℓ) (s : Statement ℓ) :
    Row :=
  Statement.rows ignoreStandalone root (a.link reach) (s :: a.before.reverse) [] a.after

theorem row_fill (ignoreStandalone root : Bool) (reach : Reach) (a : Around ℓ) (s : Statement ℓ) :
    (a.fill s).row ignoreStandalone root reach =
      a.rowBefore ignoreStandalone root reach s ++
        (s.row ignoreStandalone (a.link reach) (a.blankBefore root) (a.blankAfter root) ++
          a.rowAfter ignoreStandalone root reach s) := by
  rw [fill, Program.row_eq, rows_append, Statement.rows, List.append_nil, List.append_nil,
    List.append_nil]
  rfl

end Around

/-! ## Rows around a hole -/

/-- The opening tag of a block that is not a link. -/
def Block.rowOpening (ignoreStandalone : Bool) (link : Option Reach) (before after : Bool)
    (b : Block ℓ) : Row :=
  let t := b.tagCuts ignoreStandalone link before after
  if link.isSome then [] else [.tag t.openBefore t.openAfter]

/-- The `else` of a block of two sections. -/
def Block.rowElse (ignoreStandalone : Bool) (link : Option Reach) (before after : Bool)
    (b : Block ℓ) : Row :=
  let t := b.tagCuts ignoreStandalone link before after
  if b.hasElse then [.tag t.elseBefore t.elseAfter] else []

/-- The closing tag of a block that is not a link. -/
def Block.rowClosing (ignoreStandalone : Bool) (link : Option Reach) (before after : Bool)
    (b : Block ℓ) : Row :=
  let t := b.tagCuts ignoreStandalone link before after
  if link.isSome then [] else [.tag t.closeBefore t.closeAfter]

/-- The row of a block in its parts. -/
theorem Block.row_eq_append (ignoreStandalone : Bool) (link : Option Reach) (before after : Bool)
    (b : Block ℓ) :
    b.row ignoreStandalone link before after =
      b.rowOpening ignoreStandalone link before after ++
        (Program.rowOpt ignoreStandalone ⟨.nothing, Cut.of b.closeStrip.before false⟩ b.program ++
          (b.rowElse ignoreStandalone link before after ++
            (Program.rowOpt ignoreStandalone (b.reach link) b.inverse ++
              b.rowClosing ignoreStandalone link before after))) := by
  rw [Block.row_eq, Block.rowOver, Block.rowOpening, Block.rowElse, Block.rowClosing]
  cases link with
  | none => simp [TagCuts.row, TagCuts.inside]
  | some reach => simp [TagCuts.inside]

namespace Hole

/-- The chain that the program around the missing statement is a link of, if it is one. -/
def link : Reach → Hole ℓ → Option Reach
  | reach, .here around => around.link reach
  | _, .program _ b inner => inner.link ⟨.nothing, Cut.of b.closeStrip.before false⟩
  | reach, .inverse around b inner => inner.link (b.reach (around.link reach))
  | _, .partialBlock _ _ inner => inner.link {}

/-- Whether the line is blank before the hole. -/
def blankBefore : Bool → Hole ℓ → Bool
  | root, .here around => around.blankBefore root
  | _, .program _ _ inner | _, .inverse _ _ inner | _, .partialBlock _ _ inner =>
    inner.blankBefore false

/-- Whether the line is blank after the hole. -/
def blankAfter : Bool → Hole ℓ → Bool
  | root, .here around => around.blankAfter root
  | _, .program _ _ inner | _, .inverse _ _ inner | _, .partialBlock _ _ inner =>
    inner.blankAfter false

/-- The row of what stands before `s` in the hole. -/
def rowBefore (ignoreStandalone : Bool) : Bool → Reach → Hole ℓ → Statement ℓ → Row
  | root, reach, .here around, s => around.rowBefore ignoreStandalone root reach s
  | root, reach, .program around b inner, s =>
    let filled : Block ℓ := { b with program := some (inner.fill s) }
    around.rowBefore ignoreStandalone root reach (.block filled) ++
      (filled.rowOpening ignoreStandalone (around.link reach) (around.blankBefore root)
          (around.blankAfter root) ++
        inner.rowBefore ignoreStandalone false ⟨.nothing, Cut.of b.closeStrip.before false⟩ s)
  | root, reach, .inverse around b inner, s =>
    let filled : Block ℓ := { b with inverse := some (inner.fill s) }
    around.rowBefore ignoreStandalone root reach (.block filled) ++
      (filled.rowOpening ignoreStandalone (around.link reach) (around.blankBefore root)
          (around.blankAfter root) ++
        (Program.rowOpt ignoreStandalone ⟨.nothing, Cut.of b.closeStrip.before false⟩ b.program ++
          (filled.rowElse ignoreStandalone (around.link reach) (around.blankBefore root)
              (around.blankAfter root) ++
            inner.rowBefore ignoreStandalone false (b.reach (around.link reach)) s)))
  | root, reach, .partialBlock around p inner, s =>
    let filled : PartialBlock ℓ := { p with program := inner.fill s }
    around.rowBefore ignoreStandalone root reach (.partialBlock filled) ++
      (tagRow p.openStrip
          (!ignoreStandalone && filled.program.opensBlank && around.blankBefore root) ++
        inner.rowBefore ignoreStandalone false {} s)

/-- The row of what stands after `s` in the hole. -/
def rowAfter (ignoreStandalone : Bool) : Bool → Reach → Hole ℓ → Statement ℓ → Row
  | root, reach, .here around, s => around.rowAfter ignoreStandalone root reach s
  | root, reach, .program around b inner, s =>
    let filled : Block ℓ := { b with program := some (inner.fill s) }
    inner.rowAfter ignoreStandalone false ⟨.nothing, Cut.of b.closeStrip.before false⟩ s ++
      (filled.rowElse ignoreStandalone (around.link reach) (around.blankBefore root)
          (around.blankAfter root) ++
        (Program.rowOpt ignoreStandalone (b.reach (around.link reach)) b.inverse ++
          (filled.rowClosing ignoreStandalone (around.link reach) (around.blankBefore root)
              (around.blankAfter root) ++
            around.rowAfter ignoreStandalone root reach (.block filled))))
  | root, reach, .inverse around b inner, s =>
    let filled : Block ℓ := { b with inverse := some (inner.fill s) }
    inner.rowAfter ignoreStandalone false (b.reach (around.link reach)) s ++
      (filled.rowClosing ignoreStandalone (around.link reach) (around.blankBefore root)
          (around.blankAfter root) ++
        around.rowAfter ignoreStandalone root reach (.block filled))
  | root, reach, .partialBlock around p inner, s =>
    let filled : PartialBlock ℓ := { p with program := inner.fill s }
    inner.rowAfter ignoreStandalone false {} s ++
      (tagRow p.closeStrip
          (!ignoreStandalone && filled.program.closesBlank && around.blankAfter root) ++
        around.rowAfter ignoreStandalone root reach (.partialBlock filled))

/-- The row of a filled hole is that of the statement between the rows around it. -/
theorem row_fill (ignoreStandalone root : Bool) (reach : Reach) (hole : Hole ℓ)
    (s : Statement ℓ) :
    (hole.fill s).row ignoreStandalone root reach =
      hole.rowBefore ignoreStandalone root reach s ++
        (s.row ignoreStandalone (hole.link reach) (hole.blankBefore root)
            (hole.blankAfter root) ++
          hole.rowAfter ignoreStandalone root reach s) := by
  -- induction on the hole: each level adds the tags of one block and the section beside the hole
  induction hole generalizing root reach with
  | here around => exact around.row_fill ignoreStandalone root reach s
  | program around b inner ih =>
    rw [fill, Around.row_fill, Statement.row, Block.row_eq_append, Program.rowOpt, ih]
    simp only [rowBefore, rowAfter, link, blankBefore, blankAfter, List.append_assoc]
    rfl
  | inverse around b inner ih =>
    have hreach : ∀ (link : Option Reach) (q : Option (Program ℓ)),
        Block.reach link { b with inverse := q } = b.reach link := fun _ _ => rfl
    rw [fill, Around.row_fill, Statement.row, Block.row_eq_append, Program.rowOpt, hreach, ih]
    simp only [rowBefore, rowAfter, link, blankBefore, blankAfter, List.append_assoc]
  | partialBlock around p inner ih =>
    rw [fill, Around.row_fill, Statement.row, PartialBlock.row_eq, PartialBlock.rowOver, ih]
    simp only [rowBefore, rowAfter, link, blankBefore, blankAfter, List.append_assoc]

end Hole

/-! ## Blocks with a closing tag of their own -/

/-- The program may be a section of a well-formed block. -/
def Program.IsSection (p : Program ℓ) : Prop :=
  p.WellFormed ∨ ∃ opening closing, p.IsLink opening closing

theorem Statement.AllWellFormed.mem {body : List (Statement ℓ)} (h : Statement.AllWellFormed body)
    {s : Statement ℓ} (hs : s ∈ body) : s.WellFormed := by
  induction body with
  | nil => exact absurd hs List.not_mem_nil
  | cons t rest ih =>
    rcases List.mem_cons.1 hs with rfl | hs
    · exact h.1
    · exact ih h.2 hs

/-- A link holds nothing beside its block. -/
theorem Statement.AreLink.isLink {opening closing : Strip} {before after : List (Statement ℓ)}
    {s : Statement ℓ} (h : Statement.AreLink opening closing (before ++ s :: after)) :
    s.IsLink opening closing := by
  cases before with
  | nil => exact h.2
  | cons t before => exact absurd h.1 (List.append_ne_nil_of_right_ne_nil _ (List.cons_ne_nil _ _))

theorem Around.wellFormed_or_isLink {a : Around ℓ} {s : Statement ℓ} (h : (a.fill s).IsSection) :
    (a.chained = false ∧ s.WellFormed) ∨ ∃ opening closing, s.IsLink opening closing := by
  rcases h with h | ⟨opening, closing, h⟩
  · exact Or.inl ⟨h.1, h.2.mem (List.mem_append_right _ List.mem_cons_self)⟩
  · exact Or.inr ⟨opening, closing, h.2.isLink⟩

theorem Block.isSection_program {b : Block ℓ} {p : Program ℓ} (hp : b.program = some p)
    (h : b.WellFormed ∨ ∃ opening closing, b.IsLink opening closing) : p.IsSection := by
  obtain ⟨expr, program, inverse, openStrip, inverseStrip, closeStrip, close, mark⟩ := b
  subst hp
  rcases h with (⟨h, _⟩ | ⟨_, h, _⟩ | ⟨h, _⟩) | ⟨_, _, _, _, _, _, h, _⟩
  · exact Or.inl h
  · exact Or.inl h
  · exact Or.inr ⟨_, _, h⟩
  · exact Or.inl h

theorem Block.isSection_inverse {b : Block ℓ} {q : Program ℓ} (hq : b.inverse = some q)
    (h : b.WellFormed ∨ ∃ opening closing, b.IsLink opening closing) : q.IsSection := by
  obtain ⟨expr, program, inverse, openStrip, inverseStrip, closeStrip, close, mark⟩ := b
  subst hq
  rcases h with (⟨_, h⟩ | ⟨_, _, h⟩ | ⟨_, _, h⟩) | ⟨_, _, _, _, _, _, _, h | h⟩
  · exact Or.inl h
  · exact Or.inr ⟨_, _, h⟩
  · exact Or.inl h
  · exact Or.inl h
  · exact Or.inr ⟨_, _, h⟩

/-- Where a block with a closing tag of its own fills a hole of a well-formed tree, the hole is not
in the middle of a chain, and the block is well-formed. -/
theorem Hole.not_link {b : Block ℓ} (hclose : b.close.isSome) {hole : Hole ℓ}
    (h : (hole.fill (.block b)).IsSection) :
    b.WellFormed ∧ ∀ reach, hole.link reach = none := by
  induction hole with
  | here around =>
    -- a link would have no closing tag
    rcases Around.wellFormed_or_isLink h with ⟨hchained, hb⟩ | ⟨opening, closing, hb⟩
    · exact ⟨hb, fun reach => if_neg (ne_true_of_eq_false hchained)⟩
    · obtain ⟨expr, program, inverse, openStrip, inverseStrip, closeStrip, close, mark⟩ := b
      obtain ⟨_, _, rfl, _⟩ := hb
      exact absurd hclose Bool.false_ne_true
  | program around c inner ih =>
    have hinner : (inner.fill (.block b)).IsSection := by
      rcases Around.wellFormed_or_isLink h with ⟨_, hc⟩ | hc
      · exact Block.isSection_program rfl (Or.inl hc)
      · exact Block.isSection_program rfl (Or.inr hc)
    exact ⟨(ih hinner).1, fun reach => (ih hinner).2 _⟩
  | inverse around c inner ih =>
    have hinner : (inner.fill (.block b)).IsSection := by
      rcases Around.wellFormed_or_isLink h with ⟨_, hc⟩ | hc
      · exact Block.isSection_inverse rfl (Or.inl hc)
      · exact Block.isSection_inverse rfl (Or.inr hc)
    exact ⟨(ih hinner).1, fun reach => (ih hinner).2 _⟩
  | partialBlock around p inner ih =>
    have hinner : (inner.fill (.block b)).IsSection := by
      rcases Around.wellFormed_or_isLink h with ⟨_, hp⟩ | ⟨_, _, hp⟩
      · exact Or.inl hp
      · exact hp.elim
    exact ⟨(ih hinner).1, fun reach => (ih hinner).2 _⟩

end Stencil.Tree
