import Stencil.Proofs.Layout.Row
import Stencil.Tree.Walk

/-!
# The row of a tree

`Program.row` lists the texts of a tree and its tags, each tag with what the layout cuts on its
account. The bodies of a block stand in the order of the tree.

The tags of a block are three: the opening tag, the `else`, the closing tag. A block in a chain has
no opening and no closing tag of its own, since the `else` before it and the closing tag of the
whole chain take their places. The strip marker before that closing tag reaches into the chain:
it is applied to the section after each `else` (`Reach`). Where an inverted block goes on in a
chain, the chain stands before the main section in the tree, and its markers are read in that
order.
-/

set_option autoImplicit false

namespace Stencil.Tree

variable {ℓ : Type}

/-! ## What the tags of a block cut -/

/-- What the closing tag of a chain cuts off the end of the section after the next `else`, and off
the ends of the sections after that. -/
structure Reach where
  near : Cut := .nothing
  far : Cut := .nothing

/-- Whether the body after the opening tag of a block begins with blanks only up to the end of the
line. -/
def Block.opensBlank (b : Block ℓ) : Bool :=
  match b.program, b.inverse with
  | some p, _ | none, some p => p.opensBlank
  | none, none => false

/-- Whether the body that the closing tag of a block is judged by ends its last line with blanks
only. -/
def Block.closesBlank (b : Block ℓ) : Bool :=
  match b.program, b.inverse with
  | some p, some q => (q.firstSection?.getD p).closesBlank
  | some p, none | none, some p => p.closesBlank
  | none, none => false

/-- Whether the `else` of a block stands alone on its line. -/
def Block.elseAlone (ignoreStandalone : Bool) (b : Block ℓ) : Bool :=
  match b.program, b.inverse with
  | some p, some q =>
    !ignoreStandalone && p.closesBlank && (q.firstSection?.map Program.opensBlank).getD false
  | _, _ => false

/-- Whether a section is there, and chained. -/
def Program.isChained : Option (Program ℓ) → Bool
  | some p => p.chained
  | none => false

/-- What the three tags of a block cut, in the order of the tree: off the end of what stands before
the tag and off the start of what stands after it. -/
structure TagCuts where
  openBefore : Cut
  openAfter : Cut
  elseBefore : Cut
  elseAfter : Cut
  closeBefore : Cut
  closeAfter : Cut

/-- What the tags of a block cut. `before` and `after` say whether the line is blank before and
after the block; `link` says how far a closing tag reaches into the chain that the block is in. -/
def Block.tagCuts (ignoreStandalone : Bool) (link : Option Reach) (before after : Bool)
    (b : Block ℓ) : TagCuts :=
  let opens := !ignoreStandalone && b.opensBlank && before
  let closes := !ignoreStandalone && b.closesBlank && after
  let alone := b.elseAlone ignoreStandalone
  let chainFirst := Program.isChained b.program
  { openBefore := Cut.of b.openStrip.before opens
    openAfter :=
      if chainFirst then Cut.of b.inverseStrip.after false else Cut.of b.openStrip.after opens
    elseBefore :=
      if chainFirst then Cut.of b.closeStrip.before false
      else (Cut.of b.inverseStrip.before alone).join ((link.map Reach.near).getD .nothing)
    elseAfter := Cut.of b.inverseStrip.after alone
    closeBefore := Cut.of b.closeStrip.before (closes && !Program.isChained b.inverse)
    closeAfter := Cut.of b.closeStrip.after closes }

/-- The bodies of a block with the `else` between them, if there are two. -/
def TagCuts.inside (t : TagCuts) (two : Bool) (first second : Row) : Row :=
  first ++ (if two then [.tag t.elseBefore t.elseAfter] else []) ++ second

/-- The bodies of a block with its tags around them. -/
def TagCuts.row (t : TagCuts) (two : Bool) (first second : Row) : Row :=
  .tag t.openBefore t.openAfter :: (t.inside two first second ++ [.tag t.closeBefore t.closeAfter])

/-- Whether a block has an `else`. -/
def Block.hasElse (b : Block ℓ) : Bool := b.program.isSome && b.inverse.isSome

/-- The row of a block whose bodies have the given rows. -/
def Block.rowOver (ignoreStandalone : Bool) (link : Option Reach) (before after : Bool)
    (b : Block ℓ) (first second : Row) : Row :=
  let t := b.tagCuts ignoreStandalone link before after
  if link.isSome then t.inside b.hasElse first second else t.row b.hasElse first second

/-- How far the closing tag of a block reaches into a chain after its `else`. -/
def Block.reach (link : Option Reach) (b : Block ℓ) : Reach :=
  match link with
  | none => ⟨Cut.of b.closeStrip.before false, Cut.of b.closeStrip.before false⟩
  | some r => ⟨r.far, r.far⟩

/-! ## Rows and slots -/

/-- The row of a statement that is one tag. -/
def tagRow (strip : Strip) (alone : Bool) : Row :=
  [.tag (Cut.of strip.before alone) (Cut.of strip.after alone)]

/-- The row of a partial block whose body has the given row. -/
def PartialBlock.rowOver (ignoreStandalone before after : Bool) (p : PartialBlock ℓ) (body : Row) :
    Row :=
  tagRow p.openStrip (!ignoreStandalone && p.program.opensBlank && before) ++ body ++
    tagRow p.closeStrip (!ignoreStandalone && p.program.closesBlank && after)

mutual

/-- The row of a program. `reach` is how far a closing tag reaches into it if it is chained. -/
def Program.row (ignoreStandalone root : Bool) (reach : Reach) : Program ℓ → Row
  | ⟨body, _, chained, _⟩ =>
    Statement.rows ignoreStandalone root (if chained then some reach else none) [] [] body

/-- The row of statements between others: `before` are those before them, the nearest one first,
and `after` those after them. -/
def Statement.rows (ignoreStandalone root : Bool) (link : Option Reach)
    (before after : List (Statement ℓ)) : List (Statement ℓ) → Row
  | [] => []
  | s :: rest =>
    s.row ignoreStandalone link (blankBefore root before) (blankAfter root (rest ++ after)) ++
      Statement.rows ignoreStandalone root link (s :: before) after rest

/-- The row of a statement. -/
def Statement.row (ignoreStandalone : Bool) (link : Option Reach) (before after : Bool) :
    Statement ℓ → Row
  | .mustache m => tagRow m.strip false
  | .block b => b.row ignoreStandalone link before after
  | .partialCall p => tagRow p.strip (!ignoreStandalone && before && after)
  | .partialBlock p => p.row ignoreStandalone before after
  | .content c => [.text c.written.toList]
  | .comment c => tagRow c.strip (!ignoreStandalone && before && after)

/-- The row of a block. -/
def Block.row (ignoreStandalone : Bool) (link : Option Reach) (before after : Bool) : Block ℓ → Row
  | ⟨expr, program, inverse, openStrip, inverseStrip, closeStrip, close, mark⟩ =>
    let b : Block ℓ :=
      ⟨expr, program, inverse, openStrip, inverseStrip, closeStrip, close, mark⟩
    b.rowOver ignoreStandalone link before after
      (Program.rowOpt ignoreStandalone ⟨.nothing, Cut.of closeStrip.before false⟩ program)
      (Program.rowOpt ignoreStandalone (b.reach link) inverse)

/-- The row of a partial block. -/
def PartialBlock.row (ignoreStandalone before after : Bool) : PartialBlock ℓ → Row
  | ⟨name, params, hash, program, openStrip, closeStrip, mark⟩ =>
    PartialBlock.rowOver ignoreStandalone before after
      ⟨name, params, hash, program, openStrip, closeStrip, mark⟩
      (program.row ignoreStandalone false {})

/-- The row of a section, if there is one. -/
def Program.rowOpt (ignoreStandalone : Bool) (reach : Reach) : Option (Program ℓ) → Row
  | none => []
  | some p => p.row ignoreStandalone false reach

end

/-- The slots of a block whose bodies have the given slots. -/
def Block.slotsOver (link : Bool) (b : Block ℓ) (first second : Slots ℓ) : Slots ℓ :=
  let inside := first ++ (if b.hasElse then [none] else []) ++ second
  if link then inside else none :: (inside ++ [none])

mutual

/-- The contents of a program in the order of its row. -/
def Program.slots : Program ℓ → Slots ℓ
  | ⟨body, _, chained, _⟩ => Statement.slotsOf chained body

/-- The contents of statements in a row; `link` says that a block among them is one of a chain. -/
def Statement.slotsOf (link : Bool) : List (Statement ℓ) → Slots ℓ
  | [] => []
  | s :: rest => s.slots link ++ Statement.slotsOf link rest

/-- The contents of a statement. -/
def Statement.slots (link : Bool) : Statement ℓ → Slots ℓ
  | .mustache _ | .partialCall _ | .comment _ => [none]
  | .block b => b.slots link
  | .partialBlock p => p.slots
  | .content c => [some c]

/-- The contents of a block. -/
def Block.slots (link : Bool) : Block ℓ → Slots ℓ
  | ⟨expr, program, inverse, openStrip, inverseStrip, closeStrip, close, mark⟩ =>
    Block.slotsOver link
      ⟨expr, program, inverse, openStrip, inverseStrip, closeStrip, close, mark⟩
      (Program.slotsOpt program) (Program.slotsOpt inverse)

/-- The contents of a partial block. -/
def PartialBlock.slots : PartialBlock ℓ → Slots ℓ
  | ⟨_, _, _, program, _, _, _⟩ => none :: (program.slots ++ [none])

/-- The contents of a section, if there is one. -/
def Program.slotsOpt : Option (Program ℓ) → Slots ℓ
  | none => []
  | some p => p.slots

end

/-! ## Equations -/

theorem Program.row_eq (ignoreStandalone root : Bool) (reach : Reach) (p : Program ℓ) :
    p.row ignoreStandalone root reach =
      Statement.rows ignoreStandalone root (if p.chained then some reach else none) [] []
        p.body := by
  cases p
  rfl

/-- How far a closing tag reaches matters to chained programs only. -/
theorem Program.row_of_unchained {p : Program ℓ} (h : p.chained = false)
    (ignoreStandalone root : Bool) (reach : Reach) :
    p.row ignoreStandalone root reach = Statement.rows ignoreStandalone root none [] [] p.body := by
  rw [Program.row_eq, h]
  rfl

theorem Block.row_eq (ignoreStandalone : Bool) (link : Option Reach) (before after : Bool)
    (b : Block ℓ) :
    b.row ignoreStandalone link before after =
      b.rowOver ignoreStandalone link before after
        (Program.rowOpt ignoreStandalone ⟨.nothing, Cut.of b.closeStrip.before false⟩ b.program)
        (Program.rowOpt ignoreStandalone (b.reach link) b.inverse) := by
  cases b
  rfl

theorem PartialBlock.row_eq (ignoreStandalone before after : Bool) (p : PartialBlock ℓ) :
    p.row ignoreStandalone before after =
      p.rowOver ignoreStandalone before after (p.program.row ignoreStandalone false {}) := by
  cases p
  rfl

theorem rows_append (ignoreStandalone root : Bool) (link : Option Reach)
    (before after xs ys : List (Statement ℓ)) :
    Statement.rows ignoreStandalone root link before after (xs ++ ys) =
      Statement.rows ignoreStandalone root link before (ys ++ after) xs ++
        Statement.rows ignoreStandalone root link (xs.reverse ++ before) after ys := by
  induction xs generalizing before with
  | nil => rfl
  | cons s xs ih =>
    rw [List.cons_append, Statement.rows, Statement.rows, ih, List.append_assoc, List.append_assoc,
      List.reverse_cons, List.append_assoc]
    rfl

theorem Program.isChained_eq_false {p : Option (Program ℓ)}
    (h : ∀ q, p = some q → q.chained = false) : Program.isChained p = false := by
  cases p with
  | none => rfl
  | some q => exact h q rfl

/-- Outside of chains the first section is the program itself. -/
theorem Program.firstSection?_of_unchained {p : Program ℓ} (h : p.chained = false) :
    p.firstSection? = some p :=
  if_neg (ne_true_of_eq_false h)

/-- What the tags of a block cut, if no section is chained. -/
theorem Block.tagCuts_of_unchained {b : Block ℓ} (hp : Program.isChained b.program = false)
    (hq : Program.isChained b.inverse = false) (ignoreStandalone before after : Bool) :
    b.tagCuts ignoreStandalone none before after =
      { openBefore := Cut.of b.openStrip.before (!ignoreStandalone && b.opensBlank && before)
        openAfter := Cut.of b.openStrip.after (!ignoreStandalone && b.opensBlank && before)
        elseBefore := Cut.of b.inverseStrip.before (b.elseAlone ignoreStandalone)
        elseAfter := Cut.of b.inverseStrip.after (b.elseAlone ignoreStandalone)
        closeBefore := Cut.of b.closeStrip.before (!ignoreStandalone && b.closesBlank && after)
        closeAfter :=
          Cut.of b.closeStrip.after (!ignoreStandalone && b.closesBlank && after) } := by
  simp [Block.tagCuts, hp, hq]

theorem Program.slots_eq (p : Program ℓ) : p.slots = Statement.slotsOf p.chained p.body := by
  cases p
  rfl

theorem Block.slots_eq (link : Bool) (b : Block ℓ) :
    b.slots link =
      b.slotsOver link (Program.slotsOpt b.program) (Program.slotsOpt b.inverse) := by
  cases b
  rfl

theorem PartialBlock.slots_eq (p : PartialBlock ℓ) :
    p.slots = none :: (p.program.slots ++ [none]) := by
  cases p
  rfl

end Stencil.Tree
