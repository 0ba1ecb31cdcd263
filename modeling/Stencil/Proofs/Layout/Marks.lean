import Stencil.Proofs.Layout.Look

/-!
# Rows and marks

What the nodes of a tree are marked with does not show in its row (`Program.row_mapMark`). So the
row of a tree marked with spans is that of the tree with its spans located or dropped.
-/

set_option autoImplicit false

namespace Stencil.Tree

variable {ℓ μ : Type}

/-! ## Lines -/

theorem mapMarks_eq_map (f : ℓ → μ) (body : List (Statement ℓ)) :
    Statement.mapMarks f body = body.map (Statement.mapMark f) := by
  induction body with
  | nil => rfl
  | cons s rest ih => rw [Statement.mapMarks, ih, List.map_cons]

theorem look_mapMark (f : ℓ → μ) (s : Statement ℓ) : (s.mapMark f).look = s.look := by
  cases s <;> rfl

theorem looks_map (f : ℓ → μ) (body : List (Statement ℓ)) :
    Statement.looks (body.map (Statement.mapMark f)) = Statement.looks body := by
  rw [Statement.looks, List.map_map]
  exact List.map_congr_left fun s _ => look_mapMark f s

theorem blankBefore_map (f : ℓ → μ) (root : Bool) (before : List (Statement ℓ)) :
    blankBefore root (before.map (Statement.mapMark f)) = blankBefore root before := by
  rw [blankBefore_eq_looks, looks_map, blankBefore_eq_looks]

theorem blankAfter_map (f : ℓ → μ) (root : Bool) (after : List (Statement ℓ)) :
    blankAfter root (after.map (Statement.mapMark f)) = blankAfter root after := by
  rw [blankAfter_eq_looks, looks_map, blankAfter_eq_looks]

/-! ## Sections -/

theorem Program.body_mapMark (f : ℓ → μ) (p : Program ℓ) :
    (p.mapMark f).body = p.body.map (Statement.mapMark f) := by
  cases p
  exact mapMarks_eq_map f _

theorem Program.chained_mapMark (f : ℓ → μ) (p : Program ℓ) :
    (p.mapMark f).chained = p.chained := by
  cases p
  rfl

theorem Program.opensBlank_mapMark (f : ℓ → μ) (p : Program ℓ) :
    (p.mapMark f).opensBlank = p.opensBlank := by
  rw [Program.opensBlank, Program.body_mapMark, blankAfter_map, Program.opensBlank]

theorem Program.closesBlank_mapMark (f : ℓ → μ) (p : Program ℓ) :
    (p.mapMark f).closesBlank = p.closesBlank := by
  rw [Program.closesBlank, Program.body_mapMark, ← List.map_reverse, blankBefore_map,
    Program.closesBlank]

theorem Block.program_mapMark (f : ℓ → μ) (b : Block ℓ) :
    (b.mapMark f).program = Program.mapMarkOpt f b.program := by
  cases b
  rfl

theorem Program.firstSection?_mapMark (f : ℓ → μ) (p : Program ℓ) :
    (p.mapMark f).firstSection? = Program.mapMarkOpt f p.firstSection? := by
  rw [Program.firstSection?, Program.firstSection?, Program.chained_mapMark, Program.body_mapMark]
  by_cases hchained : p.chained
  · rw [if_pos hchained, if_pos hchained]
    cases p.body with
    | nil => rfl
    | cons s rest =>
      cases s with
      | block b => exact Block.program_mapMark f b
      | _ => rfl
  · rw [if_neg hchained, if_neg hchained]
    rfl

theorem Program.isChained_mapMarkOpt (f : ℓ → μ) (p : Option (Program ℓ)) :
    Program.isChained (Program.mapMarkOpt f p) = Program.isChained p := by
  cases p with
  | none => rfl
  | some p => exact Program.chained_mapMark f p

/-! ## Blocks -/

theorem Block.opensBlank_mapMark (f : ℓ → μ) (b : Block ℓ) :
    (b.mapMark f).opensBlank = b.opensBlank := by
  obtain ⟨expr, program, inverse, openStrip, inverseStrip, closeStrip, close, mark⟩ := b
  cases program with
  | some p => exact p.opensBlank_mapMark f
  | none =>
    cases inverse with
    | some q => exact q.opensBlank_mapMark f
    | none => rfl

theorem Block.closesBlank_mapMark (f : ℓ → μ) (b : Block ℓ) :
    (b.mapMark f).closesBlank = b.closesBlank := by
  obtain ⟨expr, program, inverse, openStrip, inverseStrip, closeStrip, close, mark⟩ := b
  cases program with
  | some p =>
    cases inverse with
    | some q =>
      change ((q.mapMark f).firstSection?.getD (p.mapMark f)).closesBlank =
        (q.firstSection?.getD p).closesBlank
      rw [Program.firstSection?_mapMark]
      cases q.firstSection? with
      | none => exact p.closesBlank_mapMark f
      | some first => exact first.closesBlank_mapMark f
    | none => exact p.closesBlank_mapMark f
  | none =>
    cases inverse with
    | some q => exact q.closesBlank_mapMark f
    | none => rfl

theorem Block.elseAlone_mapMark (f : ℓ → μ) (ignoreStandalone : Bool) (b : Block ℓ) :
    (b.mapMark f).elseAlone ignoreStandalone = b.elseAlone ignoreStandalone := by
  obtain ⟨expr, program, inverse, openStrip, inverseStrip, closeStrip, close, mark⟩ := b
  cases program with
  | none => rfl
  | some p =>
    cases inverse with
    | none => rfl
    | some q =>
      have hfirst : ((q.mapMark f).firstSection?.map Program.opensBlank).getD false =
          (q.firstSection?.map Program.opensBlank).getD false := by
        rw [Program.firstSection?_mapMark]
        cases q.firstSection? with
        | none => rfl
        | some first => exact first.opensBlank_mapMark f
      change (!ignoreStandalone && (p.mapMark f).closesBlank && _) = _
      rw [hfirst, Program.closesBlank_mapMark]
      rfl

theorem Block.tagCuts_mapMark (f : ℓ → μ) (ignoreStandalone : Bool) (link : Option Reach)
    (before after : Bool) (b : Block ℓ) :
    (b.mapMark f).tagCuts ignoreStandalone link before after =
      b.tagCuts ignoreStandalone link before after := by
  have hopens := b.opensBlank_mapMark f
  have hcloses := b.closesBlank_mapMark f
  have helse := b.elseAlone_mapMark f ignoreStandalone
  obtain ⟨expr, program, inverse, openStrip, inverseStrip, closeStrip, close, mark⟩ := b
  have hprogram := Program.isChained_mapMarkOpt f program
  have hinverse := Program.isChained_mapMarkOpt f inverse
  simp only [Block.tagCuts, hopens, hcloses, helse]
  simp only [Block.mapMark, hprogram, hinverse]

theorem Block.rowOver_mapMark (f : ℓ → μ) (ignoreStandalone : Bool) (link : Option Reach)
    (before after : Bool) (b : Block ℓ) (first second : Row) :
    (b.mapMark f).rowOver ignoreStandalone link before after first second =
      b.rowOver ignoreStandalone link before after first second := by
  have helse : (b.mapMark f).hasElse = b.hasElse := by
    obtain ⟨expr, program, inverse, openStrip, inverseStrip, closeStrip, close, mark⟩ := b
    cases program <;> cases inverse <;> rfl
  rw [Block.rowOver, Block.rowOver, Block.tagCuts_mapMark, helse]

/-! ## Rows -/

mutual

/-- What a tree is marked with does not show in its row. -/
theorem Program.row_mapMark (f : ℓ → μ) (ignoreStandalone root : Bool) (reach : Reach) :
    ∀ p : Program ℓ, (p.mapMark f).row ignoreStandalone root reach =
      p.row ignoreStandalone root reach
  | ⟨body, _, chained, _⟩ =>
    Statement.rows_mapMarks f ignoreStandalone root (if chained then some reach else none) body []
      []

theorem Statement.rows_mapMarks (f : ℓ → μ) (ignoreStandalone root : Bool) (link : Option Reach) :
    ∀ body before after : List (Statement ℓ),
      Statement.rows ignoreStandalone root link (before.map (Statement.mapMark f))
          (after.map (Statement.mapMark f)) (Statement.mapMarks f body) =
        Statement.rows ignoreStandalone root link before after body
  | [], _, _ => rfl
  | s :: rest, before, after => by
    have hrest := Statement.rows_mapMarks f ignoreStandalone root link rest (s :: before) after
    rw [List.map_cons] at hrest
    rw [Statement.mapMarks, Statement.rows, Statement.rows, hrest, mapMarks_eq_map,
      ← List.map_append, blankBefore_map, blankAfter_map, Statement.row_mapMark]

theorem Statement.row_mapMark (f : ℓ → μ) (ignoreStandalone : Bool) (link : Option Reach)
    (before after : Bool) :
    ∀ s : Statement ℓ, (s.mapMark f).row ignoreStandalone link before after =
      s.row ignoreStandalone link before after
  | .mustache _ | .partialCall _ | .comment _ | .content _ => rfl
  | .block b => Block.row_mapMark f ignoreStandalone link before after b
  | .partialBlock p => PartialBlock.row_mapMark f ignoreStandalone before after p

theorem Block.row_mapMark (f : ℓ → μ) (ignoreStandalone : Bool) (link : Option Reach)
    (before after : Bool) :
    ∀ b : Block ℓ, (b.mapMark f).row ignoreStandalone link before after =
      b.row ignoreStandalone link before after
  | ⟨expr, program, inverse, openStrip, inverseStrip, closeStrip, close, mark⟩ => by
    have hover := Block.rowOver_mapMark f ignoreStandalone link before after
      ⟨expr, program, inverse, openStrip, inverseStrip, closeStrip, close, mark⟩
    rw [Block.row, ← hover, ← Program.rowOpt_mapMarkOpt f ignoreStandalone _ program,
      ← Program.rowOpt_mapMarkOpt f ignoreStandalone _ inverse]
    rfl

theorem PartialBlock.row_mapMark (f : ℓ → μ) (ignoreStandalone before after : Bool) :
    ∀ p : PartialBlock ℓ, (p.mapMark f).row ignoreStandalone before after =
      p.row ignoreStandalone before after
  | ⟨_, _, _, program, _, _, _⟩ => by
    have hbody := Program.row_mapMark f ignoreStandalone false {} program
    rw [PartialBlock.mapMark, PartialBlock.row, hbody, PartialBlock.row, PartialBlock.rowOver,
      PartialBlock.rowOver, Program.opensBlank_mapMark, Program.closesBlank_mapMark]

theorem Program.rowOpt_mapMarkOpt (f : ℓ → μ) (ignoreStandalone : Bool) (reach : Reach) :
    ∀ p : Option (Program ℓ), Program.rowOpt ignoreStandalone reach (Program.mapMarkOpt f p) =
      Program.rowOpt ignoreStandalone reach p
  | none => rfl
  | some p => Program.row_mapMark f ignoreStandalone false reach p

end

end Stencil.Tree
