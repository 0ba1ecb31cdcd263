import Stencil.Proofs.Layout.Marks

/-!
# The layout and marks

The layout decides by what was written and by strip markers, never by what nodes are marked with. So
it comes to one and the same whether marks are mapped before the layout or after it
(`Program.layout_mapMark`). There is one lemma for each change that the layout makes.
-/

set_option autoImplicit false

namespace Stencil.Tree

open Stencil.Text

variable {ℓ μ : Type} (f : ℓ → μ)

/-- What is applied under a condition reads no marks if it reads none where it is applied. -/
theorem applyIf_map {α β : Type} {map : α → β} {g : α → α} {g' : β → β}
    (hg : ∀ x, g' (map x) = map (g x)) (condition : Bool) (x : α) :
    applyIf condition g' (map x) = map (applyIf condition g x) := by
  cases condition with
  | false => rfl
  | true => exact hg x

/-! ## Bodies -/

/-- A cut looks at the text and at the notes of cuts, so it is made whatever the marks are. -/
theorem Content.cutStart_mapMark (all : Bool) (c : Content ℓ) :
    (c.mapMark f).cutStart all = (c.cutStart all).mapMark f := by
  unfold Content.cutStart
  rw [apply_ite (Content.mapMark f)]
  rfl

theorem Content.cutEnd_mapMark (all : Bool) (c : Content ℓ) :
    (c.mapMark f).cutEnd all = (c.cutEnd all).mapMark f := by
  unfold Content.cutEnd
  rw [apply_ite (Content.mapMark f)]
  rfl

/-- So are cuts one after the other. -/
theorem Content.cutStarts_mapMark (cuts : List Bool) (c : Content ℓ) :
    (c.mapMark f).cutStarts cuts = (c.cutStarts cuts).mapMark f := by
  unfold Content.cutStarts
  induction cuts generalizing c with
  | nil => rfl
  | cons all rest ih => rw [List.foldl_cons, Content.cutStart_mapMark, ih, List.foldl_cons]

/-- The change of a body reads no marks: those of the body may be mapped before it or after it. -/
def ReadsNoMarks (g : List (Statement ℓ) → List (Statement ℓ))
    (g' : List (Statement μ) → List (Statement μ)) : Prop :=
  ∀ body, g' (Statement.mapMarks f body) = Statement.mapMarks f (g body)

/-- Which statement is cut is decided by its form. -/
theorem readsNoMarks_cutFirst (all : Bool) : ReadsNoMarks f (cutFirst all) (cutFirst all)
  | [] => rfl
  | .content c :: rest =>
    congrArg (fun c => Statement.content c :: Statement.mapMarks f rest) (c.cutStart_mapMark f all)
  | .mustache _ :: _ | .block _ :: _ | .partialCall _ :: _ | .partialBlock _ :: _
  | .comment _ :: _ => rfl

/-- The same for the statement that stands nearest. -/
theorem readsNoMarks_cutNearest (all : Bool) : ReadsNoMarks f (cutNearest all) (cutNearest all)
  | [] => rfl
  | .content c :: rest =>
    congrArg (fun c => Statement.content c :: Statement.mapMarks f rest) (c.cutEnd_mapMark f all)
  | .mustache _ :: _ | .block _ :: _ | .partialCall _ :: _ | .partialBlock _ :: _
  | .comment _ :: _ => rfl

theorem mapMarks_reverse (body : List (Statement ℓ)) :
    Statement.mapMarks f body.reverse = (Statement.mapMarks f body).reverse := by
  rw [mapMarks_eq_map, mapMarks_eq_map, List.map_reverse]

/-- Between two reversals it is the last one. -/
theorem readsNoMarks_cutLast (all : Bool) : ReadsNoMarks f (cutLast all) (cutLast all) := by
  intro body
  rw [cutLast, ← mapMarks_reverse, readsNoMarks_cutNearest, ← mapMarks_reverse, cutLast]

/-- Whether a cut takes something depends on the text that it is made in. -/
theorem cutsPadding_mapMarks : ∀ body : List (Statement ℓ),
    cutsPadding (Statement.mapMarks f body) = cutsPadding body
  | [] => rfl
  | .content c :: _ => by
    have hcut : ((c.mapMark f).cutEnd false).leftStripped = (c.cutEnd false).leftStripped := by
      rw [Content.cutEnd_mapMark]
      rfl
    show (!c.leftStripped && ((c.mapMark f).cutEnd false).leftStripped) = _
    rw [hcut]
    rfl
  | .mustache _ :: _ | .block _ :: _ | .partialCall _ :: _ | .partialBlock _ :: _
  | .comment _ :: _ => rfl

/-- Padding is read off what was written. -/
theorem paddingBefore_mapMarks : ∀ body : List (Statement ℓ),
    paddingBefore (Statement.mapMarks f body) = paddingBefore body
  | [] => rfl
  | .content _ :: _ | .mustache _ :: _ | .block _ :: _ | .partialCall _ :: _ | .partialBlock _ :: _
  | .comment _ :: _ => rfl

section Changes

variable {f} {g : List (Statement ℓ) → List (Statement ℓ)}
  {g' : List (Statement μ) → List (Statement μ)}

/-- A change of a body that reads no marks is one of the program. -/
theorem ReadsNoMarks.mapBody (hg : ReadsNoMarks f g g') (p : Program ℓ) :
    (p.mapMark f).mapBody g' = (p.mapBody g).mapMark f := by
  obtain ⟨body, blockParams, chained, mark⟩ := p
  exact congrArg (fun body => (⟨body, blockParams, chained, f mark⟩ : Program μ)) (hg body)

theorem ReadsNoMarks.mapBodyOpt (hg : ReadsNoMarks f g g') (p : Option (Program ℓ)) :
    (Program.mapMarkOpt f p).map (Program.mapBody g') =
      Program.mapMarkOpt f (p.map (Program.mapBody g)) := by
  cases p with
  | none => rfl
  | some p => exact congrArg some (hg.mapBody p)

/-! ## Sections of a block -/

/-- Which section is the first depends on whether the program is chained, which is not a matter of
marks. -/
theorem ReadsNoMarks.mapFirstSection (hg : ReadsNoMarks f g g') (p : Program ℓ) :
    (p.mapMark f).mapFirstSection g' = (p.mapFirstSection g).mapMark f := by
  obtain ⟨body, blockParams, chained, mark⟩ := p
  cases chained with
  | false => exact hg.mapBody _
  | true =>
    rcases body with _ | ⟨s, rest⟩
    · rfl
    · cases s with
      | block b =>
        obtain ⟨expr, program, inverse, openStrip, inverseStrip, closeStrip, close, mark'⟩ := b
        have hprogram := hg.mapBodyOpt program
        simp only [Program.mapFirstSection, Program.mapMark, Statement.mapMarks, Statement.mapMark,
          Block.mapMark, if_true]
        exact congrArg (fun program =>
          (⟨.block ⟨_, program, _, _, _, _, _, _⟩ :: _, _, _, _⟩ : Program μ))
          hprogram
      | _ => rfl

mutual

/-- By recursion along the walk to the last section. -/
theorem ReadsNoMarks.mapLastSection (hg : ReadsNoMarks f g g') :
    ∀ p : Program ℓ, (p.mapMark f).mapLastSection g' = (p.mapLastSection g).mapMark f
  | ⟨body, blockParams, chained, mark⟩ => by
    rw [Program.mapMark, Program.mapLastSection, Program.mapLastSection]
    cases chained with
    | true =>
      rw [if_pos rfl, if_pos rfl, ReadsNoMarks.mapLastStatement hg body, Program.mapMark]
    | false =>
      rw [if_neg Bool.false_ne_true, if_neg Bool.false_ne_true, hg body, Program.mapMark]

theorem ReadsNoMarks.mapLastStatement (hg : ReadsNoMarks f g g') :
    ∀ body : List (Statement ℓ),
      Tree.mapLastStatement g' (Statement.mapMarks f body) =
        Statement.mapMarks f (Tree.mapLastStatement g body)
  | [] => rfl
  | [s] => congrArg (fun s => [s]) (ReadsNoMarks.mapLastSectionStatement hg s)
  | s :: t :: rest => congrArg (s.mapMark f :: ·) (ReadsNoMarks.mapLastStatement hg (t :: rest))

theorem ReadsNoMarks.mapLastSectionStatement (hg : ReadsNoMarks f g g') :
    ∀ s : Statement ℓ,
      Statement.mapLastSection g' (s.mapMark f) = (Statement.mapLastSection g s).mapMark f
  | .block b => congrArg Statement.block (ReadsNoMarks.mapLastSectionBlock hg b)
  | .mustache _ | .partialCall _ | .partialBlock _ | .content _ | .comment _ => rfl

/-- The walk goes on in the main program of a block, whatever its marks. -/
theorem ReadsNoMarks.mapLastSectionBlock (hg : ReadsNoMarks f g g') :
    ∀ b : Block ℓ, Block.mapLastSection g' (b.mapMark f) = (Block.mapLastSection g b).mapMark f
  | ⟨_, program, _, _, _, _, _, _⟩ => by
    rw [Block.mapMark, Block.mapLastSection, ReadsNoMarks.mapLastSectionOpt hg program,
      Block.mapLastSection, Block.mapMark]

theorem ReadsNoMarks.mapLastSectionOpt (hg : ReadsNoMarks f g g') :
    ∀ p : Option (Program ℓ), Program.mapLastSectionOpt g' (Program.mapMarkOpt f p) =
      Program.mapMarkOpt f (Program.mapLastSectionOpt g p)
  | none => rfl
  | some p => congrArg some (ReadsNoMarks.mapLastSection hg p)

end

end Changes

/-- The markers of a block are no marks, so the same cuts are made. -/
theorem Block.stripOnly_mapMark (b : Block ℓ) (p : Program ℓ) :
    (b.mapMark f).stripOnly (p.mapMark f) = (b.stripOnly p).mapMark f := by
  obtain ⟨expr, program, inverse, openStrip, inverseStrip, closeStrip, close, mark⟩ := b
  simp only [Block.stripOnly, Block.mapMark]
  rw [applyIf_map (readsNoMarks_cutFirst f true).mapBody,
    applyIf_map (readsNoMarks_cutLast f true).mapBody]

/-- Whether an `else` stands alone is seen from the texts around it, so both sides cut under the
same conditions. -/
theorem Block.stripInside_mapMark (ignoreStandalone : Bool) :
    ∀ b : Block ℓ,
      (b.mapMark f).stripInside ignoreStandalone = (b.stripInside ignoreStandalone).mapMark f
  | ⟨_, some program, some inverse, _, _, _, _, _⟩ => by
    have hfirst : ((inverse.mapMark f).firstSection?.map Program.opensBlank).getD false =
        (inverse.firstSection?.map Program.opensBlank).getD false := by
      rw [Program.firstSection?_mapMark]
      cases inverse.firstSection? with
      | none => rfl
      | some first => exact first.opensBlank_mapMark f
    simp only [Block.mapMark, Program.mapMarkOpt, Block.stripInside,
      Program.closesBlank_mapMark, hfirst]
    rw [applyIf_map (readsNoMarks_cutFirst f true).mapBody,
      applyIf_map (readsNoMarks_cutLast f true).mapBody,
      applyIf_map (readsNoMarks_cutLast f false).mapBody,
      applyIf_map (readsNoMarks_cutFirst f true).mapFirstSection,
      applyIf_map (readsNoMarks_cutLast f true).mapLastSection,
      applyIf_map (readsNoMarks_cutFirst f false).mapFirstSection]
  | ⟨expr, some program, none, openStrip, inverseStrip, closeStrip, close, mark⟩ => by
    have hstrip := Block.stripOnly_mapMark f
      ⟨expr, some program, none, openStrip, inverseStrip, closeStrip, close, mark⟩ program
    simp only [Block.mapMark, Program.mapMarkOpt, Block.stripInside] at hstrip ⊢
    rw [hstrip]
  | ⟨expr, none, some inverse, openStrip, inverseStrip, closeStrip, close, mark⟩ => by
    have hstrip := Block.stripOnly_mapMark f
      ⟨expr, none, some inverse, openStrip, inverseStrip, closeStrip, close, mark⟩ inverse
    simp only [Block.mapMark, Program.mapMarkOpt, Block.stripInside] at hstrip ⊢
    rw [hstrip]
  | ⟨_, none, none, _, _, _, _, _⟩ => rfl

/-- A partial block has two conditions of this kind. -/
theorem PartialBlock.stripInside_mapMark (p : PartialBlock ℓ) :
    (p.mapMark f).stripInside = p.stripInside.mapMark f := by
  obtain ⟨name, params, hash, program, openStrip, closeStrip, mark⟩ := p
  simp only [PartialBlock.stripInside, PartialBlock.mapMark]
  rw [applyIf_map (readsNoMarks_cutFirst f true).mapBody,
    applyIf_map (readsNoMarks_cutLast f true).mapBody]

/-! ## Statements in a row -/

/-- What a statement asks of its neighbours does not depend on marks. -/
theorem Statement.demand?_mapMark : ∀ s : Statement ℓ, (s.mapMark f).demand? = s.demand?
  | .block ⟨_, some program, some inverse, _, _, _, _, _⟩ => by
    have hfirst : ((inverse.mapMark f).firstSection?.getD (program.mapMark f)).closesBlank =
        (inverse.firstSection?.getD program).closesBlank := by
      rw [Program.firstSection?_mapMark]
      cases inverse.firstSection? with
      | none => exact program.closesBlank_mapMark f
      | some first => exact first.closesBlank_mapMark f
    simp only [Statement.mapMark, Block.mapMark, Program.mapMarkOpt, Statement.demand?, hfirst,
      Program.opensBlank_mapMark]
  | .block ⟨_, some program, none, _, _, _, _, _⟩ => by
    simp only [Statement.mapMark, Block.mapMark, Program.mapMarkOpt, Statement.demand?,
      Program.opensBlank_mapMark, Program.closesBlank_mapMark]
  | .block ⟨_, none, some inverse, _, _, _, _, _⟩ => by
    simp only [Statement.mapMark, Block.mapMark, Program.mapMarkOpt, Statement.demand?,
      Program.opensBlank_mapMark, Program.closesBlank_mapMark]
  | .partialBlock ⟨_, _, _, program, _, _, _⟩ => by
    simp only [Statement.mapMark, PartialBlock.mapMark, Statement.demand?,
      Program.opensBlank_mapMark, Program.closesBlank_mapMark]
  | .block ⟨_, none, none, _, _, _, _, _⟩ | .mustache _ | .partialCall _ | .content _
    | .comment _ => rfl

/-- In which section the cut is made depends on which there are. -/
theorem Statement.cutAfterOpening_mapMark :
    ∀ s : Statement ℓ, (s.mapMark f).cutAfterOpening = s.cutAfterOpening.mapMark f
  | .block ⟨_, some program, _, _, _, _, _, _⟩ => by
    simp only [Statement.mapMark, Block.mapMark, Program.mapMarkOpt, Statement.cutAfterOpening,
      (readsNoMarks_cutFirst f false).mapBody]
  | .block ⟨_, none, inverse, _, _, _, _, _⟩ => by
    simp only [Statement.mapMark, Block.mapMark, Program.mapMarkOpt, Statement.cutAfterOpening,
      (readsNoMarks_cutFirst f false).mapBodyOpt]
  | .partialBlock ⟨_, _, _, program, _, _, _⟩ => by
    simp only [Statement.mapMark, PartialBlock.mapMark, Statement.cutAfterOpening,
      (readsNoMarks_cutFirst f false).mapBody]
  | .mustache _ | .partialCall _ | .content _ | .comment _ => rfl

/-- The same at the other end. -/
theorem Statement.cutBeforeClosing_mapMark :
    ∀ s : Statement ℓ, (s.mapMark f).cutBeforeClosing = s.cutBeforeClosing.mapMark f
  | .block ⟨_, _, some inverse, _, _, _, _, _⟩ => by
    simp only [Statement.mapMark, Block.mapMark, Program.mapMarkOpt, Statement.cutBeforeClosing,
      (readsNoMarks_cutLast f false).mapBody]
  | .block ⟨_, program, none, _, _, _, _, _⟩ => by
    simp only [Statement.mapMark, Block.mapMark, Program.mapMarkOpt, Statement.cutBeforeClosing,
      (readsNoMarks_cutLast f false).mapBodyOpt]
  | .partialBlock ⟨_, _, _, program, _, _, _⟩ => by
    simp only [Statement.mapMark, PartialBlock.mapMark, Statement.cutBeforeClosing,
      (readsNoMarks_cutLast f false).mapBody]
  | .mustache _ | .partialCall _ | .content _ | .comment _ => rfl

theorem Statement.indented_mapMark (indent : String) :
    ∀ s : Statement ℓ, (s.mapMark f).indented indent = (s.indented indent).mapMark f
  | .partialCall _ | .mustache _ | .block _ | .partialBlock _ | .content _ | .comment _ => rfl

/-- Laying out statements from left to right reads no marks, neither of those that are done nor of
those that follow. -/
theorem settle_mapMarks (ignoreStandalone root : Bool) :
    ∀ (body done : List (Statement ℓ)) (cuts : List Bool),
      settle ignoreStandalone root (Statement.mapMarks f done) cuts (Statement.mapMarks f body) =
        Statement.mapMarks f (settle ignoreStandalone root done cuts body)
  | [], done, _ => (mapMarks_reverse f done).symm
  | s :: rest, done, cuts => by
    have hbefore : blankBefore root (Statement.mapMarks f done) = blankBefore root done := by
      rw [mapMarks_eq_map, blankBefore_map]
    have hafter : blankAfter root (Statement.mapMarks f rest) = blankAfter root rest := by
      rw [mapMarks_eq_map, blankAfter_map]
    -- By recursion on what follows; what is done goes along, in reverse.
    have hstep := fun s done => settle_mapMarks ignoreStandalone root rest (s :: done)
    have hnearest := fun all => applyIf_map (readsNoMarks_cutNearest f all)
    rw [Statement.mapMarks]
    unfold settle
    rw [Statement.demand?_mapMark]
    cases s.demand? with
    | none =>
      dsimp only
      rw [← hstep]
      cases s with
      | content c =>
        have hcuts := c.cutStarts_mapMark f cuts
        exact congrArg (fun c => settle _ _ (Statement.content c :: _) _ _) hcuts
      | _ => rfl
    | some d =>
      dsimp only
      rw [← hstep, Statement.mapMarks, hbefore, hafter, hnearest true, cutsPadding_mapMarks,
        paddingBefore_mapMarks, applyIf_map (Statement.indented_mapMark f _), hnearest false,
        hnearest false, applyIf_map (Statement.cutAfterOpening_mapMark f),
        applyIf_map (Statement.cutBeforeClosing_mapMark f)]

/-! ## Trees -/

mutual

/-- The layout reads no marks: those of a tree may be mapped before it or after it. -/
theorem Program.layout_mapMark (ignoreStandalone root : Bool) :
    ∀ p : Program ℓ,
      (p.mapMark f).layout ignoreStandalone root = (p.layout ignoreStandalone root).mapMark f
  | ⟨body, _, _, _⟩ => by
    have hsettle :=
      settle_mapMarks f ignoreStandalone root (Statement.layouts ignoreStandalone body) [] []
    rw [Program.mapMark, Program.layout, Statement.layouts_mapMarks ignoreStandalone body,
      Program.layout, Program.mapMark, ← hsettle, Statement.mapMarks]

/-- Inside, statements are laid out one by one. -/
theorem Statement.layouts_mapMarks (ignoreStandalone : Bool) :
    ∀ body : List (Statement ℓ), Statement.layouts ignoreStandalone (Statement.mapMarks f body) =
      Statement.mapMarks f (Statement.layouts ignoreStandalone body)
  | [] => rfl
  | s :: rest =>
    congrArg₂ List.cons (Statement.layout_mapMark ignoreStandalone s)
      (Statement.layouts_mapMarks ignoreStandalone rest)

theorem Statement.layout_mapMark (ignoreStandalone : Bool) :
    ∀ s : Statement ℓ, (s.mapMark f).layout ignoreStandalone = (s.layout ignoreStandalone).mapMark f
  | .block b => congrArg Statement.block (Block.layout_mapMark ignoreStandalone b)
  | .partialBlock p =>
    congrArg Statement.partialBlock (PartialBlock.layout_mapMark ignoreStandalone p)
  | .mustache _ | .partialCall _ | .content _ | .comment _ => rfl

/-- The sections are laid out under the new marks, then the markers are applied. -/
theorem Block.layout_mapMark (ignoreStandalone : Bool) :
    ∀ b : Block ℓ, (b.mapMark f).layout ignoreStandalone = (b.layout ignoreStandalone).mapMark f
  | ⟨_, program, inverse, _, _, _, _, _⟩ => by
    rw [Block.layout, ← Block.stripInside_mapMark, Block.mapMark, Block.layout, Block.mapMark,
      Program.layoutOpt_mapMarkOpt ignoreStandalone program,
      Program.layoutOpt_mapMarkOpt ignoreStandalone inverse]

theorem PartialBlock.layout_mapMark (ignoreStandalone : Bool) :
    ∀ p : PartialBlock ℓ, (p.mapMark f).layout ignoreStandalone =
      (p.layout ignoreStandalone).mapMark f
  | ⟨_, _, _, program, _, _, _⟩ => by
    rw [PartialBlock.layout, ← PartialBlock.stripInside_mapMark, PartialBlock.mapMark,
      PartialBlock.layout, PartialBlock.mapMark,
      Program.layout_mapMark ignoreStandalone false program]

theorem Program.layoutOpt_mapMarkOpt (ignoreStandalone : Bool) :
    ∀ p : Option (Program ℓ), Program.layoutOpt ignoreStandalone (Program.mapMarkOpt f p) =
      Program.mapMarkOpt f (Program.layoutOpt ignoreStandalone p)
  | none => rfl
  | some p => congrArg some (Program.layout_mapMark ignoreStandalone false p)

end

end Stencil.Tree
