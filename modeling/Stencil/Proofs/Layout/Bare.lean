import Stencil.Proofs.Tree.Height
import Stencil.Tree.Layout

/-!
# What the layout leaves as it is

The layout cuts texts and indents partials. A tree without the texts that render and without
indentation (`Program.bare`) is therefore the same before and after it (`Program.bare_layout`): the
same statements in the same order, with the same nodes at every nesting. In particular programs are
nested as deeply as they were (`Program.height_layout`).
-/

set_option autoImplicit false

namespace Stencil.Tree

variable {ℓ : Type}

/-! ## Bare trees -/

/-- The content without the text that it renders as, and without what was noted of cuts. -/
def Content.bare (c : Content ℓ) : Content ℓ :=
  { c with value := "", leftStripped := false, rightStripped := false }

/-- The partial without its indentation. -/
def PartialCall.bare (p : PartialCall ℓ) : PartialCall ℓ := { p with indent := "" }

mutual

/-- The program without the texts that render and without indentation. -/
def Program.bare : Program ℓ → Program ℓ
  | ⟨body, blockParams, chained, mark⟩ => ⟨Statement.bares body, blockParams, chained, mark⟩

/-- The statements without the texts that render and without indentation. -/
def Statement.bares : List (Statement ℓ) → List (Statement ℓ)
  | [] => []
  | s :: rest => s.bare :: Statement.bares rest

/-- The statement without the texts that render and without indentation. -/
def Statement.bare : Statement ℓ → Statement ℓ
  | .block b => .block b.bare
  | .partialBlock p => .partialBlock p.bare
  | .partialCall p => .partialCall p.bare
  | .content c => .content c.bare
  | .mustache m => .mustache m
  | .comment c => .comment c

/-- The block without the texts that render and without indentation. -/
def Block.bare : Block ℓ → Block ℓ
  | ⟨expr, program, inverse, openStrip, inverseStrip, closeStrip, close, mark⟩ =>
    ⟨expr, Program.bareOpt program, Program.bareOpt inverse, openStrip, inverseStrip, closeStrip,
      close, mark⟩

/-- The partial with a body without the texts that render and without indentation. -/
def PartialBlock.bare : PartialBlock ℓ → PartialBlock ℓ
  | ⟨name, params, hash, program, openStrip, closeStrip, mark⟩ =>
    ⟨name, params, hash, program.bare, openStrip, closeStrip, mark⟩

/-- The section, if it is there, without the texts that render and without indentation. -/
def Program.bareOpt : Option (Program ℓ) → Option (Program ℓ)
  | none => none
  | some p => some p.bare

end

/-- What is bared of statements in a row is bared one by one, so the lemmas on lists apply. -/
theorem Statement.bares_eq_map (body : List (Statement ℓ)) :
    Statement.bares body = body.map Statement.bare := by
  induction body with
  | nil => rfl
  | cons s rest ih => rw [Statement.bares, List.map_cons, ih]

theorem Statement.bares_reverse (body : List (Statement ℓ)) :
    Statement.bares body.reverse = (Statement.bares body).reverse := by
  rw [Statement.bares_eq_map, Statement.bares_eq_map, List.map_reverse]

theorem Statement.bares_append (as bs : List (Statement ℓ)) :
    Statement.bares (as ++ bs) = Statement.bares as ++ Statement.bares bs := by
  simp only [Statement.bares_eq_map, List.map_append]

/-- What is applied under a condition keeps what it keeps where it is applied. -/
theorem applyIf_keeps {α β : Type} {g : α → β} {f : α → α} (hf : ∀ x, g (f x) = g x)
    (condition : Bool) (x : α) : g (applyIf condition f x) = g x := by
  cases condition with
  | false => rfl
  | true => exact hf x

/-! ## Bodies -/

/-- A cut at the start changes the text that renders and the note of the cut, and neither is left in
what is bare. -/
theorem Content.bare_cutStart (all : Bool) (c : Content ℓ) : (c.cutStart all).bare = c.bare := by
  unfold Content.cutStart
  split
  · rfl
  · rfl

theorem Content.bare_cutEnd (all : Bool) (c : Content ℓ) : (c.cutEnd all).bare = c.bare := by
  unfold Content.cutEnd
  split
  · rfl
  · rfl

/-- So it is after any number of cuts, taken one after the other from what the last one left. -/
theorem Content.bare_cutStarts (cuts : List Bool) (c : Content ℓ) :
    (c.cutStarts cuts).bare = c.bare := by
  unfold Content.cutStarts
  induction cuts generalizing c with
  | nil => rfl
  | cons all rest ih => rw [List.foldl_cons, ih, Content.bare_cutStart]

/-- The change of a body shows in nothing but texts and indentation. -/
def KeepsBare (f : List (Statement ℓ) → List (Statement ℓ)) : Prop :=
  ∀ body, Statement.bares (f body) = Statement.bares body

/-- The cut is made in the first statement or nowhere. -/
theorem keepsBare_cutFirst (all : Bool) : KeepsBare (@cutFirst ℓ all)
  | [] => rfl
  | .content c :: rest =>
    congrArg (fun c => Statement.content c :: Statement.bares rest) (c.bare_cutStart all)
  | .mustache _ :: _ | .block _ :: _ | .partialCall _ :: _ | .partialBlock _ :: _
  | .comment _ :: _ => rfl

/-- The nearest statement stands first where statements are held in reverse, so this case split is
that of `keepsBare_cutFirst`. -/
theorem keepsBare_cutNearest (all : Bool) : KeepsBare (@cutNearest ℓ all)
  | [] => rfl
  | .content c :: rest =>
    congrArg (fun c => Statement.content c :: Statement.bares rest) (c.bare_cutEnd all)
  | .mustache _ :: _ | .block _ :: _ | .partialCall _ :: _ | .partialBlock _ :: _
  | .comment _ :: _ => rfl

/-- At the other end the cut is made between two reversals, which baring passes. -/
theorem keepsBare_cutLast (all : Bool) : KeepsBare (@cutLast ℓ all) := by
  intro body
  rw [cutLast, Statement.bares_reverse, keepsBare_cutNearest, Statement.bares_reverse,
    List.reverse_reverse]

variable {f : List (Statement ℓ) → List (Statement ℓ)}

/-- What keeps a body keeps a program, since a program has nothing else that changes with it. -/
theorem KeepsBare.mapBody (hf : KeepsBare f) (p : Program ℓ) : (p.mapBody f).bare = p.bare := by
  obtain ⟨body, blockParams, chained, mark⟩ := p
  exact congrArg (fun body => (⟨body, blockParams, chained, mark⟩ : Program ℓ)) (hf body)

theorem KeepsBare.mapBodyOpt (hf : KeepsBare f) (p : Option (Program ℓ)) :
    Program.bareOpt (p.map (Program.mapBody f)) = Program.bareOpt p := by
  cases p with
  | none => rfl
  | some p => exact congrArg some (hf.mapBody p)

/-! ## Sections of a block -/

/-- The first section is the program itself or stands in the block that a chained program holds.
Either way it is changed in one place. -/
theorem KeepsBare.mapFirstSection (hf : KeepsBare f) (p : Program ℓ) :
    (p.mapFirstSection f).bare = p.bare := by
  obtain ⟨body, blockParams, chained, mark⟩ := p
  unfold Program.mapFirstSection
  split
  · split
    next b rest hbody =>
      obtain rfl : body = .block b :: rest := hbody
      obtain ⟨expr, program, inverse, openStrip, inverseStrip, closeStrip, close, mark'⟩ := b
      have hprogram := hf.mapBodyOpt program
      simp only [Program.bare, Statement.bares, Statement.bare, Block.bare] at hprogram ⊢
      rw [← hprogram]
      rfl
    next => rfl
  · exact hf.mapBody _

mutual

/-- The walk to the last section changes nothing on its way, and the body it ends in as `f` does. -/
theorem KeepsBare.mapLastSection (hf : KeepsBare f) :
    ∀ p : Program ℓ, (p.mapLastSection f).bare = p.bare
  | ⟨body, blockParams, chained, mark⟩ => by
    rw [Program.mapLastSection]
    split
    · rw [Program.bare, KeepsBare.mapLastStatement hf body, Program.bare]
    · rw [Program.bare, hf body, Program.bare]

/-- The walk goes on in the last statement, which is reached by passing the others. -/
theorem KeepsBare.mapLastStatement (hf : KeepsBare f) :
    ∀ body : List (Statement ℓ), Statement.bares (mapLastStatement f body) = Statement.bares body
  | [] => rfl
  | [s] => congrArg (fun s => [s]) (KeepsBare.mapLastSectionStatement hf s)
  | s :: t :: rest => congrArg (s.bare :: ·) (KeepsBare.mapLastStatement hf (t :: rest))

/-- Only a block leads further in. -/
theorem KeepsBare.mapLastSectionStatement (hf : KeepsBare f) :
    ∀ s : Statement ℓ, (Statement.mapLastSection f s).bare = s.bare
  | .block b => congrArg Statement.block (KeepsBare.mapLastSectionBlock hf b)
  | .mustache _ | .partialCall _ | .partialBlock _ | .content _ | .comment _ => rfl

/-- In a block the walk goes on in the main program, so the section after `else` stays as it is. -/
theorem KeepsBare.mapLastSectionBlock (hf : KeepsBare f) :
    ∀ b : Block ℓ, (Block.mapLastSection f b).bare = b.bare
  | ⟨_, program, _, _, _, _, _, _⟩ => by
    rw [Block.mapLastSection, Block.bare, KeepsBare.mapLastSectionOpt hf program, Block.bare]

theorem KeepsBare.mapLastSectionOpt (hf : KeepsBare f) :
    ∀ p : Option (Program ℓ), Program.bareOpt (Program.mapLastSectionOpt f p) = Program.bareOpt p
  | none => rfl
  | some p => congrArg some (KeepsBare.mapLastSection hf p)

end

/-- The markers of the opening and the closing tag cut at the two ends of the one body. -/
theorem Block.bare_stripOnly (b : Block ℓ) (p : Program ℓ) : (b.stripOnly p).bare = p.bare := by
  unfold Block.stripOnly
  rw [applyIf_keeps (keepsBare_cutLast true).mapBody,
    applyIf_keeps (keepsBare_cutFirst true).mapBody]

/-- With two sections, six cuts are made one after the other, each under its own condition, and none
of them shows. With one section the two outer markers are left. -/
theorem Block.bare_stripInside (ignoreStandalone : Bool) :
    ∀ b : Block ℓ, (b.stripInside ignoreStandalone).bare = b.bare
  | ⟨_, some program, some inverse, _, _, _, _, _⟩ => by
    simp only [Block.stripInside, Block.bare, Program.bareOpt]
    rw [applyIf_keeps (keepsBare_cutLast false).mapBody,
      applyIf_keeps (keepsBare_cutLast true).mapBody,
      applyIf_keeps (keepsBare_cutFirst true).mapBody,
      applyIf_keeps (keepsBare_cutFirst false).mapFirstSection,
      applyIf_keeps (keepsBare_cutLast true).mapLastSection,
      applyIf_keeps (keepsBare_cutFirst true).mapFirstSection]
  | ⟨_, some program, none, _, _, _, _, _⟩ => by
    simp only [Block.stripInside, Block.bare, Program.bareOpt, Block.bare_stripOnly]
  | ⟨_, none, some inverse, _, _, _, _, _⟩ => by
    simp only [Block.stripInside, Block.bare, Program.bareOpt, Block.bare_stripOnly]
  | ⟨_, none, none, _, _, _, _, _⟩ => rfl

/-- The body of a partial block is cut at its two ends. -/
theorem PartialBlock.bare_stripInside (p : PartialBlock ℓ) : p.stripInside.bare = p.bare := by
  obtain ⟨name, params, hash, program, openStrip, closeStrip, mark⟩ := p
  simp only [PartialBlock.stripInside, PartialBlock.bare]
  rw [applyIf_keeps (keepsBare_cutLast true).mapBody,
    applyIf_keeps (keepsBare_cutFirst true).mapBody]

/-! ## Statements in a row -/

/-- After an opening tag the cut is made in the first section that there is. -/
theorem Statement.bare_cutAfterOpening : ∀ s : Statement ℓ, s.cutAfterOpening.bare = s.bare
  | .block ⟨_, some program, _, _, _, _, _, _⟩ => by
    simp only [Statement.cutAfterOpening, Statement.bare, Block.bare, Program.bareOpt,
      (keepsBare_cutFirst false).mapBody]
  | .block ⟨_, none, inverse, _, _, _, _, _⟩ => by
    simp only [Statement.cutAfterOpening, Statement.bare, Block.bare,
      (keepsBare_cutFirst false).mapBodyOpt]
  | .partialBlock ⟨_, _, _, program, _, _, _⟩ => by
    simp only [Statement.cutAfterOpening, Statement.bare, PartialBlock.bare,
      (keepsBare_cutFirst false).mapBody]
  | .mustache _ | .partialCall _ | .content _ | .comment _ => rfl

/-- Before a closing tag the cut is made in the last section that there is. -/
theorem Statement.bare_cutBeforeClosing : ∀ s : Statement ℓ, s.cutBeforeClosing.bare = s.bare
  | .block ⟨_, _, some inverse, _, _, _, _, _⟩ => by
    simp only [Statement.cutBeforeClosing, Statement.bare, Block.bare, Program.bareOpt,
      (keepsBare_cutLast false).mapBody]
  | .block ⟨_, program, none, _, _, _, _, _⟩ => by
    simp only [Statement.cutBeforeClosing, Statement.bare, Block.bare,
      (keepsBare_cutLast false).mapBodyOpt]
  | .partialBlock ⟨_, _, _, program, _, _, _⟩ => by
    simp only [Statement.cutBeforeClosing, Statement.bare, PartialBlock.bare,
      (keepsBare_cutLast false).mapBody]
  | .mustache _ | .partialCall _ | .content _ | .comment _ => rfl

/-- Only a partial is indented, and its indentation is not left in what is bare. -/
theorem Statement.bare_indented (indent : String) :
    ∀ s : Statement ℓ, (s.indented indent).bare = s.bare
  | .partialCall _ | .mustache _ | .block _ | .partialBlock _ | .content _ | .comment _ => rfl

/-- Laying out statements from left to right shows in nothing but texts and indentation, of those
that are done and of those that follow. -/
theorem Statement.bares_settle (ignoreStandalone root : Bool) :
    ∀ (body done : List (Statement ℓ)) (cuts : List Bool),
      Statement.bares (settle ignoreStandalone root done cuts body) =
        Statement.bares (done.reverse ++ body)
  | [], done, _ => by rw [settle, List.append_nil]
  | s :: rest, done, cuts => by
    -- What is done stands in reverse, so this statement goes before it.
    have hdone : ∀ done' : List (Statement ℓ), Statement.bares done' = Statement.bares done →
        ∀ s' : Statement ℓ, s'.bare = s.bare →
          Statement.bares ((s' :: done').reverse ++ rest) =
            Statement.bares (done.reverse ++ s :: rest) := by
      intro done' hdone' s' hs'
      rw [Statement.bares_append, Statement.bares_reverse, Statement.bares, hdone', hs',
        Statement.bares_append, Statement.bares_reverse, Statement.bares, List.reverse_cons,
        List.append_assoc]
      rfl
    have hnearest : ∀ all, KeepsBare (@cutNearest ℓ all) := keepsBare_cutNearest
    unfold settle
    split
    · rw [Statement.bares_settle]
      refine hdone done rfl _ ?_
      split
      next c _ => exact congrArg Statement.content (c.bare_cutStarts cuts)
      next => rfl
    · rw [Statement.bares_settle]
      refine hdone _ ?_ _ ?_
      · rw [applyIf_keeps (hnearest false), applyIf_keeps (hnearest false),
          applyIf_keeps (hnearest true)]
      · rw [applyIf_keeps Statement.bare_cutBeforeClosing,
          applyIf_keeps Statement.bare_cutAfterOpening, applyIf_keeps (Statement.bare_indented _)]

/-! ## Trees -/

mutual

/-- The layout shows in nothing but texts and indentation. -/
theorem Program.bare_layout (ignoreStandalone root : Bool) :
    ∀ p : Program ℓ, (p.layout ignoreStandalone root).bare = p.bare
  | ⟨body, _, _, _⟩ => by
    rw [Program.layout, Program.bare, Statement.bares_settle, List.reverse_nil, List.nil_append,
      Statement.bares_layouts ignoreStandalone body, Program.bare]

/-- Statements are laid out inside before they are laid out in a row, one by one. -/
theorem Statement.bares_layouts (ignoreStandalone : Bool) :
    ∀ body : List (Statement ℓ),
      Statement.bares (Statement.layouts ignoreStandalone body) = Statement.bares body
  | [] => rfl
  | s :: rest =>
    congrArg₂ List.cons (Statement.bare_layout ignoreStandalone s)
      (Statement.bares_layouts ignoreStandalone rest)

theorem Statement.bare_layout (ignoreStandalone : Bool) :
    ∀ s : Statement ℓ, (s.layout ignoreStandalone).bare = s.bare
  | .block b => congrArg Statement.block (Block.bare_layout ignoreStandalone b)
  | .partialBlock p => congrArg Statement.partialBlock (PartialBlock.bare_layout ignoreStandalone p)
  | .mustache _ | .partialCall _ | .content _ | .comment _ => rfl

/-- The sections are laid out first, then the markers are applied to them. -/
theorem Block.bare_layout (ignoreStandalone : Bool) :
    ∀ b : Block ℓ, (b.layout ignoreStandalone).bare = b.bare
  | ⟨_, program, inverse, _, _, _, _, _⟩ => by
    rw [Block.layout, Block.bare_stripInside, Block.bare,
      Program.bareOpt_layoutOpt ignoreStandalone program,
      Program.bareOpt_layoutOpt ignoreStandalone inverse, Block.bare]

theorem PartialBlock.bare_layout (ignoreStandalone : Bool) :
    ∀ p : PartialBlock ℓ, (p.layout ignoreStandalone).bare = p.bare
  | ⟨_, _, _, program, _, _, _⟩ => by
    rw [PartialBlock.layout, PartialBlock.bare_stripInside, PartialBlock.bare,
      Program.bare_layout ignoreStandalone false program, PartialBlock.bare]

theorem Program.bareOpt_layoutOpt (ignoreStandalone : Bool) :
    ∀ p : Option (Program ℓ),
      Program.bareOpt (Program.layoutOpt ignoreStandalone p) = Program.bareOpt p
  | none => rfl
  | some p => congrArg some (Program.bare_layout ignoreStandalone false p)

end

/-! ## Height -/

mutual

/-- What is bared of a program has as many levels, since no statement is added or taken away. -/
theorem Program.height_bare : ∀ p : Program ℓ, p.bare.height = p.height
  | ⟨body, _, _, _⟩ => congrArg (· + 1) (Statement.heightAll_bares body)

theorem Statement.heightAll_bares :
    ∀ body : List (Statement ℓ), Statement.heightAll (Statement.bares body) =
      Statement.heightAll body
  | [] => rfl
  | s :: rest => congrArg₂ max (Statement.height_bare s) (Statement.heightAll_bares rest)

theorem Statement.height_bare : ∀ s : Statement ℓ, s.bare.height = s.height
  | .block b => Block.height_bare b
  | .partialBlock p => PartialBlock.height_bare p
  | .mustache _ | .partialCall _ | .content _ | .comment _ => rfl

theorem Block.height_bare : ∀ b : Block ℓ, b.bare.height = b.height
  | ⟨_, program, inverse, _, _, _, _, _⟩ =>
    congrArg₂ max (Program.heightOpt_bareOpt program) (Program.heightOpt_bareOpt inverse)

theorem PartialBlock.height_bare : ∀ p : PartialBlock ℓ, p.bare.height = p.height
  | ⟨_, _, _, program, _, _, _⟩ => Program.height_bare program

theorem Program.heightOpt_bareOpt :
    ∀ p : Option (Program ℓ), Program.heightOpt (Program.bareOpt p) = Program.heightOpt p
  | none => rfl
  | some p => Program.height_bare p

end

/-- Programs are nested as deeply after the layout as before. -/
theorem Program.height_layout (ignoreStandalone root : Bool) (p : Program ℓ) :
    (p.layout ignoreStandalone root).height = p.height := by
  rw [← Program.height_bare, Program.bare_layout, Program.height_bare]

end Stencil.Tree
