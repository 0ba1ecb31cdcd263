import Stencil.Proofs.Layout.Settling
import Stencil.Proofs.Tree.Contents

/-!
# Trees laid out

Every content of a laid tree has undergone the cuts of the tags next to it in the row of the tree as
it was written, and no other (`Program.isLaid_layout`, `Program.texts_layout`). The proof is by
induction on the tree, with one statement for each kind of node; what a parent cuts off the ends of
a section joins what the section has cut itself.
-/

set_option autoImplicit false

namespace Stencil.Tree

variable {ℓ : Type}

/-! ## Statements without bodies -/

section Tags

variable {ignoreStandalone : Bool}

/-- A tag without a body stands alone as a whole or not at all. -/
theorem Statement.isLaid_of_bare {s : Statement ℓ} (strip : Strip) {inline : Bool}
    (hdemand : s.demand? = some { before := strip.before, after := strip.after, inline })
    (hrow : ∀ before after, s.row ignoreStandalone none before after =
      tagRow strip (!ignoreStandalone && inline && before && after))
    (hbare : ∀ (a : Alone) (shifted : Bool) (indent : String),
      (a.cutBodies (applyIf shifted (Statement.indented indent) s)).look = none ∧
        (a.cutBodies (applyIf shifted (Statement.indented indent) s)).slots false = [none]) :
    s.IsLaid ignoreStandalone s := by
  refine .tag (hbare ⟨false, false, false⟩ false "").1 (hbare ⟨false, false, false⟩ false "").1
    hdemand ?_
  intro before after shifted indent lead trail
  simp only [hrow, tagRow]
  refine ⟨(hbare _ shifted indent).1, ?_, ?_, ?_⟩
  · rw [(hbare _ shifted indent).2]
    exact .tag (.nil _ _)
  · simp [Row.firstCut, Demand.alone]
  · simp [Row.lastCut, Demand.alone]

/-- A tag without a body stays as it is. -/
theorem Statement.isLaid_mustache (m : Mustache ℓ) :
    (Statement.mustache m).IsLaid ignoreStandalone (.mustache m) := by
  refine Statement.isLaid_of_bare m.strip rfl (fun before after => ?_) ?_
  · rw [Statement.row, Bool.and_false, Bool.false_and, Bool.false_and]
  · rintro ⟨inline, opens, closes⟩ shifted indent
    cases shifted <;> cases opens <;> cases closes <;> exact ⟨rfl, rfl⟩

/-- A partial does too until its row is laid out. -/
theorem Statement.isLaid_partialCall (p : PartialCall ℓ) :
    (Statement.partialCall p).IsLaid ignoreStandalone (.partialCall p) := by
  refine Statement.isLaid_of_bare p.strip rfl (fun before after => ?_) ?_
  · rw [Statement.row, Bool.and_true]
  · rintro ⟨inline, opens, closes⟩ shifted indent
    cases shifted <;> cases opens <;> cases closes <;> exact ⟨rfl, rfl⟩

theorem Statement.isLaid_comment (c : Comment ℓ) :
    (Statement.comment c).IsLaid ignoreStandalone (.comment c) := by
  refine Statement.isLaid_of_bare c.strip rfl (fun before after => ?_) ?_
  · rw [Statement.row, Bool.and_true]
  · rintro ⟨inline, opens, closes⟩ shifted indent
    cases shifted <;> cases opens <;> cases closes <;> exact ⟨rfl, rfl⟩

/-! ## Statements with bodies -/

theorem applyIf_indented_block (shifted : Bool) (indent : String) (b : Block ℓ) :
    applyIf shifted (Statement.indented indent) (.block b) = .block b := by
  cases shifted <;> rfl

theorem applyIf_indented_partialBlock (shifted : Bool) (indent : String) (p : PartialBlock ℓ) :
    applyIf shifted (Statement.indented indent) (.partialBlock p) = .partialBlock p := by
  cases shifted <;> rfl

/-- The two ends of a block are settled one after the other. -/
theorem Block.IsLaid.statement {b b' : Block ℓ}
    (h : b.IsLaid ignoreStandalone none false false b') :
    (Statement.block b).IsLaid ignoreStandalone (.block b') := by
  have hdemand := Statement.demand?_block b'
  rw [h.openStrip, h.closeStrip, h.opensBlank_eq, h.closesBlank_eq] at hdemand
  refine .tag rfl rfl hdemand ?_
  intro before after shifted indent lead trail
  -- the loop settles the opening tag first, and the closing tag of what that leaves
  obtain ⟨c, hopened, hc⟩ := h.cutAfterOpening before
  obtain ⟨d, hclosed, hd⟩ := hopened.cutBeforeClosing after
  have hsettled : (Demand.alone ignoreStandalone before after
      { before := b.openStrip.before, after := b.closeStrip.after
        opensAlone := b.opensBlank, closesAlone := b.closesBlank }).cutBodies
        (applyIf shifted (Statement.indented indent) (.block b')) = .block d := by
    rw [applyIf_indented_block, ← hd, ← hc]
    rfl
  simp only [hsettled]
  refine ⟨rfl, hclosed.fits lead trail, ?_, ?_⟩
  · rw [Statement.row, Block.row_eq]
    simp [Block.rowOver, TagCuts.row, Block.tagCuts, Row.firstCut, Demand.alone]
  · rw [Statement.row, Block.row_eq]
    simp [Block.rowOver, TagCuts.row, Block.tagCuts, Row.lastCut, Row.lastCut_append, Demand.alone]

/-- The two cuts of a partial block are made in its one body. -/
theorem cutBodies_partialBlock (a : Alone) (p : PartialBlock ℓ) :
    a.cutBodies (.partialBlock p) =
      .partialBlock { p with
        program := applyIf a.closes (Program.mapBody (cutLast false))
          (applyIf a.opens (Program.mapBody (cutFirst false)) p.program) } := by
  obtain ⟨inline, opens, closes⟩ := a
  cases p
  cases opens <;> cases closes <;> rfl

/-- The body of a partial block is cut by its two tags only. -/
theorem PartialBlock.isLaid_statement {p p' : PartialBlock ℓ}
    (hopen : p'.openStrip = p.openStrip) (hclose : p'.closeStrip = p.closeStrip)
    (h : p.program.IsLaid ignoreStandalone false (Cut.of p.openStrip.after false)
      (Cut.of p.closeStrip.before false) p'.program) :
    (Statement.partialBlock p).IsLaid ignoreStandalone (.partialBlock p') := by
  have hdemand : (Statement.partialBlock p').demand? =
      some { before := p.openStrip.before, after := p.closeStrip.after
             opensAlone := p.program.opensBlank, closesAlone := p.program.closesBlank } := by
    rw [Statement.demand?, hopen, hclose, h.opensBlank_eq, h.closesBlank_eq]
  refine .tag rfl rfl hdemand ?_
  intro before after shifted indent lead trail
  have hcut := (h.cutFirst (!ignoreStandalone && p.program.opensBlank && before) false).cutLast
    (!ignoreStandalone && p.program.closesBlank && after) false
  rw [Cut.of_join_when, Cut.of_join_when] at hcut
  simp only [applyIf_indented_partialBlock, cutBodies_partialBlock]
  refine ⟨rfl, ?_, ?_, ?_⟩
  · rw [Statement.row, PartialBlock.row_eq, Statement.slots, PartialBlock.slots_eq]
    simp only [PartialBlock.rowOver, tagRow, List.cons_append]
    exact .tag (hcut.fits.append_tag (.nil _ _))
  · rw [Statement.row, PartialBlock.row_eq]
    simp [PartialBlock.rowOver, tagRow, Row.firstCut, Demand.alone]
  · rw [Statement.row, PartialBlock.row_eq]
    simp [PartialBlock.rowOver, tagRow, Row.lastCut, Row.lastCut_append, Demand.alone]

end Tags

/-! ## Trees -/

/-- The block of a link, laid out, makes a laid link. -/
theorem Block.IsLaid.isLaidLink {ignoreStandalone : Bool} {b b' : Block ℓ} {p : Program ℓ}
    (h : b.IsLaid ignoreStandalone (some ⟨.nothing, Cut.of b.closeStrip.before false⟩) false false
      b')
    (hp : b.program = some p) (hchained : p.chained = false) (names : List String) (mark : ℓ) :
    Program.IsLaidLink ignoreStandalone (Cut.of b.openStrip.after false)
      ⟨.nothing, Cut.of b.closeStrip.before false⟩ (Cut.of b.closeStrip.before false)
      ⟨[.block b], names, true, mark⟩ ⟨[.block b'], names, true, mark⟩ := by
  have hplain : Program.isChained (some p) = false := hchained
  obtain ⟨p', hp', hsection⟩ := exists_of_rel_some (hp ▸ h.program)
  have hlaid := hsection.resolve_right fun hlink => by
    cases hlink <;> exact Bool.noConfusion hchained
  cases hq : b.inverse with
  | none =>
    refine .last hp hq hp' (eq_none_of_rel_none (hq ▸ h.inverse)) ?_
    simpa [Block.tagCuts, hp, hq, hplain] using hlaid
  | some q =>
    obtain ⟨q', hq', hsection'⟩ := exists_of_rel_some (hq ▸ h.inverse)
    refine .next hp hq hp' hq' ?_ ?_
    · simpa [Block.tagCuts, hp, hq, hplain] using hlaid
    · simpa [Block.tagCuts, hp, hq, hplain, Block.reach] using hsection'.fits

/-- The layout of a block lays out its sections and then strips them. -/
theorem Block.layout_eq (ignoreStandalone : Bool) (b : Block ℓ) :
    b.layout ignoreStandalone =
      Block.stripInside ignoreStandalone
        { b with
          program := Program.layoutOpt ignoreStandalone b.program
          inverse := Program.layoutOpt ignoreStandalone b.inverse } := by
  cases b
  rfl

/-- The block of a link has no statements around it, and is not cut once more. -/
theorem settle_link (ignoreStandalone : Bool) (b : Block ℓ) :
    settle ignoreStandalone false [] [] [.block b] = [.block b] := by
  simp [settle, Statement.demand?_block, blankBefore, blankAfter, applyIf, cutNearest]

mutual

/-- By recursion over the tree: what is laid out inside is laid out in its row. -/
theorem Program.isLaid_layout (ignoreStandalone root : Bool) :
    ∀ p : Program ℓ, p.WellFormed →
      p.IsLaid ignoreStandalone root .nothing .nothing (p.layout ignoreStandalone root)
  | ⟨body, names, chained, mark⟩, h => by
    obtain ⟨hchained, hbody⟩ := h
    have hlaid := Statement.areLaid_layouts ignoreStandalone body hbody
    subst hchained
    have hstart : Row.Fits .nothing [] .nothing
        (Statement.slotsOf false ([] : List (Statement ℓ)).reverse) := .nil _ _
    obtain ⟨hlooks, hfits⟩ := @settle_fits _ _ root _ _ hlaid [] [] [] [] rfl hstart rfl
    exact ⟨rfl, rfl, hlooks, hfits⟩

/-- A chained program holds one block, which is laid out between the tags around the chain. -/
theorem Program.isLaidLink_layout (ignoreStandalone : Bool) (opening closing : Strip) :
    ∀ p : Program ℓ, p.IsLink opening closing →
      p.IsLaidLink ignoreStandalone (Cut.of opening.after false)
        ⟨.nothing, Cut.of closing.before false⟩ (Cut.of closing.before false)
        (p.layout ignoreStandalone false)
  | ⟨body, names, chained, mark⟩, h => by
    obtain ⟨hchained, hbody⟩ := h
    obtain ⟨b, rfl, hlaid⟩ := Statement.areLink_layouts ignoreStandalone opening closing body hbody
    subst hchained
    have hbody : Program.layout ignoreStandalone false ⟨[.block b], names, true, mark⟩ =
        ⟨[.block (b.layout ignoreStandalone)], names, true, mark⟩ :=
      congrArg (fun body => (⟨body, names, true, mark⟩ : Program ℓ)) (settle_link _ _)
    rw [hbody]
    exact hlaid names mark

/-- Statements are laid out inside one by one. -/
theorem Statement.areLaid_layouts (ignoreStandalone : Bool) :
    ∀ body : List (Statement ℓ), Statement.AllWellFormed body →
      List.Forall₂ (Statement.IsLaid ignoreStandalone) body
        (Statement.layouts ignoreStandalone body)
  | [], _ => .nil
  | s :: rest, h =>
    .cons (Statement.isLaid_layout ignoreStandalone s h.1)
      (Statement.areLaid_layouts ignoreStandalone rest h.2)

/-- The one statement of a chained program is a block, and stays one. -/
theorem Statement.areLink_layouts (ignoreStandalone : Bool) (opening closing : Strip) :
    ∀ body : List (Statement ℓ), Statement.AreLink opening closing body →
      ∃ b : Block ℓ, body = [.block b] ∧ ∀ names mark,
        Program.IsLaidLink ignoreStandalone (Cut.of opening.after false)
          ⟨.nothing, Cut.of closing.before false⟩ (Cut.of closing.before false)
          ⟨[.block b], names, true, mark⟩
          ⟨[.block (b.layout ignoreStandalone)], names, true, mark⟩
  | [], h => h.elim
  | s :: rest, h => by
    obtain ⟨rfl, hs⟩ := h
    obtain ⟨b, rfl, hb⟩ := Statement.isLink_layout ignoreStandalone opening closing s hs
    exact ⟨b, rfl, hb⟩

theorem Statement.isLaid_layout (ignoreStandalone : Bool) :
    ∀ s : Statement ℓ, s.WellFormed → s.IsLaid ignoreStandalone (s.layout ignoreStandalone)
  | .mustache m, _ => Statement.isLaid_mustache m
  | .partialCall p, _ => Statement.isLaid_partialCall p
  | .comment c, _ => Statement.isLaid_comment c
  | .content c, h => .content h
  | .block b, h => by
    have hwithin := Block.isLaidWithin_layout ignoreStandalone b h
    rw [Statement.layout, Block.layout_eq]
    exact (hwithin.stripInside (Or.inl rfl)).statement
  | .partialBlock p, h => by
    obtain ⟨hopen, hclose, hlaid⟩ := PartialBlock.isLaid_layout ignoreStandalone p h
    exact PartialBlock.isLaid_statement hopen hclose hlaid

theorem Statement.isLink_layout (ignoreStandalone : Bool) (opening closing : Strip) :
    ∀ s : Statement ℓ, s.IsLink opening closing →
      ∃ b : Block ℓ, s = .block b ∧ ∀ names mark,
        Program.IsLaidLink ignoreStandalone (Cut.of opening.after false)
          ⟨.nothing, Cut.of closing.before false⟩ (Cut.of closing.before false)
          ⟨[.block b], names, true, mark⟩
          ⟨[.block (b.layout ignoreStandalone)], names, true, mark⟩
  | .block b, h => ⟨b, rfl, Block.isLaidLink_layout ignoreStandalone opening closing b h⟩
  | .mustache _, h | .partialCall _, h | .comment _, h | .content _, h
  | .partialBlock _, h => h.elim

/-- Both sections are laid out. A chained one is laid out as a link. -/
theorem Block.isLaidWithin_layout (ignoreStandalone : Bool) :
    ∀ b : Block ℓ, b.WellFormed →
      b.IsLaidWithin ignoreStandalone (Program.layoutOpt ignoreStandalone b.program)
        (Program.layoutOpt ignoreStandalone b.inverse)
  | ⟨expr, program, inverse, openStrip, inverseStrip, closeStrip, close, mark⟩, h => by
    rcases h with ⟨hp, hq⟩ | ⟨hsome, hp, hq⟩ | ⟨hp, hsome, hq⟩
    · -- no section is chained
      have hprogram := Program.isLaid_layoutOpt ignoreStandalone program hp
      have hinverse := Program.isLaid_layoutOpt ignoreStandalone inverse hq
      cases program with
      | none =>
        cases inverse with
        | none => exact .empty rfl rfl
        | some q => exact .inverse rfl rfl (hinverse q rfl)
      | some p =>
        cases inverse with
        | none => exact .program rfl rfl (hprogram p rfl)
        | some q => exact .both rfl rfl (hprogram p rfl) (Or.inl (hinverse q rfl))
    · -- the chain stands second
      have hprogram := Program.isLaid_layoutOpt ignoreStandalone program hp
      obtain ⟨q, rfl, hlink⟩ :=
        Program.isLaidLink_layoutOpt ignoreStandalone inverseStrip closeStrip inverse hq
      obtain ⟨p, rfl⟩ := Option.isSome_iff_exists.1 hsome
      exact .both rfl rfl (hprogram p rfl) (Or.inr hlink)
    · -- the chain stands first, since the block is inverted
      have hinverse := Program.isLaid_layoutOpt ignoreStandalone inverse hq
      obtain ⟨p, rfl, hlink⟩ :=
        Program.isLaidLink_layoutOpt ignoreStandalone inverseStrip closeStrip program hp
      obtain ⟨q, rfl⟩ := Option.isSome_iff_exists.1 hsome
      exact .chainFirst rfl rfl hlink (hinverse q rfl)

/-- A block of a chain strips its sections by the tags of the chain. -/
theorem Block.isLaidLink_layout (ignoreStandalone : Bool) (opening closing : Strip) :
    ∀ b : Block ℓ, b.IsLink opening closing → ∀ names mark,
      Program.IsLaidLink ignoreStandalone (Cut.of opening.after false)
        ⟨.nothing, Cut.of closing.before false⟩ (Cut.of closing.before false)
        ⟨[.block b], names, true, mark⟩
        ⟨[.block (b.layout ignoreStandalone)], names, true, mark⟩
  | ⟨expr, program, inverse, openStrip, inverseStrip, closeStrip, close, mark⟩, h => by
    obtain ⟨rfl, rfl, rfl, hsome, hp, hq⟩ := h
    have hprogram := Program.isLaid_layoutOpt ignoreStandalone program hp
    obtain ⟨p, rfl⟩ := Option.isSome_iff_exists.1 hsome
    -- the chain ends with this link or goes on in another one
    have hchained : p.chained = false := Program.WellFormed.chained_eq hp
    have hwithin : (Block.mk expr (some p) inverse openStrip inverseStrip closeStrip none
        mark).IsLaidWithin ignoreStandalone (Program.layoutOpt ignoreStandalone (some p))
        (Program.layoutOpt ignoreStandalone inverse) := by
      rcases hq with hq | hq
      · have hinverse := Program.isLaid_layoutOpt ignoreStandalone inverse hq
        cases inverse with
        | none => exact .program rfl rfl (hprogram p rfl)
        | some q => exact .both rfl rfl (hprogram p rfl) (Or.inl (hinverse q rfl))
      · obtain ⟨q, rfl, hlink⟩ :=
          Program.isLaidLink_layoutOpt ignoreStandalone inverseStrip closeStrip inverse hq
        exact .both rfl rfl (hprogram p rfl) (Or.inr hlink)
    intro names mark'
    rw [Block.layout_eq]
    exact (hwithin.stripInside (Or.inr rfl)).isLaidLink rfl hchained names mark'

/-- The body of a partial block is laid out, and its markers stay. -/
theorem PartialBlock.isLaid_layout (ignoreStandalone : Bool) :
    ∀ p : PartialBlock ℓ, p.WellFormed →
      (p.layout ignoreStandalone).openStrip = p.openStrip ∧
        (p.layout ignoreStandalone).closeStrip = p.closeStrip ∧
        p.program.IsLaid ignoreStandalone false (Cut.of p.openStrip.after false)
          (Cut.of p.closeStrip.before false) (p.layout ignoreStandalone).program
  | ⟨name, params, hash, program, openStrip, closeStrip, mark⟩, h => by
    have hlaid := Program.isLaid_layout ignoreStandalone false program h
    have hcut := (hlaid.cutFirst openStrip.after true).cutLast closeStrip.before true
    rw [Cut.nothing_join, Cut.nothing_join, Cut.when_true_all, Cut.when_true_all] at hcut
    exact ⟨rfl, rfl, hcut⟩

theorem Program.isLaid_layoutOpt (ignoreStandalone : Bool) :
    ∀ program : Option (Program ℓ), Program.WellFormedOpt program → ∀ p, program = some p →
      p.IsLaid ignoreStandalone false .nothing .nothing (p.layout ignoreStandalone false)
  | none, _ => nofun
  | some p, h => by
    intro p' hp
    obtain rfl := Option.some.inj hp
    exact Program.isLaid_layout ignoreStandalone false p h

theorem Program.isLaidLink_layoutOpt (ignoreStandalone : Bool) (opening closing : Strip) :
    ∀ program : Option (Program ℓ), Program.IsLinkOpt opening closing program →
      ∃ p, program = some p ∧
        p.IsLaidLink ignoreStandalone (Cut.of opening.after false)
          ⟨.nothing, Cut.of closing.before false⟩ (Cut.of closing.before false)
          (p.layout ignoreStandalone false)
  | none, h => h.elim
  | some p, h => ⟨p, rfl, Program.isLaidLink_layout ignoreStandalone opening closing p h⟩

end

/-- The contents of a laid tree render as the texts of the row of the tree as it was written. -/
theorem Program.values_layout {p : Program ℓ} (h : p.WellFormed) (ignoreStandalone root : Bool) :
    (p.layout ignoreStandalone root).contents.map Content.value =
      (p.row ignoreStandalone root {}).texts .nothing .nothing := by
  rw [Program.contents_eq_slots]
  exact (Program.isLaid_layout ignoreStandalone root p h).fits.values_eq

/-- The layout does not change what a tree says was written. -/
theorem Program.writtens_layout {p : Program ℓ} (h : p.WellFormed) (ignoreStandalone root : Bool) :
    (p.layout ignoreStandalone root).contents.map Content.written =
      (p.row ignoreStandalone root {}).writtens := by
  rw [Program.contents_eq_slots]
  exact (Program.isLaid_layout ignoreStandalone root p h).fits.writtens_eq

end Stencil.Tree
