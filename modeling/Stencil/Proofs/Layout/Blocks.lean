import Stencil.Proofs.Layout.Sections

/-!
# Blocks laid out

The layout of a block meets its sections three times: when the markers of its tags are applied from
the inside (`Block.stripInside`), when its opening tag is found to stand alone among the statements
around the block, and when its closing tag is. `Block.IsLaid` says what has become of the sections,
for a block of which the two ends have been settled or have not.
-/

set_option autoImplicit false

namespace Stencil.Tree

variable {ℓ : Type}

/-- The sections of `b'` are those of `b` with their content cut as the tags of `b` say. -/
structure Block.IsLaid (ignoreStandalone : Bool) (link : Option Reach) (before after : Bool)
    (b b' : Block ℓ) : Prop where
  openStrip : b'.openStrip = b.openStrip
  closeStrip : b'.closeStrip = b.closeStrip
  program : Option.Rel
    (Program.IsLaidSection ignoreStandalone
      (b.tagCuts ignoreStandalone link before after).openAfter
      ⟨.nothing, Cut.of b.closeStrip.before false⟩
      (if b.inverse.isSome then (b.tagCuts ignoreStandalone link before after).elseBefore
        else (b.tagCuts ignoreStandalone link before after).closeBefore))
    b.program b'.program
  inverse : Option.Rel
    (Program.IsLaidSection ignoreStandalone
      (if b.program.isSome then (b.tagCuts ignoreStandalone link before after).elseAfter
        else (b.tagCuts ignoreStandalone link before after).openAfter)
      (b.reach link)
      (b.tagCuts ignoreStandalone link before after).closeBefore)
    b.inverse b'.inverse

/-- What stands between the tags of a laid block fits the row. -/
theorem Block.IsLaid.fits_inside {ignoreStandalone : Bool} {link : Option Reach}
    {before after : Bool} {b b' : Block ℓ} (h : b.IsLaid ignoreStandalone link before after b') :
    Row.Fits (b.tagCuts ignoreStandalone link before after).openAfter
      ((b.tagCuts ignoreStandalone link before after).inside b.hasElse
        (Program.rowOpt ignoreStandalone ⟨.nothing, Cut.of b.closeStrip.before false⟩ b.program)
        (Program.rowOpt ignoreStandalone (b.reach link) b.inverse))
      (b.tagCuts ignoreStandalone link before after).closeBefore
      (Program.slotsOpt b'.program ++ (if b'.hasElse then [none] else []) ++
        Program.slotsOpt b'.inverse) := by
  have hprogram := h.program
  have hinverse := h.inverse
  revert hprogram hinverse
  generalize b.tagCuts ignoreStandalone link before after = t
  rw [TagCuts.inside, Block.hasElse, Block.hasElse]
  generalize b.program = p, b'.program = p', b.inverse = q, b'.inverse = q'
  intro hprogram hinverse
  cases hprogram with
  | none =>
    cases hinverse with
    | none => exact .nil _ _
    | some hq => exact hq.fits
  | some hp =>
    cases hinverse with
    | none => simpa [Program.rowOpt, Program.slotsOpt] using hp.fits
    | some hq => simpa [Program.rowOpt, Program.slotsOpt] using hp.fits.append_tag hq.fits

/-- A laid block fits its row, whatever stands around it. -/
theorem Block.IsLaid.fits {ignoreStandalone : Bool} {before after : Bool} {b b' : Block ℓ}
    (h : b.IsLaid ignoreStandalone none before after b') (lead trail : Cut) :
    Row.Fits lead (b.row ignoreStandalone none before after) trail (b'.slots false) := by
  rw [Block.row_eq, Block.slots_eq]
  exact .tag (h.fits_inside.append_tag (.nil _ _))

/-! ## Markers applied from the inside -/

section Inside

variable {ignoreStandalone : Bool} {opening closing : Strip} {p p' : Program ℓ}

theorem Program.IsLaidAlone.exists_section
    (h : p.IsLaidAlone ignoreStandalone opening closing p') :
    ∃ lead reach trail, p.IsLaidSection ignoreStandalone lead reach trail p' := by
  rcases h with h | h
  · exact ⟨_, {}, _, Or.inl h⟩
  · exact ⟨_, _, _, Or.inr h⟩

/-- The section before an `else`, which may stand alone, or the only section. -/
theorem Program.IsLaid.beforeElse
    (h : p.IsLaid ignoreStandalone false .nothing .nothing p') (opened marked alone : Bool) :
    p.IsLaid ignoreStandalone false (Cut.of opened false) (Cut.of marked alone)
      (applyIf alone (Program.mapBody (Tree.cutLast false))
        (applyIf marked (Program.mapBody (Tree.cutLast true))
          (applyIf opened (Program.mapBody (Tree.cutFirst true)) p'))) := by
  have hcut := ((h.cutFirst opened true).cutLast marked true).cutLast alone false
  simpa using hcut

/-- The section after an `else`, which may stand alone. -/
theorem Program.IsLaidAlone.afterElse
    (h : p.IsLaidAlone ignoreStandalone opening closing p') (alone : Bool) :
    p.IsLaidSection ignoreStandalone (Cut.of opening.after alone)
      ⟨Cut.of closing.before false, Cut.of closing.before false⟩ (Cut.of closing.before false)
      (applyIf alone (Program.mapFirstSection (cutFirst false))
        (applyIf closing.before (Program.mapLastSection (cutLast true))
          (applyIf opening.after (Program.mapFirstSection (cutFirst true)) p'))) := by
  rcases h with h | h
  · -- in an ordinary section both walks stop at once
    have hfirst : ∀ {condition demanded : Bool} {q : Program ℓ}, q.chained = false →
        applyIf condition (Program.mapFirstSection (cutFirst demanded)) q =
          applyIf condition (Program.mapBody (cutFirst demanded)) q := by
      intro condition demanded q hq
      cases condition with
      | false => rfl
      | true => exact if_neg (ne_true_of_eq_false hq)
    have hlast : ∀ {condition : Bool} {q : Program ℓ}, q.chained = false →
        applyIf condition (Program.mapLastSection (cutLast true)) q =
          applyIf condition (Program.mapBody (cutLast true)) q := by
      intro condition q hq
      cases condition with
      | false => rfl
      | true => exact Program.mapLastSection_of_unchained _ hq
    have h₁ := h.cutFirst opening.after true
    have h₂ := h₁.cutLast closing.before true
    have h₃ := h₂.cutFirst alone false
    rw [hfirst h.unchained, hlast h₁.unchained, hfirst h₂.unchained]
    exact Or.inl (by simpa using h₃)
  · -- in a chain both walks end in the section of the first link
    have h₁ := (h.cutFirstSection opening.after true).cutLastSection
    have h₂ := h₁.cutFirstSection alone false
    exact Or.inr (by simpa using h₂)

/-- The only section of a block. -/
theorem Program.IsLaid.stripOnly
    (h : p.IsLaid ignoreStandalone false .nothing .nothing p') (b : Block ℓ) :
    p.IsLaid ignoreStandalone false (Cut.of b.openStrip.after false)
      (Cut.of b.closeStrip.before false) (b.stripOnly p') :=
  h.beforeElse b.openStrip.after b.closeStrip.before false

end Inside

/-- Whether the sections of a block are laid out on their own, one of two at most being a chain. -/
inductive Block.IsLaidWithin (ignoreStandalone : Bool) (b : Block ℓ) :
    Option (Program ℓ) → Option (Program ℓ) → Prop where
  | empty : b.program = none → b.inverse = none → IsLaidWithin ignoreStandalone b none none
  | program {p p' : Program ℓ} : b.program = some p → b.inverse = none →
      p.IsLaid ignoreStandalone false .nothing .nothing p' →
        IsLaidWithin ignoreStandalone b (some p') none
  | inverse {q q' : Program ℓ} : b.program = none → b.inverse = some q →
      q.IsLaid ignoreStandalone false .nothing .nothing q' →
        IsLaidWithin ignoreStandalone b none (some q')
  | both {p p' q q' : Program ℓ} : b.program = some p → b.inverse = some q →
      p.IsLaid ignoreStandalone false .nothing .nothing p' →
        q.IsLaidAlone ignoreStandalone b.inverseStrip b.closeStrip q' →
          IsLaidWithin ignoreStandalone b (some p') (some q')
  | chainFirst {p p' q q' : Program ℓ} : b.program = some p → b.inverse = some q →
      p.IsLaidLink ignoreStandalone (Cut.of b.inverseStrip.after false)
        ⟨.nothing, Cut.of b.closeStrip.before false⟩ (Cut.of b.closeStrip.before false) p' →
        q.IsLaid ignoreStandalone false .nothing .nothing q' →
          IsLaidWithin ignoreStandalone b (some p') (some q')

/-- The markers of a block make of its sections what its tags ask for as long as the ends of the
block are not known to stand alone. -/
theorem Block.IsLaidWithin.stripInside {ignoreStandalone : Bool} {b : Block ℓ}
    {program inverse : Option (Program ℓ)} (h : b.IsLaidWithin ignoreStandalone program inverse)
    {link : Option Reach}
    (hlink : link = none ∨ link = some ⟨.nothing, Cut.of b.closeStrip.before false⟩) :
    b.IsLaid ignoreStandalone link false false
      (Block.stripInside ignoreStandalone { b with program, inverse }) := by
  -- a link has met no closing tag yet, so the section before its `else` is not reached
  have hnear : (link.map Reach.near).getD .nothing = Cut.nothing := by
    rcases hlink with rfl | rfl <;> rfl
  have hreach : b.reach link =
      ⟨Cut.of b.closeStrip.before false, Cut.of b.closeStrip.before false⟩ := by
    rcases hlink with rfl | rfl <;> rfl
  cases h with
  | empty hp hq =>
    refine ⟨rfl, rfl, ?_, ?_⟩
    · rw [hp]
      exact .none
    · rw [hq]
      exact .none
  | @program p p' hp hq hlaid =>
    refine ⟨rfl, rfl, ?_, ?_⟩
    · have hplain : Program.isChained (some p) = false := hlaid.source
      rw [hp]
      refine .some (Or.inl ?_)
      simpa [Block.tagCuts, hp, hq, hplain] using
        hlaid.stripOnly { b with program := some p', inverse := none }
    · rw [hq]
      exact .none
  | @inverse q q' hp hq hlaid =>
    refine ⟨rfl, rfl, ?_, ?_⟩
    · rw [hp]
      exact .none
    · rw [hq]
      refine .some (Or.inl ?_)
      simpa [Block.tagCuts, hp, hq, Program.isChained] using
        hlaid.stripOnly { b with program := none, inverse := some q' }
  | @both p p' q q' hp hq hlaid hlaid' =>
    obtain ⟨_, _, _, hsection⟩ := hlaid'.exists_section
    obtain ⟨r, r', hr, hr', hopens, _⟩ := hsection.firstSection
    have hplain : Program.isChained (some p) = false := hlaid.source
    -- the `else` is judged after cuts have been made, and as in the source all the same
    have halone : (!ignoreStandalone && p'.closesBlank &&
        (q'.firstSection?.map Program.opensBlank).getD false) = b.elseAlone ignoreStandalone := by
      simp only [Block.elseAlone, hp, hq, hr, hr', hlaid.closesBlank_eq, Option.map_some, hopens]
    refine ⟨rfl, rfl, ?_, ?_⟩
    · rw [hp]
      refine .some (Or.inl ?_)
      have hcut := hlaid.beforeElse b.openStrip.after b.inverseStrip.before
        (b.elseAlone ignoreStandalone)
      rw [halone]
      simpa [Block.tagCuts, hp, hq, hplain, hnear] using hcut
    · rw [hq]
      refine .some ?_
      have hcut := hlaid'.afterElse (b.elseAlone ignoreStandalone)
      rw [halone, hreach]
      simpa [Block.tagCuts, hp] using hcut
  | @chainFirst p p' q q' hp hq hlaid hlaid' =>
    have hchain : Program.isChained (some p) = true := by
      cases hlaid <;> rfl
    have hblank : p.closesBlank = false := by
      cases hlaid <;> rfl
    have hblank' : p'.closesBlank = false := by
      cases hlaid <;> rfl
    -- a chain does not end its line, so the `else` after it never stands alone
    have halone : (!ignoreStandalone && p'.closesBlank &&
        (q'.firstSection?.map Program.opensBlank).getD false) = b.elseAlone ignoreStandalone := by
      simp only [Block.elseAlone, hp, hq, hblank, hblank', Bool.and_false, Bool.false_and]
    refine ⟨rfl, rfl, ?_, ?_⟩
    · -- a chain has no text at its ends that the tags of the block could cut
      rw [hp]
      refine .some (Or.inr ?_)
      rw [hlaid.mapBody_cutFirst, hlaid.mapBody_cutLast, hlaid.mapBody_cutLast]
      simpa [Block.tagCuts, hp, hq, hchain] using hlaid
    · rw [hq]
      refine .some ?_
      have hwithin : q.IsLaidAlone ignoreStandalone b.inverseStrip b.closeStrip q' := Or.inl hlaid'
      have hcut := hwithin.afterElse (b.elseAlone ignoreStandalone)
      rw [halone, hreach]
      simpa [Block.tagCuts, hp] using hcut

/-! ## The ends of a block -/

theorem Statement.demand?_block (b : Block ℓ) :
    (Statement.block b).demand? =
      some { before := b.openStrip.before, after := b.closeStrip.after
             opensAlone := b.opensBlank, closesAlone := b.closesBlank } := by
  obtain ⟨expr, program, inverse, openStrip, inverseStrip, closeStrip, close, mark⟩ := b
  cases program <;> cases inverse <;> rfl

section Ends

variable {ignoreStandalone : Bool} {link : Option Reach} {before after : Bool} {b b' : Block ℓ}

theorem Block.IsLaid.opensBlank_eq (h : b.IsLaid ignoreStandalone link before after b') :
    b'.opensBlank = b.opensBlank := by
  have hprogram := h.program
  have hinverse := h.inverse
  rw [Block.opensBlank, Block.opensBlank]
  generalize b.program = p, b'.program = p', b.inverse = q, b'.inverse = q' at hprogram hinverse ⊢
  cases hprogram with
  | none =>
    cases hinverse with
    | none => rfl
    | some hq => exact hq.opensBlank_eq
  | some hp => exact hp.opensBlank_eq

theorem Block.IsLaid.closesBlank_eq (h : b.IsLaid ignoreStandalone link before after b') :
    b'.closesBlank = b.closesBlank := by
  have hprogram := h.program
  have hinverse := h.inverse
  rw [Block.closesBlank, Block.closesBlank]
  generalize b.program = p, b'.program = p', b.inverse = q, b'.inverse = q' at hprogram hinverse ⊢
  cases hprogram with
  | none =>
    cases hinverse with
    | none => rfl
    | some hq => exact hq.closesBlank_eq
  | some hp =>
    cases hinverse with
    | none => exact hp.closesBlank_eq
    | some hq =>
      obtain ⟨r, r', hr, hr', _, hcloses⟩ := hq.firstSection
      simpa [hr, hr'] using hcloses

/-- A chain does not begin with blanks. -/
theorem Program.IsLaidSection.plain_of_opensBlank {lead trail : Cut} {reach : Reach}
    {p p' : Program ℓ} (h : p.IsLaidSection ignoreStandalone lead reach trail p')
    (hblank : p.opensBlank = true) : p.IsLaid ignoreStandalone false lead trail p' := by
  refine h.resolve_right fun hlink => ?_
  cases hlink <;> exact Bool.noConfusion hblank

theorem Program.IsLaidSection.plain_of_closesBlank {lead trail : Cut} {reach : Reach}
    {p p' : Program ℓ} (h : p.IsLaidSection ignoreStandalone lead reach trail p')
    (hblank : p.closesBlank = true) : p.IsLaid ignoreStandalone false lead trail p' := by
  refine h.resolve_right fun hlink => ?_
  cases hlink <;> exact Bool.noConfusion hblank

theorem exists_of_rel_some {α β : Type} {r : α → β → Prop} {a : α} {y : Option β}
    (h : Option.Rel r (some a) y) : ∃ c, y = some c ∧ r a c := by
  cases h with
  | some h => exact ⟨_, rfl, h⟩

theorem eq_none_of_rel_none {α β : Type} {r : α → β → Prop} {y : Option β}
    (h : Option.Rel r none y) : y = none := by
  cases h
  rfl

/-- The opening tag of a block, once it is known to stand alone, takes the rest of its line away
from the section after it. -/
theorem Block.IsLaid.cutAfterOpening (h : b.IsLaid ignoreStandalone none false after b')
    (before : Bool) :
    ∃ c, b.IsLaid ignoreStandalone none before after c ∧
      applyIf (!ignoreStandalone && b.opensBlank && before) Statement.cutAfterOpening (.block b') =
        .block c := by
  cases hopens : !ignoreStandalone && b.opensBlank && before with
  | false =>
    -- the tag does not stand alone, and the block is laid already
    have hcuts : b.tagCuts ignoreStandalone none before after =
        b.tagCuts ignoreStandalone none false after := by
      simp [Block.tagCuts, hopens]
    refine ⟨b', ⟨h.openStrip, h.closeStrip, ?_, ?_⟩, rfl⟩
    · exact hcuts ▸ h.program
    · exact hcuts ▸ h.inverse
  | true =>
    have hblank : b.opensBlank = true := by
      simp only [Bool.and_eq_true] at hopens
      exact hopens.1.2
    cases hp : b.program with
    | some p =>
      have hpblank : p.opensBlank = true := by
        simpa [Block.opensBlank, hp] using hblank
      obtain ⟨p', hp', hsection⟩ := exists_of_rel_some (hp ▸ h.program)
      -- only an ordinary section begins with a blank line
      have hcut := (hsection.plain_of_opensBlank hpblank).cutFirst true false
      have hplain : Program.isChained (some p) = false := hcut.source
      refine ⟨{ b' with program := some (p'.mapBody (cutFirst false)) },
        ⟨h.openStrip, h.closeStrip, ?_, ?_⟩, ?_⟩
      · rw [hp]
        refine .some (Or.inl ?_)
        simpa [Block.tagCuts, hp, hplain, hopens, applyIf] using hcut
      · simpa [Block.tagCuts, hp] using h.inverse
      · simp [applyIf, Statement.cutAfterOpening, hp']
    | none =>
      have hp' : b'.program = none := eq_none_of_rel_none (hp ▸ h.program)
      cases hq : b.inverse with
      | none => simp [Block.opensBlank, hp, hq] at hblank
      | some q =>
        have hqblank : q.opensBlank = true := by
          simpa [Block.opensBlank, hp, hq] using hblank
        obtain ⟨q', hq', hsection⟩ := exists_of_rel_some (hq ▸ h.inverse)
        have hcut := (hsection.plain_of_opensBlank hqblank).cutFirst true false
        refine ⟨{ b' with inverse := some (q'.mapBody (cutFirst false)) },
          ⟨h.openStrip, h.closeStrip, ?_, ?_⟩, ?_⟩
        · simp [hp, hp']
        · rw [hq]
          refine .some (Or.inl ?_)
          simpa [Block.tagCuts, hp, hopens, applyIf, Program.isChained] using hcut
        · simp [applyIf, Statement.cutAfterOpening, hp', hq']

/-- The closing tag of a block, once it is known to stand alone, takes its indentation away from the
section before it, unless that is a chain. -/
theorem Block.IsLaid.cutBeforeClosing (h : b.IsLaid ignoreStandalone none before false b')
    (after : Bool) :
    ∃ c, b.IsLaid ignoreStandalone none before after c ∧
      applyIf (!ignoreStandalone && b.closesBlank && after) Statement.cutBeforeClosing (.block b') =
        .block c := by
  cases hcloses : !ignoreStandalone && b.closesBlank && after with
  | false =>
    have hcuts : b.tagCuts ignoreStandalone none before after =
        b.tagCuts ignoreStandalone none before false := by
      simp [Block.tagCuts, hcloses]
    refine ⟨b', ⟨h.openStrip, h.closeStrip, ?_, ?_⟩, rfl⟩
    · exact hcuts ▸ h.program
    · exact hcuts ▸ h.inverse
  | true =>
    -- The tag is at the end of the second section if there is one, else of the first.
    cases hq : b.inverse with
    | some q =>
      obtain ⟨q', hq', hsection⟩ := exists_of_rel_some (hq ▸ h.inverse)
      refine ⟨{ b' with inverse := some (q'.mapBody (cutLast false)) },
        ⟨h.openStrip, h.closeStrip, ?_, ?_⟩, ?_⟩
      · simpa [Block.tagCuts, hq] using h.program
      · rw [hq]
        refine .some ?_
        rcases hsection with hlaid | hlink
        · have hplain : Program.isChained (some q) = false := hlaid.source
          have hcut := hlaid.cutLast true false
          exact Or.inl (by simpa [Block.tagCuts, hq, hplain, hcloses, applyIf] using hcut)
        · -- the cut meets the block of the link, which is no text
          have hchain : Program.isChained (some q) = true := by
            cases hlink <;> rfl
          have hsame : q'.mapBody (cutLast false) = q' := hlink.mapBody_cutLast true false
          rw [hsame]
          exact Or.inr (by simpa [Block.tagCuts, hq, hchain, hcloses] using hlink)
      · simp [applyIf, Statement.cutBeforeClosing, hq']
    | none =>
      have hq' : b'.inverse = none := eq_none_of_rel_none (hq ▸ h.inverse)
      have hblank : b.closesBlank = true := by
        simp only [Bool.and_eq_true] at hcloses
        exact hcloses.1.2
      cases hp : b.program with
      | none => simp [Block.closesBlank, hp, hq] at hblank
      | some p =>
        have hpblank : p.closesBlank = true := by
          simpa [Block.closesBlank, hp, hq] using hblank
        obtain ⟨p', hp', hsection⟩ := exists_of_rel_some (hp ▸ h.program)
        have hcut := (hsection.plain_of_closesBlank hpblank).cutLast true false
        refine ⟨{ b' with program := some (p'.mapBody (cutLast false)) },
          ⟨h.openStrip, h.closeStrip, ?_, ?_⟩, ?_⟩
        · rw [hp]
          refine .some (Or.inl ?_)
          simpa [Block.tagCuts, hp, hq, hcloses, applyIf, Program.isChained] using hcut
        · simp [hq, hq']
        · simp [applyIf, Statement.cutBeforeClosing, hp', hq']

end Ends

end Stencil.Tree
