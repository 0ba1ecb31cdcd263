import Stencil.Proofs.Layout.Look
import Stencil.Proofs.Tree.WellFormed

/-!
# Sections laid out

`Program.IsLaid` relates a program as it was written to one whose content has undergone the cuts of
its row; `Program.IsLaidLink` does so for a link of a chain. Each change that the layout makes to a
section afterwards joins one more cut to one end of its row. The walks of the layout through a chain
are two: to the first section of the chain, and to the section of the first link, which is the last
one only if the chain has one link (`Program.IsLaidLink.cutLastSection`).
-/

set_option autoImplicit false

namespace Stencil.Tree

variable {ℓ : Type}

/-- A cut on demand, where the condition holds. -/
def Cut.when (condition demanded : Bool) : Cut :=
  if condition then Cut.ofDemand demanded else nothing

@[simp] theorem Cut.when_true_all (condition : Bool) :
    Cut.when condition true = Cut.of condition false := by
  cases condition <;> rfl

theorem Cut.join_when_false (c : Cut) (demanded : Bool) : c.join (Cut.when false demanded) = c :=
  Cut.join_nothing c

@[simp] theorem Cut.of_join_when (marked alone : Bool) :
    (Cut.of marked false).join (Cut.when alone false) = Cut.of marked alone := by
  cases marked <;> cases alone <;> rfl

@[simp] theorem Cut.join_self (c : Cut) : c.join c = c := by cases c <;> rfl

/-! ## Ordinary sections -/

/-- The program `p'` is `p`, which is not chained, with its content cut as the row of `p` says and
with two more cuts at the ends. -/
structure Program.IsLaid (ignoreStandalone root : Bool) (lead trail : Cut) (p p' : Program ℓ) :
    Prop where
  source : p.chained = false
  unchained : p'.chained = false
  looks : Statement.looks p'.body = Statement.looks p.body
  fits : Row.Fits lead (p.row ignoreStandalone root {}) trail p'.slots

namespace Program.IsLaid

variable {ignoreStandalone root : Bool} {lead trail : Cut} {p p' : Program ℓ}

theorem cutFirst (h : IsLaid ignoreStandalone root lead trail p p') (condition demanded : Bool) :
    IsLaid ignoreStandalone root (lead.join (Cut.when condition demanded)) trail p
      (applyIf condition (Program.mapBody (Tree.cutFirst demanded)) p') := by
  cases condition with
  | false =>
    rw [Cut.join_when_false]
    exact h
  | true =>
    refine ⟨h.source, h.unchained, (looks_cutFirst _ _).trans h.looks, ?_⟩
    have hslots : (Program.mapBody (Tree.cutFirst demanded) p').slots =
        cutHead demanded p'.slots := by
      rw [Program.slots_eq, Program.slots_eq, Program.mapBody, h.unchained, slotsOf_cutFirst]
    exact hslots ▸ h.fits.cutHead demanded

theorem cutLast (h : IsLaid ignoreStandalone root lead trail p p') (condition demanded : Bool) :
    IsLaid ignoreStandalone root lead (trail.join (Cut.when condition demanded)) p
      (applyIf condition (Program.mapBody (Tree.cutLast demanded)) p') := by
  cases condition with
  | false =>
    rw [Cut.join_when_false]
    exact h
  | true =>
    refine ⟨h.source, h.unchained, (looks_cutLast _ _).trans h.looks, ?_⟩
    have hslots : (Program.mapBody (Tree.cutLast demanded) p').slots =
        cutBack demanded p'.slots := by
      rw [Program.slots_eq, Program.slots_eq, Program.mapBody, h.unchained, slotsOf_cutLast]
    exact hslots ▸ h.fits.cutBack demanded

theorem opensBlank_eq (h : IsLaid ignoreStandalone root lead trail p p') :
    p'.opensBlank = p.opensBlank :=
  blankAfter_congr h.looks

theorem closesBlank_eq (h : IsLaid ignoreStandalone root lead trail p p') :
    p'.closesBlank = p.closesBlank := by
  refine blankBefore_congr ?_
  rw [looks_reverse, looks_reverse, h.looks]

end Program.IsLaid

/-! ## Links of chains -/

/-- The program `p'` is the link `p` with its content cut as the row of `p` says and with two more
cuts at the ends. Its first section is kept apart from what follows. -/
inductive Program.IsLaidLink (ignoreStandalone : Bool) (lead : Cut) (reach : Reach) (trail : Cut) :
    Program ℓ → Program ℓ → Prop where
  /-- The chain ends with the section of this link. -/
  | last {b b' : Block ℓ} {q q' : Program ℓ} {names names' : List String} {mark mark' : ℓ} :
      b.program = some q → b.inverse = none → b'.program = some q' → b'.inverse = none →
        q.IsLaid ignoreStandalone false lead trail q' →
          IsLaidLink ignoreStandalone lead reach trail
            ⟨[.block b], names, true, mark⟩ ⟨[.block b'], names', true, mark'⟩
  /-- There is one more `else`. -/
  | next {b b' : Block ℓ} {q q' r r' : Program ℓ} {names names' : List String} {mark mark' : ℓ} :
      b.program = some q → b.inverse = some r → b'.program = some q' → b'.inverse = some r' →
        q.IsLaid ignoreStandalone false lead
          (b.tagCuts ignoreStandalone (some reach) false false).elseBefore q' →
        Row.Fits (b.tagCuts ignoreStandalone (some reach) false false).elseAfter
          (r.row ignoreStandalone false ⟨reach.far, reach.far⟩) trail r'.slots →
          IsLaidLink ignoreStandalone lead reach trail
            ⟨[.block b], names, true, mark⟩ ⟨[.block b'], names', true, mark'⟩

/-- The row of a link is that of its block without tags around it. -/
theorem Program.row_link (ignoreStandalone : Bool) (reach : Reach) (b : Block ℓ)
    (names : List String) (mark : ℓ) :
    Program.row ignoreStandalone false reach ⟨[.block b], names, true, mark⟩ =
      b.row ignoreStandalone (some reach) false false :=
  List.append_nil _

/-- The last block of a chain has no tag of its own. -/
theorem Block.row_link_last {ignoreStandalone : Bool} {b : Block ℓ} {q : Program ℓ}
    (hq : b.program = some q) (hr : b.inverse = none) (hchained : q.chained = false)
    (reach : Reach) :
    b.row ignoreStandalone (some reach) false false = q.row ignoreStandalone false {} := by
  rw [Block.row_eq, Block.rowOver, Block.hasElse, hq, hr]
  simp [TagCuts.inside, Program.rowOpt, Program.row_of_unchained hchained]

/-- The block of any other link has the `else` between its sections. -/
theorem Block.row_link_next {ignoreStandalone : Bool} {b : Block ℓ} {q r : Program ℓ}
    (hq : b.program = some q) (hr : b.inverse = some r) (hchained : q.chained = false)
    (reach : Reach) :
    b.row ignoreStandalone (some reach) false false =
      q.row ignoreStandalone false {} ++
        .tag (b.tagCuts ignoreStandalone (some reach) false false).elseBefore
          (b.tagCuts ignoreStandalone (some reach) false false).elseAfter ::
        r.row ignoreStandalone false ⟨reach.far, reach.far⟩ := by
  rw [Block.row_eq, Block.rowOver, Block.hasElse, hq, hr]
  simp [TagCuts.inside, Program.rowOpt, Program.row_of_unchained hchained, Block.reach]

theorem Program.slots_link (b : Block ℓ) (names : List String) (mark : ℓ) :
    Program.slots ⟨[.block b], names, true, mark⟩ = b.slots true :=
  List.append_nil _

theorem Block.program_mapLastSection (f : List (Statement ℓ) → List (Statement ℓ)) (b : Block ℓ) :
    (b.mapLastSection f).program = Program.mapLastSectionOpt f b.program := by
  cases b
  rfl

theorem Block.inverse_mapLastSection (f : List (Statement ℓ) → List (Statement ℓ)) (b : Block ℓ) :
    (b.mapLastSection f).inverse = b.inverse := by
  cases b
  rfl

/-- Outside of chains the last section is the program itself. -/
theorem Program.mapLastSection_of_unchained (f : List (Statement ℓ) → List (Statement ℓ))
    {p : Program ℓ} (h : p.chained = false) : p.mapLastSection f = p.mapBody f := by
  obtain ⟨body, names, chained, mark⟩ := p
  exact if_neg (ne_true_of_eq_false h)

namespace Program.IsLaidLink

variable {ignoreStandalone : Bool} {lead trail : Cut} {reach : Reach} {p p' : Program ℓ}

theorem fits (h : IsLaidLink ignoreStandalone lead reach trail p p') :
    Row.Fits lead (p.row ignoreStandalone false reach) trail p'.slots := by
  cases h with
  | @last b b' q q' _ _ _ _ hq hr hq' hr' hlaid =>
    have hslots : b'.slots true = q'.slots := by
      rw [Block.slots_eq, Block.slotsOver, Block.hasElse, hq', hr']
      simp [Program.slotsOpt]
    rw [Program.row_link, Program.slots_link, Block.row_link_last hq hr hlaid.source, hslots]
    exact hlaid.fits
  | @next b b' q q' r r' _ _ _ _ hq hr hq' hr' hlaid hfits =>
    have hslots : b'.slots true = q'.slots ++ none :: r'.slots := by
      rw [Block.slots_eq, Block.slotsOver, Block.hasElse, hq', hr']
      simp [Program.slotsOpt]
    rw [Program.row_link, Program.slots_link, Block.row_link_next hq hr hlaid.source, hslots]
    exact hlaid.fits.append_tag hfits

/-- The first section of a chain is that of its first link. -/
theorem cutFirstSection (h : IsLaidLink ignoreStandalone lead reach trail p p')
    (condition demanded : Bool) :
    IsLaidLink ignoreStandalone (lead.join (Cut.when condition demanded)) reach trail p
      (applyIf condition (Program.mapFirstSection (cutFirst demanded)) p') := by
  cases condition with
  | false =>
    rw [Cut.join_when_false]
    exact h
  | true =>
    cases h with
    | last hq hr hq' hr' hlaid =>
      refine .last hq hr ?_ hr' (hlaid.cutFirst true demanded)
      rw [hq']
      rfl
    | next hq hr hq' hr' hlaid hfits =>
      refine .next hq hr ?_ hr' (hlaid.cutFirst true demanded) hfits
      rw [hq']
      rfl

/-- The walk to the last section ends in the section of the first link as well. Where there is one
more `else`, the cut meets what stands before that. -/
theorem cutLastSection {far : Cut} {closing : Bool}
    (h : IsLaidLink ignoreStandalone lead ⟨.nothing, far⟩ (Cut.of closing false) p p') :
    IsLaidLink ignoreStandalone lead ⟨Cut.of closing false, far⟩ (Cut.of closing false) p
      (applyIf closing (Program.mapLastSection (cutLast true)) p') := by
  cases closing with
  | false => exact h
  | true =>
    -- the walk goes into the main section of the first link, which is not chained
    have hsection : ∀ {b' : Block ℓ} {q q' : Program ℓ} {lead trail : Cut},
        b'.program = some q' → q.IsLaid ignoreStandalone false lead trail q' →
          (b'.mapLastSection (cutLast true)).program = some (q'.mapBody (cutLast true)) := by
      intro b' q q' lead trail hq' hlaid
      rw [Block.program_mapLastSection, hq', Program.mapLastSectionOpt,
        Program.mapLastSection_of_unchained _ hlaid.unchained]
    cases h with
    | last hq hr hq' hr' hlaid =>
      exact .last hq hr (hsection hq' hlaid) ((Block.inverse_mapLastSection _ _).trans hr')
        (hlaid.cutLast true true)
    | next hq hr hq' hr' hlaid hfits =>
      refine .next hq hr (hsection hq' hlaid) ((Block.inverse_mapLastSection _ _).trans hr') ?_
        hfits
      have hplain : Program.isChained (some _) = false := hlaid.source
      have hcut := hlaid.cutLast true true
      simpa [Block.tagCuts, hq, hplain, Cut.when, Cut.ofDemand, applyIf] using hcut

/-- A cut at the start of a body leaves a link as it is, since a link begins with a block. -/
theorem mapBody_cutFirst (h : IsLaidLink ignoreStandalone lead reach trail p p')
    (condition demanded : Bool) :
    applyIf condition (Program.mapBody (cutFirst demanded)) p' = p' := by
  cases condition with
  | false => rfl
  | true => cases h <;> rfl

theorem mapBody_cutLast (h : IsLaidLink ignoreStandalone lead reach trail p p')
    (condition demanded : Bool) :
    applyIf condition (Program.mapBody (cutLast demanded)) p' = p' := by
  cases condition with
  | false => rfl
  | true => cases h <;> rfl

end Program.IsLaidLink

/-! ## Sections of either kind -/

/-- The section `p'` is `p` with its content cut, be it a link or not. -/
def Program.IsLaidSection (ignoreStandalone : Bool) (lead : Cut) (reach : Reach) (trail : Cut)
    (p p' : Program ℓ) : Prop :=
  p.IsLaid ignoreStandalone false lead trail p' ∨ p.IsLaidLink ignoreStandalone lead reach trail p'

/-- The section `p'` is `p` laid out on its own. A link has applied the markers that it took
over. -/
def Program.IsLaidAlone (ignoreStandalone : Bool) (opening closing : Strip) (p p' : Program ℓ) :
    Prop :=
  p.IsLaid ignoreStandalone false .nothing .nothing p' ∨
    p.IsLaidLink ignoreStandalone (Cut.of opening.after false)
      ⟨.nothing, Cut.of closing.before false⟩ (Cut.of closing.before false) p'

namespace Program.IsLaidSection

variable {ignoreStandalone : Bool} {lead trail : Cut} {reach : Reach} {p p' : Program ℓ}

theorem fits (h : IsLaidSection ignoreStandalone lead reach trail p p') :
    Row.Fits lead (p.row ignoreStandalone false reach) trail p'.slots := by
  rcases h with h | h
  · rw [Program.row_of_unchained h.source, ← Program.row_of_unchained h.source _ _ {}]
    exact h.fits
  · exact h.fits

theorem opensBlank_eq (h : IsLaidSection ignoreStandalone lead reach trail p p') :
    p'.opensBlank = p.opensBlank := by
  rcases h with h | h
  · exact h.opensBlank_eq
  · cases h <;> rfl

theorem closesBlank_eq (h : IsLaidSection ignoreStandalone lead reach trail p p') :
    p'.closesBlank = p.closesBlank := by
  rcases h with h | h
  · exact h.closesBlank_eq
  · cases h <;> rfl

/-- The first section reads the same before and after. -/
theorem firstSection (h : IsLaidSection ignoreStandalone lead reach trail p p') :
    ∃ q q', p.firstSection? = some q ∧ p'.firstSection? = some q' ∧
      q'.opensBlank = q.opensBlank ∧ q'.closesBlank = q.closesBlank := by
  rcases h with h | h
  · exact ⟨p, p', Program.firstSection?_of_unchained h.source,
      Program.firstSection?_of_unchained h.unchained, h.opensBlank_eq, h.closesBlank_eq⟩
  · cases h with
    | last hq _ hq' _ hlaid => exact ⟨_, _, hq, hq', hlaid.opensBlank_eq, hlaid.closesBlank_eq⟩
    | next hq _ hq' _ hlaid _ => exact ⟨_, _, hq, hq', hlaid.opensBlank_eq, hlaid.closesBlank_eq⟩

end Program.IsLaidSection

end Stencil.Tree
