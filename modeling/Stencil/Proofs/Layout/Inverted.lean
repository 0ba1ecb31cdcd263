import Stencil.Proofs.Layout.Filled

/-!
# Inverted blocks with an else

The sections of an inverted block are exchanged in its tree: the section after the opening tag
becomes the inverse and stands second, the one after the `else` becomes the program and stands
first. By the rule of adjacency each tag would still read and cut the texts next to it in the
source (`Template.LaidByAdjacency`).

The layout takes the sections in the order of the tree (`Block.tagCuts_eq_cutsAround`). The opening
tag is judged by the section after the `else` and cuts its start, the `else` is judged by the end of
that section and the start of the other one, and the closing tag by the end of the section before
the `else`. So the rule holds of an inverted block exactly where the exchange of the two sections
does not show (`Template.laidByAdjacency_iff`).
-/

set_option autoImplicit false

namespace Stencil.Tree

variable {ℓ : Type}

/-! ## Cuts around two sections -/

/-- What the three tags of a block cut if `first` stands between the opening tag and the `else`, and
`second` between the `else` and the closing tag. `before` and `after` say whether the line is blank
before and after the block. -/
def Block.cutsAround (ignoreStandalone before after : Bool) (b : Block ℓ)
    (first second : Program ℓ) : TagCuts :=
  let opens := !ignoreStandalone && first.opensBlank && before
  let alone := !ignoreStandalone && first.closesBlank && second.opensBlank
  let closes := !ignoreStandalone && second.closesBlank && after
  { openBefore := Cut.of b.openStrip.before opens
    openAfter := Cut.of b.openStrip.after opens
    elseBefore := Cut.of b.inverseStrip.before alone
    elseAfter := Cut.of b.inverseStrip.after alone
    closeBefore := Cut.of b.closeStrip.before closes
    closeAfter := Cut.of b.closeStrip.after closes }

/-- The same cuts of the texts of two sections, with the section that stands second given first. -/
def TagCuts.exchange (t : TagCuts) : TagCuts :=
  { t with
    openAfter := t.elseAfter
    elseBefore := t.closeBefore
    elseAfter := t.openAfter
    closeBefore := t.elseBefore }

/-- Outside of chains the tags of a block cut what stands around its program and its inverse in the
order of the tree. -/
theorem Block.tagCuts_eq_cutsAround {b : Block ℓ} {p q : Program ℓ} (hp : b.program = some p)
    (hq : b.inverse = some q) (hplain : b.beginsChain = false)
    (ignoreStandalone before after : Bool) :
    b.tagCuts ignoreStandalone none before after =
      b.cutsAround ignoreStandalone before after p q := by
  obtain ⟨hprogram, hinverse⟩ := Bool.or_eq_false_iff.1 hplain
  have hchained : q.chained = false := by
    rw [hq] at hinverse
    exact hinverse
  have hfirst : q.firstSection? = some q := Program.firstSection?_of_unchained hchained
  rw [Block.tagCuts_of_unchained hprogram hinverse, Block.cutsAround, Block.opensBlank,
    Block.closesBlank, Block.elseAlone, hp, hq]
  simp only [hfirst, Option.map_some, Option.getD_some]

namespace Hole

/-- The cuts around the sections of an inverted block, by the order of the tree: the layout takes
`second` for the section before the `else`. -/
def cutsInTree (ignoreStandalone : Bool) (hole : Hole ℓ) (b : Block ℓ)
    (first second : Program ℓ) : TagCuts :=
  b.cutsAround ignoreStandalone (hole.blankBefore true) (hole.blankAfter true) second first

/-- The cuts around the sections of an inverted block by adjacency in the source, given in the order
of the tree. -/
def cutsInSource (ignoreStandalone : Bool) (hole : Hole ℓ) (b : Block ℓ)
    (first second : Program ℓ) : TagCuts :=
  (b.cutsAround ignoreStandalone (hole.blankBefore true) (hole.blankAfter true) first
    second).exchange

/-- The texts of the tree if the tags of the inverted block in the hole cut as given. -/
def textsInverted (ignoreStandalone : Bool) (hole : Hole ℓ) (b : Block ℓ)
    (first second : Program ℓ) (t : TagCuts) : List String :=
  hole.texts ignoreStandalone (.block b)
    (t.row true (second.row ignoreStandalone false {}) (first.row ignoreStandalone false {}))

/-- The exchange of the two sections does not show: not before the block, not in the section after
the `else`, not in the section before it, and not after the block. -/
def ExchangeUnseen (ignoreStandalone : Bool) (hole : Hole ℓ) (b : Block ℓ)
    (first second : Program ℓ) : Prop :=
  let t := hole.cutsInTree ignoreStandalone b first second
  let u := hole.cutsInSource ignoreStandalone b first second
  let before := Row.ending .nothing (hole.rowBefore ignoreStandalone true {} (.block b))
  let after := Row.beginning .nothing (hole.rowAfter ignoreStandalone true {} (.block b))
  t.openBefore.stop before = u.openBefore.stop before ∧
    Row.texts t.openAfter (second.row ignoreStandalone false {}) t.elseBefore =
      Row.texts u.openAfter (second.row ignoreStandalone false {}) u.elseBefore ∧
    Row.texts t.elseAfter (first.row ignoreStandalone false {}) t.closeBefore =
      Row.texts u.elseAfter (first.row ignoreStandalone false {}) u.closeBefore ∧
    t.closeAfter.start after = u.closeAfter.start after

instance (ignoreStandalone : Bool) (hole : Hole ℓ) (b : Block ℓ) (first second : Program ℓ) :
    Decidable (hole.ExchangeUnseen ignoreStandalone b first second) :=
  inferInstanceAs (Decidable (_ ∧ _ ∧ _ ∧ _))

theorem textsInverted_eq_iff (ignoreStandalone : Bool) (hole : Hole ℓ) (b : Block ℓ)
    (first second : Program ℓ) :
    hole.textsInverted ignoreStandalone b first second
          (hole.cutsInTree ignoreStandalone b first second) =
        hole.textsInverted ignoreStandalone b first second
          (hole.cutsInSource ignoreStandalone b first second) ↔
      hole.ExchangeUnseen ignoreStandalone b first second := by
  rw [textsInverted, textsInverted, Hole.texts_row_eq_iff _ _ _ _ _ rfl rfl, ExchangeUnseen,
    Row.texts_eq_iff_ending, Row.texts_eq_iff_beginning]

/-- The row of an inverted block has its two sections in the order of the tree. -/
theorem row_eq_cutsInTree (ignoreStandalone : Bool) (hole : Hole ℓ) {b : Block ℓ}
    {first second : Program ℓ} (hfirst : b.inverse = some first)
    (hsecond : b.program = some second) (hplain : b.beginsChain = false) :
    b.row ignoreStandalone none (hole.blankBefore true) (hole.blankAfter true) =
      (hole.cutsInTree ignoreStandalone b first second).row true
        (second.row ignoreStandalone false {}) (first.row ignoreStandalone false {}) := by
  have helse : b.hasElse = true := by
    rw [Block.hasElse, hfirst, hsecond]
    rfl
  obtain ⟨hprogram, hinverse⟩ := Bool.or_eq_false_iff.1 hplain
  -- no section is chained, so a marker before the closing tag reaches into neither
  rw [Block.row_eq_tagCuts ignoreStandalone _ _ helse,
    Block.tagCuts_eq_cutsAround hsecond hfirst hplain, Block.firstRow, Block.secondRow,
    Program.rowOpt_of_unchained hprogram ignoreStandalone _ {},
    Program.rowOpt_of_unchained hinverse ignoreStandalone _ {}, hfirst, hsecond]
  rfl

end Hole

end Stencil.Tree

/-! ## Templates -/

namespace Stencil.Template

open Stencil.Text (Span)
open Stencil.Tree

/-- The block has the two sections, and the one that became its inverse was written first. -/
structure IsInverted (b : Block Span) (first second : Program Span) : Prop where
  inverse : b.inverse = some first
  program : b.program = some second
  order : first.mark.start < second.mark.start

/-- The tags of an inverted block read and cut the texts next to them in the source. -/
def LaidByAdjacency (options : ReadOptions) (source : String) (hole : Hole Span) (b : Block Span)
    (first second : Program Span) : Prop :=
  texts options source =
    .ok (hole.textsInverted options.ignoreStandalone b first second
      (hole.cutsInSource options.ignoreStandalone b first second))

/-- The tags of an inverted block read and cut the texts next to them if and only if the exchange of
its two sections does not show. -/
theorem laidByAdjacency_iff {options : ReadOptions} {source : String} {hole : Hole Span}
    {b : Block Span} {first second : Program Span} (hread : ReadsBlock source hole b)
    (hinverted : IsInverted b first second) (hplain : b.beginsChain = false) :
    LaidByAdjacency options source hole b first second ↔
      hole.ExchangeUnseen options.ignoreStandalone b first second := by
  obtain ⟨_, htexts⟩ := texts_eq options hread
  rw [LaidByAdjacency, htexts, Except.ok.injEq,
    Hole.row_eq_cutsInTree _ hole hinverted.inverse hinverted.program hplain]
  exact Hole.textsInverted_eq_iff options.ignoreStandalone hole b first second

theorem exists_inverted_of_leadingBlock? {source : String}
    {P : Hole Span → Block Span → Program Span → Program Span → Prop}
    [∀ hole b first second, Decidable (P hole b first second)]
    (h : (leadingBlock? source).any (fun lead =>
      lead.2.close.isSome && decide (lead.2.program.any (fun second =>
        lead.2.inverse.any fun first =>
          decide (first.mark.start < second.mark.start ∧ P lead.1 lead.2 first second)) = true)) =
      true) :
    ∃ hole b first second, ReadsBlock source hole b ∧ IsInverted b first second ∧
      P hole b first second := by
  have hblock : ∃ hole b, ReadsBlock source hole b ∧
      b.program.any (fun second => b.inverse.any fun first =>
        decide (first.mark.start < second.mark.start ∧ P hole b first second)) = true :=
    exists_of_leadingBlock? h
  obtain ⟨hole, b, hread, hsections⟩ := hblock
  obtain ⟨second, hprogram, hsections⟩ := (Option.any_eq_true _ _).1 hsections
  obtain ⟨first, hinverse, hsections⟩ := (Option.any_eq_true _ _).1 hsections
  obtain ⟨horder, hp⟩ := of_decide_eq_true hsections
  exact ⟨hole, b, first, second, hread, ⟨hinverse, hprogram, horder⟩, hp⟩

/-- An inverted block whose opening tag and `else` both trim what comes after them. -/
def invertedEven : String :=
  tag "^x~" ++ " A" ++ tag "else~" ++ " B" ++ tag "/x"

/-- Where the opening tag and the `else` cut alike, the exchange of the sections does not show. -/
theorem laidByAdjacency_invertedEven :
    ∃ hole b first second, ReadsBlock invertedEven hole b ∧ IsInverted b first second ∧
      b.beginsChain = false ∧ LaidByAdjacency {} invertedEven hole b first second := by
  have hlead : ∃ hole b first second, ReadsBlock invertedEven hole b ∧
      IsInverted b first second ∧ b.beginsChain = false ∧
      hole.ExchangeUnseen false b first second :=
    exists_inverted_of_leadingBlock? (by decide +kernel)
  obtain ⟨hole, b, first, second, hread, hinverted, hplain, hunseen⟩ := hlead
  exact ⟨hole, b, first, second, hread, hinverted, hplain,
    (laidByAdjacency_iff hread hinverted hplain).2 hunseen⟩

/-- An inverted block whose opening tag trims what comes after it, and whose `else` does not. -/
def invertedUneven : String :=
  tag "^x~" ++ " A" ++ tag "else" ++ " B" ++ tag "/x"

/-- The marker after the opening tag of an inverted block trims the section after the `else`. -/
theorem not_laidByAdjacency :
    ¬ ∀ (options : ReadOptions) (source : String) (hole : Hole Span) (b : Block Span)
      (first second : Program Span), ReadsBlock source hole b → IsInverted b first second →
        b.beginsChain = false → LaidByAdjacency options source hole b first second := by
  intro hall
  have hlead : ∃ hole b first second, ReadsBlock invertedUneven hole b ∧
      IsInverted b first second ∧ b.beginsChain = false ∧
      hole.textsInverted false b first second (hole.cutsInSource false b first second) =
        [" B", "A"] :=
    exists_inverted_of_leadingBlock? (by decide +kernel)
  obtain ⟨hole, b, first, second, hread, hinverted, hplain, hclaimed⟩ := hlead
  have hrule : texts {} invertedUneven =
      .ok (hole.textsInverted false b first second (hole.cutsInSource false b first second)) :=
    hall {} invertedUneven hole b first second hread hinverted hplain
  have htexts : (texts {} invertedUneven).toOption = some ["B", " A"] := by decide +kernel
  rw [hrule, hclaimed] at htexts
  exact absurd htexts (by decide)

end Stencil.Template
