import Stencil.Proofs.Layout.Hole
import Stencil.Proofs.Layout.Marks
import Stencil.Proofs.Layout.Settled
import Stencil.Proofs.Syntax.WellFormed

/-!
# The texts around one block of a template

`Template.texts` are the texts that a template comes to between its tags. For a block with a closing
tag of its own they are read off one row: that of what stands before the block, that of the block
between its own tags, that of what stands after it (`Template.texts_eq`).

Which cuts are made for the three tags of the block shows in four places: in the text before the
block, in its two bodies, in the text after it (`Hole.texts_row_eq_iff`). So a rule about the cuts
of one block is compared with what the layout does place by place.
-/

set_option autoImplicit false

namespace Stencil.Tree

variable {ℓ : Type}

/-! ## Blocks in their places -/

/-- The texts of a tree around a hole when the statement in it has the given row. -/
def Hole.texts (ignoreStandalone : Bool) (hole : Hole ℓ) (s : Statement ℓ) (row : Row) :
    List String :=
  Row.texts .nothing
    (hole.rowBefore ignoreStandalone true {} s ++
      (row ++ hole.rowAfter ignoreStandalone true {} s)) .nothing

/-- The row of the section of a block that stands first in the tree. -/
def Block.firstRow (ignoreStandalone : Bool) (b : Block ℓ) : Row :=
  Program.rowOpt ignoreStandalone ⟨.nothing, Cut.of b.closeStrip.before false⟩ b.program

/-- The row of the section of a block that stands second in the tree. -/
def Block.secondRow (ignoreStandalone : Bool) (b : Block ℓ) : Row :=
  Program.rowOpt ignoreStandalone (b.reach none) b.inverse

/-- What the layout cuts for the three tags of the block in a hole. -/
def Hole.tagCuts (ignoreStandalone : Bool) (hole : Hole ℓ) (b : Block ℓ) : TagCuts :=
  b.tagCuts ignoreStandalone none (hole.blankBefore true) (hole.blankAfter true)

/-- A block that is no link has its own tags around its bodies. -/
theorem Block.row_eq_tagCuts (ignoreStandalone before after : Bool) {b : Block ℓ}
    (h : b.hasElse = true) :
    b.row ignoreStandalone none before after =
      (b.tagCuts ignoreStandalone none before after).row true (b.firstRow ignoreStandalone)
        (b.secondRow ignoreStandalone) := by
  rw [Block.row_eq, Block.rowOver, h]
  rfl

/-! ## Chains -/

theorem Program.WellFormedOpt.isChained_eq {p : Option (Program ℓ)}
    (h : Program.WellFormedOpt p) : Program.isChained p = false := by
  refine Program.isChained_eq_false ?_
  rintro q rfl
  exact Program.WellFormed.chained_eq h

theorem Program.IsLinkOpt.isSome {opening closing : Strip} {p : Option (Program ℓ)}
    (h : Program.IsLinkOpt opening closing p) : p.isSome = true := by
  cases p with
  | none => exact h.elim
  | some p => rfl

/-- Whether a block begins a chain. -/
def Block.beginsChain (b : Block ℓ) : Bool :=
  Program.isChained b.program || Program.isChained b.inverse

/-- A block that begins a chain has two sections. -/
theorem Block.WellFormed.hasElse {b : Block ℓ} (h : b.WellFormed)
    (hchain : b.beginsChain = true) : b.hasElse = true := by
  obtain ⟨expr, program, inverse, openStrip, inverseStrip, closeStrip, close, mark⟩ := b
  rcases h with ⟨hp, hq⟩ | ⟨hsome, _, hq⟩ | ⟨hp, hsome, _⟩
  · -- neither section is chained
    rw [Block.beginsChain, hp.isChained_eq, hq.isChained_eq] at hchain
    exact absurd hchain Bool.false_ne_true
  · exact Bool.and_eq_true_iff.2 ⟨hsome, hq.isSome⟩
  · exact Bool.and_eq_true_iff.2 ⟨hp.isSome, hsome⟩

/-- Where the chain stands first in the tree, the main section stands second. -/
theorem Block.WellFormed.inverse_unchained {b : Block ℓ} (h : b.WellFormed)
    (hchained : Program.isChained b.program = true) : Program.isChained b.inverse = false := by
  obtain ⟨expr, program, inverse, openStrip, inverseStrip, closeStrip, close, mark⟩ := b
  rcases h with ⟨hp, _⟩ | ⟨_, hp, _⟩ | ⟨_, _, hq⟩
  · exact absurd (hp.isChained_eq.symm.trans hchained) Bool.false_ne_true
  · exact absurd (hp.isChained_eq.symm.trans hchained) Bool.false_ne_true
  · exact hq.isChained_eq

/-- How far a closing tag reaches matters to chained sections only. -/
theorem Program.rowOpt_of_unchained {p : Option (Program ℓ)} (h : Program.isChained p = false)
    (ignoreStandalone : Bool) (reach reach' : Reach) :
    Program.rowOpt ignoreStandalone reach p = Program.rowOpt ignoreStandalone reach' p := by
  cases p with
  | none => rfl
  | some p =>
    rw [Program.rowOpt, Program.rowOpt, Program.row_of_unchained h, Program.row_of_unchained h]

/-! ## Four places -/

/-- The texts before, in and after the bodies of a block are read off apart. -/
theorem Row.texts_row (before after first second : Row) (t : TagCuts) :
    Row.texts .nothing (before ++ (t.row true first second ++ after)) .nothing =
      Row.texts .nothing before t.openBefore ++
        (Row.texts t.openAfter first t.elseBefore ++
          (Row.texts t.elseAfter second t.closeBefore ++
            Row.texts t.closeAfter after .nothing)) := by
  have hrow : t.row true first second ++ after =
      .tag t.openBefore t.openAfter ::
        (first ++ .tag t.elseBefore t.elseAfter ::
          (second ++ .tag t.closeBefore t.closeAfter :: after)) := by
    simp [TagCuts.row, TagCuts.inside]
  rw [hrow, Row.texts_append_tag, Row.texts_append_tag, Row.texts_append_tag]

/-- Two lists of cuts for the tags of a block come to the same texts if and only if they do so in
each of the four places. -/
theorem Hole.texts_row_eq_iff (ignoreStandalone : Bool) (hole : Hole ℓ) (s : Statement ℓ)
    (t t' : TagCuts) {first first' second second' : Row}
    (hfirst : first.writtens = first'.writtens) (hsecond : second.writtens = second'.writtens) :
    hole.texts ignoreStandalone s (t.row true first second) =
        hole.texts ignoreStandalone s (t'.row true first' second') ↔
      (Row.texts .nothing (hole.rowBefore ignoreStandalone true {} s) t.openBefore =
          Row.texts .nothing (hole.rowBefore ignoreStandalone true {} s) t'.openBefore ∧
        Row.texts t.openAfter first t.elseBefore = Row.texts t'.openAfter first' t'.elseBefore ∧
        Row.texts t.elseAfter second t.closeBefore =
          Row.texts t'.elseAfter second' t'.closeBefore ∧
        Row.texts t.closeAfter (hole.rowAfter ignoreStandalone true {} s) .nothing =
          Row.texts t'.closeAfter (hole.rowAfter ignoreStandalone true {} s) .nothing) := by
  rw [Hole.texts, Hole.texts, Row.texts_row, Row.texts_row]
  constructor
  · intro h
    -- what is cut off them does not change how many texts there are in a place
    obtain ⟨hbefore, h⟩ := List.append_inj h (by rw [Row.length_texts, Row.length_texts])
    obtain ⟨hone, h⟩ := List.append_inj h (by rw [Row.length_texts, Row.length_texts, hfirst])
    obtain ⟨htwo, hafter⟩ := List.append_inj h (by rw [Row.length_texts, Row.length_texts, hsecond])
    exact ⟨hbefore, hone, htwo, hafter⟩
  · rintro ⟨hbefore, hone, htwo, hafter⟩
    rw [hbefore, hone, htwo, hafter]

end Stencil.Tree

/-! ## Templates -/

namespace Stencil.Template

open Stencil.Text (Span)
open Stencil.Tree

/-- The texts that a template comes to between its tags, in the order of its tree. -/
def texts (options : ReadOptions) (source : String) : Except Syntax.Error (List String) :=
  (read options source).map fun tree => tree.contents.map Content.value

/-- The tree of the template has the block in the hole, and the block has a closing tag. -/
def ReadsBlock (source : String) (hole : Hole Span) (b : Block Span) : Prop :=
  Syntax.read? source.toList = .ok (hole.fill (.block b)) ∧ b.close.isSome = true

/-- A template with a block that has a closing tag comes to the texts of the block's row between
those of what stands before it and after it. -/
theorem texts_eq (options : ReadOptions) {source : String} {hole : Hole Span} {b : Block Span}
    (hread : ReadsBlock source hole b) :
    b.WellFormed ∧
      texts options source =
        .ok (hole.texts options.ignoreStandalone (.block b)
          (b.row options.ignoreStandalone none (hole.blankBefore true)
            (hole.blankAfter true))) := by
  obtain ⟨hb, hlink⟩ := Hole.not_link hread.2 (Or.inl (Syntax.wellFormed_of_read? hread.1))
  refine ⟨hb, ?_⟩
  have hwritten : readAsWritten options source =
      .ok ((hole.fill (.block b)).mapMark fun span =>
        if options.trackLocations then
          some ((Text.LineIndex.ofChars source.toList).locate options.sourceName span)
        else none) := by
    rw [readAsWritten, hread.1]
  -- neither the marks nor the statements around the block show in its row
  rw [texts, read, hwritten]
  have hvalues :=
    Program.values_layout (wellFormed_of_readAsWritten hwritten) options.ignoreStandalone true
  rw [Program.row_mapMark, Hole.row_fill, hlink] at hvalues
  exact congrArg Except.ok hvalues

/-! ## Templates that begin with a block -/

/-- A tag with the given text between its braces. -/
def tag (text : String) : String := "\x7b\x7b" ++ text ++ "\x7d\x7d"

/-- The block that a template begins with, and its place. -/
def leadingBlock? (source : String) : Option (Hole Span × Block Span) :=
  match Syntax.read? source.toList with
  | .ok ⟨.block b :: after, blockParams, chained, mark⟩ =>
    some (.here ⟨[], after, blockParams, chained, mark⟩, b)
  | _ => none

theorem exists_of_leadingBlock? {source : String} {P : Hole Span → Block Span → Prop}
    [∀ hole b, Decidable (P hole b)]
    (h : (leadingBlock? source).any
      (fun lead => lead.2.close.isSome && decide (P lead.1 lead.2)) = true) :
    ∃ hole b, ReadsBlock source hole b ∧ P hole b := by
  obtain ⟨⟨hole, b⟩, hlead, hcheck⟩ := Option.any_eq_true _ _ |>.1 h
  obtain ⟨hclose, hp⟩ := Bool.and_eq_true_iff.1 hcheck
  refine ⟨hole, b, ⟨?_, hclose⟩, of_decide_eq_true hp⟩
  unfold leadingBlock? at hlead
  split at hlead
  · rename_i hread
    cases hlead
    exact hread
  · exact absurd hlead nofun

end Stencil.Template
