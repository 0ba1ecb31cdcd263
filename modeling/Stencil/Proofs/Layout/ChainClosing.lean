import Stencil.Proofs.Layout.Filled

/-!
# The line of the closing tag of a chain

A block whose `else` goes on with a call begins a chain, and its closing tag stands after the last
section of the chain. By the rule for tags that stand alone on their lines
(`Template.ClosesByOwnLine`) that section would lose the padding before the closing tag, and what
follows the line break after it, if nothing but blanks surrounds the tag; else neither would lose
anything.

The layout looks elsewhere. It judges the closing tag by the first section after an `else`
(`Block.closesBlank`), takes the line break after the tag on that account, and takes the padding
before the tag from no section of the chain. So the rule holds of a block exactly where the
difference does not show (`Template.closesByOwnLine_iff`).
-/

set_option autoImplicit false

namespace Stencil.Tree

open Stencil.Text

variable {ℓ : Type}

/-! ## The last section -/

mutual

/-- The section that a chain ends with. A program that is not chained is the last section itself. -/
def Program.lastSection? : Program ℓ → Option (Program ℓ)
  | ⟨body, blockParams, chained, mark⟩ =>
    if chained then Statement.lastSectionOf? body else some ⟨body, blockParams, chained, mark⟩

/-- The chain goes on in its one block. -/
def Statement.lastSectionOf? : List (Statement ℓ) → Option (Program ℓ)
  | .block b :: _ => b.lastSection?
  | _ => none

/-- The chain goes on after the `else` of a block, if there is one. -/
def Block.lastSection? : Block ℓ → Option (Program ℓ)
  | ⟨_, program, inverse, _, _, _, _, _⟩ => Program.lastSectionOr? program inverse

/-- The section after an `else`, or the one before if there is none. -/
def Program.lastSectionOr? (program : Option (Program ℓ)) :
    Option (Program ℓ) → Option (Program ℓ)
  | none => program
  | some inverse => inverse.lastSection?

end

/-- The last section of the chain that a block begins, in the order of the source. -/
def Block.chainEnd? (b : Block ℓ) : Option (Program ℓ) :=
  if Program.isChained b.program then b.program.bind Program.lastSection?
  else b.inverse.bind Program.lastSection?

/-- Whether a program ends with a line break and padding after it. -/
def Program.endsPadded (p : Program ℓ) : Bool :=
  match p.body.reverse with
  | .content c :: _ => (dropEndWhile isPad c.written.toList).getLast? == some '\n'
  | _ => false

namespace Hole

/-- Whether the closing tag of a chain has a line to itself, with nothing but padding before it. -/
def closesOwnLine (hole : Hole ℓ) (b : Block ℓ) : Bool :=
  (b.chainEnd?.map Program.endsPadded).getD false && hole.blankAfter true

/-- Whether nothing but blanks surrounds the closing tag of a chain on its line. -/
def closesAlone (hole : Hole ℓ) (b : Block ℓ) : Bool :=
  (b.chainEnd?.map Program.closesBlank).getD false && hole.blankAfter true

/-! ## The texts next to the closing tag -/

/-- What the three tags of a block cut if the closing tag cuts as given. A chain that stands first
in the tree ends where the `else` of the tree is. -/
def closingCuts (hole : Hole ℓ) (b : Block ℓ) (before after : Cut) : TagCuts :=
  let t := hole.tagCuts false b
  if Program.isChained b.program then { t with elseBefore := before, closeAfter := after }
  else { t with closeBefore := before, closeAfter := after }

/-- The texts of the tree if the closing tag of the block in the hole cuts as given. -/
def textsClosing (hole : Hole ℓ) (b : Block ℓ) (before after : Cut) : List String :=
  hole.texts false (.block b)
    ((hole.closingCuts b before after).row true (b.firstRow false) (b.secondRow false))

/-- The text that stands before the closing tag of a chain. -/
def beforeClosing (hole : Hole ℓ) (b : Block ℓ) : List Char :=
  let t := hole.tagCuts false b
  if Program.isChained b.program then Row.ending t.openAfter (b.firstRow false)
  else Row.ending t.elseAfter (b.secondRow false)

/-- The text that stands after the closing tag. -/
def afterClosing (hole : Hole ℓ) (b : Block ℓ) : List Char :=
  Row.beginning .nothing (hole.rowAfter false true {} (.block b))

/-- What the closing tag cuts shows in the two texts next to it. -/
theorem textsClosing_eq_iff (hole : Hole ℓ) (b : Block ℓ) (before after before' after' : Cut) :
    hole.textsClosing b before after = hole.textsClosing b before' after' ↔
      before.stop (hole.beforeClosing b) = before'.stop (hole.beforeClosing b) ∧
        after.start (hole.afterClosing b) = after'.start (hole.afterClosing b) := by
  rw [textsClosing, textsClosing, Hole.texts_row_eq_iff _ _ _ _ _ rfl rfl, afterClosing,
    ← Row.texts_eq_iff_beginning]
  by_cases hchained : Program.isChained b.program
  · simp only [closingCuts, beforeClosing, if_pos hchained, Row.texts_eq_iff_ending, true_and]
  · simp only [closingCuts, beforeClosing, if_neg hchained, Row.texts_eq_iff_ending, true_and]

/-- The closing tag of a chain cuts nothing before it, and the line break after it if the section
that the layout looks at ends with a blank line. -/
theorem row_eq_closingCuts (hole : Hole ℓ) {b : Block ℓ} (helse : b.hasElse = true)
    (hchain : b.beginsChain = true) (hstrip : b.closeStrip = {}) :
    b.row false none (hole.blankBefore true) (hole.blankAfter true) =
      (hole.closingCuts b .nothing (Cut.of false (b.closesBlank && hole.blankAfter true))).row true
        (b.firstRow false) (b.secondRow false) := by
  rw [Block.row_eq_tagCuts false _ _ helse]
  by_cases hchained : Program.isChained b.program
  · -- the chain ends where the `else` of the tree is
    rw [closingCuts, if_pos hchained]
    simp [tagCuts, Block.tagCuts, hchained, hstrip]
  · have hinverse : Program.isChained b.inverse = true :=
      (Bool.or_eq_true_iff.1 hchain).resolve_left hchained
    rw [closingCuts, if_neg hchained]
    simp [tagCuts, Block.tagCuts, hinverse, hstrip]

end Hole

end Stencil.Tree

/-! ## Templates -/

namespace Stencil.Template

open Stencil.Text (Span)
open Stencil.Tree

/-- The closing tag of a chain is treated by its own line: if it stands there alone, it takes the
padding before it and the line break after it; if not, it takes nothing. -/
def ClosesByOwnLine (options : ReadOptions) (source : String) (hole : Hole Span)
    (b : Block Span) : Prop :=
  (hole.closesOwnLine b = true → texts options source = .ok (hole.textsClosing b .line .line)) ∧
    (hole.closesAlone b = false →
      texts options source = .ok (hole.textsClosing b .nothing .nothing))

/-- The texts of a template with a chain without markers at its closing tag. -/
theorem texts_eq_textsClosing {options : ReadOptions} {source : String} {hole : Hole Span}
    {b : Block Span} (hread : ReadsBlock source hole b) (hchain : b.beginsChain = true)
    (hstrip : b.closeStrip = {}) (hlines : options.ignoreStandalone = false) :
    texts options source =
      .ok (hole.textsClosing b .nothing
        (Cut.of false (b.closesBlank && hole.blankAfter true))) := by
  obtain ⟨hb, htexts⟩ := texts_eq options hread
  rw [htexts, hlines, Hole.row_eq_closingCuts hole (hb.hasElse hchain) hchain hstrip]
  rfl

/-- The closing tag of a chain is treated by its own line if and only if two things hold. Where the
tag has a line to itself, it has no padding to lose, and either the section that the layout looks at
ends with a blank line too or the text after the tag has no line break to lose. Where the tag does
not stand alone, that section does not end with a blank line before a blank rest of the line, or
again no line break is there to lose. -/
theorem closesByOwnLine_iff {options : ReadOptions} {source : String} {hole : Hole Span}
    {b : Block Span} (hread : ReadsBlock source hole b) (hchain : b.beginsChain = true)
    (hstrip : b.closeStrip = {}) (hlines : options.ignoreStandalone = false) :
    ClosesByOwnLine options source hole b ↔
      (hole.closesOwnLine b = true →
          Cut.line.stop (hole.beforeClosing b) = hole.beforeClosing b ∧
            (b.closesBlank = true ∨
              Cut.line.start (hole.afterClosing b) = hole.afterClosing b)) ∧
        (hole.closesAlone b = false → b.closesBlank = true → hole.blankAfter true = true →
          Cut.line.start (hole.afterClosing b) = hole.afterClosing b) := by
  -- In both cases the texts on either side of the tag are compared.
  have same_of : ∀ before after, texts options source = .ok (hole.textsClosing b before after) ↔
      (hole.beforeClosing b = before.stop (hole.beforeClosing b) ∧
        (Cut.of false (b.closesBlank && hole.blankAfter true)).start (hole.afterClosing b) =
          after.start (hole.afterClosing b)) := by
    intro before after
    rw [texts_eq_textsClosing hread hchain hstrip hlines, Except.ok.injEq,
      Hole.textsClosing_eq_iff]
    rfl
  rw [ClosesByOwnLine, same_of, same_of]
  refine and_congr (imp_congr_right fun hown => ?_) (imp_congr_right fun _ => ?_)
  · -- the rest of the line is blank, so the cut after the tag is that of the first section
    have hafter : hole.blankAfter true = true := (Bool.and_eq_true_iff.1 hown).2
    rw [hafter, Bool.and_true]
    refine and_congr eq_comm ?_
    cases b.closesBlank with
    | true => exact iff_of_true rfl (Or.inl rfl)
    | false => exact eq_comm.trans (or_iff_right Bool.false_ne_true).symm
  · cases hblank : b.closesBlank && hole.blankAfter true with
    | true =>
      obtain ⟨hcloses, hafter⟩ := Bool.and_eq_true_iff.1 hblank
      constructor
      · intro h _ _
        exact h.2
      · intro h
        exact ⟨rfl, h hcloses hafter⟩
    | false =>
      refine iff_of_true ⟨rfl, rfl⟩ ?_
      intro hcloses hafter
      rw [hcloses, hafter] at hblank
      exact Bool.noConfusion hblank

/-- A chain whose closing tag stands at the margin. -/
def chainAtMargin : String :=
  tag "#if a" ++ "\nA\n" ++ tag "else if b" ++ "\nB\n" ++ tag "/if" ++ "\nC"

/-- A closing tag at the margin, after a section that ends with a blank line as the first one does,
is treated by its own line. -/
theorem closesByOwnLine_chainAtMargin :
    ∃ hole b, ReadsBlock chainAtMargin hole b ∧ b.beginsChain = true ∧ b.closeStrip = {} ∧
      hole.closesOwnLine b = true ∧ ClosesByOwnLine {} chainAtMargin hole b := by
  have hlead : ∃ hole b, ReadsBlock chainAtMargin hole b ∧
      b.beginsChain = true ∧ b.closeStrip = {} ∧ hole.closesOwnLine b = true ∧
      hole.closesAlone b = true ∧ b.closesBlank = true ∧
      Cut.line.stop (hole.beforeClosing b) = hole.beforeClosing b :=
    exists_of_leadingBlock? (by decide +kernel)
  obtain ⟨hole, b, hread, hchain, hstrip, hown, halone, hblank, hpadding⟩ := hlead
  refine ⟨hole, b, hread, hchain, hstrip, hown, ?_⟩
  refine (closesByOwnLine_iff hread hchain hstrip rfl).2 ⟨?_, ?_⟩
  · intro _
    exact ⟨hpadding, Or.inl hblank⟩
  · intro hnot
    exact absurd (hnot.symm.trans halone) Bool.false_ne_true

/-- A chain whose closing tag is indented. -/
def chainIndented : String :=
  tag "#if a" ++ "\nA\n" ++ tag "else if b" ++ "\nB\n  " ++ tag "/if" ++ "\nC"

/-- The padding before the closing tag of a chain stays, though the tag stands alone. -/
theorem not_closesByOwnLine :
    ¬ ∀ (options : ReadOptions) (source : String) (hole : Hole Span) (b : Block Span),
      ReadsBlock source hole b → b.beginsChain = true → b.closeStrip = {} →
        options.ignoreStandalone = false → ClosesByOwnLine options source hole b := by
  intro hall
  have hlead : ∃ hole b, ReadsBlock chainIndented hole b ∧
      b.beginsChain = true ∧ b.closeStrip = {} ∧ hole.closesOwnLine b = true ∧
      hole.textsClosing b .line .line = ["A\n", "B\n", "C"] :=
    exists_of_leadingBlock? (by decide +kernel)
  obtain ⟨hole, b, hread, hchain, hstrip, hown, hclaimed⟩ := hlead
  have hrule := (hall {} chainIndented hole b hread hchain hstrip rfl).1 hown
  have htexts : (texts {} chainIndented).toOption = some ["A\n", "B\n  ", "C"] := by
    decide +kernel
  rw [hrule, hclaimed] at htexts
  exact absurd htexts (by decide)

end Stencil.Template
