import Stencil.Proofs.Layout.Padding
import Stencil.Proofs.Syntax.Reading
import Stencil.Proofs.Tree.Shape
import Stencil.Template

/-!
# The shape of trees as they are read

The grammar reads no other closing tag than the one that repeats the name of its block, and builds a
chained section around one block, so every tree that is read has the right shape, before the layout
and after it (`Template.wellShaped_of_read`).

The tree of a template has a height of at most `maxNesting + 2` (`Template.height_of_read`): the
program of the template itself, one program for each of the `maxNesting` constructs that may be
nested in each other, and one for a raw block, which may be written where no other construct may. A
chained section counts as one construct: the program around its block is no deeper than the main
section that it follows.

No partial is indented where it is read, and the layout indents with padding only, so all
indentation in the tree of a template is padding (`Template.padded_of_read`).
-/

set_option autoImplicit false

namespace Stencil.Syntax

open Stencil.Text
open Stencil.Tree

/-! ## Chains -/

/-- A chain that meets its closing tag still holds one block. -/
theorem holdsLink_closeChain (strip : Strip) {p : Program Span} (h : p.HoldsLink) :
    (Program.closeChain strip p).HoldsLink := by
  obtain ⟨body, names, chained, mark⟩ := p
  cases chained with
  | false => exact nofun
  | true =>
    obtain ⟨link, rfl⟩ := h rfl
    exact fun _ => ⟨Block.closeChain strip link, rfl⟩

theorem isSome_closeChainOpt (strip : Strip) (p : Option (Program Span)) :
    (Program.closeChainOpt strip p).isSome = p.isSome := by
  cases p <;> rfl

theorem keptByClosing_wellShaped : KeptByClosing Statement.WellShaped := by
  intro strip b h
  obtain ⟨expr, program, inverse, openStrip, inverseStrip, closeStrip, close, mark⟩ := b
  refine ⟨h.closes, h.hasBody.imp_right (isSome_closeChainOpt strip inverse).trans, ?_⟩
  intro p hp
  cases inverse with
  | none => cases hp
  | some q =>
    cases hp
    exact holdsLink_closeChain strip (h.chain q rfl)

/-! ## Sections -/

/-- Every statement of the section has the right shape, and a chained section holds one block. -/
def ElseSection.WellShaped (s : ElseSection) : Prop :=
  s.program.Every Statement.WellShaped ∧ s.program.HoldsLink

/-- Every statement of the program has the right shape, and the program is not chained. -/
def IsShapedBody (p : Program Span) : Prop := p.Every Statement.WellShaped ∧ p.chained = false

section

variable {main : Program Span} {section? : Option ElseSection}

theorem wellShaped_blockOf (hmain : IsShapedBody main)
    (hsection : ∀ s, section? = some s → s.WellShaped) (closeStrip : Strip) (inverted : Bool)
    {expr : Expr Span} (openStrip : Strip) {close : Path Span} (mark : Span)
    (hclose : close.spelling = expr.spelling) :
    (blockOf main section? closeStrip inverted expr openStrip (some close) mark).WellShaped := by
  refine ⟨?_, ?_, ?_⟩
  · rintro _ ⟨⟩
    exact hclose
  · cases inverted with
    | false => exact .inl rfl
    | true => exact .inr rfl
  · intro p hp
    cases inverted with
    | false =>
      obtain ⟨s, hs, rfl⟩ := Option.map_eq_some_iff.1 hp
      exact holdsLink_closeChain closeStrip (hsection s hs).2
    | true =>
      cases hp
      exact fun hchained => absurd (hchained.symm.trans hmain.2) Bool.noConfusion

theorem wellShaped_linkOf (hsection : ∀ s, section? = some s → s.WellShaped) (expr : Expr Span)
    (openStrip : Strip) (mark : Span) :
    (linkOf main section? expr openStrip mark).WellShaped := by
  refine ⟨fun _ => nofun, .inl rfl, ?_⟩
  intro p hp
  obtain ⟨s, hs, rfl⟩ := Option.map_eq_some_iff.1 hp
  exact (hsection s hs).2

end

/-- What is put together from parts of the right shape has the right shape. -/
def inheritedShape : Inherited where
  statement _ s := s.Every Statement.WellShaped
  program _ := IsShapedBody
  otherwise _ := ElseSection.WellShaped
  ofMustache _ _ := trivial
  ofContent _ _ := trivial
  ofComment _ _ := trivial
  ofPartialCall _ hfew := hfew
  ofPartialBlock h hfew := ⟨hfew, PartialBlock.every_iff.2 h.1⟩
  ofBlock hmain hsection closeStrip inverted expr openStrip close mark hclose :=
    ⟨wellShaped_blockOf hmain hsection closeStrip inverted openStrip mark hclose,
      every_blockOf keptByClosing_wellShaped hmain.1 (fun s hs => (hsection s hs).1)
        closeStrip inverted
        expr openStrip (some close) mark⟩
  ofBody h _ _ := ⟨Statement.allEvery_iff.2 h, rfl⟩
  ofElse h _ := ⟨h.1, fun hchained => absurd (hchained.symm.trans h.2) Bool.noConfusion⟩
  ofChain hmain hsection expr openStrip mark :=
    ⟨⟨⟨wellShaped_linkOf hsection expr openStrip mark,
      every_linkOf hmain.1 (fun s hs => (hsection s hs).1) expr openStrip mark⟩, trivial⟩,
      fun _ => ⟨_, rfl⟩⟩

/-! ## Height -/

mutual

/-- The markers of a closing tag do not nest anything. -/
theorem height_closeChain (strip : Strip) :
    ∀ p : Program Span, (Program.closeChain strip p).height = p.height
  | ⟨body, names, chained, mark⟩ => by
    cases chained with
    | false => rfl
    | true => exact congrArg (· + 1) (heightAll_closeChain strip body)

theorem heightAll_closeChain (strip : Strip) :
    ∀ body : List (Statement Span),
      Statement.heightAll (Statement.closeChain strip body) = Statement.heightAll body
  | [] => rfl
  | .block b :: rest => congrArg (max · (Statement.heightAll rest)) (height_closeBlock strip b)
  | .mustache _ :: _ | .partialCall _ :: _ | .partialBlock _ :: _ | .content _ :: _
  | .comment _ :: _ => rfl

theorem height_closeBlock (strip : Strip) :
    ∀ b : Block Span, (Block.closeChain strip b).height = b.height
  | ⟨_, program, inverse, _, _, _, _, _⟩ =>
    congrArg (max (Program.heightOpt program)) (heightOpt_closeChainOpt strip inverse)

theorem heightOpt_closeChainOpt (strip : Strip) :
    ∀ p : Option (Program Span),
      Program.heightOpt (Program.closeChainOpt strip p) = Program.heightOpt p
  | none => rfl
  | some p => height_closeChain strip p

end

/-- A section after an `else` is no higher than a main section of the same level may be. -/
theorem heightOpt_section_le {section? : Option ElseSection} {n : Nat}
    (h : ∀ s, section? = some s → s.program.height ≤ n + 1) :
    Program.heightOpt (section?.map ElseSection.program) ≤ n + 1 := by
  cases section? with
  | none => exact Nat.zero_le _
  | some s => exact h s rfl

theorem height_blockOf_le {main : Program Span} {section? : Option ElseSection} {n : Nat}
    (hmain : main.height ≤ n + 1) (hsection : ∀ s, section? = some s → s.program.height ≤ n + 1)
    (closeStrip : Strip) (inverted : Bool) (expr : Expr Span) (openStrip : Strip)
    (close : Option (Path Span)) (mark : Span) :
    (blockOf main section? closeStrip inverted expr openStrip close mark).height ≤ n + 1 := by
  have halternative : Program.heightOpt
      (section?.map fun s => Program.closeChain closeStrip s.program) ≤ n + 1 := by
    cases section? with
    | none => exact Nat.zero_le _
    | some s =>
      exact Nat.le_trans (Nat.le_of_eq (height_closeChain closeStrip s.program)) (hsection s rfl)
  cases inverted with
  | false => exact Nat.max_le.2 ⟨hmain, halternative⟩
  | true => exact Nat.max_le.2 ⟨halternative, hmain⟩

theorem height_linkOf_le {main : Program Span} {section? : Option ElseSection} {n : Nat}
    (hmain : main.height ≤ n + 1) (hsection : ∀ s, section? = some s → s.program.height ≤ n + 1)
    (expr : Expr Span) (openStrip : Strip) (mark : Span) :
    (linkOf main section? expr openStrip mark).height ≤ n + 1 :=
  Nat.max_le.2 ⟨hmain, heightOpt_section_le hsection⟩

/-- What is read at a level nests no more programs than the level allows. -/
def inheritedHeight : Inherited where
  statement n s := s.height ≤ n
  program n p := p.height ≤ n + 1
  otherwise n s := s.program.height ≤ n + 1
  ofMustache n _ := Nat.zero_le n
  ofContent n _ := Nat.zero_le n
  ofComment n _ := Nat.zero_le n
  ofPartialCall _ _ := Nat.zero_le _
  ofPartialBlock {_ p} h _ := by
    cases p
    exact h
  ofBlock hmain hsection closeStrip inverted expr openStrip close mark _ :=
    height_blockOf_le hmain hsection closeStrip inverted expr openStrip (some close) mark
  ofBody h _ _ := Nat.succ_le_succ (Statement.heightAll_le_iff.2 h)
  ofElse h _ := h
  ofChain hmain hsection expr openStrip mark := by
    -- The section holds nothing but the link, whose own sections are of the same level.
    have hlink := height_linkOf_le hmain hsection expr openStrip mark
    exact Nat.succ_le_succ (Nat.max_le.2 ⟨hlink, Nat.zero_le _⟩)

/-! ## Indentation -/

/-- What is put together from parts without indentation has none. -/
def inheritedPadded : Inherited where
  statement _ s := s.Every Statement.Padded
  program _ p := p.Every Statement.Padded
  otherwise _ s := s.program.Every Statement.Padded
  ofMustache _ _ := trivial
  ofContent _ _ := trivial
  ofComment _ _ := trivial
  ofPartialCall {_ p} h _ := by
    show p.indent.toList.all isPad = true
    rw [h]
    rfl
  ofPartialBlock h _ := ⟨trivial, PartialBlock.every_iff.2 h⟩
  ofBlock hmain hsection closeStrip inverted _ openStrip _ mark _ :=
    ⟨trivial, every_blockOf (fun _ _ => id) hmain hsection closeStrip inverted _ openStrip _ mark⟩
  ofBody h _ _ := Statement.allEvery_iff.2 h
  ofElse h _ := h
  ofChain hmain hsection expr openStrip mark :=
    ⟨⟨trivial, every_linkOf hmain hsection expr openStrip mark⟩, trivial⟩

end Stencil.Syntax

namespace Stencil.Template

open Stencil.Tree

/-- Every statement of the tree of a template has the right shape. -/
theorem wellShaped_of_read {options : ReadOptions} {source : String} {tree : Tree.Located}
    (h : read options source = .ok tree) : tree.Every Statement.WellShaped := by
  simp only [read, readAsWritten] at h
  split at h
  · cases h
  next spanned hread =>
    cases h
    have hspanned : spanned.Every Statement.WellShaped := (Syntax.inheritedShape.of_read? hread).1
    rw [Program.every_layout Statement.wellShaped_bare]
    exact hspanned.mapMark (Statement.WellShaped.mapMark _)

/-- The nesting that the grammar allows bounds the height of every tree that is read. -/
theorem height_of_read {options : ReadOptions} {source : String} {tree : Tree.Located}
    (h : read options source = .ok tree) : tree.height ≤ Syntax.maxNesting + 2 := by
  simp only [read, readAsWritten] at h
  split at h
  · cases h
  next spanned hread =>
    cases h
    have hspanned : spanned.height ≤ Syntax.maxNesting + 2 := Syntax.inheritedHeight.of_read? hread
    rw [Program.height_layout, Program.height_mapMark]
    exact hspanned

/-- All indentation in the tree of a template is padding. -/
theorem padded_of_read {options : ReadOptions} {source : String} {tree : Tree.Located}
    (h : read options source = .ok tree) : tree.Every Statement.Padded := by
  simp only [read, readAsWritten] at h
  split at h
  · cases h
  next spanned hread =>
    cases h
    have hspanned : spanned.Every Statement.Padded := Syntax.inheritedPadded.of_read? hread
    exact (hspanned.mapMark (Statement.Padded.mapMark _)).padded_layout _ _

end Stencil.Template
