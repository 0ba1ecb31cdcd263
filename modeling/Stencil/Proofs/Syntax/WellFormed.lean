import Stencil.Proofs.Syntax.Reading
import Stencil.Proofs.Tree.WellFormed
import Stencil.Template

/-!
# Trees that are read are well-formed

Every tree that the grammar reads is well-formed (`wellFormed_of_read?`), because it inherits that
from its parts (`inheritedWellFormed`). After an `else` there is a well-formed program or a chain
that has not met its closing tag yet; the block that the chain belongs to then passes the markers of
its closing tag on to every link (`isLink_closeChain`).
-/

set_option autoImplicit false

namespace Stencil.Syntax

open Stencil.Text
open Stencil.Tree

theorem allWellFormed_of_forall {ℓ : Type} {body : List (Statement ℓ)}
    (h : ∀ s ∈ body, s.WellFormed) : Statement.AllWellFormed body := by
  induction body with
  | nil => trivial
  | cons s rest ih =>
    exact ⟨h s List.mem_cons_self, ih fun t ht => h t (List.mem_cons_of_mem s ht)⟩

theorem isFresh_contentOfToken (t : Token) : (contentOfToken t).IsFresh := ⟨rfl, rfl, rfl⟩

/-! ## Chains -/

/-- Only chains take over the markers of a closing tag. -/
theorem closeChain_of_unchained (strip : Strip) {p : Program Span} (h : p.chained = false) :
    Program.closeChain strip p = p := by
  obtain ⟨body, names, chained, mark⟩ := p
  exact if_neg (ne_true_of_eq_false h)

mutual

theorem isLink_closeChain (opening strip : Strip) :
    ∀ p : Program Span, p.IsLink opening {} → (Program.closeChain strip p).IsLink opening strip
  | ⟨body, _, chained, _⟩, h => by
    obtain ⟨rfl, hbody⟩ := h
    exact ⟨rfl, areLink_closeChain opening strip body hbody⟩

theorem areLink_closeChain (opening strip : Strip) :
    ∀ body : List (Statement Span), Statement.AreLink opening {} body →
      Statement.AreLink opening strip (Statement.closeChain strip body)
  | .block b :: _, h => ⟨h.1, isLink_closeBlock opening strip b h.2⟩
  | .mustache _ :: _, h | .partialCall _ :: _, h | .comment _ :: _, h | .content _ :: _, h
  | .partialBlock _ :: _, h => h.2.elim

theorem isLink_closeBlock (opening strip : Strip) :
    ∀ b : Block Span, b.IsLink opening {} → (Block.closeChain strip b).IsLink opening strip
  | ⟨_, _, inverse, _, inverseStrip, _, _, _⟩, h => by
    obtain ⟨hopen, _, hclose, hsome, hp, hq⟩ := h
    exact ⟨hopen, rfl, hclose, hsome, hp, isLinkOpt_closeChainOpt inverseStrip strip inverse hq⟩

theorem isLinkOpt_closeChainOpt (opening strip : Strip) :
    ∀ p : Option (Program Span),
      Program.WellFormedOpt p ∨ Program.IsLinkOpt opening {} p →
        Program.WellFormedOpt (Program.closeChainOpt strip p) ∨
          Program.IsLinkOpt opening strip (Program.closeChainOpt strip p)
  | none, _ => Or.inl trivial
  | some p, h => by
    rcases h with h | h
    · have hsame := closeChain_of_unchained strip (Program.WellFormed.chained_eq h)
      rw [Program.closeChainOpt, hsame]
      exact Or.inl h
    · exact Or.inr (isLink_closeChain opening strip p h)

end

/-! ## Sections -/

/-- The section after an `else`: a program, or a chain that has not met its closing tag. -/
def ElseSection.WellFormed (s : ElseSection) : Prop :=
  s.program.WellFormed ∨ s.program.IsLink s.strip {}

/-- The sections of a block, exchanged or not, with the chain closed. -/
theorem wellFormed_blockOf {main : Program Span} {section? : Option ElseSection}
    (hmain : main.WellFormed) (hsection : ∀ s, section? = some s → s.WellFormed)
    (closeStrip : Strip) (inverted : Bool) (expr : Expr Span) (openStrip : Strip)
    (close : Option (Path Span)) (mark : Span) :
    (blockOf main section? closeStrip inverted expr openStrip close mark).WellFormed := by
  cases section? with
  | none =>
    cases inverted with
    | false => exact Or.inl ⟨hmain, trivial⟩
    | true => exact Or.inl ⟨trivial, hmain⟩
  | some s =>
    -- the markers of the closing tag go to a chain and to no other section
    rcases hsection s rfl with hs | hs
    · have hsame := closeChain_of_unchained closeStrip (Program.WellFormed.chained_eq hs)
      cases inverted with
      | false => exact Or.inl ⟨hmain, (congrArg Program.WellFormed hsame).mpr hs⟩
      | true => exact Or.inl ⟨(congrArg Program.WellFormed hsame).mpr hs, hmain⟩
    · have hlink := isLink_closeChain s.strip closeStrip s.program hs
      cases inverted with
      | false => exact Or.inr (Or.inl ⟨rfl, hmain, hlink⟩)
      | true => exact Or.inr (Or.inr ⟨hlink, rfl, hmain⟩)

/-- The chain has not met the closing tag, so the markers of that are still unset. -/
theorem isLink_linkOf {main : Program Span} {section? : Option ElseSection}
    (hmain : main.WellFormed) (hsection : ∀ s, section? = some s → s.WellFormed) (expr : Expr Span)
    (openStrip : Strip) (mark : Span) :
    (linkOf main section? expr openStrip mark).IsLink openStrip {} := by
  refine ⟨rfl, rfl, rfl, rfl, hmain, ?_⟩
  cases section? with
  | none => exact Or.inl trivial
  | some s => exact hsection s rfl

/-- What is put together from well-formed parts is well-formed. -/
def inheritedWellFormed : Inherited where
  statement _ := Statement.WellFormed
  program _ := Program.WellFormed
  otherwise _ := ElseSection.WellFormed
  ofMustache _ _ := trivial
  ofContent _ := isFresh_contentOfToken
  ofComment _ _ := trivial
  ofPartialCall _ _ := trivial
  ofPartialBlock {_ p} h _ := by
    cases p
    exact h
  ofBlock hmain hsection closeStrip inverted expr openStrip close mark _ :=
    wellFormed_blockOf hmain hsection closeStrip inverted expr openStrip (some close) mark
  ofBody h _ _ := ⟨rfl, allWellFormed_of_forall h⟩
  ofElse h _ := Or.inl h
  ofChain hmain hsection expr openStrip mark :=
    Or.inr ⟨rfl, rfl, isLink_linkOf hmain hsection expr openStrip mark⟩

/-! ## Templates -/

/-- Every tree that is read is well-formed. -/
theorem wellFormed_of_read? {text : List Char} {tree : Program Span}
    (h : read? text = .ok tree) : tree.WellFormed :=
  inheritedWellFormed.of_read? h

end Stencil.Syntax

namespace Stencil.Template

open Stencil.Tree

/-- Every template is read as a well-formed tree, with locations or without. -/
theorem wellFormed_of_readAsWritten {options : ReadOptions} {source : String}
    {tree : Tree.Located} (h : readAsWritten options source = .ok tree) : tree.WellFormed := by
  simp only [readAsWritten] at h
  split at h
  · cases h
  · rename_i spanned hread
    cases h
    exact (Syntax.wellFormed_of_read? hread).mapMark _

end Stencil.Template
