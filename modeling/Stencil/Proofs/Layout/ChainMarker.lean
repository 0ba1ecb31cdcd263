import Stencil.Proofs.Layout.Filled
import Stencil.Proofs.Layout.Sections

/-!
# The strip marker before the closing tag of a chain

A marker before a closing tag trims the end of the section before the tag, which in a chain is the
last one. The sections before it would then lose at their ends what the `else` after each of them
cuts, and nothing more (`Template.MarkerTrimsLastOnly`).

The layout trims more. Every block of a chain carries the marker, and each level trims the first
section that it finds after its own `else`. So every section of the chain is trimmed at its end but
the main one; where the chain stands first in the tree, the main section is trimmed in place of the
first one of the chain (`Hole.trimmedEnds`). The marker trims the last section only if and only if
none of these had more white space at its end than the `else` after it cuts
(`Template.markerTrimsLastOnly_iff`).
-/

set_option autoImplicit false

namespace Stencil.Tree

variable {ℓ : Type}

/-! ## Chains -/

/-- The sections of a chain, each but the last one with what the `else` after it cuts off its end
and off the start of the next one. -/
inductive Chain where
  | last (body : Row)
  | link (body : Row) (before after : Cut) (rest : Chain)

/-- The end of a section before an `else`: the text there, and what the `else` cuts off it. -/
structure SectionEnd where
  text : List Char
  own : Cut
deriving DecidableEq

namespace Chain

/-- The row of a chain that a closing tag reaches into. -/
def row : Reach → Chain → Row
  | _, .last body => body
  | reach, .link body before after rest =>
    body ++ .tag (before.join reach.near) after :: rest.row ⟨reach.far, reach.far⟩

/-- The ends of the sections before the `else`s of a chain. Before the chain comes `lead`. -/
def ends (lead : Cut) : Chain → List SectionEnd
  | .last _ => []
  | .link body before after rest => ⟨Row.ending lead body, before⟩ :: rest.ends after

/-- How far a closing tag reaches into a chain does not change what was written. -/
theorem writtens_row (reach reach' : Reach) (c : Chain) :
    (c.row reach).writtens = (c.row reach').writtens := by
  induction c generalizing reach reach' with
  | last body => rfl
  | link body before after rest ih =>
    rw [row, row, Row.writtens_append, Row.writtens_append, Row.writtens, Row.writtens, ih]

/-- A closing tag that reaches into all of a chain changes nothing if and only if each section
before an `else` ends as that `else` leaves it. -/
theorem texts_row_far_iff (lead trail far : Cut) (c : Chain) :
    Row.texts lead (c.row ⟨far, far⟩) trail = Row.texts lead (c.row {}) trail ↔
      ∀ e ∈ c.ends lead, (e.own.join far).stop e.text = e.own.stop e.text := by
  -- the tag after a section separates it from the rest of the chain
  induction c generalizing lead with
  | last body => exact iff_of_true rfl (fun _ h => absurd h List.not_mem_nil)
  | link body before after rest ih =>
    rw [row, row, Row.texts_append_tag, Row.texts_append_tag, ends, List.forall_mem_cons, ← ih,
      ← Row.texts_eq_iff_ending, Cut.join_nothing]
    constructor
    · intro h
      exact List.append_inj h (by rw [Row.length_texts, Row.length_texts])
    · rintro ⟨hbody, hrest⟩
      rw [hbody, hrest]

/-- A closing tag that spares the section before the first `else` changes nothing if and only if
the sections after that one end as they are left. -/
theorem texts_row_spared_iff (lead trail far : Cut) (c : Chain) :
    Row.texts lead (c.row ⟨.nothing, far⟩) trail = Row.texts lead (c.row {}) trail ↔
      ∀ e ∈ (c.ends lead).tail, (e.own.join far).stop e.text = e.own.stop e.text := by
  cases c with
  | last body => exact iff_of_true rfl (fun _ h => absurd h List.not_mem_nil)
  | link body before after rest =>
    rw [row, row, Row.texts_append_tag, Row.texts_append_tag, ends, List.tail_cons,
      ← texts_row_far_iff after trail far rest]
    exact List.append_right_inj _

end Chain

/-! ## The chain of a program -/

mutual

/-- The chain that a program stands for. A program that is not chained is its last section. -/
def Program.chain (ignoreStandalone : Bool) : Program ℓ → Chain
  | ⟨body, blockParams, chained, mark⟩ =>
    if chained then Statement.chainOf ignoreStandalone body
    else .last (Program.row ignoreStandalone false {} ⟨body, blockParams, chained, mark⟩)

/-- The chain goes on in its one block. -/
def Statement.chainOf (ignoreStandalone : Bool) : List (Statement ℓ) → Chain
  | .block b :: _ => b.chain ignoreStandalone
  | _ => .last []

/-- The chain from a link on. -/
def Block.chain (ignoreStandalone : Bool) : Block ℓ → Chain
  | ⟨expr, program, inverse, openStrip, inverseStrip, closeStrip, close, mark⟩ =>
    let alone := Block.elseAlone ignoreStandalone
      ⟨expr, program, inverse, openStrip, inverseStrip, closeStrip, close, mark⟩
    Program.chainAfter ignoreStandalone (Program.rowOpt ignoreStandalone {} program)
      (Cut.of inverseStrip.before alone) (Cut.of inverseStrip.after alone) inverse

/-- The chain from a section on: it goes on after the `else`, if there is one. -/
def Program.chainAfter (ignoreStandalone : Bool) (body : Row) (before after : Cut) :
    Option (Program ℓ) → Chain
  | none => .last body
  | some p => .link body before after (p.chain ignoreStandalone)

end

mutual

/-- The row of a section is that of the chain it stands for. -/
theorem Program.row_eq_chain (ignoreStandalone : Bool) :
    ∀ p : Program ℓ, p.IsSection → ∀ reach : Reach,
      p.row ignoreStandalone false reach = (p.chain ignoreStandalone).row reach
  | ⟨body, names, chained, mark⟩, h, reach => by
    rcases h with ⟨rfl, _⟩ | ⟨opening, closing, rfl, hbody⟩
    · rfl
    · exact Statement.rows_eq_chain ignoreStandalone names mark body hbody reach

theorem Statement.rows_eq_chain (ignoreStandalone : Bool) (names : List String) (mark : ℓ)
    {opening closing : Strip} :
    ∀ body : List (Statement ℓ), Statement.AreLink opening closing body → ∀ reach : Reach,
      Program.row ignoreStandalone false reach ⟨body, names, true, mark⟩ =
        (Statement.chainOf ignoreStandalone body).row reach
  | [], h, _ => h.elim
  | s :: _, h, reach => by
    obtain ⟨rfl, hs⟩ := h
    obtain ⟨b, rfl, hrow⟩ := Statement.row_eq_chain ignoreStandalone s hs
    rw [Program.row_link]
    exact hrow reach

theorem Statement.row_eq_chain (ignoreStandalone : Bool) {opening closing : Strip} :
    ∀ s : Statement ℓ, s.IsLink opening closing → ∃ b : Block ℓ, s = .block b ∧ ∀ reach : Reach,
      b.row ignoreStandalone (some reach) false false = (b.chain ignoreStandalone).row reach
  | .block b, h => ⟨b, rfl, Block.row_eq_chain ignoreStandalone b h⟩
  | .mustache _, h | .partialCall _, h | .comment _, h | .content _, h
  | .partialBlock _, h => h.elim

theorem Block.row_eq_chain (ignoreStandalone : Bool) {opening closing : Strip} :
    ∀ b : Block ℓ, b.IsLink opening closing → ∀ reach : Reach,
      b.row ignoreStandalone (some reach) false false = (b.chain ignoreStandalone).row reach
  | ⟨expr, program, inverse, openStrip, inverseStrip, closeStrip, close, mark⟩, h, reach => by
    obtain ⟨_, _, _, hsome, hp, hq⟩ := h
    obtain ⟨p, rfl⟩ := Option.isSome_iff_exists.1 hsome
    have hchained : p.chained = false := Program.WellFormed.chained_eq hp
    -- the chain ends with this link if it has no `else`
    have hrest := Program.rowOpt_eq_chain ignoreStandalone inverse hq
    cases inverse with
    | none =>
      rw [Block.row_link_last rfl rfl hchained]
      rfl
    | some q =>
      rw [Block.row_link_next rfl rfl hchained, hrest q rfl]
      simp only [Block.chain, Program.chainAfter, Chain.row, Program.rowOpt, Block.tagCuts,
        Program.isChained, hchained]
      rfl

theorem Program.rowOpt_eq_chain (ignoreStandalone : Bool) {opening closing : Strip} :
    ∀ q : Option (Program ℓ), Program.WellFormedOpt q ∨ Program.IsLinkOpt opening closing q →
      ∀ p, q = some p → ∀ reach : Reach,
        p.row ignoreStandalone false reach = (p.chain ignoreStandalone).row reach
  | none, _ => nofun
  | some q, h => by
    rintro p ⟨⟩
    have hsection : q.IsSection := h.imp id fun hq => ⟨opening, closing, hq⟩
    exact Program.row_eq_chain ignoreStandalone q hsection

end

/-- The chain of a section, if there is one. -/
def Program.chainOpt (ignoreStandalone : Bool) : Option (Program ℓ) → Chain
  | none => .last []
  | some p => p.chain ignoreStandalone

theorem Program.rowOpt_eq_chainOpt (ignoreStandalone : Bool) {q : Option (Program ℓ)}
    (h : ∀ p, q = some p → p.IsSection) (reach : Reach) :
    Program.rowOpt ignoreStandalone reach q =
      (Program.chainOpt ignoreStandalone q).row reach := by
  cases q with
  | none => rfl
  | some p => exact Program.row_eq_chain ignoreStandalone p (h p rfl) reach

/-! ## The marker before the closing tag -/

/-- What the `else` after the main section cuts off its end, where the main section stands second
in the tree. -/
def Block.mainElse (ignoreStandalone : Bool) (b : Block ℓ) : Cut :=
  match b.program, b.inverse with
  | some chain, some main =>
    Cut.of b.inverseStrip.before (!ignoreStandalone && main.closesBlank &&
      (chain.firstSection?.map Program.opensBlank).getD false)
  | _, _ => .nothing

namespace Hole

/-- What the three tags of a block cut if the marker trims the last section of its chain only. -/
def markerCuts (ignoreStandalone : Bool) (hole : Hole ℓ) (b : Block ℓ) : TagCuts :=
  let t := hole.tagCuts ignoreStandalone b
  if Program.isChained b.program then
    { t with elseBefore := .all, closeBefore := b.mainElse ignoreStandalone }
  else { t with closeBefore := .all }

/-- The texts of the tree if the marker trims the last section of the chain only, and each section
before it ends as the `else` after it leaves it. -/
def textsMarked (ignoreStandalone : Bool) (hole : Hole ℓ) (b : Block ℓ) : List String :=
  hole.texts ignoreStandalone (.block b)
    ((hole.markerCuts ignoreStandalone b).row true (Program.rowOpt ignoreStandalone {} b.program)
      (Program.rowOpt ignoreStandalone {} b.inverse))

/-- The sections before the last one that the layout trims at their ends. -/
def trimmedEnds (ignoreStandalone : Bool) (hole : Hole ℓ) (b : Block ℓ) : List SectionEnd :=
  let t := hole.tagCuts ignoreStandalone b
  if Program.isChained b.program then
    ⟨Row.ending t.elseAfter (Program.rowOpt ignoreStandalone {} b.inverse),
        b.mainElse ignoreStandalone⟩ ::
      ((Program.chainOpt ignoreStandalone b.program).ends t.openAfter).tail
  else (Program.chainOpt ignoreStandalone b.inverse).ends t.elseAfter

/-- The texts of the layout are those of the marker that trims the last section only if and only if
no other section had more to trim. -/
theorem texts_eq_textsMarked_iff (ignoreStandalone : Bool) (hole : Hole ℓ) {b : Block ℓ}
    (hb : b.WellFormed) (hmarker : b.closeStrip.before = true) :
    hole.texts ignoreStandalone (.block b)
          ((hole.tagCuts ignoreStandalone b).row true (b.firstRow ignoreStandalone)
            (b.secondRow ignoreStandalone)) =
        hole.textsMarked ignoreStandalone b ↔
      ∀ e ∈ hole.trimmedEnds ignoreStandalone b, Cut.all.stop e.text = e.own.stop e.text := by
  have hfirst : ∀ reach, Program.rowOpt ignoreStandalone reach b.program =
      (Program.chainOpt ignoreStandalone b.program).row reach :=
    Program.rowOpt_eq_chainOpt ignoreStandalone fun p hp => Block.isSection_program hp (Or.inl hb)
  have hsecond : ∀ reach, Program.rowOpt ignoreStandalone reach b.inverse =
      (Program.chainOpt ignoreStandalone b.inverse).row reach :=
    Program.rowOpt_eq_chainOpt ignoreStandalone fun q hq => Block.isSection_inverse hq (Or.inl hb)
  have hclose : (hole.tagCuts ignoreStandalone b).closeBefore = .all := by
    rw [tagCuts, Block.tagCuts, hmarker]
    rfl
  rw [textsMarked, Hole.texts_row_eq_iff, Block.firstRow, Block.secondRow, Block.reach, hmarker]
  · by_cases hchained : Program.isChained b.program
    · -- the chain stands first: its first section is spared, the main section is trimmed
      have helse : (hole.tagCuts ignoreStandalone b).elseBefore = .all := by
        simp [tagCuts, Block.tagCuts, hchained, hmarker]
      have hmain := Program.rowOpt_of_unchained (hb.inverse_unchained hchained) ignoreStandalone
      have hspared := Chain.texts_row_spared_iff (hole.tagCuts ignoreStandalone b).openAfter .all
        .all (Program.chainOpt ignoreStandalone b.program)
      simp only [Cut.join_all] at hspared
      rw [markerCuts, if_pos hchained, trimmedEnds, if_pos hchained, List.forall_mem_cons,
        hclose, helse, hmain _ {}, hfirst, hfirst]
      simp only [Cut.of_true, true_and, and_true, Row.texts_eq_iff_ending]
      rw [hspared, and_comm]
    · -- the chain stands second, and the marker reaches into all of it
      have hmain := Program.rowOpt_of_unchained (eq_false_of_ne_true hchained) ignoreStandalone
      have hfar := Chain.texts_row_far_iff (hole.tagCuts ignoreStandalone b).elseAfter .all .all
        (Program.chainOpt ignoreStandalone b.inverse)
      simp only [Cut.join_all] at hfar
      rw [markerCuts, if_neg hchained, trimmedEnds, if_neg hchained, hclose, hmain _ {}, hsecond,
        hsecond]
      simp only [Cut.of_true, true_and, and_true]
      exact hfar
  · rw [Block.firstRow, hfirst, hfirst]
    exact Chain.writtens_row _ _ _
  · rw [Block.secondRow, hsecond, hsecond]
    exact Chain.writtens_row _ _ _

end Hole

end Stencil.Tree

/-! ## Templates -/

namespace Stencil.Template

open Stencil.Text (Span)
open Stencil.Tree

/-- The marker before the closing tag of a chain trims the end of the last section and of no other
one: the sections before it lose at their ends what the `else` after them cuts. -/
def MarkerTrimsLastOnly (options : ReadOptions) (source : String) (hole : Hole Span)
    (b : Block Span) : Prop :=
  texts options source = .ok (hole.textsMarked options.ignoreStandalone b)

/-- The marker before the closing tag of a chain trims the last section only if and only if, of the
sections that the layout trims beside it, none had more white space at its end than the `else`
after it cuts. -/
theorem markerTrimsLastOnly_iff {options : ReadOptions} {source : String} {hole : Hole Span}
    {b : Block Span} (hread : ReadsBlock source hole b) (hchain : b.beginsChain = true)
    (hmarker : b.closeStrip.before = true) :
    MarkerTrimsLastOnly options source hole b ↔
      ∀ e ∈ hole.trimmedEnds options.ignoreStandalone b,
        Cut.all.stop e.text = e.own.stop e.text := by
  obtain ⟨hb, htexts⟩ := texts_eq options hread
  rw [MarkerTrimsLastOnly, htexts, Except.ok.injEq,
    Block.row_eq_tagCuts _ _ _ (hb.hasElse hchain)]
  exact Hole.texts_eq_textsMarked_iff options.ignoreStandalone hole hb hmarker

/-- A chain of three sections, with white space at the ends of the first one and the last one. -/
def chainSpacedOutside : String :=
  tag "#if a" ++ "x " ++ tag "else if b" ++ "y" ++ tag "else" ++ "z " ++ tag "~/if"

/-- A marker before the closing tag trims the last section only where the ones between it and the
first `else` end with no white space. -/
theorem markerTrimsLastOnly_chainSpacedOutside :
    ∃ hole b, ReadsBlock chainSpacedOutside hole b ∧ b.beginsChain = true ∧
      b.closeStrip.before = true ∧ MarkerTrimsLastOnly {} chainSpacedOutside hole b := by
  have hlead : ∃ hole b, ReadsBlock chainSpacedOutside hole b ∧ b.beginsChain = true ∧
      b.closeStrip.before = true ∧
      ∀ e ∈ hole.trimmedEnds false b, Cut.all.stop e.text = e.own.stop e.text :=
    exists_of_leadingBlock? (by decide +kernel)
  obtain ⟨hole, b, hread, hchain, hmarker, hends⟩ := hlead
  exact ⟨hole, b, hread, hchain, hmarker, (markerTrimsLastOnly_iff hread hchain hmarker).2 hends⟩

/-- A chain of three sections, each with white space at its end. -/
def chainSpaced : String :=
  tag "#if a" ++ "x " ++ tag "else if b" ++ "y " ++ tag "else" ++ "z " ++ tag "~/if"

/-- The marker before the closing tag of a chain trims the section in the middle too. -/
theorem not_markerTrimsLastOnly :
    ¬ ∀ (options : ReadOptions) (source : String) (hole : Hole Span) (b : Block Span),
      ReadsBlock source hole b → b.beginsChain = true → b.closeStrip.before = true →
        MarkerTrimsLastOnly options source hole b := by
  intro hall
  have hlead : ∃ hole b, ReadsBlock chainSpaced hole b ∧ b.beginsChain = true ∧
      b.closeStrip.before = true ∧ hole.textsMarked false b = ["x ", "y ", "z"] :=
    exists_of_leadingBlock? (by decide +kernel)
  obtain ⟨hole, b, hread, hchain, hmarker, hclaimed⟩ := hlead
  have hrule : texts {} chainSpaced = .ok (hole.textsMarked false b) :=
    hall {} chainSpaced hole b hread hchain hmarker
  have htexts : (texts {} chainSpaced).toOption = some ["x ", "y", "z"] := by decide +kernel
  rw [hrule, hclaimed] at htexts
  exact absurd htexts (by decide)

end Stencil.Template
