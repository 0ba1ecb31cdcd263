import Stencil.Proofs.Layout.Settled
import Stencil.Proofs.Tree.Plain

/-!
# White space by adjacency

Without chains the layout of a tree comes to one local rule. `Program.pieces` flattens a tree to its
texts and its tags in the order of the tree; what a text becomes depends on the tag right before it
and the tag right after it, and on the texts on the other sides of these two (`settledTexts`). A
marker takes all blanks on its side. A tag that stands alone takes the rest of its line and its
indentation. No nesting and no order of cuts is left in the rule.
-/

set_option autoImplicit false

namespace Stencil.Tree

open Stencil.Text

variable {ℓ : Type}

/-! ## The rule -/

/-- A text as it was written, or a tag with its markers. Only some tags have a line to take away:
comments, partials, and the tags of blocks. -/
inductive Piece where
  | text (written : List Char)
  | tag (strip : Strip) (line : Bool)
deriving DecidableEq

namespace Piece

/-- Whether the pieces before a place, the nearest first, end their line with blanks only: the
nearest is a text with a line break in its trailing blanks, or one of blanks only with which the
template begins, or there is none. -/
def blankBefore : List Piece → Bool
  | [] => true
  | .text written :: more =>
    (trailingBlanks written).contains '\n' ||
      (more.isEmpty && (trailingBlanks written).length == written.length)
  | .tag _ _ :: _ => false

/-- Whether the pieces after a place begin with blanks only up to the end of the line. -/
def blankAfter : List Piece → Bool
  | [] => true
  | .text written :: more =>
    (leadingBlanks written).contains '\n' ||
      (more.isEmpty && (leadingBlanks written).length == written.length)
  | .tag _ _ :: _ => false

/-- Whether a tag between these pieces stands alone. -/
def standsAlone (ignoreStandalone : Bool) (before after : List Piece) (line : Bool) : Bool :=
  !ignoreStandalone && line && blankBefore before && blankAfter after

/-- What the piece right before a text takes off its start. `after` begins with the text. -/
def leadingCut (ignoreStandalone : Bool) (before after : List Piece) : Cut :=
  match before with
  | .tag strip line :: more =>
    Cut.of strip.after (standsAlone ignoreStandalone more after line)
  | _ => .nothing

/-- What the piece right after a text takes off its end. `before` begins with the text. -/
def trailingCut (ignoreStandalone : Bool) (before after : List Piece) : Cut :=
  match after with
  | .tag strip line :: more =>
    Cut.of strip.before (standsAlone ignoreStandalone before more line)
  | _ => .nothing

/-- The texts among the pieces after others, each with what becomes of it. -/
def settledTexts (ignoreStandalone : Bool) (before : List Piece) :
    List Piece → List (String × String)
  | [] => []
  | .text written :: rest =>
    let lead := leadingCut ignoreStandalone before (.text written :: rest)
    let trail := trailingCut ignoreStandalone (.text written :: before) rest
    (String.ofList written, String.ofList (trail.stop (lead.start written))) ::
      settledTexts ignoreStandalone (.text written :: before) rest
  | .tag strip line :: rest => settledTexts ignoreStandalone (.tag strip line :: before) rest

end Piece

mutual

/-- The pieces of a program. -/
def Program.pieces : Program ℓ → List Piece
  | ⟨body, _, _, _⟩ => Statement.piecesOf body

/-- The pieces of statements in a row. -/
def Statement.piecesOf : List (Statement ℓ) → List Piece
  | [] => []
  | s :: rest => s.pieces ++ Statement.piecesOf rest

/-- The pieces of a statement. -/
def Statement.pieces : Statement ℓ → List Piece
  | .mustache m => [.tag m.strip false]
  | .block b => b.pieces
  | .partialCall p => [.tag p.strip true]
  | .partialBlock p => p.pieces
  | .content c => [.text c.written.toList]
  | .comment c => [.tag c.strip true]

/-- The pieces of a block: its opening tag, its program, its `else` if there are two sections, its
inverse, its closing tag. -/
def Block.pieces : Block ℓ → List Piece
  | ⟨_, program, inverse, openStrip, inverseStrip, closeStrip, _, _⟩ =>
    .tag openStrip true ::
      (Program.piecesOpt program ++
        ((if program.isSome && inverse.isSome then [.tag inverseStrip true] else []) ++
          (Program.piecesOpt inverse ++ [.tag closeStrip true])))

/-- The pieces of a partial block. -/
def PartialBlock.pieces : PartialBlock ℓ → List Piece
  | ⟨_, _, _, program, openStrip, closeStrip, _⟩ =>
    .tag openStrip true :: (program.pieces ++ [.tag closeStrip true])

/-- The pieces of a section, if there is one. -/
def Program.piecesOpt : Option (Program ℓ) → List Piece
  | none => []
  | some p => p.pieces

end

/-! ## The rule as a row -/

namespace Piece

/-- The item of a row that a piece is between others. -/
def item (ignoreStandalone : Bool) (before after : List Piece) : Piece → Item
  | .text written => .text written
  | .tag strip line =>
    let alone := standsAlone ignoreStandalone before after line
    .tag (Cut.of strip.before alone) (Cut.of strip.after alone)

/-- The row of pieces between others. -/
def rows (ignoreStandalone : Bool) (before after : List Piece) : List Piece → Row
  | [] => []
  | x :: xs =>
    x.item ignoreStandalone before (xs ++ after) :: rows ignoreStandalone (x :: before) after xs

theorem rows_append (ignoreStandalone : Bool) (before after xs ys : List Piece) :
    rows ignoreStandalone before after (xs ++ ys) =
      rows ignoreStandalone before (ys ++ after) xs ++
        rows ignoreStandalone (xs.reverse ++ before) after ys := by
  induction xs generalizing before with
  | nil => rfl
  | cons x xs ih =>
    rw [List.cons_append, rows, rows, ih, List.append_assoc, List.cons_append, List.reverse_cons,
      List.append_assoc]
    rfl

theorem firstCut_rows (ignoreStandalone : Bool) (before pieces : List Piece) :
    (rows ignoreStandalone before [] pieces).firstCut .nothing =
      trailingCut ignoreStandalone before pieces := by
  cases pieces with
  | nil => rfl
  | cons x xs =>
    cases x with
    | text written => rfl
    | tag strip line =>
      rw [rows, List.append_nil]
      rfl

/-- The rule reads off the texts of the row. -/
theorem settledTexts_eq_zip (ignoreStandalone : Bool) (before pieces : List Piece) :
    settledTexts ignoreStandalone before pieces =
      (rows ignoreStandalone before [] pieces).writtens.zip
        ((rows ignoreStandalone before [] pieces).texts
          (leadingCut ignoreStandalone before pieces) .nothing) := by
  induction pieces generalizing before with
  | nil => rfl
  | cons x xs ih =>
    cases x with
    | text written =>
      rw [settledTexts, rows, item, Row.writtens, Row.texts, List.zip_cons_cons, firstCut_rows, ih]
      rfl
    | tag strip line =>
      rw [settledTexts, ih, rows, List.append_nil]
      rfl

end Piece

/-! ## Lines in a tree and among pieces -/

/-- The statements and the pieces before a place, the nearest first, read the same to a line. -/
structure AgreeBefore (root : Bool) (before : List (Statement ℓ)) (pieces : List Piece) : Prop where
  blank : Piece.blankBefore pieces = blankBefore root before
  empty : pieces.isEmpty = (before.isEmpty && root)

/-- The statements and the pieces after a place read the same to a line. -/
structure AgreeAfter (root : Bool) (after : List (Statement ℓ)) (pieces : List Piece) : Prop where
  blank : Piece.blankAfter pieces = blankAfter root after
  empty : pieces.isEmpty = (after.isEmpty && root)

/-- A statement that is no content begins and ends with a tag. -/
theorem Statement.pieces_of_tag {s : Statement ℓ} (h : s.look = none) :
    (∃ strip line rest, s.pieces = .tag strip line :: rest) ∧
      ∃ strip line rest, s.pieces = rest ++ [.tag strip line] := by
  cases s with
  | content c => exact absurd h (Option.some_ne_none _)
  | mustache m => exact ⟨⟨_, _, [], rfl⟩, ⟨_, _, [], rfl⟩⟩
  | partialCall p => exact ⟨⟨_, _, [], rfl⟩, ⟨_, _, [], rfl⟩⟩
  | comment c => exact ⟨⟨_, _, [], rfl⟩, ⟨_, _, [], rfl⟩⟩
  | block b =>
    obtain ⟨expr, program, inverse, openStrip, inverseStrip, closeStrip, close, mark⟩ := b
    refine ⟨⟨_, _, _, rfl⟩, ⟨closeStrip, true, .tag openStrip true ::
      (Program.piecesOpt program ++
        ((if program.isSome && inverse.isSome then [.tag inverseStrip true] else []) ++
          Program.piecesOpt inverse)), ?_⟩⟩
    rw [Statement.pieces, Block.pieces]
    simp only [List.append_assoc, List.cons_append]
  | partialBlock p =>
    obtain ⟨name, params, hash, program, openStrip, closeStrip, mark⟩ := p
    exact ⟨⟨_, _, _, rfl⟩, ⟨_, _, _ :: _, rfl⟩⟩

theorem AgreeBefore.cons {root : Bool} {before : List (Statement ℓ)} {pieces : List Piece}
    (h : AgreeBefore root before pieces) (s : Statement ℓ) :
    AgreeBefore root (s :: before) (s.pieces.reverse ++ pieces) := by
  by_cases hs : s.look = none
  · obtain ⟨_, strip, line, rest, hpieces⟩ := Statement.pieces_of_tag hs
    rw [hpieces, List.reverse_append]
    cases s with
    | content c => exact absurd hs (Option.some_ne_none _)
    | _ => exact ⟨rfl, rfl⟩
  · cases s with
    | content c =>
      refine ⟨?_, rfl⟩
      simp only [Statement.pieces, List.reverse_singleton, List.singleton_append,
        Piece.blankBefore, Tree.blankBefore, h.empty]
    | _ => exact absurd rfl hs

theorem AgreeAfter.cons {root : Bool} {after : List (Statement ℓ)} {pieces : List Piece}
    (h : AgreeAfter root after pieces) (s : Statement ℓ) :
    AgreeAfter root (s :: after) (s.pieces ++ pieces) := by
  by_cases hs : s.look = none
  · obtain ⟨⟨strip, line, rest, hpieces⟩, _⟩ := Statement.pieces_of_tag hs
    rw [hpieces]
    cases s with
    | content c => exact absurd hs (Option.some_ne_none _)
    | _ => exact ⟨rfl, rfl⟩
  · cases s with
    | content c =>
      refine ⟨?_, rfl⟩
      simp only [Statement.pieces, List.singleton_append, Piece.blankAfter, Tree.blankAfter,
        h.empty]
    | _ => exact absurd rfl hs

theorem AgreeAfter.append {root : Bool} {after : List (Statement ℓ)} {pieces : List Piece}
    (h : AgreeAfter root after pieces) (body : List (Statement ℓ)) :
    AgreeAfter root (body ++ after) (Statement.piecesOf body ++ pieces) := by
  induction body with
  | nil => exact h
  | cons s rest ih =>
    rw [Statement.piecesOf, List.append_assoc]
    exact ih.cons s

theorem AgreeBefore.append {root : Bool} {before : List (Statement ℓ)} {pieces : List Piece}
    (h : AgreeBefore root before pieces) (body : List (Statement ℓ)) :
    AgreeBefore root (body.reverse ++ before)
      ((Statement.piecesOf body).reverse ++ pieces) := by
  induction body generalizing before pieces with
  | nil => exact h
  | cons s rest ih =>
    rw [Statement.piecesOf, List.reverse_cons, List.reverse_append, List.append_assoc,
      List.append_assoc]
    exact ih (h.cons s)

/-- Inside of a block nothing is blank on the other side of a tag. -/
theorem AgreeBefore.tag (strip : Strip) (line : Bool) (more : List Piece) :
    AgreeBefore false ([] : List (Statement ℓ)) (.tag strip line :: more) :=
  ⟨rfl, rfl⟩

theorem AgreeAfter.tag (strip : Strip) (line : Bool) (more : List Piece) :
    AgreeAfter false ([] : List (Statement ℓ)) (.tag strip line :: more) :=
  ⟨rfl, rfl⟩

theorem Program.pieces_eq (p : Program ℓ) : p.pieces = Statement.piecesOf p.body := by
  cases p
  rfl

theorem Program.opensBlank_eq_pieces (p : Program ℓ) (strip : Strip) (line : Bool)
    (more : List Piece) :
    Piece.blankAfter (p.pieces ++ .tag strip line :: more) = p.opensBlank := by
  have hagree := (AgreeAfter.tag strip line more).append p.body
  rw [List.append_nil] at hagree
  rw [Program.pieces_eq]
  exact hagree.blank

theorem Program.closesBlank_eq_pieces (p : Program ℓ) (strip : Strip) (line : Bool)
    (more : List Piece) :
    Piece.blankBefore (p.pieces.reverse ++ .tag strip line :: more) = p.closesBlank := by
  have hagree := (AgreeBefore.tag strip line more).append p.body
  rw [List.append_nil] at hagree
  rw [Program.pieces_eq]
  exact hagree.blank

/-! ## The row of a plain tree -/

theorem Piece.rows_tag (ignoreStandalone : Bool) (before after : List Piece) (strip : Strip)
    (line : Bool) :
    Piece.rows ignoreStandalone before after [.tag strip line] =
      tagRow strip (Piece.standsAlone ignoreStandalone before after line) :=
  rfl

/-- Pieces between two tags. -/
theorem Piece.rows_enclosed (ignoreStandalone : Bool) (before after pieces : List Piece)
    (opening closing : Strip) :
    Piece.rows ignoreStandalone before after
        (.tag opening true :: (pieces ++ [.tag closing true])) =
      tagRow opening (Piece.standsAlone ignoreStandalone before
          (pieces ++ .tag closing true :: after) true) ++
        Piece.rows ignoreStandalone (.tag opening true :: before) (.tag closing true :: after)
          pieces ++
        tagRow closing (Piece.standsAlone ignoreStandalone
          (pieces.reverse ++ .tag opening true :: before) after true) := by
  rw [Piece.rows, Piece.rows_append, Piece.rows_tag, List.append_assoc, List.append_assoc]
  rfl

theorem Piece.standsAlone_line (ignoreStandalone : Bool) (before after : List Piece) :
    Piece.standsAlone ignoreStandalone before after true =
      (!ignoreStandalone && Piece.blankAfter after && Piece.blankBefore before) := by
  rw [Piece.standsAlone, Bool.and_true, Bool.and_right_comm]

/-- Between any two tags the row of the section, which is not chained, is that of its pieces. -/
structure Program.IsFlat (ignoreStandalone : Bool) (p : Program ℓ) : Prop where
  unchained : p.chained = false
  row : ∀ (reach : Reach) (opening closing : Strip) (before after : List Piece),
    p.row ignoreStandalone false reach =
      Piece.rows ignoreStandalone (.tag opening true :: before) (.tag closing true :: after)
        p.pieces

/-- The pieces between the opening and the closing tag of a block. -/
def Block.innerPieces (b : Block ℓ) : List Piece :=
  Program.piecesOpt b.program ++
    ((if b.hasElse then [.tag b.inverseStrip true] else []) ++ Program.piecesOpt b.inverse)

theorem Block.pieces_eq (b : Block ℓ) :
    b.pieces = .tag b.openStrip true :: (b.innerPieces ++ [.tag b.closeStrip true]) := by
  obtain ⟨expr, program, inverse, openStrip, inverseStrip, closeStrip, close, mark⟩ := b
  simp [Block.pieces, Block.innerPieces, Block.hasElse]

section Flat

variable {ignoreStandalone : Bool} {b : Block ℓ}

theorem Block.opensBlank_eq_pieces (after : List Piece) :
    Piece.blankAfter (b.innerPieces ++ .tag b.closeStrip true :: after) = b.opensBlank := by
  rw [Block.innerPieces, Block.opensBlank, Block.hasElse]
  cases b.program with
  | none =>
    cases b.inverse with
    | none => rfl
    | some q => exact q.opensBlank_eq_pieces _ _ _
  | some p =>
    rw [List.append_assoc]
    cases b.inverse with
    | none => exact p.opensBlank_eq_pieces _ _ _
    | some q => exact p.opensBlank_eq_pieces _ _ _

theorem Block.closesBlank_eq_pieces (hq : ∀ q, b.inverse = some q → q.chained = false)
    (before : List Piece) :
    Piece.blankBefore (b.innerPieces.reverse ++ .tag b.openStrip true :: before) =
      b.closesBlank := by
  rw [Block.innerPieces, Block.closesBlank, Block.hasElse]
  cases hinverse : b.inverse with
  | none =>
    cases b.program with
    | none => rfl
    | some p => simpa [Program.piecesOpt] using p.closesBlank_eq_pieces _ _ _
  | some q =>
    have hfirst : q.firstSection? = some q :=
      Program.firstSection?_of_unchained (hq q hinverse)
    cases b.program with
    | none => simpa [Program.piecesOpt] using q.closesBlank_eq_pieces _ _ _
    | some p => simpa [Program.piecesOpt, hfirst] using q.closesBlank_eq_pieces _ _ _

/-- The sections of a block of flat sections, with the `else` between them. -/
theorem Block.inside_eq_pieces (hp : ∀ p, b.program = some p → p.IsFlat ignoreStandalone)
    (hq : ∀ q, b.inverse = some q → q.IsFlat ignoreStandalone) (before after : List Piece)
    (blank blank' : Bool) :
    (b.tagCuts ignoreStandalone none blank blank').inside b.hasElse
        (Program.rowOpt ignoreStandalone ⟨.nothing, Cut.of b.closeStrip.before false⟩ b.program)
        (Program.rowOpt ignoreStandalone (b.reach none) b.inverse) =
      Piece.rows ignoreStandalone (.tag b.openStrip true :: before)
        (.tag b.closeStrip true :: after) b.innerPieces := by
  rw [Block.tagCuts_of_unchained (Program.isChained_eq_false fun p h => (hp p h).unchained)
      (Program.isChained_eq_false fun q h => (hq q h).unchained),
    TagCuts.inside, Block.innerPieces, Block.hasElse]
  cases hprogram : b.program with
  | none =>
    cases hinverse : b.inverse with
    | none => rfl
    | some q => exact (hq q hinverse).row _ _ _ _ _
  | some p =>
    have hrow := (hp p hprogram).row
    cases hinverse : b.inverse with
    | none => simpa [Program.piecesOpt, Program.rowOpt] using hrow _ _ _ _ _
    | some q =>
      have hfirst : q.firstSection? = some q :=
        Program.firstSection?_of_unchained (hq q hinverse).unchained
      -- the `else` reads the end of one section and the start of the other
      have halone : Piece.standsAlone ignoreStandalone
          (p.pieces.reverse ++ .tag b.openStrip true :: before)
          (q.pieces ++ .tag b.closeStrip true :: after) true = b.elseAlone ignoreStandalone := by
        rw [Piece.standsAlone, Bool.and_true, p.closesBlank_eq_pieces, q.opensBlank_eq_pieces,
          Block.elseAlone, hprogram, hinverse]
        simp only [hfirst, Option.map_some, Option.getD_some]
      have hp' := hrow ⟨.nothing, Cut.of b.closeStrip.before false⟩ b.openStrip b.inverseStrip
        before (q.pieces ++ .tag b.closeStrip true :: after)
      have hq' := (hq q hinverse).row (b.reach none) b.inverseStrip b.closeStrip
        (p.pieces.reverse ++ .tag b.openStrip true :: before) after
      simp only [Program.rowOpt, Program.piecesOpt, Option.isSome_some, Bool.and_self, if_true]
      rw [Piece.rows_append, Piece.rows_append, Piece.rows_tag, halone, hp', hq', List.append_assoc]
      rfl

/-- The tags of a block of flat sections read the texts next to them. -/
theorem Block.row_eq_pieces_of_isFlat
    (hp : ∀ p, b.program = some p → p.IsFlat ignoreStandalone)
    (hq : ∀ q, b.inverse = some q → q.IsFlat ignoreStandalone) (before after : List Piece) :
    b.row ignoreStandalone none (Piece.blankBefore before) (Piece.blankAfter after) =
      Piece.rows ignoreStandalone before after b.pieces := by
  have hopens : Piece.standsAlone ignoreStandalone before
      (b.innerPieces ++ .tag b.closeStrip true :: after) true =
        (!ignoreStandalone && b.opensBlank && Piece.blankBefore before) := by
    rw [Piece.standsAlone, Bool.and_true, Block.opensBlank_eq_pieces, Bool.and_right_comm]
  have hcloses : Piece.standsAlone ignoreStandalone
      (b.innerPieces.reverse ++ .tag b.openStrip true :: before) after true =
        (!ignoreStandalone && b.closesBlank && Piece.blankAfter after) := by
    rw [Piece.standsAlone, Bool.and_true,
      Block.closesBlank_eq_pieces fun q h => (hq q h).unchained]
  rw [Block.row_eq, Block.rowOver, Block.pieces_eq, Piece.rows_enclosed, hopens, hcloses,
    ← Block.inside_eq_pieces hp hq before after (Piece.blankBefore before) (Piece.blankAfter after),
    Block.tagCuts_of_unchained (Program.isChained_eq_false fun p h => (hp p h).unchained)
      (Program.isChained_eq_false fun q h => (hq q h).unchained),
    List.append_assoc]
  rfl

end Flat

mutual

/-- The row of a plain program is that of its pieces, whatever pieces stand around it. -/
theorem Program.row_eq_pieces (ignoreStandalone root : Bool) (reach : Reach) :
    ∀ p : Program ℓ, p.IsPlain → ∀ before after : List Piece,
      AgreeBefore root ([] : List (Statement ℓ)) before →
      AgreeAfter root ([] : List (Statement ℓ)) after →
        p.row ignoreStandalone root reach = Piece.rows ignoreStandalone before after p.pieces
  | ⟨body, _, _, _⟩, h, before, after, hbefore, hafter => by
    -- a list of its own has nothing before it and nothing after it but what stands around it
    obtain ⟨rfl, hbody⟩ := h
    exact Statement.rows_eq_pieces ignoreStandalone root body hbody [] [] before after hbefore
      hafter

theorem Statement.rows_eq_pieces (ignoreStandalone root : Bool) :
    ∀ body : List (Statement ℓ), Statement.ArePlain body →
      ∀ (prev next : List (Statement ℓ)) (before after : List Piece),
        AgreeBefore root prev before → AgreeAfter root next after →
          Statement.rows ignoreStandalone root none prev next body =
            Piece.rows ignoreStandalone before after (Statement.piecesOf body)
  | [], _, _, _, _, _, _, _ => rfl
  | s :: rest, h, prev, next, before, after, hbefore, hafter => by
    have hrest := hafter.append rest
    rw [Statement.rows, Statement.piecesOf, Piece.rows_append, ← hbefore.blank, ← hrest.blank,
      Statement.row_eq_pieces ignoreStandalone s h.1]
    exact congrArg _ (Statement.rows_eq_pieces ignoreStandalone root rest h.2 (s :: prev) next
      (s.pieces.reverse ++ before) after (hbefore.cons s) hafter)

theorem Statement.row_eq_pieces (ignoreStandalone : Bool) :
    ∀ s : Statement ℓ, s.IsPlain → ∀ before after : List Piece,
      s.row ignoreStandalone none (Piece.blankBefore before) (Piece.blankAfter after) =
        Piece.rows ignoreStandalone before after s.pieces
  | .mustache m, _, before, after => by
    rw [Statement.row, Statement.pieces, Piece.rows_tag, Piece.standsAlone, Bool.and_false,
      Bool.false_and, Bool.false_and]
  | .partialCall p, _, before, after => by
    rw [Statement.row, Statement.pieces, Piece.rows_tag, Piece.standsAlone, Bool.and_true]
  | .comment c, _, before, after => by
    rw [Statement.row, Statement.pieces, Piece.rows_tag, Piece.standsAlone, Bool.and_true]
  | .content _, _, _, _ => rfl
  | .block b, h, before, after => Block.row_eq_pieces ignoreStandalone b h before after
  | .partialBlock p, h, before, after =>
    PartialBlock.row_eq_pieces ignoreStandalone p h before after

theorem Block.row_eq_pieces (ignoreStandalone : Bool) :
    ∀ b : Block ℓ, b.IsPlain → ∀ before after : List Piece,
      b.row ignoreStandalone none (Piece.blankBefore before) (Piece.blankAfter after) =
        Piece.rows ignoreStandalone before after b.pieces
  | ⟨_, program, inverse, _, _, _, _, _⟩, h, before, after =>
    Block.row_eq_pieces_of_isFlat (Program.isFlat_of_isPlain ignoreStandalone program h.1)
      (Program.isFlat_of_isPlain ignoreStandalone inverse h.2) before after

theorem PartialBlock.row_eq_pieces (ignoreStandalone : Bool) :
    ∀ p : PartialBlock ℓ, p.IsPlain → ∀ before after : List Piece,
      p.row ignoreStandalone (Piece.blankBefore before) (Piece.blankAfter after) =
        Piece.rows ignoreStandalone before after p.pieces
  | ⟨name, params, hash, program, openStrip, closeStrip, mark⟩, h, before, after => by
    have hbody := Program.row_eq_pieces ignoreStandalone false {} program h
      (.tag openStrip true :: before) (.tag closeStrip true :: after) (.tag _ _ _) (.tag _ _ _)
    rw [PartialBlock.row, PartialBlock.rowOver, hbody, PartialBlock.pieces, Piece.rows_enclosed,
      Piece.standsAlone_line, Program.opensBlank_eq_pieces, Piece.standsAlone, Bool.and_true,
      Program.closesBlank_eq_pieces]

theorem Program.isFlat_of_isPlain (ignoreStandalone : Bool) :
    ∀ program : Option (Program ℓ), Program.IsPlainOpt program → ∀ p, program = some p →
      p.IsFlat ignoreStandalone
  | none, _ => nofun
  | some p, h => by
    intro p' hp
    obtain rfl := Option.some.inj hp
    refine ⟨(Program.IsPlain.wellFormed h).chained_eq, ?_⟩
    intro reach opening closing before after
    exact Program.row_eq_pieces ignoreStandalone false reach p h _ _ (.tag _ _ _) (.tag _ _ _)

end

/-- In a tree without chained programs whose content is as it was
read, each content becomes what the rule makes of its text between the tags next to it. -/
theorem Program.layout_contents_eq_settledTexts (ignoreStandalone : Bool) (p : Program ℓ)
    (hchained : ∀ q, Node.program q ∈ p.nodes → q.chained = false)
    (hfresh : ∀ c ∈ p.contents, c.IsFresh) :
    (p.layout ignoreStandalone true).contents.map (fun c => (c.written, c.value)) =
      Piece.settledTexts ignoreStandalone [] p.pieces := by
  have hplain : p.IsPlain := Program.isPlain_of_nodes hchained hfresh
  have hrow : p.row ignoreStandalone true {} = Piece.rows ignoreStandalone [] [] p.pieces :=
    Program.row_eq_pieces ignoreStandalone true {} p hplain [] [] ⟨rfl, rfl⟩ ⟨rfl, rfl⟩
  -- the layout comes to the row of the tree, and the rule reads off the row of the pieces
  have hwritten := Program.writtens_layout hplain.wellFormed ignoreStandalone true
  have hvalue := Program.values_layout hplain.wellFormed ignoreStandalone true
  rw [hrow] at hwritten hvalue
  rw [Piece.settledTexts_eq_zip, ← hwritten]
  exact List.zip_map'.symm.trans (congrArg _ hvalue)

/-- A block on lines of its own between two texts, with a marker before its closing tag. -/
def indentedBlock : Program Unit :=
  { body := [
      .content (.ofText "a\n  " ()),
      .block { expr := .null ()
               program := some ⟨[.content (.ofText " \n b\n" ())], [], false, ()⟩
               inverse := none
               openStrip := {}, inverseStrip := {}, closeStrip := { before := true }
               close := none
               mark := () },
      .content (.ofText " \nc" ())]
    blockParams := [], chained := false, mark := () }

theorem layout_indentedBlock :
    (∀ q, Node.program q ∈ indentedBlock.nodes → q.chained = false) ∧
      (∀ c ∈ indentedBlock.contents, c.IsFresh) ∧
      (indentedBlock.layout false true).contents.map (fun c => (c.written, c.value)) =
        [("a\n  ", "a\n"), (" \n b\n", " b"), (" \nc", "c")] := by
  have hchained : ∀ q, Node.program q ∈ indentedBlock.nodes → q.chained = false := by
    intro q hq
    simp [indentedBlock, Program.nodes, Program.walk, Program.walkOpt, Statement.walks,
      Statement.walk, Block.walk, Expr.walk, visit, Content.ofText] at hq
    rcases hq with rfl | rfl <;> rfl
  have hfresh : ∀ c ∈ indentedBlock.contents, c.IsFresh := by
    intro c hc
    simp [indentedBlock, Program.contents, Program.nodes, Program.walk, Program.walkOpt,
      Statement.walks, Statement.walk, Block.walk, Expr.walk, visit] at hc
    rcases hc with rfl | rfl | rfl <;> exact ⟨rfl, rfl, rfl⟩
  refine ⟨hchained, hfresh, ?_⟩
  rw [Program.layout_contents_eq_settledTexts false indentedBlock hchained hfresh]
  decide

end Stencil.Tree
