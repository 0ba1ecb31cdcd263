import Stencil.Proofs.Code.Shape
import Stencil.Tree.Edit

/-!
# Renamed paths

An edit that gives every path another name reaches the head of a block where that is a path or a
call, and the path of its closing tag in any case. A literal that heads a block is no path and stays
as it is, while its closing tag names it by a path. So the blocks of a template under other names
pass the check of the compiler exactly if the literals that head closed blocks keep their names
(`Template.renamed_passes_iff`).
-/

set_option autoImplicit false

namespace Stencil.Tree

open Stencil.Text (Location)
open Stencil.Code (Compiling Features)

variable {ℓ : Type} (f : String → String)

/-! ## Names -/

/-- The edit that gives every path a name of one part, which its former one determines. -/
def respelling : Edit ℓ where
  path p := { p with parts := [f p.spelling], spelling := f p.spelling }

/-- An expression changes its name with the paths, unless it is a literal. -/
theorem Expr.spelling_edit_respelling (e : Expr ℓ) :
    (e.edit (respelling f)).spelling = if e.isLiteral then e.spelling else f e.spelling := by
  cases e with
  | call c =>
    cases c
    rfl
  | _ => rfl

/-- If a literal heads a block that is closed, it has the same name after a change of names. -/
def Statement.KeepsLiteral : Statement ℓ → Prop
  | .block b =>
    b.expr.isLiteral = true → b.close.isSome = true → f b.expr.spelling = b.expr.spelling
  | _ => True

instance : DecidablePred (Statement.KeepsLiteral (ℓ := ℓ) f)
  | .block b => inferInstanceAs (Decidable (b.expr.isLiteral = true → b.close.isSome = true → _))
  | .mustache _ | .partialCall _ | .partialBlock _ | .content _ | .comment _ => .isTrue trivial

/-! ## The check of blocks -/

/-- The compiler finds no fault in the shape of the statement, if it is a block. -/
def Statement.PassesCheck : Statement (Option Location) → Prop
  | .block b => ∀ features, (Compiling.checkBlock b).run features = .ok ((), features)
  | _ => True

theorem Statement.passesCheck_block_iff {b : Block (Option Location)} :
    (Statement.block b).PassesCheck ↔ b.WellShaped :=
  ⟨fun h => Compiling.checkBlock_iff.1 (h Features.none), fun h _ => Compiling.checkBlock_iff.2 h⟩

theorem Program.HoldsLink.edit_respelling {p : Program ℓ} (h : p.HoldsLink) :
    (p.edit (respelling f)).HoldsLink := by
  obtain ⟨body, blockParams, chained, mark⟩ := p
  intro hchained
  obtain ⟨link, rfl⟩ := h hchained
  exact ⟨link.edit (respelling f), rfl⟩

theorem Program.isSome_editSection_respelling (p : Option (Program ℓ)) :
    (Program.editSection (respelling f) p).isSome = p.isSome := by
  cases p <;> rfl

/-- A block of the right shape keeps it exactly if its closing tag and its head still have one
name. -/
theorem Block.wellShaped_edit_respelling {b : Block ℓ} (h : b.WellShaped) :
    (b.edit (respelling f)).WellShaped ↔ (Statement.block b).KeepsLiteral f := by
  obtain ⟨expr, program, inverse, openStrip, inverseStrip, closeStrip, close, mark⟩ := b
  have hname := expr.spelling_edit_respelling f
  constructor
  · intro hedited hliteral hclosed
    obtain ⟨path, rfl⟩ := Option.isSome_iff_exists.1 hclosed
    have hspelling : path.spelling = expr.spelling := h.closes path rfl
    have hcloses : f path.spelling = (expr.edit (respelling f)).spelling := hedited.closes _ rfl
    rwa [hname, if_pos hliteral, hspelling] at hcloses
  · intro hkeeps
    refine ⟨?_, ?_, ?_⟩
    · intro path hpath
      obtain ⟨old, rfl, rfl⟩ := Option.map_eq_some_iff.1 hpath
      have hspelling : old.spelling = expr.spelling := h.closes old rfl
      show f old.spelling = (expr.edit (respelling f)).spelling
      rw [hname, hspelling]
      split
      next hliteral => exact hkeeps hliteral rfl
      next => rfl
    · exact h.hasBody.imp (Program.isSome_editSection_respelling f program).trans
        (Program.isSome_editSection_respelling f inverse).trans
    · intro p hp
      cases inverse with
      | none => cases hp
      | some q =>
        cases hp
        exact (h.chain q rfl).edit_respelling f

/-! ## Trees -/

theorem Statement.allEvery_append {P : Statement ℓ → Prop} {as bs : List (Statement ℓ)} :
    Statement.AllEvery P (as ++ bs) ↔ Statement.AllEvery P as ∧ Statement.AllEvery P bs := by
  simp only [Statement.allEvery_iff, List.forall_mem_append]

mutual

/-- The blocks of a tree of the right shape pass the check under other names exactly if literals
keep theirs. -/
theorem Program.every_edit_respelling :
    ∀ {p : Program (Option Location)}, p.Every Statement.WellShaped →
    ((p.edit (respelling f)).Every Statement.PassesCheck ↔ p.Every (Statement.KeepsLiteral f))
  | ⟨_, _, _, _⟩, h => Statement.allEvery_edits_respelling h

theorem Statement.allEvery_edits_respelling :
    ∀ {body : List (Statement (Option Location))}, Statement.AllEvery Statement.WellShaped body →
      (Statement.AllEvery Statement.PassesCheck (Statement.edits (respelling f) body) ↔
        Statement.AllEvery (Statement.KeepsLiteral f) body)
  | [], _ => Iff.rfl
  | _ :: _, h =>
    Statement.allEvery_append.trans
      (and_congr (Statement.allEvery_edit_respelling h.1) (Statement.allEvery_edits_respelling h.2))

/-- A change of names puts one statement in the place of one. -/
theorem Statement.allEvery_edit_respelling :
    ∀ {s : Statement (Option Location)}, s.Every Statement.WellShaped →
      (Statement.AllEvery Statement.PassesCheck (s.edit (respelling f)) ↔
        s.Every (Statement.KeepsLiteral f))
  | .mustache _, _ | .partialCall _, _ | .content _, _ | .comment _, _ =>
    iff_of_true ⟨trivial, trivial⟩ trivial
  | .block _, h =>
    (and_iff_left trivial).trans (and_congr
      (Statement.passesCheck_block_iff.trans (Block.wellShaped_edit_respelling f h.1))
      (Block.every_edit_respelling h.2))
  | .partialBlock ⟨_, _, _, _, _, _, _⟩, h =>
    (and_iff_left trivial).trans (and_congr Iff.rfl (Program.every_edit_respelling h.2))

theorem Block.every_edit_respelling :
    ∀ {b : Block (Option Location)}, b.Every Statement.WellShaped →
    ((b.edit (respelling f)).Every Statement.PassesCheck ↔ b.Every (Statement.KeepsLiteral f))
  | ⟨_, _, _, _, _, _, _, _⟩, h =>
    and_congr (Program.everyOpt_editSection_respelling h.1)
      (Program.everyOpt_editSection_respelling h.2)

theorem Program.everyOpt_editSection_respelling :
    ∀ {p : Option (Program (Option Location))}, Program.EveryOpt Statement.WellShaped p →
      (Program.EveryOpt Statement.PassesCheck (Program.editSection (respelling f) p) ↔
        Program.EveryOpt (Statement.KeepsLiteral f) p)
  | none, _ => Iff.rfl
  | some _, h => Program.every_edit_respelling h

end

end Stencil.Tree

namespace Stencil.Template

open Stencil.Tree

/-- The tree of a template has the right shape before the layout as after it. -/
theorem wellShaped_of_readAsWritten {options : ReadOptions} {source : String} {tree : Tree.Located}
    (h : readAsWritten options source = .ok tree) : tree.Every Statement.WellShaped := by
  have hread : read options source = .ok (tree.layout options.ignoreStandalone true) := by
    rw [read, h]; rfl
  exact (Program.every_layout Statement.wellShaped_bare _ _ tree).1 (wellShaped_of_read hread)

/-- Whatever other names the paths of a template get, all its blocks pass the check of the compiler
exactly if the literals that head closed blocks keep their names. -/
theorem renamed_passes_iff {options : ReadOptions} {source : String} {tree : Tree.Located}
    (h : read options source = .ok tree ∨ readAsWritten options source = .ok tree)
    (f : String → String) :
    (tree.edit (respelling f)).Every Statement.PassesCheck ↔
      tree.Every (Statement.KeepsLiteral f) :=
  Program.every_edit_respelling f (h.elim wellShaped_of_read wellShaped_of_readAsWritten)

/-- A block under a string, which holds a block under a call and an inverted one under a name. -/
def literalBlock : String :=
  "\x7b\x7b#\"a\"\x7d\x7d\x7b\x7b#b 1\x7d\x7dx\x7b\x7b/b\x7d\x7d" ++
    "\x7b\x7b^c\x7d\x7dy\x7b\x7b/c\x7d\x7d\x7b\x7b/\"a\"\x7d\x7d"

/-- Its blocks pass under any names that leave the string as it is. -/
theorem renamed_passes_iff_literalBlock :
    ∃ tree, read {} literalBlock = .ok tree ∧
      (tree.edit (respelling fun name => if name = "a" then name else "other")).Every
        Statement.PassesCheck := by
  have hkeeps : (read {} literalBlock).toOption.any (fun tree => decide (tree.Every
      (Statement.KeepsLiteral fun name => if name = "a" then name else "other"))) = true := by
    decide +kernel
  cases h : read {} literalBlock with
  | error e => rw [h] at hkeeps; cases hkeeps
  | ok tree =>
    rw [h] at hkeeps
    exact ⟨tree, rfl, (renamed_passes_iff (.inl h) _).2 (of_decide_eq_true hkeeps)⟩

/-- A block under a string. -/
def stringBlock : String := "\x7b\x7b#\"a\"\x7d\x7dx\x7b\x7b/\"a\"\x7d\x7d"

/-- The closing tag of a block under a string gets another name than the string has. -/
theorem not_renamed_passes :
    ¬ ∀ (options : ReadOptions) (source : String) (tree : Tree.Located) (f : String → String),
      read options source = .ok tree → (tree.edit (respelling f)).Every Statement.PassesCheck := by
  intro hall
  have hchanges : (read {} stringBlock).toOption.any (fun tree =>
      decide (¬ tree.Every (Statement.KeepsLiteral fun _ => "b"))) = true := by decide +kernel
  cases h : read {} stringBlock with
  | error e => rw [h] at hchanges; cases hchanges
  | ok tree =>
    rw [h] at hchanges
    have hpasses := hall {} stringBlock tree (fun _ => "b") h
    rw [Program.every_edit_respelling _ (wellShaped_of_read h)] at hpasses
    exact of_decide_eq_true hchanges hpasses

end Stencil.Template
