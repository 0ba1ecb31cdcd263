import Stencil.Proofs.Code.Content
import Stencil.Proofs.Tree.Interchange
import Stencil.Proofs.Tree.Legible

/-!
# Interchange and back

What becomes of a tree that is given away as JSON and read again: it comes back without the notes of
what was cut off its content, so it has the same form again, and compiles to the same
(`Program.roundTrip`). This is so of every tree as a JSON value. The text of a value is read back as
well, as long as it nests no deeper than a text may and the literals of the tree are read back from
their numerals.
-/

set_option autoImplicit false

namespace Stencil

/-- The number is neither infinite nor no number at all. -/
def Decimal.IsFinite (x : Float) : Prop := ∃ negative m, Decimal.read x = .finite negative m

namespace Tree

open Stencil.Text (Location Position)
open Stencil.Json (ReadsBack)
open Stencil.Code (Compiler)

/-- A tree is read back from the text of its form. -/
theorem Program.ofJson?_read?_text {tree : Located} (h : tree.Storable ReadsBack)
    (hdepth : tree.toJson.depth ≤ Json.maxDepth) :
    (Json.read? tree.toJson.text).bind Program.ofJson? = some tree.cleared := by
  rw [Json.read?_text (Program.legible_toJson h) hdepth, Option.bind_some]
  exact Program.ofJson?_toJson h

/-- A tree survives its interchange. Its form is read back as the tree without notes of cuts,
which has the same form and compiles to the same under every options and every backend. So is the
text of the form, within the limits that texts have. -/
theorem Program.roundTrip {tree : Located} (h : tree.Storable Decimal.IsFinite) :
    Program.ofJson? tree.toJson = some tree.cleared ∧
      tree.cleared.toJson = tree.toJson ∧
      (∀ compiler : Compiler, compiler.compile tree.cleared = compiler.compile tree) ∧
      (tree.toJson.depth ≤ Json.maxDepth → tree.Storable ReadsBack →
        (Json.read? tree.toJson.text).bind Program.ofJson? = some tree.cleared) :=
  ⟨Program.ofJson?_toJson h, tree.toJson_cleared, fun compiler => compiler.compile_cleared tree,
    fun hdepth hread => Program.ofJson?_read?_text hread hdepth⟩

/-- A list of items, as it is read from a template that has each tag alone on its line. -/
def itemList : Located :=
  let place (line column : Nat) : Mark := some ⟨some "list", ⟨line, 0⟩, ⟨line, column⟩⟩
  { body :=
      [.block
        { expr := .call
            ⟨Path.ofParts ["each"] (place 1 7), [.path (Path.ofParts ["items"] (place 1 13))],
              some ⟨[⟨"limit", .string "few" "few" (place 1 25), none⟩], none⟩, none, none⟩
          program := some
            { body :=
                [.content ⟨"- ", "\n- ", false, true, place 2 2⟩,
                  .mustache
                    { expr := .path (Path.ofParts ["name"] none), escaped := true, mark := none },
                  .content ⟨"\n", "\n", true, false, none⟩]
              blockParams := ["item"]
              chained := false
              mark := none }
          inverse := none
          openStrip := { before := true }
          inverseStrip := {}
          closeStrip := {}
          close := some (Path.ofParts ["each"] none)
          mark := place 3 9 }]
    blockParams := []
    chained := false
    mark := none }

theorem storable_itemList (N : Float → Prop) : itemList.Storable N := by
  simp [itemList, Program.Storable, Statement.AllStorable, Statement.Storable, Block.Storable,
    Program.StorableOpt, Mustache.Storable, Expr.Storable, Expr.AllStorable, Call.Storable,
    Hash.StorableOpt, Hash.Storable, Pair.AllStorable, Pair.Storable, Path.Storable, Path.ofParts,
    Mark.Storable, Location.Storable, Position.Storable, UInt32.size]

theorem Program.roundTrip_itemList :
    itemList.Storable Decimal.IsFinite ∧
      Program.ofJson? itemList.toJson = some itemList.cleared ∧
      itemList.cleared.toJson = itemList.toJson ∧
      (∀ compiler : Compiler, compiler.compile itemList.cleared = compiler.compile itemList) ∧
      (Json.read? itemList.toJson.text).bind Program.ofJson? = some itemList.cleared := by
  have hdepth : itemList.toJson.depth ≤ Json.maxDepth := by decide +kernel
  obtain ⟨hread, hform, hcompile, htext⟩ := Program.roundTrip (storable_itemList Decimal.IsFinite)
  exact ⟨storable_itemList _, hread, hform, hcompile, htext hdepth (storable_itemList ReadsBack)⟩

end Tree

end Stencil
