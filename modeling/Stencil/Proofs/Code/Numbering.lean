import Stencil.Proofs.Code.Emission

/-!
# Numbering

Which programs the instructions of a compiled template refer to. Each chunk refers to the programs
that its own program holds directly (`Compiler.Compiles.references_eq`), whose numbers are greater
than its own and those of chunks (`Compiler.compile_references_bounds`); and all chunks together
refer to every program but the main one, to each of them once (`Compiler.compile_references_perm`).
-/

set_option autoImplicit false

namespace Stencil.Code

open Stencil.Text (Location)
open Stencil.Tree (Program Statement Nesting Opened)

/-- The numbers of the programs that an instruction refers to: those of a block, or the body of a
partial. -/
def Instruction.references : Instruction → List Nat
  | .block b => b.program.toList ++ b.inverse.toList
  | .partialCall p => p.program.toList
  | .content _ | .append _ _ => []

/-- The numbers of the programs that a chunk refers to. -/
def Chunk.references (c : Chunk) : List Nat := c.instructions.flatMap Instruction.references

/-- Texts refer to nothing. -/
theorem Instruction.flatMap_references_tags (instructions : List Instruction) :
    (Instruction.tags instructions).flatMap Instruction.references =
      instructions.flatMap Instruction.references := by
  induction instructions with
  | nil => rfl
  | cons i rest ih =>
    rw [List.flatMap_cons, ← ih]
    cases i <;> rfl

namespace Compiler

variable {compiler : Compiler}

/-- A tag refers to the programs that it holds. -/
theorem Emits.references_eq {frames : Frames} {next : Nat} {s : Statement (Option Location)}
    {i : Instruction} (h : compiler.Emits frames next s i) :
    i.references = (s.opened next).map Opened.id := by
  cases h with
  | mustache shown => rfl
  | @block b kind opens =>
    show (b.program.map _).toList ++ (b.inverse.map _).toList = _
    rw [Statement.opened]
    cases b.program <;> cases b.inverse <;> rfl
  | partialCall name context hash body => rw [Instruction.references, body]; rfl
  | partialBlock name context hash body => rw [Instruction.references, body]; rfl

/-- A chunk refers to the programs that its own program holds directly. -/
theorem Compiles.references_eq (keeps : compiler.backend.KeepsTags)
    {n : Nesting (Option Location)} {c : Chunk} (h : compiler.Compiles n c) :
    c.references = Nesting.openedIds n := by
  have opens : ∀ {ts : List (Nat × Statement (Option Location))} {is : List Instruction},
      List.Forall₂ (fun t i => compiler.Emits (Nesting.frames n) t.1 t.2 i) ts is →
        is.flatMap Instruction.references =
          (ts.flatMap fun t => t.2.opened t.1).map Opened.id := by
    intro ts is hts
    induction hts with
    | nil => rfl
    | cons hemits _ ih =>
      rw [List.flatMap_cons, List.flatMap_cons, List.map_append, ih, hemits.references_eq]
  rw [Chunk.references, ← Instruction.flatMap_references_tags, opens (h.emits keeps),
    Nesting.openedIds, Nesting.opened_eq_flatMap_tags]

theorem references_eq_openedIds (keeps : compiler.backend.KeepsTags)
    {ns : List (Nesting (Option Location))} {cs : List Chunk}
    (h : List.Forall₂ compiler.Compiles ns cs) :
    cs.flatMap Chunk.references = ns.flatMap Nesting.openedIds := by
  induction h with
  | nil => rfl
  | cons hcompiles _ ih =>
    rw [List.flatMap_cons, List.flatMap_cons, ih, hcompiles.references_eq keeps]

/-- The main program stands in no other one. -/
theorem nestings_main {tree : Tree.Located} {spec : Spec}
    (compiled : compiler.compile tree = .ok spec) :
    (tree.nestings [] 0)[spec.main]? = some [⟨0, tree⟩] := by
  rw [(main_of_compile compiled).1, Program.nestings_eq]
  rfl

section Compiled

variable (keeps : compiler.backend.KeepsTags) {tree : Tree.Located} {spec : Spec}
  (compiled : compiler.compile tree = .ok spec)

include keeps compiled

theorem length_programs : spec.programs.length = tree.count := by
  rw [← (compile_compiles keeps compiled).length_eq, Program.length_nestings]

/-- The chunk of a number is what the nesting of the number compiles to. -/
theorem rel_compiles (id : Nat) :
    Option.Rel compiler.Compiles (tree.nestings [] 0)[id]? (spec.program? id) :=
  rel_getElem? (compile_compiles keeps compiled) id

/-- For every program of the tree there is a chunk. -/
theorem exists_chunk {id : Nat} {n : Nesting (Option Location)}
    (hn : (tree.nestings [] 0)[id]? = some n) :
    ∃ c, spec.program? id = some c ∧ compiler.Compiles n c := by
  have hrel := rel_compiles keeps compiled id
  rw [hn] at hrel
  generalize spec.program? id = chunk at hrel ⊢
  cases hrel with
  | some hcompiles => exact ⟨_, rfl, hcompiles⟩

/-- For every chunk there is a program of the tree. -/
theorem exists_nesting {id : Nat} {c : Chunk} (hc : spec.program? id = some c) :
    ∃ here outer, here.id = id ∧ (tree.nestings [] 0)[id]? = some (here :: outer) ∧
      compiler.Compiles (here :: outer) c := by
  have hrel := rel_compiles keeps compiled id
  rw [hc] at hrel
  generalize hn : (tree.nestings [] 0)[id]? = n at hrel
  cases hrel with
  | some hcompiles =>
    obtain ⟨here, outer, rfl, hid⟩ := tree.numberedFrom_nestings [] 0 id _ hn
    exact ⟨here, outer, by omega, rfl, hcompiles⟩

/-- A number that a chunk refers to is that of a program that its own program holds, and greater
than its own. -/
theorem exists_opened_of_reference {id r : Nat} {c : Chunk} (hc : spec.program? id = some c)
    (hr : r ∈ c.references) :
    ∃ child here outer, child.id = r ∧ here.id = id ∧
      (tree.nestings [] 0)[id]? = some (here :: outer) ∧
      (tree.nestings [] 0)[r]? = some (child :: here :: outer) ∧ id < r := by
  obtain ⟨here, outer, hid, hn, hcompiles⟩ := exists_nesting keeps compiled hc
  rw [hcompiles.references_eq keeps] at hr
  -- What the program holds directly is a program of the tree too, at the place of its number.
  obtain ⟨child, hchild, rfl⟩ := List.mem_map.1 hr
  have hmem := tree.nestings_opened [] 0 _ (List.mem_of_getElem? hn) child hchild
  have hlt : here.id + 1 ≤ child.id := Statement.le_id_of_openedAll hchild
  exact ⟨child, here, outer, rfl, hid, hn, Program.nestings_getElem?.2 hmem, by omega⟩

/-- A chunk refers to programs of greater numbers that there are. -/
theorem compile_references_bounds {id r : Nat} {c : Chunk} (hc : spec.program? id = some c)
    (hr : r ∈ c.references) : id < r ∧ r < spec.programs.length := by
  obtain ⟨child, here, outer, -, -, -, hn, hlt⟩ := exists_opened_of_reference keeps compiled hc hr
  refine ⟨hlt, ?_⟩
  rw [(compile_compiles keeps compiled).length_eq.symm]
  exact (List.getElem?_eq_some_iff.1 hn).1

/-- Every program but the main one is referred to, and once. -/
theorem compile_references_perm :
    (spec.programs.flatMap Chunk.references).Perm
      (List.range' 1 (spec.programs.length - 1)) := by
  rw [references_eq_openedIds keeps (compile_compiles keeps compiled),
    length_programs keeps compiled]
  exact tree.openedIds_nestings_perm [] 0

end Compiled

end Compiler

end Stencil.Code
