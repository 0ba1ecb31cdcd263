import Stencil.Proofs.Code.Gathering
import Stencil.Proofs.Code.Joining
import Stencil.Proofs.Code.Numbering

/-!
# Sequencing

What statements one after the other compile to. The plain compiler puts the instructions of the one
part before those of the other, and numbers the programs of the second part on from those of the
first (`Compiler.compile_append`): so the code of the whole is that of the parts with the numbers in
the second part so many further on (`Spec.Sequence`). It compiles whenever both parts do.
-/

set_option autoImplicit false

namespace Stencil.Code

open Stencil.Text (Location)
open Stencil.Tree (Expr Hash Program Statement)
open Compiling (Gives gives_pure Gathers gathers_pure gathers_bind)

/-! ## Steps one after the other -/

namespace Compiling

variable {α β : Type}

/-- What is given from some features on is given from all. -/
theorem Gathers.exists_run {c : Compiling α} (hc : Gathers c) {a : α} (h : Gives c a)
    (before : Features) : ∃ after, c.run before = .ok (a, after) := by
  obtain ⟨other, after, h⟩ := h
  rw [hc.run other] at h
  rw [hc.run before]
  cases hrun : c.run Features.none with
  | error e => rw [hrun] at h; cases h
  | ok r =>
    rw [hrun] at h
    cases h
    exact ⟨_, rfl⟩

theorem Gives.bind {c : Compiling α} {next : α → Compiling β} {a : α} {b : β} (hc : Gives c a)
    (hnext : Gathers (next a)) (h : Gives (next a) b) : Gives (c >>= next) b := by
  obtain ⟨before, mid, hc⟩ := hc
  obtain ⟨after, h⟩ := hnext.exists_run h mid
  exact ⟨before, after, by rw [StateT.run_bind, hc]; exact h⟩

theorem Gives.map {c : Compiling α} {a : α} (h : Gives c a) (f : α → β) :
    Gives (f <$> c) (f a) := by
  obtain ⟨before, after, h⟩ := h
  exact ⟨before, after, by rw [StateT.run_map, h]; rfl⟩

/-- A step that is taken only under a condition, before what follows. -/
theorem Gives.guard {p : Prop} [Decidable p] {step : Compiling Unit} {next : Unit → Compiling β}
    {b : β} (hstep : Gives step ()) (hnext : Gathers (next ())) (h : Gives (next ()) b) :
    Gives (if p then step >>= next else next ()) b := by
  split
  · exact hstep.bind hnext h
  · exact h

end Compiling

namespace Compiler

variable {compiler : Compiler} {frames : Frames} {next : Nat}

/-! ## What is done before -/

/-- What is done, after what was done before. -/
def Progress.after (before done : Progress) : Progress :=
  ⟨before.out ++ done.out, before.nested ++ done.nested⟩

theorem Progress.after_assoc (a b c : Progress) : (a.after b).after c = a.after (b.after c) := by
  simp only [after, List.append_assoc]

theorem statements_append (rest body : List (Statement (Option Location))) (done : Progress) :
    compiler.statements frames next (body ++ rest) done =
      (do
        let done ← compiler.statements frames next body done
        compiler.statements frames next rest done) := by
  induction body generalizing done with
  | nil => rfl
  | cons s body ih =>
    rw [List.cons_append, Compiler.statements, Compiler.statements, bind_assoc]
    exact congrArg _ (funext ih)

section Plain

variable (plain : compiler.backend.append = appendPlain)

include plain

theorem partialInvocation_after (name : Expr (Option Location))
    (params : List (Expr (Option Location))) (hash : Option (Hash (Option Location)))
    (indent : String) (program : Option Nat) (loc : Option Location) (out : List Instruction) :
    compiler.partialInvocation frames name params hash indent program loc out =
      (out ++ ·) <$>
        compiler.partialInvocation frames name params hash indent program loc [] := by
  rw [Compiler.partialInvocation, Compiler.partialInvocation, plain]
  split <;> simp only [map_bind, map_pure, appendPlain] <;> split <;>
    simp only [List.append_assoc, List.nil_append]

/-- What a statement gives comes after what is done, where programs are numbered on from those that
are done. -/
theorem statement_after (s : Statement (Option Location)) (done : Progress) :
    compiler.statement frames next s done =
      done.after <$> compiler.statement frames (next + done.nested.length) s {} := by
  cases s with
  | content c =>
    rw [Compiler.statement, Compiler.statement, plain, map_pure]
    refine congrArg _ ?_
    split
    · simp only [Progress.after, List.append_nil]
    · simp only [Progress.after, appendPlain, List.nil_append, List.append_nil]
  | comment c =>
    rw [Compiler.statement, Compiler.statement, map_pure, Progress.after, List.append_nil,
      List.append_nil]
  | mustache m =>
    rw [Compiler.statement, Compiler.statement, plain, map_bind]
    simp only [map_pure, Progress.after, appendPlain, List.nil_append, List.append_nil]
  | block b =>
    obtain ⟨expr, body, inverse, openStrip, inverseStrip, closeStrip, close, loc⟩ := b
    rw [Compiler.statement, Compiler.statement, Compiler.block, Compiler.block, plain]
    simp only [map_bind, map_pure, Progress.after, appendPlain, List.nil_append, List.append_assoc,
      List.length_nil, Nat.add_zero]
  | partialCall p =>
    rw [Compiler.statement, Compiler.statement, partialInvocation_after plain, map_bind,
      bind_map_left]
    simp only [map_pure, Progress.after, List.append_nil]
  | partialBlock p =>
    obtain ⟨name, params, hash, body, openStrip, closeStrip, loc⟩ := p
    rw [Compiler.statement, Compiler.statement, Compiler.partialBlock, Compiler.partialBlock]
    simp only [partialInvocation_after plain _ _ _ _ _ _ done.out, map_bind,
      bind_map_left, map_pure, Progress.after, List.nil_append, List.length_nil, Nat.add_zero]

theorem statements_after :
    ∀ (body : List (Statement (Option Location))) (next : Nat) (done : Progress),
      compiler.statements frames next body done =
        done.after <$> compiler.statements frames (next + done.nested.length) body {}
  | [], next, done => by
    rw [Compiler.statements, Compiler.statements, map_pure, Progress.after, List.append_nil,
      List.append_nil]
  | s :: rest, next, done => by
    rw [Compiler.statements, Compiler.statements, statement_after plain s done,
      bind_map_left, map_bind]
    refine congrArg _ (funext fun first => ?_)
    -- The rest comes after the first statement, on both sides.
    rw [statements_after rest next (done.after first),
      statements_after rest (next + done.nested.length) first, ← comp_map, Progress.after,
      List.length_append, Nat.add_assoc]
    exact congrArg (· <$> _) (funext fun more => Progress.after_assoc done first more)

end Plain

/-! ## Numbering on -/

/-- Numbered from further on, statements compile to the same but for the numbers. -/
theorem statements_shift (compiler : Compiler) (frames : Frames) (next k : Nat)
    (body : List (Statement (Option Location))) :
    compiler.plain.statements frames (next + k) body {} =
      Progress.remake appendPlain k <$> compiler.plain.statements frames next body {} :=
  have same : compiler.plain.KnowsAs compiler.options.knownHelpers := fun _ => rfl
  statements_eq_remake same k frames next body {}

/-- What is given for two lists of statements is given for both, one after the other. -/
theorem gives_statements_append {body rest : List (Statement (Option Location))}
    {done more : Progress} (hdone : Gives (compiler.plain.statements frames next body {}) done)
    (hmore : Gives (compiler.plain.statements frames next rest {}) more) :
    Gives (compiler.plain.statements frames next (body ++ rest) {})
      (done.after (more.remake appendPlain done.nested.length)) := by
  rw [statements_append]
  refine hdone.bind (statements_gather _ _ _ _ _) ?_
  rw [statements_after rfl, statements_shift]
  exact (hmore.map _).map _

end Compiler

/-! ## Code of the whole -/

/-- The chunk with the numbers of programs so many further on. -/
def Chunk.shift (k : Nat) (c : Chunk) : Chunk :=
  { c with instructions := c.instructions.map (Instruction.shift k) }

theorem Chunk.remake_plain (k : Nat) : Chunk.remake appendPlain k = Chunk.shift k := by
  funext c
  rw [remake, refold_plain, shift]

/-- The code of a whole, whose main program does what that of the first part does and then what that
of the second does. The programs of the second part are numbered on from those of the first. -/
structure Spec.Sequence (s first second : Spec) : Prop where
  main : s.main = 0 ∧ first.main = 0 ∧ second.main = 0
  options : first.options = s.options ∧ second.options = s.options
  programs : ∃ blockParams out more nested others,
    first.programs = ⟨out, blockParams⟩ :: nested ∧
    second.programs = ⟨more, blockParams⟩ :: others ∧
    s.programs = ⟨out ++ more.map (Instruction.shift nested.length), blockParams⟩ ::
      (nested ++ others.map (Chunk.shift nested.length))

namespace Compiler

/-- The code of a tree, if its main program is given. -/
theorem exists_compile {compiler : Compiler} {tree : Tree.Located} {chunks : List Chunk}
    (h : Gives (compiler.program [] 0 tree) chunks) :
    ∃ s, compiler.compile tree = .ok s ∧ s.programs = chunks ∧ s.main = 0 ∧
      s.options = compiler.options := by
  obtain ⟨after, hrun⟩ := (program_gathers compiler [] 0 tree).exists_run h Features.none
  unfold Compiler.compile
  rw [hrun]
  exact ⟨_, rfl, rfl, rfl, rfl⟩

/-- What the statements of a program give, the program gives. -/
theorem program_gives {compiler : Compiler} {frames : Frames} {id : Nat}
    {p : Program (Option Location)} {done : Progress}
    (h : Gives (compiler.statements (p.blockParams :: frames) (id + 1) p.body {}) done) :
    Gives (compiler.program frames id p) (⟨done.out, p.blockParams.length⟩ :: done.nested) := by
  obtain ⟨body, blockParams, chained, mark⟩ := p
  rw [Compiler.program]
  refine Gives.guard ⟨Features.none, _, rfl⟩ ?_ (h.bind (gathers_pure _) (gives_pure.2 rfl))
  exact gathers_bind (statements_gather compiler _ _ body {}) fun _ => gathers_pure _

/-- The plain code of statements one after the other is that of the one part and then that of the
other. -/
theorem compile_append {compiler : Compiler} (tree : Tree.Located)
    {body rest : List (Statement (Option Location))} {first second : Spec}
    (hfirst : compiler.plain.compile { tree with body := body } = .ok first)
    (hsecond : compiler.plain.compile { tree with body := rest } = .ok second) :
    ∃ s, compiler.plain.compile { tree with body := body ++ rest } = .ok s ∧
      s.Sequence first second := by
  obtain ⟨done, hdone, hprograms⟩ := gives_program (gives_of_compile hfirst)
  obtain ⟨more, hmore, hprograms'⟩ := gives_program (gives_of_compile hsecond)
  have h :=
    program_gives (p := { tree with body := body ++ rest }) (gives_statements_append hdone hmore)
  obtain ⟨s, hs, hall, hmain, hoptions⟩ := exists_compile h
  obtain ⟨hmain₁, hoptions₁⟩ := main_of_compile hfirst
  obtain ⟨hmain₂, hoptions₂⟩ := main_of_compile hsecond
  refine ⟨s, hs, ⟨hmain, hmain₁, hmain₂⟩,
    ⟨hoptions₁.trans hoptions.symm, hoptions₂.trans hoptions.symm⟩,
    tree.blockParams.length, done.out, more.out, done.nested, more.nested, hprograms,
    hprograms', ?_⟩
  rw [hall, Progress.after, Progress.remake, refold_plain, Chunk.remake_plain]

end Compiler

end Stencil.Code
