import Stencil.Code.Compile
import Stencil.Proofs.Syntax.Shape

/-!
# Trees that compile as far as their shape goes

The compiler refuses a block or a partial of a wrong shape, and it may refuse names.
`Compiling.Admits c` says that `c` does not fail for a reason of shape; steps that admit make a
whole that admits. The check of a block passes exactly the blocks of the right shape
(`Compiling.checkBlock_iff`), so a tree of the right shape is admitted by every compiler, whatever
its options and its backend (`Compiler.admits_program`).
-/

set_option autoImplicit false

namespace Stencil.Code

open Stencil.Text (Location)
open Stencil.Tree (Expr Hash Pair Path Program Statement Block PartialBlock)

/-- The reason to refuse a tree lies in the shape of a block or a partial. -/
def CompileCause.IsShape : CompileCause → Prop
  | .mismatchedBlock _ _ | .emptyBlock _ | .invalidChain _ | .partialArguments _ => True
  | .helperArity _ _ _ | .unknownHelper _ | .emptySegment _ => False

namespace Compiling

variable {α β : Type}

/-- Compiling does not fail for a reason of shape. -/
def Admits (c : Compiling α) : Prop :=
  ∀ features e, c.run features = .error e → ¬ e.cause.IsShape

/-- A result is no failure. -/
theorem admits_pure (a : α) : Admits (pure a) := fun _ _ => nofun

/-- A failure is no matter of shape if its cause is not. -/
theorem admits_fail {cause : CompileCause} (h : ¬ cause.IsShape) (loc : Option Location) :
    Admits (Compiling.fail cause loc : Compiling α) := by
  rintro features e ⟨⟩
  exact h

theorem admits_require (feature : Features) : Admits (Compiling.require feature) := fun _ _ => nofun

/-- One step and what follows it. -/
theorem Admits.bind {c : Compiling α} {next : α → Compiling β} (hc : Admits c)
    (hnext : ∀ a, Admits (next a)) : Admits (c >>= next) := by
  intro features e h
  rw [StateT.run_bind] at h
  cases hrun : c.run features with
  | error e' =>
    rw [hrun] at h
    cases h
    exact hc features e hrun
  | ok r =>
    rw [hrun] at h
    exact hnext r.1 r.2 e h

theorem Admits.map {c : Compiling α} (hc : Admits c) (f : α → β) : Admits (f <$> c) := by
  rw [map_eq_pure_bind]
  exact hc.bind fun a => admits_pure (f a)

/-- Either branch is admitted where it is taken. -/
theorem admits_ite {p : Prop} [Decidable p] {yes no : Compiling α} (hyes : p → Admits yes)
    (hno : ¬p → Admits no) : Admits (if p then yes else no) := by
  split
  · exact hyes ‹p›
  · exact hno ‹¬p›

/-- What follows a check, or a step that is taken only under a condition. -/
theorem admits_guard {p : Prop} [Decidable p] {step : Compiling PUnit} {next : PUnit → Compiling β}
    (hstep : p → Admits step) (hnext : ∀ a, Admits (next a)) :
    Admits (if p then step >>= next else next ⟨⟩) :=
  admits_ite (fun h => (hstep h).bind hnext) fun _ => hnext ⟨⟩

/-- A check passes when there is nothing to refuse and what follows passes. -/
theorem run_guard_iff {p : Prop} [Decidable p] {cause : CompileCause} {loc : Option Location}
    {next : PUnit → Compiling β} {features : Features} {r : β × Features} :
    (if p then Compiling.fail cause loc >>= next else next ⟨⟩).run features = .ok r ↔
      ¬p ∧ (next ⟨⟩).run features = .ok r := by
  split
  · rename_i h
    exact ⟨nofun, fun hnot => absurd h hnot.1⟩
  · rename_i h
    exact ⟨fun hrun => ⟨h, hrun⟩, And.right⟩

/-- The last of the checks of a block: a chained inverse section is a block and nothing else. -/
def checkLink (b : Block (Option Location)) : Compiling Unit := do
  if let some inverse := b.inverse then
    if inverse.chained then
      match inverse.body with
      | [.block _] => pure ()
      | _ => Compiling.fail (.invalidChain b.expr.spelling) (inverse.mark.orElse fun _ => b.mark)

/-- The check passes where a chained section holds one block and nothing else. -/
theorem run_checkLink_iff {b : Block (Option Location)} {features : Features} :
    (checkLink b).run features = .ok ((), features) ↔ ∀ p, b.inverse = some p → p.HoldsLink := by
  unfold checkLink
  split
  next p hinverse =>
    split
    next hchained =>
      split
      next link hlink =>
        refine ⟨fun _ q hq _ => ⟨link, ?_⟩, fun _ => rfl⟩
        rw [← Option.some.inj (hinverse.symm.trans hq), hlink]
      next hnone =>
        constructor
        · intro h
          cases h
        · intro h
          obtain ⟨link, hlink⟩ := h p hinverse hchained
          exact absurd hlink (hnone link)
    next hchained =>
      refine ⟨fun _ q hq h => ?_, fun _ => rfl⟩
      rw [← Option.some.inj (hinverse.symm.trans hq)] at h
      exact absurd h hchained
  next hnone => exact ⟨fun _ p hp => absurd hp (hnone p), fun _ => rfl⟩

/-- The check of a block passes exactly the blocks of the right shape, and changes nothing. -/
theorem checkBlock_iff {b : Block (Option Location)} {features : Features} :
    (Compiling.checkBlock b).run features = .ok ((), features) ↔ b.WellShaped := by
  have hchain := @run_checkLink_iff b features
  obtain ⟨expr, program, inverse, openStrip, inverseStrip, closeStrip, close, mark⟩ := b
  have hbody : ¬(program.isNone && inverse.isNone) = true ↔ program.isSome ∨ inverse.isSome := by
    cases program <;> cases inverse <;> simp
  unfold Compiling.checkBlock
  dsimp only
  cases close with
  | none =>
    refine (run_guard_iff.trans (and_congr hbody hchain)).trans ?_
    refine ⟨fun h => ⟨fun path hclose => ?_, h.1, h.2⟩, fun h => ⟨h.hasBody, h.chain⟩⟩
    cases hclose
  | some path =>
    have hname : ¬(path.spelling != expr.spelling) = true ↔ path.spelling = expr.spelling := by
      rw [bne_iff_ne, not_ne_iff]
    refine (run_guard_iff.trans
      (and_congr hname (run_guard_iff.trans (and_congr hbody hchain)))).trans ?_
    constructor
    · rintro ⟨hname, hsome, hlink⟩
      refine ⟨?_, hsome, hlink⟩
      rintro _ ⟨⟩
      exact hname
    · exact fun h => ⟨h.closes path rfl, h.hasBody, h.chain⟩

end Compiling

open Compiling (Admits admits_pure admits_fail admits_require admits_ite admits_guard
  checkBlock_iff)

/-- A block of the right shape passes all three checks. -/
theorem admits_checkBlock {b : Block (Option Location)} (h : b.WellShaped) :
    Admits (Compiling.checkBlock b) := by
  intro features e herror
  rw [checkBlock_iff.2 h] at herror
  cases herror

namespace Compiler

variable (compiler : Compiler) (frames : Frames)

/-! ## Names and arguments -/

theorem admits_start (p : Path (Option Location)) : Admits (compiler.start frames p) := by
  unfold start
  refine admits_guard (fun _ => admits_require _) fun _ => ?_
  split
  · exact (admits_require _).bind fun _ => admits_pure _
  refine admits_ite (fun _ => (admits_require _).bind fun _ => admits_pure _) fun _ => ?_
  split
  · exact admits_ite (fun _ => (admits_require _).bind fun _ => admits_pure _) fun _ =>
      admits_pure _
  · exact admits_pure _

/-- A lookup may fail for an empty name, which is no matter of shape. -/
theorem admits_lookup (p : Path (Option Location)) (terminal : Bool) :
    Admits (compiler.lookup frames p terminal) := by
  unfold lookup
  refine admits_guard (fun _ => admits_fail id _) fun _ => ?_
  exact (compiler.admits_start frames p).bind fun _ => admits_pure _

/-- A call may fail for a helper that is not known, or for the number of its arguments. -/
theorem admits_call (f : Form) {arguments : Compiling (List Operand × Table Operand)}
    (h : Admits arguments) : Admits (compiler.call frames f arguments) := by
  unfold call
  dsimp only
  generalize (if f.path.isSimple then compiler.options.knownHelpers.get? f.head else none) = known
  cases known with
  | none =>
    refine admits_guard (fun _ => admits_fail id _) fun _ => ?_
    exact ((compiler.admits_lookup frames f.path false).map some).bind fun _ =>
      h.bind fun _ => admits_pure _
  | some arity =>
    cases arity with
    | any => exact (admits_pure _).bind fun _ => h.bind fun _ => admits_pure _
    | exactly expected =>
      refine admits_guard (fun _ => admits_fail id _) fun _ => ?_
      exact (admits_pure _).bind fun _ => h.bind fun _ => admits_pure _

theorem admits_ambiguousCall (f : Form) : Admits (compiler.ambiguousCall frames f) :=
  (compiler.admits_lookup frames f.path compiler.options.strict).bind fun _ => admits_pure _

mutual

/-- By recursion over the expression: no step of an operand checks a shape. -/
theorem admits_operand : ∀ e : Expr (Option Location), Admits (compiler.operand frames e)
  | .string _ _ _ | .number _ _ _ | .boolean _ _ _ | .undefined _ | .null _ => admits_pure _
  | .path p => (compiler.admits_lookup frames p false).map _
  | .call ⟨path, params, hash, _, _⟩ => by
    unfold operand
    dsimp only
    split
    · refine (compiler.admits_call frames _ ?_).map _
      exact (admits_operands params).bind fun _ => (admits_hashOperands hash).bind fun _ =>
        admits_pure _
    · exact (compiler.admits_ambiguousCall frames _).map _
    · exact (compiler.admits_lookup frames path false).map _

theorem admits_operands : ∀ es : List (Expr (Option Location)), Admits (compiler.operands frames es)
  | [] => admits_pure _
  | e :: es => (admits_operand e).bind fun _ => (admits_operands es).bind fun _ => admits_pure _

theorem admits_hashOperands :
    ∀ hash : Option (Hash (Option Location)), Admits (compiler.hashOperands frames hash)
  | none => admits_pure _
  | some ⟨pairs, _⟩ => admits_pairOperands [] pairs

theorem admits_pairOperands (table : Table Operand) :
    ∀ pairs : List (Pair (Option Location)), Admits (compiler.pairOperands frames table pairs)
  | [] => admits_pure _
  | ⟨key, value, _⟩ :: rest =>
    (admits_operand value).bind fun o => admits_pairOperands (table.insert key o) rest

end

theorem admits_arguments (f : Form) : Admits (compiler.arguments frames f) :=
  (compiler.admits_operands frames f.params).bind fun _ =>
    (compiler.admits_hashOperands frames f.hash).bind fun _ => admits_pure _

theorem admits_shown (e : Expr (Option Location)) : Admits (compiler.shown frames e) := by
  unfold shown
  dsimp only
  split
  · exact (compiler.admits_call frames _ (compiler.admits_arguments frames _)).map _
  · exact (compiler.admits_ambiguousCall frames _).map _
  · exact (compiler.admits_lookup frames _ _).map _

theorem admits_blockKind (e : Expr (Option Location)) : Admits (compiler.blockKind frames e) := by
  unfold blockKind
  dsimp only
  split
  · exact (compiler.admits_call frames _ (compiler.admits_arguments frames _)).map _
  · exact (compiler.admits_ambiguousCall frames _).map _
  · exact (compiler.admits_lookup frames _ _).map _

/-! ## Partials -/

theorem admits_partialName (e : Expr (Option Location)) :
    Admits (compiler.partialName frames e) := by
  cases e with
  | call c => exact (compiler.admits_operand frames _).map _
  | _ => exact admits_pure _

theorem admits_partialContext (params : List (Expr (Option Location))) :
    Admits (compiler.partialContext frames params) := by
  unfold partialContext
  split
  · exact compiler.admits_operand frames _
  · exact admits_ite (fun _ => admits_pure _) fun _ => admits_pure _

/-- A partial with one parameter at most is admitted. -/
theorem admits_partialInvocation {name : Expr (Option Location)}
    {params : List (Expr (Option Location))} (hfew : params.length ≤ 1)
    (hash : Option (Hash (Option Location))) (indent : String) (program : Option Nat)
    (loc : Option Location) (out : List Instruction) :
    Admits (compiler.partialInvocation frames name params hash indent program loc out) := by
  unfold partialInvocation
  refine admits_guard (fun hmany => absurd hmany (Nat.not_lt.2 hfew)) fun _ => ?_
  refine (admits_require _).bind fun _ => (compiler.admits_partialName frames name).bind fun _ => ?_
  refine (compiler.admits_partialContext frames params).bind fun _ => ?_
  exact (compiler.admits_hashOperands frames hash).bind fun _ => admits_pure _

/-! ## Programs -/

mutual

/-- A tree of the right shape is admitted. -/
theorem admits_program (frames : Frames) (id : Nat) :
    ∀ {p : Program (Option Location)}, p.Every Statement.WellShaped →
      Admits (compiler.program frames id p)
  | ⟨_, _, _, _⟩, h => by
    rw [Compiler.program]
    refine admits_guard (fun _ => admits_require _) fun _ => ?_
    exact (admits_statements _ _ h {}).bind fun _ => admits_pure _

theorem admits_statements (frames : Frames) (next : Nat) :
    ∀ {body : List (Statement (Option Location))}, Statement.AllEvery Statement.WellShaped body →
      ∀ done, Admits (compiler.statements frames next body done)
  | [], _, done => admits_pure done
  | _ :: _, h, done =>
    (admits_statement frames next h.1 done).bind fun done => admits_statements frames next h.2 done

/-- Only a block and a partial have a shape that is checked. -/
theorem admits_statement (frames : Frames) (next : Nat) :
    ∀ {s : Statement (Option Location)}, s.Every Statement.WellShaped →
      ∀ done, Admits (compiler.statement frames next s done)
  | .content _, _, _ | .comment _, _, _ => admits_pure _
  | .mustache m, _, _ => (compiler.admits_shown frames m.expr).bind fun _ => admits_pure _
  | .block _, h, done => admits_block frames next h.1 h.2 done
  | .partialCall _, hfew, _ =>
    (compiler.admits_partialInvocation frames hfew _ _ _ _ _).bind fun _ => admits_pure _
  | .partialBlock _, h, done => admits_partialBlock frames next h.1 h.2 done

/-- A block is checked where it stands, its sections by the recursion. -/
theorem admits_block (frames : Frames) (next : Nat) :
    ∀ {b : Block (Option Location)}, b.WellShaped → b.Every Statement.WellShaped →
      ∀ done, Admits (compiler.block frames next b done)
  | ⟨expr, _, _, _, _, _, _, _⟩, hshape, h, _ =>
    (admits_checkBlock hshape).bind fun _ => (compiler.admits_blockKind frames expr).bind fun _ =>
      (admits_programs frames _ h.1).bind fun _ => (admits_programs frames _ h.2).bind fun _ =>
        admits_pure _

/-- A partial with a body has one argument at most, as any partial has. -/
theorem admits_partialBlock (frames : Frames) (next : Nat) :
    ∀ {p : PartialBlock (Option Location)}, p.params.length ≤ 1 → p.Every Statement.WellShaped →
      ∀ done, Admits (compiler.partialBlock frames next p done)
  | ⟨_, _, _, _, _, _, _⟩, hfew, h, _ =>
    (admits_program frames _ h).bind fun _ =>
      (compiler.admits_partialInvocation frames hfew _ _ _ _ _).bind fun _ => admits_pure _

theorem admits_programs (frames : Frames) (id : Nat) :
    ∀ {p : Option (Program (Option Location))}, Program.EveryOpt Statement.WellShaped p →
      Admits (compiler.programs frames id p)
  | none, _ => admits_pure _
  | some _, h => admits_program frames id h

end

end Compiler

end Stencil.Code

namespace Stencil.Template

open Stencil.Code
open Stencil.Tree (Statement)

/-- The tree of a template, read with any options and laid out, has the right shape: closing tags
repeat the names of their blocks, blocks have a body, chained sections after an `else` hold one
block, partials have one parameter at most. So no compiler refuses it for its shape. -/
theorem shape_of_read {options : ReadOptions} {source : String} {tree : Tree.Located}
    (h : read options source = .ok tree) :
    tree.Every Statement.WellShaped ∧
      ∀ (compiler : Compiler) (e : CompileError), compiler.compile tree = .error e →
        ¬ e.cause.IsShape := by
  have hshape := wellShaped_of_read h
  refine ⟨hshape, fun compiler e herror => ?_⟩
  unfold Compiler.compile at herror
  cases hrun : (compiler.program [] 0 tree).run Features.none with
  | error e' =>
    rw [hrun] at herror
    cases herror
    exact compiler.admits_program [] 0 hshape _ _ hrun
  | ok r =>
    rw [hrun] at herror
    cases herror

/-- An inverted block with a chained section, a block under a number, a raw block and a partial: the
tree has the right shape, and if a compiler that knows only certain helpers refuses it, then for the
helper that it calls. -/
theorem shape_of_read_manyBlocks :
    let source :=
      "\x7b\x7b^a\x7d\x7dx\x7b\x7belse if b\x7d\x7dy\x7b\x7b/a\x7d\x7d" ++
      "\x7b\x7b#12\x7d\x7dz\x7b\x7b/12\x7d\x7d" ++
      "\x7b\x7b\x7b\x7br\x7d\x7d\x7d\x7dt\x7b\x7b\x7b\x7b/r\x7d\x7d\x7d\x7d" ++
      "\x7b\x7b> p q\x7d\x7d\x7b\x7bshout 1\x7d\x7d"
    let compiler : Compiler := { options := { knownHelpersOnly := true } }
    ∃ tree e, read {} source = .ok tree ∧ compiler.compile tree = .error e ∧
      e.cause = .unknownHelper "shout" ∧ tree.Every Statement.WellShaped ∧ ¬ e.cause.IsShape := by
  intro source compiler
  have hrefused : (read {} source).toOption.map (fun tree =>
      match compiler.compile tree with
      | .error e => some e.cause
      | .ok _ => none) = some (some (.unknownHelper "shout")) := by decide +kernel
  cases hread : read {} source with
  | error e => rw [hread] at hrefused; cases hrefused
  | ok tree =>
    rw [hread] at hrefused
    have hcompile := Option.some.inj hrefused
    dsimp only at hcompile
    cases herror : compiler.compile tree with
    | ok s => rw [herror] at hcompile; cases hcompile
    | error e =>
      rw [herror] at hcompile
      obtain ⟨hshape, hadmits⟩ := shape_of_read hread
      exact ⟨tree, e, rfl, herror, Option.some.inj hcompile, hshape, hadmits compiler e herror⟩

end Stencil.Template
