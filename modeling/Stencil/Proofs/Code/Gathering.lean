import Stencil.Code.Accept
import Stencil.Proofs.Code.Emission

/-!
# Gathering

The features that compilation gathers on its way. They never decide how it goes on: whatever was
gathered before a step, the step gives the same or fails in the same way, and adds the same features
to those before (`Compiling.Gathers`). So two compilations can be put one after the other. Since a
step only ever adds features that the library has, what is compiled for this revision is never
refused (`Compiler.check_of_compile`).
-/

set_option autoImplicit false

namespace Stencil.Code

open Stencil.Text (Location)
open Stencil.Tree (Expr Hash Pair Path Program Statement Block PartialBlock)

/-! ## Sets of features -/

namespace Features

variable (a b c : Features)

/-- Features are gathered as a set, so it does not matter which of them are put together first. -/
theorem union_assoc : (a.union b).union c = a.union (b.union c) :=
  congrArg Features.mk (UInt32.or_assoc ..)

theorem none_union : none.union a = a := congrArg Features.mk UInt32.zero_or

theorem union_none : a.union none = a := congrArg Features.mk UInt32.or_zero

/-- The library lacks of two sets together what it lacks of either. -/
theorem unsupported_union : (a.union b).unsupported = a.unsupported.union b.unsupported := by
  refine congrArg Features.mk (UInt32.toBitVec_inj.1 ?_)
  ext i hi
  simp only [union, unsupported, UInt32.toBitVec_and, UInt32.toBitVec_or, BitVec.getElem_and,
    BitVec.getElem_or, Bool.and_or_distrib_right]

end Features

namespace Compiling

/-- Whatever features were gathered before, compiling ends in the same way and adds the same
features, all of which the library has. -/
structure Gathers {α : Type} (c : Compiling α) : Prop where
  run : ∀ before, c.run before = (c.run Features.none).map fun r => (r.1, before.union r.2)
  supported : ∀ a after, c.run Features.none = .ok (a, after) → after.unsupported = Features.none

variable {α β : Type}

/-- A result needs nothing, and adds nothing to what was gathered. -/
theorem gathers_pure (a : α) : Gathers (pure a) where
  run before := congrArg (fun f => Except.ok (a, f)) before.union_none.symm
  supported _ _ h := by cases h; rfl

/-- A failure is the same whatever was gathered, which it drops. -/
theorem gathers_fail (cause : CompileCause) (loc : Option Location) :
    Gathers (Compiling.fail cause loc : Compiling α) where
  run _ := rfl
  supported _ _ h := by cases h

/-- A step that needs a feature adds it, if the library has it. -/
theorem gathers_require {feature : Features} (h : feature.unsupported = Features.none) :
    Gathers (Compiling.require feature) where
  run before := congrArg (fun f => Except.ok ((), before.union f)) feature.none_union.symm
  supported _ _ hrun := by
    cases hrun
    exact (congrArg Features.unsupported feature.none_union).trans h

/-- The second step starts with what the first gathered. It would add the same to nothing, so both
together add the union, by `Features.union_assoc`. -/
theorem gathers_bind {c : Compiling α} {next : α → Compiling β} (hc : Gathers c)
    (hnext : ∀ a, Gathers (next a)) : Gathers (c >>= next) where
  run before := by
    rw [StateT.run_bind, StateT.run_bind, hc.run before]
    cases hrun : c.run Features.none with
    | error e => rfl
    | ok r =>
      show (next r.1).run (before.union r.2) = ((next r.1).run r.2).map _
      rw [(hnext r.1).run (before.union r.2), (hnext r.1).run r.2]
      cases (next r.1).run Features.none with
      | error e => rfl
      | ok s => exact congrArg (fun f => Except.ok (s.1, f)) (Features.union_assoc ..)
  supported b after h := by
    rw [StateT.run_bind] at h
    cases hrun : c.run Features.none with
    | error e => rw [hrun] at h; cases h
    | ok r =>
      rw [hrun] at h
      replace h : (next r.1).run r.2 = .ok (b, after) := h
      rw [(hnext r.1).run r.2] at h
      cases hlast : (next r.1).run Features.none with
      | error e => rw [hlast] at h; cases h
      | ok s =>
        rw [hlast] at h
        cases h
        rw [Features.unsupported_union, hc.supported _ _ hrun, (hnext r.1).supported _ _ hlast]
        rfl

theorem gathers_map {c : Compiling α} (hc : Gathers c) (f : α → β) : Gathers (f <$> c) := by
  rw [map_eq_pure_bind]
  exact gathers_bind hc fun a => gathers_pure (f a)

/-- Neither branch looks at the features, so the choice between them does not either. -/
theorem gathers_ite {p : Prop} [Decidable p] {c d : Compiling α} (hc : Gathers c) (hd : Gathers d) :
    Gathers (if p then c else d) := by
  split
  · exact hc
  · exact hd

/-- A check, or a step that is taken only under a condition, before what follows. -/
theorem gathers_guard {p : Prop} [Decidable p] {step : Compiling Unit} {next : Unit → Compiling α}
    (hstep : Gathers step) (hnext : Gathers (next ())) :
    Gathers (if p then step >>= next else next ()) :=
  gathers_ite (gathers_bind hstep fun _ => hnext) hnext

end Compiling

open Compiling (Gathers gathers_pure gathers_fail gathers_require gathers_bind gathers_map
  gathers_ite gathers_guard)

namespace Compiler

variable (compiler : Compiler) (frames : Frames)

/-! ## Every step gathers -/

/-- Where a lookup starts is found from the path and the frames. It may need the feature of depths,
and that of block parameters, of data or of compatibility, all of which the library has. -/
theorem start_gathers (p : Path (Option Location)) : Gathers (compiler.start frames p) := by
  unfold Compiler.start
  refine gathers_guard (gathers_require (by decide)) ?_
  split
  · exact gathers_bind (gathers_require (by decide)) fun _ => gathers_pure _
  · split
    · exact gathers_bind (gathers_require (by decide)) fun _ => gathers_pure _
    · split
      · split
        · exact gathers_bind (gathers_require (by decide)) fun _ => gathers_pure _
        · exact gathers_pure _
      · exact gathers_pure _

/-- A lookup is refused for an empty name in its path. Else it is where it starts and the names
after that, of which none needs a feature. -/
theorem lookup_gathers (p : Path (Option Location)) (terminal : Bool) :
    Gathers (compiler.lookup frames p terminal) := by
  unfold Compiler.lookup
  exact gathers_guard (gathers_fail _ _) (gathers_bind (compiler.start_gathers frames p) fun _ =>
    gathers_pure _)

/-- A known helper is checked for its arguments, an unknown one is looked up too. Then the arguments
are compiled. -/
theorem call_gathers (f : Form) {arguments : Compiling (List Operand × Table Operand)}
    (h : Gathers arguments) : Gathers (compiler.call frames f arguments) := by
  rw [Compiler.call]
  generalize (if f.path.isSimple then compiler.options.knownHelpers.get? f.head else none) = known
  cases known with
  | none =>
    refine gathers_guard (gathers_fail _ _) ?_
    refine gathers_bind (gathers_map (compiler.lookup_gathers frames f.path false) some) fun _ => ?_
    exact gathers_bind h fun _ => gathers_pure _
  | some arity =>
    cases arity with
    | any => exact gathers_bind (gathers_pure _) fun _ => gathers_bind h fun _ => gathers_pure _
    | exactly expected =>
      refine gathers_guard (gathers_fail _ _) ?_
      exact gathers_bind (gathers_pure _) fun _ => gathers_bind h fun _ => gathers_pure _

/-- A name that may be a helper is looked up, and has no arguments to compile. -/
theorem ambiguousCall_gathers (f : Form) : Gathers (compiler.ambiguousCall frames f) :=
  gathers_bind (compiler.lookup_gathers frames _ _) fun _ => gathers_pure _

mutual

/-- By recursion over the expression: literals need nothing, paths are looked up, calls compile
their arguments. -/
theorem operand_gathers : ∀ e : Expr (Option Location), Gathers (compiler.operand frames e)
  | .string _ _ _ | .number _ _ _ | .boolean _ _ _ | .undefined _ | .null _ => gathers_pure _
  | .path p => gathers_map (compiler.lookup_gathers frames p false) _
  | .call ⟨path, params, hash, parenthesised, mark⟩ => by
    have harguments : Gathers (do
        let params ← compiler.operands frames params
        let hash ← compiler.hashOperands frames hash
        pure (params, hash)) :=
      gathers_bind (operands_gather params) fun _ =>
        gathers_bind (hashOperands_gather hash) fun _ => gathers_pure _
    rw [Compiler.operand]
    split
    · exact gathers_map (compiler.call_gathers frames _ harguments) _
    · exact gathers_map (compiler.ambiguousCall_gathers frames _) _
    · exact gathers_map (compiler.lookup_gathers frames path false) _

/-- Arguments are compiled from left to right. -/
theorem operands_gather :
    ∀ es : List (Expr (Option Location)), Gathers (compiler.operands frames es)
  | [] => gathers_pure _
  | e :: es =>
    gathers_bind (operand_gathers e) fun _ =>
      gathers_bind (operands_gather es) fun _ => gathers_pure _

/-- Without named arguments nothing is compiled. -/
theorem hashOperands_gather :
    ∀ hash : Option (Hash (Option Location)), Gathers (compiler.hashOperands frames hash)
  | none => gathers_pure _
  | some ⟨pairs, _⟩ => pairOperands_gather pairs []

/-- Pairs are entered from left to right into a table that the steps hand on. -/
theorem pairOperands_gather :
    ∀ (pairs : List (Pair (Option Location))) (table : Table Operand),
      Gathers (compiler.pairOperands frames table pairs)
  | [], _ => gathers_pure _
  | ⟨_, value, _⟩ :: rest, _ =>
    gathers_bind (operand_gathers value) fun _ => pairOperands_gather rest _

end

theorem arguments_gather (f : Form) : Gathers (compiler.arguments frames f) :=
  gathers_bind (compiler.operands_gather frames _) fun _ =>
    gathers_bind (compiler.hashOperands_gather frames _) fun _ => gathers_pure _

/-- What a tag shows is compiled in one of three ways, by the kind of its form. -/
theorem shown_gathers (e : Expr (Option Location)) : Gathers (compiler.shown frames e) := by
  rw [Compiler.shown]
  split
  · exact gathers_map (compiler.call_gathers frames _ (compiler.arguments_gather frames _)) _
  · exact gathers_map (compiler.ambiguousCall_gathers frames _) _
  · exact gathers_map (compiler.lookup_gathers frames _ _) _

/-- What opens a block is compiled in the same three ways. -/
theorem blockKind_gathers (e : Expr (Option Location)) : Gathers (compiler.blockKind frames e) := by
  rw [Compiler.blockKind]
  split
  · exact gathers_map (compiler.call_gathers frames _ (compiler.arguments_gather frames _)) _
  · exact gathers_map (compiler.ambiguousCall_gathers frames _) _
  · exact gathers_map (compiler.lookup_gathers frames _ _) _

/-- Only a name that is computed at run time needs compiling. -/
theorem partialName_gathers (e : Expr (Option Location)) :
    Gathers (compiler.partialName frames e) := by
  cases e with
  | call c => exact gathers_map (compiler.operand_gathers frames _) _
  | _ => exact gathers_pure _

/-- A partial without an argument takes a context that the options decide on. -/
theorem partialContext_gathers (params : List (Expr (Option Location))) :
    Gathers (compiler.partialContext frames params) := by
  cases params with
  | nil => exact gathers_ite (gathers_pure _) (gathers_pure _)
  | cons param _ => exact compiler.operand_gathers frames param

/-- A call of a partial needs the feature of partials, and then what its name, its context and its
named arguments need. -/
theorem partialInvocation_gathers (name : Expr (Option Location))
    (params : List (Expr (Option Location))) (hash : Option (Hash (Option Location)))
    (indent : String) (program : Option Nat) (loc : Option Location) (out : List Instruction) :
    Gathers (compiler.partialInvocation frames name params hash indent program loc out) := by
  unfold Compiler.partialInvocation
  refine gathers_guard (gathers_fail _ _) ?_
  refine gathers_bind (gathers_require (by decide)) fun _ => ?_
  refine gathers_bind (compiler.partialName_gathers frames name) fun _ => ?_
  refine gathers_bind (compiler.partialContext_gathers frames params) fun _ => ?_
  exact gathers_bind (compiler.hashOperands_gather frames hash) fun _ => gathers_pure _

/-- The checks of a block fail or do nothing, so they are guards in front of the rest. -/
theorem checkBlock_gathers (b : Block (Option Location)) : Gathers (Compiling.checkBlock b) := by
  obtain ⟨expr, body, inverse, _, _, _, close, mark⟩ := b
  unfold Compiling.checkBlock
  dsimp only
  rcases close with _ | close
  -- Where there is a closing tag, its name is checked first.
  on_goal 2 => refine gathers_guard (gathers_fail _ _) ?_
  all_goals
    refine gathers_guard (gathers_fail _ _) ?_
    cases inverse with
    | none => exact gathers_pure ()
    | some inverse =>
      refine gathers_ite ?_ (gathers_pure ())
      split
      · exact gathers_pure ()
      · exact gathers_fail _ _

mutual

/-- By recursion over the tree: a program needs the feature of block parameters if it has some, and
then what its statements need. -/
theorem program_gathers (frames : Frames) (id : Nat) :
    ∀ p : Program (Option Location), Gathers (compiler.program frames id p)
  | ⟨body, blockParams, _, _⟩ => by
    rw [Compiler.program]
    exact gathers_guard (gathers_require (by decide))
      (gathers_bind (statements_gather (blockParams :: frames) (id + 1) body {}) fun _ =>
        gathers_pure _)

/-- Statements are compiled from left to right, with the progress made so far handed on. -/
theorem statements_gather (frames : Frames) (next : Nat) :
    ∀ (body : List (Statement (Option Location))) (done : Progress),
      Gathers (compiler.statements frames next body done)
  | [], _ => gathers_pure _
  | s :: rest, done =>
    gathers_bind (statement_gathers frames next s done) fun done =>
      statements_gather frames next rest done

theorem statement_gathers (frames : Frames) (next : Nat) :
    ∀ (s : Statement (Option Location)) (done : Progress),
      Gathers (compiler.statement frames next s done)
  | .content _, _ => gathers_pure _
  | .comment _, _ => gathers_pure _
  | .mustache m, _ => gathers_bind (compiler.shown_gathers frames m.expr) fun _ => gathers_pure _
  | .block b, done => block_gathers frames next b done
  | .partialCall _, _ =>
    gathers_bind (compiler.partialInvocation_gathers frames _ _ _ _ _ _ _) fun _ => gathers_pure _
  | .partialBlock p, done => partialBlock_gathers frames next p done

/-- A block is checked, then what opens it is compiled, then its sections. -/
theorem block_gathers (frames : Frames) (next : Nat) :
    ∀ (b : Block (Option Location)) (done : Progress), Gathers (compiler.block frames next b done)
  | ⟨expr, body, inverse, _, _, _, _, _⟩, _ => by
    rw [Compiler.block]
    refine gathers_bind (checkBlock_gathers _) fun _ => ?_
    refine gathers_bind (compiler.blockKind_gathers frames expr) fun _ => ?_
    refine gathers_bind (programs_gather frames _ body) fun _ => ?_
    exact gathers_bind (programs_gather frames _ inverse) fun _ => gathers_pure _

/-- The body of a partial block is compiled before the call of its partial. -/
theorem partialBlock_gathers (frames : Frames) (next : Nat) :
    ∀ (p : PartialBlock (Option Location)) (done : Progress),
      Gathers (compiler.partialBlock frames next p done)
  | ⟨_, _, _, body, _, _, _⟩, _ => by
    rw [Compiler.partialBlock]
    refine gathers_bind (program_gathers frames _ body) fun _ => ?_
    exact gathers_bind (compiler.partialInvocation_gathers frames _ _ _ _ _ _ _) fun _ =>
      gathers_pure _

theorem programs_gather (frames : Frames) (id : Nat) :
    ∀ p : Option (Program (Option Location)), Gathers (compiler.programs frames id p)
  | none => gathers_pure _
  | some p => program_gathers frames id p

end

/-! ## Compiled code is accepted -/

/-- What is compiled for this revision is never refused. -/
theorem check_of_compile {compiler : Compiler} (hstamp : compiler.backend.stamp = {})
    {tree : Tree.Located} {spec : Spec} (h : compiler.compile tree = .ok spec) :
    spec.check = .ok () := by
  unfold Compiler.compile at h
  cases hrun : (compiler.program [] 0 tree).run Features.none with
  | error e => rw [hrun] at h; cases h
  | ok r =>
    rw [hrun] at h
    cases h
    have hsupported : (Features.none.union r.2).unsupported = Features.none := by
      rw [Features.none_union]
      exact (program_gathers _ [] 0 tree).supported _ _ hrun
    unfold Spec.check Stamp.check
    dsimp only
    rw [hstamp]
    exact (if_neg (not_not.2 rfl)).trans (if_neg (not_not.2 hsupported))

end Compiler

end Stencil.Code
