import Stencil.Proofs.Code.Addresses
import Stencil.Proofs.Code.Gathering

/-!
# What code needs

Compiled code is stamped with features. They are features of the library, so the code is accepted,
and they are enough for all that the code asks for (`Compiler.compile_granted`): whatever a lookup
starts from (`Features.Grant`), the block parameters of every program and the calls of partials.
Compilation gathers features step by step and forgets none, so what a step gives is granted by all
features that hold those at the end of the step (`Compiling.Within`). This is followed through the
whole compiler.
-/

set_option autoImplicit false

namespace Stencil.Code

open Stencil.Text (Location)
open Stencil.Tree (Expr Hash Pair Path Program Statement Block PartialBlock)

/-! ## Sets of features -/

namespace Features

variable {f g h : Features}

/-- A set of features contains another one bit by bit. -/
theorem contains_iff :
    f.contains g = true ↔ ∀ i, g.bits.toBitVec.getLsbD i = true →
      f.bits.toBitVec.getLsbD i = true := by
  rw [contains, beq_iff_eq, ← UInt32.toBitVec_inj, UInt32.toBitVec_and, BitVec.eq_of_getLsbD_eq_iff]
  simp only [BitVec.getLsbD_and, Bool.and_eq_right_iff_imp]
  refine ⟨fun hsub i hi => hsub i (BitVec.lt_of_getLsbD hi) hi, fun hsub i _ => hsub i⟩

/-- A set has the union of two others if it has both. -/
theorem contains_union :
    f.contains (g.union h) = true ↔ f.contains g = true ∧ f.contains h = true := by
  simp only [contains_iff, union, UInt32.toBitVec_or, BitVec.getLsbD_or, Bool.or_eq_true, or_imp,
    forall_and]

/-- The library has the features of which it misses none. -/
theorem supported_contains (hf : f.unsupported = none) : supported.contains f = true := by
  rw [contains_iff]
  intro i hi
  have hmissed : f.bits.toBitVec &&& ~~~supported.bits.toBitVec = 0#32 :=
    congrArg (fun g : Features => g.bits.toBitVec) hf
  have hbit : (f.bits.toBitVec &&& ~~~supported.bits.toBitVec).getLsbD i = false := by
    rw [hmissed, BitVec.getLsbD_zero]
  rw [BitVec.getLsbD_and, hi, BitVec.getLsbD_not, decide_eq_true (BitVec.lt_of_getLsbD hi)] at hbit
  simpa using hbit

/-! ## Granting -/

/-- The features are enough for what the accessor starts from. -/
def Grant (f : Features) : Accessor → Prop
  | .member base _ _ => f.Grant base
  | .context depth => 0 < depth → f.contains depths = true
  | .data depth => f.contains data = true ∧ (0 < depth → f.contains depths = true)
  | .blockParam _ _ => f.contains blockParams = true
  | .anyContext _ => f.contains compat = true
  | .helpers | .partials => True

/-- The features are enough for what each of the lookups starts from. -/
def GrantAll (f : Features) (lookups : List Lookup) : Prop := ∀ l ∈ lookups, f.Grant l.accessor

/-- The features are enough for the instruction. -/
structure GrantInstruction (f : Features) (i : Instruction) : Prop where
  lookups : f.GrantAll i.lookups
  partials : ∀ p, i = .partialCall p → f.contains partials = true

/-- The features are enough for the compiled program. -/
structure GrantChunk (f : Features) (c : Chunk) : Prop where
  instructions : ∀ i ∈ c.instructions, f.GrantInstruction i
  blockParams : 0 < c.blockParams → f.contains blockParams = true

theorem grantAll_nil : f.GrantAll [] := List.forall_mem_nil _

/-- Lookups in a row are granted list by list. -/
theorem grantAll_append {ls ms : List Lookup} :
    f.GrantAll (ls ++ ms) ↔ f.GrantAll ls ∧ f.GrantAll ms :=
  List.forall_mem_append

theorem grantAll_singleton {l : Lookup} : f.GrantAll [l] ↔ f.Grant l.accessor :=
  List.forall_mem_singleton

/-- Names after the start of a lookup need no feature. -/
theorem grant_foldl (kind : LookupKind) (steps : List String) {base : Accessor} (h : f.Grant base) :
    f.Grant (steps.foldl (fun a name => Accessor.member a name kind) base) := by
  induction steps generalizing base with
  | nil => exact h
  | cons name rest ih => exact ih h

/-- What a table is given under a name may take the place of another value, whose lookups are gone
then. -/
theorem GrantAll.insert {name : String} {o : Operand} {table : Table Operand}
    (htable : f.GrantAll (Operand.lookupsNamed table)) (ho : f.GrantAll o.lookups) :
    f.GrantAll (Operand.lookupsNamed (table.insert name o)) := by
  intro l hl
  rcases Operand.mem_lookupsNamed_insert hl with hl | hl
  · exact htable l hl
  · exact ho l hl

/-- Text needs nothing. -/
theorem grantInstruction_content (text : String) : f.GrantInstruction (.content text) :=
  ⟨grantAll_nil, nofun⟩

/-- To show a value takes no more than its lookups. -/
theorem grantInstruction_shown {o : Operand} (h : f.GrantAll o.lookups) (escape : Bool) :
    f.GrantInstruction (.append o escape) := ⟨h, nofun⟩

theorem grantInstruction_block {b : BlockCall} (h : f.GrantAll b.kind.lookups) :
    f.GrantInstruction (.block b) :=
  ⟨h, nofun⟩

/-- Where neighbouring texts are joined, every other instruction is one of those before. -/
theorem grantInstruction_append {out : List Instruction} {i : Instruction}
    (hout : ∀ j ∈ out, f.GrantInstruction j) (hi : f.GrantInstruction i) (explicit : Bool) :
    ∀ j ∈ Backend.standard.append out i explicit, f.GrantInstruction j := by
  show ∀ j ∈ appendJoining out i explicit, f.GrantInstruction j
  unfold appendJoining
  split
  · refine List.forall_mem_append.2 ⟨fun j hj => hout j (List.dropLast_subset out hj), ?_⟩
    exact List.forall_mem_singleton.2 (grantInstruction_content _)
  · exact List.forall_mem_append.2 ⟨hout, List.forall_mem_singleton.2 hi⟩

end Features

/-! ## Steps of compiling -/

namespace Compiling

variable {α β : Type} {f : Features} {P : α → Prop} {Q : β → Prop}

/-- If compiling ends with features that are all in `f`, then it began with such, and what it gives
has the property. -/
structure Within (f : Features) (c : Compiling α) (P : α → Prop) : Prop where
  run : ∀ {before after a}, c.run before = .ok (a, after) → f.contains after = true →
    f.contains before = true ∧ P a

/-- A result gathers nothing, so it ends as it began. -/
theorem within_pure {a : α} (h : P a) : Within f (pure a) P where
  run hrun hafter := by
    cases hrun
    exact ⟨hafter, h⟩

/-- What fails does not end with any features. -/
theorem within_fail {cause : CompileCause} {loc : Option Location} :
    Within f (Compiling.fail cause loc) P where
  run hrun := by cases hrun

/-- A step that needs a feature ends with it, so the set that it ends in has it. -/
theorem within_require {feature : Features} :
    Within f (Compiling.require feature) fun _ => f.contains feature = true where
  run hrun hafter := by
    cases hrun
    exact Features.contains_union.1 hafter

/-- Features are only ever added, so what the second step ends in has what the first ended in. -/
theorem within_bind {c : Compiling α} {next : α → Compiling β} (hc : Within f c P)
    (hnext : ∀ a, Within f (next a) fun b => P a → Q b) : Within f (c >>= next) Q := by
  refine ⟨fun {before after b} hrun hafter => ?_⟩
  rw [StateT.run_bind] at hrun
  cases hmid : c.run before with
  | error e => rw [hmid] at hrun; cases hrun
  | ok r =>
    rw [hmid] at hrun
    obtain ⟨hbetween, hQ⟩ := (hnext r.1).run hrun hafter
    obtain ⟨hbefore, hP⟩ := hc.run hmid hbetween
    exact ⟨hbefore, hQ hP⟩

/-- What is made of a result is judged by the result. -/
theorem within_map {c : Compiling α} {g : α → β} (hc : Within f c P) (h : ∀ a, P a → Q (g a)) :
    Within f (g <$> c) Q := by
  rw [map_eq_pure_bind]
  exact within_bind hc fun a => within_pure (h a)

theorem Within.imp {c : Compiling α} {P' : α → Prop} (hc : Within f c P) (h : ∀ a, P a → P' a) :
    Within f c P' :=
  ⟨fun hrun hafter => (hc.run hrun hafter).imp_right (h _)⟩

/-- What follows a step that is taken only under a condition may rely on the step where the
condition holds. -/
theorem within_guard {p S : Prop} [Decidable p] {step : Compiling Unit} {next : Unit → Compiling α}
    (hstep : Within f step fun _ => S) (hnext : Within f (next ()) fun a => (p → S) → P a) :
    Within f (if p then step >>= next else next ()) P := by
  split
  next hp => exact within_bind hstep fun _ => hnext.imp fun a h hS => h fun _ => hS
  next hp => exact hnext.imp fun a h => h fun hp' => absurd hp' hp

/-- What is checked first gathers no features and fails, or has no effect. -/
theorem within_check {p : Prop} [Decidable p] {cause : CompileCause} {loc : Option Location}
    {next : Unit → Compiling α} (hnext : Within f (next ()) P) :
    Within f (if p then Compiling.fail cause loc >>= next else next ()) P :=
  within_guard within_fail (S := True) (hnext.imp fun _ h _ => h)

/-- A step that gathers features only adds to them. -/
theorem Gathers.within {c : Compiling α} (hc : Gathers c) : Within f c fun _ => True := by
  refine ⟨fun {before after a} hrun hafter => ?_⟩
  rw [hc.run] at hrun
  cases hnone : c.run Features.none with
  | error e => rw [hnone] at hrun; cases hrun
  | ok r =>
    rw [hnone] at hrun
    cases hrun
    exact ⟨(Features.contains_union.1 hafter).1, trivial⟩

end Compiling

open Compiling (Within within_pure within_require within_bind within_map within_guard within_check)

namespace Compiler

variable {options : Options} {frames : Frames} {f : Features}

/-! ## Paths and calls -/

/-- Each kind of start is the one whose feature was asked for right before. -/
theorem start_within (p : Path (Option Location)) :
    Within f (({ options } : Compiler).start frames p) fun r => f.Grant r.1 := by
  unfold Compiler.start
  refine within_guard within_require ?_
  split
  · exact within_bind within_require fun _ => within_pure fun h _ => h
  · split
    · exact within_bind within_require fun _ => within_pure fun hdata hdepths => ⟨hdata, hdepths⟩
    · split
      · split
        · exact within_bind within_require fun _ => within_pure fun h _ => h
        · exact within_pure id
      · exact within_pure id

/-- A lookup is granted where its start is. -/
theorem lookup_within (p : Path (Option Location)) (terminal : Bool) :
    Within f (({ options } : Compiler).lookup frames p terminal) fun l => f.Grant l.accessor := by
  unfold Compiler.lookup
  exact within_check (within_bind (start_within p) fun _ => within_pure (Features.grant_foldl _ _))

/-- A helper is looked for among those that are registered, which needs nothing. -/
theorem grantAll_call (simple : Bool) {name head : String} {value : Option Lookup}
    {params : List Operand} {hash : Table Operand} {ids : Option CallIds} {loc : Option Location}
    (hvalue : f.GrantAll value.toList)
    (harguments : f.GrantAll (Operand.lookupsAll params) ∧ f.GrantAll (Operand.lookupsNamed hash)) :
    f.GrantAll (Call.lookups ⟨name, if simple then some (.member .helpers head .helper) else none,
      value, params, hash, ids, loc⟩) := by
  refine Features.grantAll_append.2
    ⟨Features.grantAll_append.2 ⟨?_, hvalue⟩, Features.grantAll_append.2 harguments⟩
  cases simple with
  | false => exact Features.grantAll_nil
  | true => exact Features.grantAll_singleton.2 trivial

/-- The lookups of a call are those of its arguments and, of a name that is not known, that of the
name. -/
theorem call_within (form : Form) {arguments : Compiling (List Operand × Table Operand)}
    (h : Within f arguments fun r =>
      f.GrantAll (Operand.lookupsAll r.1) ∧ f.GrantAll (Operand.lookupsNamed r.2)) :
    Within f (({ options } : Compiler).call frames form arguments) fun c =>
      f.GrantAll c.lookups := by
  rw [Compiler.call]
  generalize (if form.path.isSimple then options.knownHelpers.get? form.head else none) = known
  cases known with
  | none =>
    have hlookup : Within f (some <$> ({ options } : Compiler).lookup frames form.path false)
        fun value =>
        f.GrantAll value.toList :=
      within_map (lookup_within form.path false) fun _ => Features.grantAll_singleton.2
    refine within_check (within_bind hlookup fun _ => ?_)
    exact within_bind h fun _ => within_pure fun hr hvalue => grantAll_call _ hvalue hr
  | some arity =>
    have hknown : Within f (pure (none : Option Lookup)) fun value => f.GrantAll value.toList :=
      within_pure Features.grantAll_nil
    cases arity with
    | any =>
      exact within_bind hknown fun _ => within_bind h fun _ => within_pure fun hr hvalue =>
        grantAll_call _ hvalue hr
    | exactly expected =>
      refine within_check (within_bind hknown fun _ => ?_)
      exact within_bind h fun _ => within_pure fun hr hvalue => grantAll_call _ hvalue hr

/-- A name that may be a helper or a value is one lookup. -/
theorem ambiguousCall_within (form : Form) :
    Within f (({ options } : Compiler).ambiguousCall frames form) fun c =>
      f.GrantAll c.lookups := by
  refine within_bind (lookup_within _ _) fun _ => within_pure fun hvalue => ?_
  exact grantAll_call true (Features.grantAll_singleton.2 hvalue)
    ⟨Features.grantAll_nil, Features.grantAll_nil⟩

mutual

/-- By recursion over the expression, as it is compiled. -/
theorem operand_within : ∀ e : Expr (Option Location),
    Within f (({ options } : Compiler).operand frames e) fun o => f.GrantAll o.lookups
  | .string _ _ _ | .number _ _ _ | .boolean _ _ _ | .undefined _ | .null _ =>
    within_pure Features.grantAll_nil
  | .path p => within_map (lookup_within p false) fun _ => Features.grantAll_singleton.2
  | .call ⟨path, params, hash, parenthesised, mark⟩ => by
    rw [Compiler.operand]
    split
    · refine within_map (call_within _ ?_) fun _ h => h
      exact within_bind (operands_within params) fun _ =>
        within_bind (hashOperands_within hash) fun _ => within_pure fun hhash hparams =>
          ⟨hparams, hhash⟩
    · exact within_map (ambiguousCall_within _) fun _ h => h
    · exact within_map (lookup_within path false) fun _ => Features.grantAll_singleton.2

/-- The lookups of arguments in a row are those of each. -/
theorem operands_within : ∀ es : List (Expr (Option Location)),
    Within f (({ options } : Compiler).operands frames es) fun os =>
      f.GrantAll (Operand.lookupsAll os)
  | [] => within_pure Features.grantAll_nil
  | e :: es =>
    within_bind (operand_within e) fun _ =>
      within_bind (operands_within es) fun _ => within_pure fun hos ho =>
        Features.grantAll_append.2 ⟨ho, hos⟩

/-- Without named arguments there are no lookups. -/
theorem hashOperands_within : ∀ hash : Option (Hash (Option Location)),
    Within f (({ options } : Compiler).hashOperands frames hash) fun table =>
      f.GrantAll (Operand.lookupsNamed table)
  | none => within_pure Features.grantAll_nil
  | some ⟨pairs, _⟩ => (pairOperands_within pairs []).imp fun _ h => h Features.grantAll_nil

/-- What is entered into a table. -/
theorem pairOperands_within : ∀ (pairs : List (Pair (Option Location))) (table : Table Operand),
    Within f (({ options } : Compiler).pairOperands frames table pairs) fun table' =>
      f.GrantAll (Operand.lookupsNamed table) → f.GrantAll (Operand.lookupsNamed table')
  | [], _ => within_pure id
  | ⟨_, value, _⟩ :: rest, _ =>
    within_bind (operand_within value) fun _ =>
      (pairOperands_within rest _).imp fun _ h ho htable => h (htable.insert ho)

end

theorem arguments_within (form : Form) :
    Within f (({ options } : Compiler).arguments frames form) fun r =>
      f.GrantAll (Operand.lookupsAll r.1) ∧ f.GrantAll (Operand.lookupsNamed r.2) :=
  within_bind (operands_within _) fun _ =>
    within_bind (hashOperands_within _) fun _ => within_pure fun hhash hparams => ⟨hparams, hhash⟩

/-! ## Statements -/

/-- A tag shows a call, a name that may be either, or a value. -/
theorem shown_within (e : Expr (Option Location)) :
    Within f (({ options } : Compiler).shown frames e) fun o => f.GrantAll o.lookups := by
  rw [Compiler.shown]
  split
  · exact within_map (call_within _ (arguments_within _)) fun _ h => h
  · exact within_map (ambiguousCall_within _) fun _ h => h
  · exact within_map (lookup_within _ _) fun _ => Features.grantAll_singleton.2

/-- A block is opened by the same three. -/
theorem blockKind_within (e : Expr (Option Location)) :
    Within f (({ options } : Compiler).blockKind frames e) fun kind => f.GrantAll kind.lookups := by
  rw [Compiler.blockKind]
  split
  · exact within_map (call_within _ (arguments_within _)) fun _ h => h
  · exact within_map (ambiguousCall_within _) fun _ h => h
  · exact within_map (lookup_within _ _) fun _ => Features.grantAll_singleton.2

/-- A partial of a written name is looked for among those that are registered. -/
theorem partialName_within (e : Expr (Option Location)) :
    Within f (({ options } : Compiler).partialName frames e) fun name =>
      f.GrantAll name.lookups := by
  cases e with
  | call c => exact within_map (operand_within _) fun _ h => h
  | _ => exact within_pure (Features.grantAll_singleton.2 trivial)

/-- Without an argument the context is the one here, or an empty one, and neither needs a
feature. -/
theorem partialContext_within (params : List (Expr (Option Location))) :
    Within f (({ options } : Compiler).partialContext frames params) fun o =>
      f.GrantAll o.lookups := by
  unfold Compiler.partialContext
  split
  · exact operand_within _
  · split
    · exact within_pure Features.grantAll_nil
    · exact within_pure (Features.grantAll_singleton.2 fun h => absurd h (Nat.lt_irrefl 0))

/-- A call of a partial asks for partials before anything else in it is compiled. -/
theorem partialInvocation_within (name : Expr (Option Location))
    (params : List (Expr (Option Location))) (hash : Option (Hash (Option Location)))
    (indent : String) (program : Option Nat) (loc : Option Location) (out : List Instruction) :
    Within f
      (({ options } : Compiler).partialInvocation frames name params hash indent program loc out)
      fun out' => (∀ i ∈ out, f.GrantInstruction i) → ∀ i ∈ out', f.GrantInstruction i := by
  unfold Compiler.partialInvocation
  refine within_check (within_bind within_require fun _ => ?_)
  refine within_bind (partialName_within name) fun _ =>
    within_bind (partialContext_within params) fun _ => ?_
  refine within_bind (hashOperands_within hash) fun _ =>
    within_pure fun hhash hcontext hname hpartials hout => ?_
  refine Features.grantInstruction_append ?_ ⟨?_, fun _ _ => hpartials⟩ true
  · split
    · exact Features.grantInstruction_append hout (Features.grantInstruction_content indent) false
    · exact hout
  · exact Features.grantAll_append.2 ⟨Features.grantAll_append.2 ⟨hname, hcontext⟩, hhash⟩

/-! ## Programs -/

/-- The features are enough for what is compiled so far. -/
structure Progress.Granted (f : Features) (done : Progress) : Prop where
  out : ∀ i ∈ done.out, f.GrantInstruction i
  nested : ∀ c ∈ done.nested, f.GrantChunk c

theorem Progress.granted_start : ({} : Progress).Granted f :=
  ⟨List.forall_mem_nil _, List.forall_mem_nil _⟩

mutual

/-- By recursion over the tree: the chunk of a program is granted with those in it. -/
theorem program_within (frames : Frames) (id : Nat) : ∀ p : Program (Option Location),
    Within f (({ options } : Compiler).program frames id p) fun chunks =>
      ∀ c ∈ chunks, f.GrantChunk c
  | ⟨body, blockParams, _, _⟩ => by
    rw [Compiler.program]
    refine within_guard within_require (within_bind (statements_within _ _ body {}) fun _ => ?_)
    refine within_pure fun hdone hblockParams => ?_
    obtain ⟨hout, hnested⟩ := hdone Progress.granted_start
    refine List.forall_mem_cons.2 ⟨⟨hout, fun hdeclares => hblockParams ?_⟩, hnested⟩
    rw [Bool.not_eq_true', List.isEmpty_eq_false_iff]
    exact List.ne_nil_of_length_pos hdeclares

/-- What is done stays granted from statement to statement. -/
theorem statements_within (frames : Frames) (next : Nat) :
    ∀ (body : List (Statement (Option Location))) (done : Progress),
      Within f (({ options } : Compiler).statements frames next body done) fun done' =>
        done.Granted f → done'.Granted f
  | [], _ => within_pure id
  | s :: rest, done =>
    within_bind (statement_within frames next s done) fun done' =>
      (statements_within frames next rest done').imp fun _ hrest hs hdone => hrest (hs hdone)

/-- Texts need nothing, tags what they show, and the others by the recursion. -/
theorem statement_within (frames : Frames) (next : Nat) :
    ∀ (s : Statement (Option Location)) (done : Progress),
      Within f (({ options } : Compiler).statement frames next s done) fun done' =>
        done.Granted f → done'.Granted f
  | .content c, done => by
    refine within_pure fun hdone => ?_
    split
    · exact hdone
    · exact ⟨Features.grantInstruction_append hdone.out (Features.grantInstruction_content _) _,
        hdone.nested⟩
  | .comment _, _ => within_pure id
  | .mustache m, done =>
    within_bind (shown_within m.expr) fun _ => within_pure fun hvalue hdone =>
      ⟨Features.grantInstruction_append hdone.out (Features.grantInstruction_shown hvalue _) true,
        hdone.nested⟩
  | .block b, done => block_within frames next b done
  | .partialCall _, done =>
    within_bind (partialInvocation_within _ _ _ _ _ _ _) fun _ => within_pure fun hout hdone =>
      ⟨hout hdone.out, hdone.nested⟩
  | .partialBlock p, done => partialBlock_within frames next p done

/-- The chunks of both sections are granted, and what opens the block. -/
theorem block_within (frames : Frames) (next : Nat) :
    ∀ (b : Block (Option Location)) (done : Progress),
      Within f (({ options } : Compiler).block frames next b done) fun done' => done.Granted f →
        done'.Granted f
  | ⟨expr, body, inverse, _, _, _, _, _⟩, _ => by
    rw [Compiler.block]
    refine within_bind (checkBlock_gathers _).within fun _ =>
      within_bind (blockKind_within expr) fun _ => ?_
    refine within_bind (programs_within frames _ body) fun _ => ?_
    refine within_bind (programs_within frames _ inverse) fun _ => ?_
    refine within_pure fun hinverse hbody hkind _ hdone => ⟨?_, ?_⟩
    · exact Features.grantInstruction_append hdone.out (Features.grantInstruction_block hkind) true
    · exact List.forall_mem_append.2 ⟨List.forall_mem_append.2 ⟨hdone.nested, hbody⟩, hinverse⟩

/-- The body comes first, then the call of the partial that it belongs to. -/
theorem partialBlock_within (frames : Frames) (next : Nat) :
    ∀ (p : PartialBlock (Option Location)) (done : Progress),
      Within f (({ options } : Compiler).partialBlock frames next p done) fun done' =>
        done.Granted f → done'.Granted f
  | ⟨_, _, _, body, _, _, _⟩, _ => by
    rw [Compiler.partialBlock]
    refine within_bind (program_within frames _ body) fun _ => ?_
    refine within_bind (partialInvocation_within _ _ _ _ _ _ _) fun _ =>
      within_pure fun hout hbody hdone => ?_
    exact ⟨hout hdone.out, List.forall_mem_append.2 ⟨hdone.nested, hbody⟩⟩

theorem programs_within (frames : Frames) (id : Nat) : ∀ p : Option (Program (Option Location)),
    Within f (({ options } : Compiler).programs frames id p) fun chunks =>
      ∀ c ∈ chunks, f.GrantChunk c
  | none => within_pure (List.forall_mem_nil _)
  | some p => program_within frames id p

end

/-- The stamp of compiled code has the features that were gathered for its programs. -/
theorem run_of_compile {tree : Tree.Located} {spec : Spec}
    (h : ({ options } : Compiler).compile tree = .ok spec) :
    (({ options } : Compiler).program [] 0 tree).run Features.none =
      .ok (spec.programs, spec.stamp.features) := by
  unfold Compiler.compile at h
  cases hrun : (({ options } : Compiler).program [] 0 tree).run Features.none with
  | error e => rw [hrun] at h; cases h
  | ok r =>
    rw [hrun] at h
    cases h
    exact congrArg (fun features => Except.ok (r.1, features)) r.2.none_union.symm

/-- What is compiled is stamped with features of the library, so it is accepted, and they are
enough for all that its programs ask for. -/
theorem compile_granted {tree : Tree.Located} {spec : Spec}
    (h : ({ options } : Compiler).compile tree = .ok spec) :
    Features.supported.contains spec.stamp.features = true ∧ spec.check = .ok () ∧
      ∀ c ∈ spec.programs, spec.stamp.features.GrantChunk c := by
  have hrun := run_of_compile h
  have hsupported := (program_gathers _ [] 0 tree).supported _ _ hrun
  have hall : spec.stamp.features.contains spec.stamp.features = true :=
    Features.contains_iff.2 fun _ => id
  exact ⟨Features.supported_contains hsupported, check_of_compile rfl h,
    ((program_within [] 0 tree).run hrun hall).2⟩

/-- A block over the items of the context further out, which shows each item with its index and
calls a partial for a name that is looked for in all contexts. -/
def reachingTree : Tree.Located :=
  let row : Tree.Located :=
    { body :=
        [.mustache
            { expr := .call
                ⟨Path.ofParts ["show"] none, [.path (Path.ofParts ["item"] none)],
                  some ⟨[⟨"at", .path ⟨true, 0, ["index"], "@index", none⟩, none⟩], none⟩,
                  none, none⟩
              escaped := true
              mark := none },
          .partialCall
            { name := .path (Path.ofParts ["row"] none),
              params := [.path (Path.ofParts ["name"] none)], mark := none }]
      blockParams := ["item"]
      chained := false
      mark := none }
  { body :=
      [.block
        { expr := .call ⟨Path.ofParts ["each"] none,
          [.path ⟨false, 1, ["items"], "../items", none⟩], none, none, none⟩
          program := some row
          inverse := none
          openStrip := {}
          inverseStrip := {}
          closeStrip := {}
          close := some (Path.ofParts ["each"] none)
          mark := none }]
    blockParams := []
    chained := false
    mark := none }

/-- This code needs every feature of the library. -/
theorem compile_granted_reachingTree :
    ∃ spec, ({ options := { compat := true } } : Compiler).compile reachingTree = .ok spec ∧
      spec.stamp.features = Features.supported ∧ spec.check = .ok () ∧
        ∀ c ∈ spec.programs, Features.supported.GrantChunk c := by
  have hfeatures :
      (({ options := { compat := true } } : Compiler).compile reachingTree).toOption.map
      (fun spec => spec.stamp.features) = some Features.supported := by decide +kernel
  cases hspec : ({ options := { compat := true } } : Compiler).compile reachingTree with
  | error e => rw [hspec] at hfeatures; cases hfeatures
  | ok spec =>
    rw [hspec] at hfeatures
    have hstamp : spec.stamp.features = Features.supported := Option.some.inj hfeatures
    obtain ⟨-, hcheck, hgranted⟩ := compile_granted hspec
    exact ⟨spec, rfl, hstamp, hcheck, hstamp ▸ hgranted⟩

end Compiler

end Stencil.Code
