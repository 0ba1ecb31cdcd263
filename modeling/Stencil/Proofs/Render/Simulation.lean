import Stencil.Proofs.Render.Comparison
import Stencil.Proofs.Render.Lookups

/-!
# Simulation

Evaluation at two places, of instructions that do the same. The two are related, in whatever way
what carries the one is compared with what carries the other, if lookups give the same at both
places and nested programs, the bodies of partial blocks and registered partials are related
(`Comparison.Places`). Without partials it is enough that lookups and nested programs are
(`Comparison.Sections`). There is one lemma for each part of the evaluator.

Instructions do the same when they differ only in the numbers of the programs that they refer to,
where these programs correspond (`Instruction.Counterpart`).
-/

set_option autoImplicit false

/-! ## Instructions that do the same -/

namespace Stencil.Code

/-- The two instructions differ only in the numbers of programs, which correspond. -/
inductive Instruction.Counterpart (R : Nat → Nat → Prop) : Instruction → Instruction → Prop
  | content (text : String) : Counterpart R (.content text) (.content text)
  | append (value : Operand) (escape : Bool) :
    Counterpart R (.append value escape) (.append value escape)
  | block {b : BlockCall} {program inverse : Option Nat} (hprogram : Option.Rel R b.program program)
    (hinverse : Option.Rel R b.inverse inverse) :
    Counterpart R (.block b) (.block { b with program, inverse })
  | partialCall {p : PartialInvocation} {program : Option Nat}
    (hprogram : Option.Rel R p.program program) :
    Counterpart R (.partialCall p) (.partialCall { p with program })

/-- Two chunks with the same letters and other instructions that do the same, in the same order. -/
structure Chunk.Counterpart (R : Nat → Nat → Prop) (c d : Chunk) : Prop where
  blockParams : c.blockParams = d.blockParams
  strokes : List.Forall₂ (Sum.LiftRel Eq (Instruction.Counterpart R)) (strokes c.instructions)
    (strokes d.instructions)

theorem rel_of_mem {R : Nat → Nat → Prop} :
    ∀ {program : Option Nat}, (∀ id ∈ program, R id id) → Option.Rel R program program
  | none, _ => .none
  | some id, h => .some (h id rfl)

theorem Instruction.counterpart_self {R : Nat → Nat → Prop} {i : Instruction}
    (h : ∀ id ∈ i.references, R id id) : i.Counterpart R i := by
  cases i with
  | content text => exact .content text
  | append value escape => exact .append value escape
  | block b =>
    refine .block (rel_of_mem fun id hid => h id ?_) (rel_of_mem fun id hid => h id ?_)
    · exact List.mem_append_left _ (Option.mem_toList.2 hid)
    · exact List.mem_append_right _ (Option.mem_toList.2 hid)
  | partialCall p => exact .partialCall (rel_of_mem fun id hid => h id (Option.mem_toList.2 hid))

/-- A tag among the letters and tags of instructions is one of the instructions. -/
theorem mem_of_mem_strokes {instructions : List Instruction} {i : Instruction}
    (h : .inr i ∈ strokes instructions) : i ∈ instructions := by
  obtain ⟨j, hj, hij⟩ := List.mem_flatMap.1 h
  cases j with
  | content text => simp [Instruction.strokes] at hij
  | _ =>
    rw [Sum.inr.inj (List.mem_singleton.1 hij)]
    exact hj

/-- A chunk that does the same as itself is one of instructions that do. -/
theorem Chunk.Counterpart.self {R : Nat → Nat → Prop} {c : Chunk} (h : c.Counterpart R c)
    {i : Instruction} (hi : i ∈ c.instructions) : i.Counterpart R i := by
  have htag : .inr i ∈ Code.strokes c.instructions → i.Counterpart R i := by
    intro hmem
    cases List.forall₂_same.1 h.strokes _ hmem with
    | inr hself => exact hself
  cases i with
  | content text => exact .content text
  | _ => exact htag (List.mem_flatMap.2 ⟨_, hi, List.mem_cons_self⟩)

/-- Alike chunks do the same. -/
theorem Chunk.Alike.counterpart {R : Nat → Nat → Prop} {c d : Chunk} (h : c.Alike d)
    (hR : ∀ id ∈ c.references, R id id) : c.Counterpart R d := by
  refine ⟨h.blockParams, h.strokes ▸ List.forall₂_same.2 fun stroke hstroke => ?_⟩
  cases stroke with
  | inl letter => exact .inl rfl
  | inr i =>
    refine .inr (Instruction.counterpart_self fun id hid => hR id ?_)
    exact List.mem_flatMap.2 ⟨i, mem_of_mem_strokes hstroke, hid⟩

end Stencil.Code

namespace Stencil.Render

open Stencil.Code (Spec Options Chunk Lookup Accessor Operand Call CallIds Instruction BlockCall
  BlockKind PartialInvocation PartialName strokes)

/-! ## Corresponding places -/

/-- The errors that may end a run include those of evaluation and of helpers. -/
structure Agreement.Admits (a : Agreement) (env : Environment) : Prop where
  missingProperty : ∀ name path loc, a.errors (.ofRuntime (.missingProperty name path loc))
  missingHelper : ∀ name loc, a.errors (.ofRuntime (.missingHelper name loc))
  helpers : ∀ f h, env.function? f = some h → h.RaisesOnly a.errors

/-- The errors that may end a run include those of partials and of nesting as well. -/
structure Agreement.Allows (a : Agreement) (env : Environment) : Prop extends a.Admits env where
  missingPartial : ∀ name, a.errors (.ofRuntime (.missingPartial name))
  depthExceeded : a.errors (.ofRuntime (.depthExceeded env.maxDepth))

theorem Agreement.allows_of_all {a : Agreement} (h : ∀ e, a.errors e) (env : Environment) :
    a.Allows env where
  missingProperty _ _ _ := h _
  missingHelper _ _ := h _
  missingPartial _ := h _
  depthExceeded := h _
  helpers _ _ _ _ := Plan.raisesOnly_of_all h _

/-- Part by part, two blocks have corresponding programs. -/
def Place.Parts.Correspond (R : Nat → Nat → Prop) (parts parts' : Place.Parts) : Prop :=
  ∀ part, Option.Rel R (parts.program part) (parts'.program part)

theorem Place.Parts.correspond_none (R : Nat → Nat → Prop) : Place.Parts.Correspond R {} {}
  | .body => .none
  | .inverse => .none

variable {a : Agreement} {m m' : Type → Type} [Monad m] [Carrier m] [Monad m'] [Carrier m']

/-- Two places at which certain lookups give the same, and where the programs whose numbers
correspond declare as many block parameters and are related. -/
structure Comparison.Sections (c : Comparison a m m') (R : Nat → Nat → Prop) (L : Lookup → Prop)
    (p : Place m) (q : Place m') : Prop where
  admits : a.Admits p.frame.env
  functions : ∀ f, p.frame.env.function? f = q.frame.env.function? f
  level : p.frame.level = q.frame.level
  lookup : ∀ l, L l → lookup p.frame.env p.spec.options p.scope l =
    lookup q.frame.env q.spec.options q.scope l
  context : p.scope.context = q.scope.context
  data : ∀ name, p.scope.data? 0 name = q.scope.data? 0 name
  declared : ∀ {i j}, R i j → p.declared (some i) = q.declared (some j)
  nested : ∀ {i j}, R i j → ∀ context args,
    c.Rel (p.frame.below (p.nestedVisit i context args))
      (q.frame.below (q.nestedVisit j context args))

/-- Two such places where the bodies of partial blocks and what is found of registered partials are
related, too. -/
structure Comparison.Places (c : Comparison a m m') (R : Nat → Nat → Prop) (L : Lookup → Prop)
    (p : Place m) (q : Place m') : Prop extends c.Sections R L p q where
  missingPartial : ∀ name, a.errors (.ofRuntime (.missingPartial name))
  body : Option.Rel
    (fun b d => ∀ context,
      c.Rel (p.frame.below (p.bodyVisit b context)) (q.frame.below (q.bodyVisit d context)))
    p.scope.partialBlock q.scope.partialBlock
  registered : ∀ name,
    c.Finds
      (fun s t => ∀ {program program'}, Option.Rel R program program' → ∀ context,
        c.Rel (p.frame.below (p.partialVisit s program context))
          (q.frame.below (q.partialVisit t program' context)))
      (p.frame.partialSpec p.spec.options name) (q.frame.partialSpec q.spec.options name)

/-- Two places in the same code and the same scope, where all nested programs are related and
partials are looked for in related ways. -/
theorem Comparison.places_of_below (c : Comparison a m m') (errors : ∀ e, a.errors e)
    {env : Environment} {spec : Spec} {scope : Scope} {level : Nat}
    {partialSpec : Options → String → m (Option Spec)}
    {partialSpec' : Options → String → m' (Option Spec)} {below : Visit → m String}
    {below' : Visit → m' String}
    (hfound : ∀ options name, c.Rel (partialSpec options name) (partialSpec' options name))
    (hbelow : ∀ v, c.Rel (below v) (below' v)) (L : Lookup → Prop) :
    c.Places Eq L ⟨⟨env, partialSpec, below, level⟩, spec, scope⟩
      ⟨⟨env, partialSpec', below', level⟩, spec, scope⟩ where
  admits := (Agreement.allows_of_all errors _).toAdmits
  missingPartial _ := errors _
  functions _ := rfl
  level := rfl
  lookup _ _ := rfl
  context := rfl
  data _ := rfl
  declared hij := hij ▸ rfl
  nested hij _ _ := hij ▸ hbelow _
  body := by
    cases scope.partialBlock with
    | none => exact .none
    | some b => exact .some fun _ => hbelow _
  registered name := by
    intro α f g next
    refine c.rel_bind (hfound _ name) fun found => next found found ?_
    cases found with
    | none => exact .none
    | some s =>
      refine .some fun hprogram context => ?_
      cases hprogram with
      | none => exact hbelow _
      | some hij => exact hij ▸ hbelow _

/-- At one place operands are evaluated in one way: they run no programs. -/
theorem Comparison.sections_self (c : Comparison a m m) (errors : ∀ e, a.errors e) (p : Place m) :
    c.Sections (fun _ _ => False) (fun _ => True) p p where
  admits := (Agreement.allows_of_all errors _).toAdmits
  functions _ := rfl
  level := rfl
  lookup _ _ := rfl
  context := rfl
  data _ := rfl
  declared h := h.elim
  nested h := h.elim

namespace Comparison.Sections

variable {c : Comparison a m m'} {R : Nat → Nat → Prop} {L : Lookup → Prop} {p : Place m}
  {q : Place m'}
  (h : c.Sections R L p q)

include h

/-! ## Helpers -/

theorem declared_eq {program program' : Option Nat} (hprogram : Option.Rel R program program') :
    p.declared program = q.declared program' := by
  cases hprogram with
  | none => rfl
  | some hid => exact h.declared hid

theorem helperCall_eq {parts parts' : Place.Parts} (hparts : parts.Correspond R parts')
    (site : List Nat) (name : String) (params : List Value) (hash : Table Value)
    (ids : Option CallIds) (loc : Option Text.Location) :
    p.helperCall site name params hash ids loc parts =
      q.helperCall site name params hash ids loc parts' := by
  have isSome : ∀ part, (parts.program part).isSome = (parts'.program part).isSome := by
    intro part
    have hpart := hparts part
    generalize parts.program part = x, parts'.program part = y at hpart
    cases hpart <;> rfl
  have hbody : p.declared parts.body = q.declared parts'.body := h.declared_eq (hparts .body)
  have hinverse : p.declared parts.inverse = q.declared parts'.inverse :=
    h.declared_eq (hparts .inverse)
  have hasBody : parts.body.isSome = parts'.body.isSome := isSome .body
  have hasInverse : parts.inverse.isSome = parts'.inverse.isSome := isSome .inverse
  unfold Place.helperCall
  simp only [h.context, hbody, hinverse, hasBody, hasInverse, h.level, h.data]

theorem rel_invoke {program program' : Option Nat} (hprogram : Option.Rel R program program')
    (context : Value) (args : BlockArgs) :
    c.Rel (p.invoke program context args) (q.invoke program' context args) := by
  cases hprogram with
  | none => exact c.rel_pure ""
  | some hid => exact h.nested hid context args

theorem rel_carryOut {parts parts' : Place.Parts} (hparts : parts.Correspond R parts')
    (f : FunctionId) (call : HelperCall) {handOver : List Value → m Value}
    {handOver' : List Value → m' Value}
    (hcall : ∀ params, c.Rel (handOver params) (handOver' params)) :
    c.Rel (p.carryOut parts f call handOver) (q.carryOut parts' f call handOver') := by
  unfold Place.carryOut
  rw [← h.functions]
  cases hf : p.frame.env.function? f with
  | none => exact c.rel_pure _
  | some helper =>
    refine c.rel_plan (h.admits.helpers f helper hf call) ?_ hcall
    exact fun part context args => h.rel_invoke (hparts part) context args

/-- A function may hand over to others as often as it has parameters. -/
theorem rel_callFunction {parts parts' : Place.Parts} (hparts : parts.Correspond R parts') :
    ∀ (bound : Nat) (f : FunctionId) (call : HelperCall),
      c.Rel (p.callFunction parts bound f call) (q.callFunction parts' bound f call)
  | 0, f, call => h.rel_carryOut hparts f call fun _ => c.rel_pure _
  | bound + 1, f, call => by
    refine h.rel_carryOut hparts f call fun params => ?_
    split
    · exact rel_callFunction hparts bound _ _
    · exact c.rel_pure _

/-- Calling a function for a block, or for none. -/
theorem rel_apply {parts parts' : Place.Parts} (hparts : parts.Correspond R parts') (f : FunctionId)
    (site : List Nat) (name : String) (params : List Value) (hash : Table Value)
    (ids : Option CallIds) (loc : Option Text.Location) :
    c.Rel (p.apply parts f (p.helperCall site name params hash ids loc parts))
      (q.apply parts' f (q.helperCall site name params hash ids loc parts')) := by
  rw [← h.helperCall_eq hparts]
  exact h.rel_callFunction hparts _ f _

/-! ## Operands -/

theorem rel_lookup {path : Lookup} (hpath : L path) : c.Rel (p.lookup path) (q.lookup path) := by
  unfold Place.lookup
  rw [← h.lookup path hpath]
  refine c.rel_ofRuntime fun e he => ?_
  obtain ⟨name, path, loc, rfl⟩ := lookup_error he
  exact h.admits.missingProperty _ _ _

theorem rel_callee {helper : Option Accessor} {value : Option Lookup}
    (hlookups : ∀ l ∈ helper.toList.map Lookup.bare ++ value.toList, L l) :
    c.Rel (p.callee helper value) (q.callee helper value) := by
  have same : callee p.frame.env p.spec.options p.scope helper value =
      callee q.frame.env q.spec.options q.scope helper value := by
    refine callee_congr (fun a ha => h.lookup (.bare a) (hlookups _ ?_)) fun l hl =>
      h.lookup l (hlookups l ?_)
    · exact List.mem_append_left _ (List.mem_map_of_mem (Option.mem_toList.2 ha))
    · exact List.mem_append_right _ (Option.mem_toList.2 hl)
  unfold Place.callee
  rw [← same]
  refine c.rel_ofRuntime fun e he => ?_
  obtain ⟨name, path, loc, rfl⟩ := callee_error he
  exact h.admits.missingProperty _ _ _

omit h

mutual

theorem rel_operand (h : c.Sections R L p q) (site : List Nat) :
    ∀ o : Operand, (∀ l ∈ o.lookups, L l) → c.Rel (p.operand site o) (q.operand site o)
  | .literal l, _ => c.rel_pure (literalValue l)
  | .lookup path, hlookups => h.rel_lookup (hlookups path List.mem_cons_self)
  | .lambda path, hlookups => by
    rw [Place.operand, Place.operand]
    refine c.rel_bind (h.rel_lookup (hlookups path List.mem_cons_self)) fun v => ?_
    cases v with
    | function f => exact h.rel_apply (Place.Parts.correspond_none R) f _ _ _ _ _ _
    | _ => exact c.rel_pure _
  | .call call, hlookups => h.rel_call site call hlookups
  | .ambiguous call, hlookups => h.rel_ambiguous site call hlookups

theorem rel_call (h : c.Sections R L p q) (site : List Nat) :
    ∀ call : Call, (∀ l ∈ call.lookups, L l) → c.Rel (p.call site call) (q.call site call)
  | ⟨name, helper, value, params, hash, ids, loc⟩, hlookups => by
    rw [Call.lookups] at hlookups
    obtain ⟨hhead, harguments⟩ := List.forall_mem_append.1 hlookups
    obtain ⟨hparams, hhash⟩ := List.forall_mem_append.1 harguments
    rw [Place.call, Place.call]
    refine c.rel_bind (h.rel_callee hhead) fun found => ?_
    cases found with
    | helper f | lambda f =>
      refine c.rel_bind (h.rel_operands site 0 params hparams) fun vs => ?_
      refine c.rel_bind (h.rel_hashValues site 0 hash hhash) fun table => ?_
      exact h.rel_apply (Place.Parts.correspond_none R) f _ _ _ _ _ _
    | value v =>
      dsimp only
      split
      · exact c.rel_pure v
      · exact c.rel_fail (h.admits.missingHelper name loc)

theorem rel_ambiguous (h : c.Sections R L p q) (site : List Nat) :
    ∀ call : Call, (∀ l ∈ call.lookups, L l) →
      c.Rel (p.ambiguous site call) (q.ambiguous site call)
  | ⟨name, helper, value, params, hash, ids, loc⟩, hlookups => by
    rw [Call.lookups] at hlookups
    obtain ⟨hhead, harguments⟩ := List.forall_mem_append.1 hlookups
    obtain ⟨-, hhash⟩ := List.forall_mem_append.1 harguments
    rw [Place.ambiguous, Place.ambiguous]
    refine c.rel_bind (h.rel_callee hhead) fun found => ?_
    cases found with
    | helper f | lambda f =>
      refine c.rel_bind (h.rel_hashValues site 0 hash hhash) fun table => ?_
      exact h.rel_apply (Place.Parts.correspond_none R) f _ _ _ _ _ _
    | value v => exact c.rel_pure v

theorem rel_operands (h : c.Sections R L p q) (site : List Nat) (index : Nat) :
    ∀ os : List Operand, (∀ l ∈ Operand.lookupsAll os, L l) →
      c.Rel (p.operands site index os) (q.operands site index os)
  | [], _ => c.rel_pure []
  | o :: rest, hlookups => by
    obtain ⟨hfirst, hrest⟩ := List.forall_mem_append.1 hlookups
    rw [Place.operands, Place.operands]
    refine c.rel_bind (h.rel_operand _ o hfirst) fun v => ?_
    exact c.rel_bind (h.rel_operands site (index + 1) rest hrest) fun vs => c.rel_pure (v :: vs)

theorem rel_hashValues (h : c.Sections R L p q) (site : List Nat) (index : Nat) :
    ∀ hash : List (String × Operand), (∀ l ∈ Operand.lookupsNamed hash, L l) →
      c.Rel (p.hashValues site index hash) (q.hashValues site index hash)
  | [], _ => c.rel_pure []
  | (name, o) :: rest, hlookups => by
    obtain ⟨hfirst, hrest⟩ := List.forall_mem_append.1 hlookups
    rw [Place.hashValues, Place.hashValues]
    refine c.rel_bind (h.rel_operand _ o hfirst) fun v => ?_
    exact c.rel_bind (h.rel_hashValues site (index + 1) rest hrest) fun vs =>
      c.rel_pure ((name, v) :: vs)

end

include h

/-! ## Blocks -/

theorem rel_sectionItems {body body' : Option Nat} (hbody : Option.Rel R body body') :
    ∀ (items : List Value) (index : Nat),
      c.Rel (p.sectionItems body index items) (q.sectionItems body' index items)
  | [], index => c.rel_pure ""
  | item :: rest, index => by
    rw [Place.sectionItems, Place.sectionItems]
    refine c.rel_bind (h.rel_invoke hbody item _) fun text => ?_
    exact c.rel_bind (rel_sectionItems hbody rest (index + 1)) fun more => c.rel_pure (text ++ more)

theorem rel_overValue {parts parts' : Place.Parts} (hparts : parts.Correspond R parts')
    (v : Value) :
    c.Rel (p.overValue parts v) (q.overValue parts' v) := by
  unfold Place.overValue
  rw [h.context]
  dsimp only
  split
  · exact h.rel_invoke (hparts .body) _ _
  · exact h.rel_invoke (hparts .inverse) _ _
  · exact h.rel_invoke (hparts .inverse) _ _
  · exact h.rel_invoke (hparts .inverse) _ _
  · exact h.rel_invoke (hparts .inverse) _ _
  · exact h.rel_sectionItems (hparts .body) _ _
  · exact h.rel_invoke (hparts .body) _ _

/-- Blocks that do the same, over corresponding programs. -/
theorem rel_block {b : BlockCall} {program inverse : Option Nat}
    (hprogram : Option.Rel R b.program program) (hinverse : Option.Rel R b.inverse inverse)
    (hlookups : ∀ l ∈ b.kind.lookups, L l) :
    c.Rel (p.block b) (q.block { b with program, inverse }) := by
  have hparts : Place.Parts.Correspond R ⟨b.program, b.inverse⟩ ⟨program, inverse⟩ := by
    intro part
    cases part with
    | body => exact hprogram
    | inverse => exact hinverse
  obtain ⟨kind, _, _, _, _⟩ := b
  unfold Place.block
  dsimp only at hparts hlookups ⊢
  cases kind with
  | helper call =>
    obtain ⟨name, helper, value, params, hash, ids, loc⟩ := call
    rw [BlockKind.lookups, Call.lookups] at hlookups
    obtain ⟨hhead, harguments⟩ := List.forall_mem_append.1 hlookups
    obtain ⟨hparams, hhash⟩ := List.forall_mem_append.1 harguments
    refine c.rel_bind (h.rel_callee hhead) fun found => ?_
    cases found with
    | value v => exact c.rel_fail (h.admits.missingHelper name loc)
    | helper f | lambda f =>
      refine c.rel_bind (h.rel_operands [] 0 params hparams) fun vs => ?_
      refine c.rel_bind (h.rel_hashValues [] 0 hash hhash) fun table => ?_
      exact c.rel_bind (h.rel_apply hparts f _ _ _ _ _ _) fun v => c.rel_pure v.text
  | ambiguous call =>
    obtain ⟨name, helper, value, params, hash, ids, loc⟩ := call
    rw [BlockKind.lookups, Call.lookups] at hlookups
    obtain ⟨hhead, harguments⟩ := List.forall_mem_append.1 hlookups
    obtain ⟨-, hhash⟩ := List.forall_mem_append.1 harguments
    refine c.rel_bind (h.rel_callee hhead) fun found => ?_
    -- What a helper gives is the text of the block; what a function in the context gives is a value
    -- that the block is about.
    cases found with
    | value v => exact h.rel_overValue hparts v
    | helper f =>
      refine c.rel_bind (h.rel_hashValues [] 0 hash hhash) fun table => ?_
      exact c.rel_bind (h.rel_apply hparts f _ _ _ _ _ _) fun v => c.rel_pure v.text
    | lambda f =>
      refine c.rel_bind (h.rel_hashValues [] 0 hash hhash) fun table => ?_
      exact c.rel_bind (h.rel_apply hparts f _ _ _ _ _ _) fun v => h.rel_overValue hparts v
  | «section» o =>
    exact c.rel_bind (h.rel_operand [0, 0] o hlookups) fun v => h.rel_overValue hparts v

/-! ## Instructions without partials -/

/-- Instructions that do the same and do not call partials. -/
theorem rel_ownPiece {i j : Instruction} (hij : i.Counterpart R j)
    (hpartial : ∀ call, i ≠ .partialCall call) (hlookups : ∀ l ∈ i.lookups, L l) :
    c.Rel (p.piece i) (q.piece j) := by
  cases hij with
  | content text => exact c.rel_pure _
  | append o escape => exact c.rel_bind (h.rel_operand [] o hlookups) fun v => c.rel_pure _
  | block hprogram hinverse =>
    exact c.rel_bind (h.rel_block hprogram hinverse hlookups) fun text => c.rel_pure _
  | partialCall _ => exact absurd rfl (hpartial _)

/-! ## What partials are called with -/

theorem rel_partialName (name : PartialName) (hlookups : ∀ l ∈ name.lookups, L l) :
    c.Rel (p.partialName name) (q.partialName name) := by
  cases name with
  | computed o => exact c.rel_bind (h.rel_operand [0] o hlookups) fun v => c.rel_pure v.text
  | fixed name accessor =>
    unfold Place.partialName
    dsimp only
    split
    · exact c.rel_pure _
    · exact c.rel_pure _
    · exact c.rel_bind (h.rel_lookup (hlookups _ List.mem_cons_self)) fun v => c.rel_pure _

theorem partialContext_eq (context : Value) (hash : Table Value) :
    p.partialContext context hash = q.partialContext context hash := by
  unfold Place.partialContext
  rw [h.level]

end Comparison.Sections

namespace Comparison.Places

variable {c : Comparison a m m'} {R : Nat → Nat → Prop} {L : Lookup → Prop} {p : Place m}
  {q : Place m'}
  (h : c.Places R L p q)

include h

/-! ## Partials -/

theorem rel_partialText {program program' : Option Nat} (hprogram : Option.Rel R program program')
    (name : String) (context : Value) :
    c.Rel (p.partialText name program context) (q.partialText name program' context) := by
  unfold Place.partialText
  split
  · -- The body that was lent to the template, if it was lent one.
    have hbody := h.body
    generalize p.scope.partialBlock = lent, q.scope.partialBlock = lent' at hbody
    cases hbody with
    | none => exact c.rel_fail (h.missingPartial name)
    | some hbody => exact hbody context
  · refine h.registered name fun x y hfound => ?_
    cases hfound with
    | some hruns => exact hruns hprogram context
    | none =>
      -- The body of the call stands in for a partial that is not registered.
      unfold Place.foundText
      have isSome : program.isSome = program'.isSome := by cases hprogram <;> rfl
      rw [isSome]
      dsimp only
      split
      · exact h.rel_invoke hprogram context {}
      · exact c.rel_fail (h.missingPartial name)

theorem rel_partialInvocation {i : PartialInvocation} {program : Option Nat}
    (hprogram : Option.Rel R i.program program)
    (hlookups : ∀ l ∈ (Instruction.partialCall i).lookups, L l) :
    c.Rel (p.partialInvocation i) (q.partialInvocation { i with program }) := by
  obtain ⟨hhead, hhash⟩ := List.forall_mem_append.1 hlookups
  obtain ⟨hname, hcontext⟩ := List.forall_mem_append.1 hhead
  unfold Place.partialInvocation
  refine c.rel_bind (h.rel_partialName i.name hname) fun name => ?_
  refine c.rel_bind (h.rel_operand [1] i.context hcontext) fun context => ?_
  refine c.rel_bind (h.rel_hashValues [2] 0 i.hash hhash) fun hash => ?_
  rw [h.partialContext_eq]
  exact c.rel_bind (h.rel_partialText hprogram name _) fun text => c.rel_pure _

/-! ## Instructions -/

/-- Instructions that do the same. -/
theorem rel_piece {i j : Instruction} (hij : i.Counterpart R j) (hlookups : ∀ l ∈ i.lookups, L l) :
    c.Rel (p.piece i) (q.piece j) := by
  cases hij with
  | partialCall hprogram =>
    exact c.rel_bind (h.rel_partialInvocation hprogram hlookups) fun text => c.rel_pure _
  | content text => exact h.rel_ownPiece (.content text) (fun _ => nofun) hlookups
  | append o escape => exact h.rel_ownPiece (.append o escape) (fun _ => nofun) hlookups
  | block hprogram hinverse =>
    exact h.rel_ownPiece (.block hprogram hinverse) (fun _ => nofun) hlookups

end Comparison.Places

/-! ## Corresponding output -/

namespace Comparison

variable (c : Comparison a m m') [LawfulCarrier m] [LawfulCarrier m']

theorem rel_strokeText {S : Instruction → Instruction → Prop} {piece : Instruction → m Append}
    {piece' : Instruction → m' Append} (strict : Bool) {ss ts : List (Char ⊕ Instruction)}
    (hsame : List.Forall₂ (Sum.LiftRel Eq S) ss ts)
    (h : ∀ i j, .inr i ∈ ss → S i j → c.Rel (piece i) (piece' j)) :
    c.Rel (strokeText strict piece ss) (strokeText strict piece' ts) := by
  induction hsame with
  | nil => exact c.rel_pure ""
  | cons hfirst _ ih =>
    have hrest := ih fun i j hi hij => h i j (List.mem_cons_of_mem _ hi) hij
    cases hfirst with
    | inl heq =>
      obtain rfl := heq
      exact c.rel_map hrest _
    | inr hij =>
      rw [strokeText, strokeText]
      refine c.rel_bind (c.rel_recover strict (h _ _ List.mem_cons_self hij)) fun first => ?_
      exact c.rel_bind hrest fun more => c.rel_pure _

/-- The pieces of the same letters and of instructions that do the same, however the letters are cut
into texts. -/
theorem rel_textOf {R : Nat → Nat → Prop} {L : Lookup → Prop} {p : Place m} {q : Place m'}
    (h : c.Places R L p q) (strict : Bool) {is js : List Instruction}
    (hsame : List.Forall₂ (Sum.LiftRel Eq (Instruction.Counterpart R)) (strokes is) (strokes js))
    (hlookups : ∀ i ∈ is, ∀ l ∈ i.lookups, L l) :
    c.Rel (textOf strict p.piece is) (textOf strict q.piece js) := by
  rw [textOf_eq_strokeText strict (fun _ => rfl), textOf_eq_strokeText strict (fun _ => rfl)]
  refine c.rel_strokeText strict hsame fun i j hi hij => ?_
  exact h.rel_piece hij (hlookups i (Code.mem_of_mem_strokes hi))

omit [LawfulCarrier m] [LawfulCarrier m'] in
/-- The pieces of the same instructions, handed to a sink whose errors may be. -/
theorem rel_collect {ι σ : Type} {piece : ι → m Append} {piece' : ι → m' Append} {sink : Sink σ}
    (strict : Bool)
    (htake : ∀ state x, c.Rel (Carrier.ofRun (.ofRuntime (sink.take state x)))
      (Carrier.ofRun (.ofRuntime (sink.take state x)))) :
    ∀ {is : List ι} (state : σ), (∀ i ∈ is, c.Rel (piece i) (piece' i)) →
      c.Rel (collect sink strict piece is state) (collect sink strict piece' is state)
  | [], state, _ => c.rel_pure state
  | i :: rest, state, h => by
    rw [collect, collect]
    refine c.rel_bind (c.rel_recover strict ?_) fun next => ?_
    · exact c.rel_bind (h i List.mem_cons_self) fun x => htake state x
    · exact rel_collect strict htake _ fun i hi => h i (List.mem_cons_of_mem _ hi)

omit [LawfulCarrier m] [LawfulCarrier m'] in
/-- The text of the same instructions, in whichever way it is gathered. -/
theorem rel_capture [LawfulMonad m] [LawfulMonad m'] {ι : Type} {piece : ι → m Append}
    {piece' : ι → m' Append} (kind : Code.BufferKind) (strict : Bool) {is : List ι}
    (h : ∀ i ∈ is, c.Rel (piece i) (piece' i)) :
    c.Rel (capture kind strict piece is) (capture kind strict piece' is) := by
  have hstring : ∀ state x, c.Rel (Carrier.ofRun (.ofRuntime (Sink.string.take state x)))
      (Carrier.ofRun (.ofRuntime (Sink.string.take state x))) :=
    fun _ _ => c.rel_ofRuntime fun _ h => nomatch h
  have hfragments : ∀ state x, c.Rel (Carrier.ofRun (.ofRuntime (Sink.fragments.take state x)))
      (Carrier.ofRun (.ofRuntime (Sink.fragments.take state x))) :=
    fun _ _ => c.rel_ofRuntime fun _ h => nomatch h
  cases kind with
  | string => exact c.rel_collect strict hstring "" h
  | fragments => exact c.rel_map (c.rel_collect strict hfragments [] h) joinFragments

omit [LawfulCarrier m] [LawfulCarrier m'] in
/-- The text of a program at two places where nested programs are related whatever they are. -/
theorem rel_program [LawfulMonad m] [LawfulMonad m'] (errors : ∀ e, a.errors e) {p : Place m}
    {q : Place m'} (h : c.Places Eq (fun _ => True) p q) (spec : Spec) (id : Nat) :
    c.Rel
      (do
        let chunk ← Carrier.ofRun (.ofExcept (Renderer.chunk spec id))
        capture spec.buffer spec.options.strict p.piece chunk.instructions)
      (do
        let chunk ← Carrier.ofRun (.ofExcept (Renderer.chunk spec id))
        capture spec.buffer spec.options.strict q.piece chunk.instructions) := by
  refine c.rel_bind (c.rel_ofExcept fun e _ => errors e) fun chunk => ?_
  refine c.rel_capture _ _ fun i _ => ?_
  exact h.rel_piece (Code.Instruction.counterpart_self fun _ _ => rfl) fun _ _ => trivial

end Comparison

end Stencil.Render
