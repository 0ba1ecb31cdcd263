import Stencil.Proofs.Render.Erasing
import Stencil.Proofs.Render.Visits

/-!
# Evaluation without notes

Evaluation of code and of the same code with notes erased, at places that show the same
(`PlacesAlike`). The two runs tell the same and end alike, as long as functions heed no notes,
nested programs and registered partials run alike, the code reads no data variables that hold erased
notes, and no program that is run climbs past a frame that is there for such notes alone. There is
one lemma for each part of the evaluator, and from them runs of programs are alike at every level
(`RenderersAlike.invokeAt`).
-/

set_option autoImplicit false

namespace Stencil.Render

open Stencil.Code (Erasure Spec Options Chunk Lookup Accessor Operand Call CallIds Instruction
  BlockCall BlockKind PartialInvocation PartialName)

variable {n : Erasure} {o : Options}

/-! ## Plans -/

/-- Carrying out plans that are alike, where parts are rendered and functions called alike. -/
theorem runsAlike_plan {render render' : Part → Value → BlockArgs → Run String}
    {callFirst callFirst' : List Value → Run Value} {plan plan' : Plan}
    (h : PlansAlike n plan plan')
    (hrender : ∀ part context data data' values, FramesAlike n data data' →
      RunsAlike n Eq (render part context ⟨data, values⟩) (render' part context ⟨data', values⟩))
    (hcall : ∀ params, RunsAlike n Eq (callFirst params) (callFirst' params)) :
    RunsAlike n Eq (plan.run render callFirst) (plan'.run render' callFirst') := by
  induction h with
  | give value => exact runsAlike_pure rfl
  | fail h => exact runsAlike_fail h
  | render part context h values _ ih =>
    exact runsAlike_bind (runsAlike_attempt (hrender part context _ _ values h)) ih
  | log level message _ ih => exact runsAlike_bind (runsAlike_emit level message) fun _ _ _ => ih
  | handOver params => exact hcall params

/-! ## Places -/

variable (n o) in
/-- Two visits of the same program, of code that differs in erased notes, in scopes that show the
same. -/
structure VisitsAlike (u v : Visit) : Prop where
  spec : SpecsAlike n o u.spec v.spec
  program : u.program = v.program
  scope : ScopesAlike n o u.scope v.scope

/-- Every function of the environment heeds no notes. -/
def Environment.Heedless (n : Erasure) (env : Environment) : Prop :=
  ∀ helper ∈ env.customs, Helper.Heedless n helper

theorem Environment.Heedless.function {env : Environment} (h : env.Heedless n) {f : FunctionId}
    {helper : Helper} (hf : env.function? f = some helper) : helper.Heedless n := by
  cases f with
  | builtin b =>
    obtain rfl := Option.some.inj hf
    exact b.heedless
  | custom number => exact h helper (List.mem_of_getElem? hf)

variable (n o) in
/-- Two places at which evaluation goes on alike. -/
structure PlacesAlike (p q : Place) : Prop where
  env : p.frame.env = q.frame.env
  heedless : p.frame.env.Heedless n
  level : p.frame.level = q.frame.level
  spec : SpecsAlike n o p.spec q.spec
  scope : ScopesAlike n o p.scope q.scope
  below : ∀ u v, VisitsAlike n o u v → RunsAlike n Eq (p.frame.below u) (q.frame.below v)
  partialSpec : ∀ name, RunsAlike n (Option.Rel (SpecsAlike n o)) (p.frame.partialSpec o name)
    (q.frame.partialSpec (n.options o) name)

namespace PlacesAlike

variable {p q : Place} (h : PlacesAlike n o p q)

include h

/-- What options are erased is erased in all code of both runs. -/
theorem options_eq : q.spec.options = n.options p.spec.options := by
  rw [h.spec.erased]
  rfl

/-! ## Helpers -/

theorem declared (program : Option Nat) : p.declared program = q.declared program := by
  unfold Place.declared
  rw [h.spec.erased]
  cases program with
  | none => rfl
  | some id =>
    show ((p.spec.program? id).map Chunk.blockParams).getD 0 =
      (((n.spec p.spec).program? id).map Chunk.blockParams).getD 0
    rw [n.program?_spec, Option.map_map]
    rfl

/-- A nested program is entered with what it is handed, in scopes that show the same. -/
theorem invoke (program : Option Nat) (context : Value) {data data' : Table Value}
    (hdata : FramesAlike n data data') (values : List Value) :
    RunsAlike n Eq (p.invoke program context ⟨data, values⟩)
      (q.invoke program context ⟨data', values⟩) := by
  cases program with
  | none => exact runsAlike_pure rfl
  | some id => exact h.below _ _ ⟨h.spec, rfl, (h.scope.enter context values).withData hdata⟩

/-- What a helper is called with differs in what is erased: its location, and the paths of its
arguments. -/
theorem helperCall (parts : Place.Parts) (site : List Nat) (name : String) (params : List Value)
    (hash : Table Value) (ids : Option CallIds) (loc : Option Text.Location) :
    CallsAlike n (p.helperCall site name params hash ids loc parts)
      (q.helperCall site name params hash (n.callIds ids) (n.loc loc) parts) where
  name := rfl
  params := rfl
  hash := rfl
  ids := by
    show (n.callIds ids).map _ = if n.ids then none else ids.map _
    unfold Erasure.callIds
    split <;> rfl
  hashIds := by
    show (n.callIds ids).map _ = if n.ids then none else ids.map _
    unfold Erasure.callIds
    split <;> rfl
  loc := (n.loc_loc loc).symm
  this := h.scope.context
  data name hreads := by
    have hdata : p.scope.data? 0 name = q.scope.data? 0 name := h.scope.data.dataValue?_eq hreads
    show (p.scope.data? 0 name).getD .undefined = (q.scope.data? 0 name).getD .undefined
    rw [hdata]
  hasBody := rfl
  hasInverse := rfl
  bodyParams := h.declared parts.body
  inverseParams := h.declared parts.inverse
  identity := congrArg (Identity.made · site) h.level

/-- A helper that does not heed what is erased has plans that are carried out alike. -/
theorem carryOut (parts : Place.Parts) (f : FunctionId) {c d : HelperCall} (hcd : CallsAlike n c d)
    {handOver handOver' : List Value → Run Value}
    (hcall : ∀ params, RunsAlike n Eq (handOver params) (handOver' params)) :
    RunsAlike n Eq (p.carryOut parts f c handOver) (q.carryOut parts f d handOver') := by
  unfold Place.carryOut
  rw [← h.env]
  cases hf : p.frame.env.function? f with
  | none => exact runsAlike_pure rfl
  | some helper =>
    refine runsAlike_plan (h.heedless.function hf c d hcd) ?_ hcall
    intro part context data data' values hdata
    exact h.invoke (parts.program part) context hdata values

/-- By induction on how often calls may be handed over. -/
theorem callFunction (parts : Place.Parts) :
    ∀ (bound : Nat) (f : FunctionId) {c d : HelperCall}, CallsAlike n c d →
      RunsAlike n Eq (p.callFunction parts bound f c) (q.callFunction parts bound f d)
  | 0, f, _, _, hcd => h.carryOut parts f hcd fun _ => runsAlike_pure rfl
  | bound + 1, f, c, d, hcd => by
    refine h.carryOut parts f hcd fun params => ?_
    split
    next g rest => exact callFunction parts bound g { hcd with params := rfl }
    next => exact runsAlike_pure rfl

/-- Calling a function that is told of erased notes and one that is not. -/
theorem apply (parts : Place.Parts) (f : FunctionId) (site : List Nat) (name : String)
    (params : List Value) (hash : Table Value) (ids : Option CallIds) (loc : Option Text.Location) :
    RunsAlike n Eq (p.apply parts f (p.helperCall site name params hash ids loc parts))
      (q.apply parts f (q.helperCall site name params hash (n.callIds ids) (n.loc loc) parts)) :=
  h.callFunction parts params.length f (h.helperCall parts site name params hash ids loc)

/-! ## Operands -/

/-- A lookup that shows the same in both scopes finds the same value, or fails with an error that is
the same once erased. -/
theorem lookup (path : Lookup) (hshows : Shows n p.scope path.accessor) :
    RunsAlike n Eq (p.lookup path) (q.lookup (n.lookup path)) := by
  refine runsAlike_ofRuntime ?_
  rw [← h.env, h.options_eq]
  exact h.scope.lookup_erased _ _ path hshows

/-- What is called is found by lookups alone. -/
theorem callee (helper : Option Accessor) (value : Option Lookup)
    (hshows : ∀ l ∈ helper.toList.map Lookup.bare ++ value.toList, Shows n p.scope l.accessor) :
    RunsAlike n Eq (p.callee helper value) (q.callee helper (value.map n.lookup)) := by
  refine runsAlike_ofRuntime ?_
  rw [← h.env, h.options_eq]
  refine h.scope.callee_erased _ _ helper value (fun a ha => ?_) fun l hl => ?_
  · refine hshows (Lookup.bare a) (List.mem_append_left _ ?_)
    exact List.mem_map_of_mem (Option.mem_toList.2 ha)
  · exact hshows l (List.mem_append_right _ (Option.mem_toList.2 hl))

omit h

mutual

/-- By recursion over the operand, which lookup by lookup has the same value. -/
theorem operand (h : PlacesAlike n o p q) (site : List Nat) :
    ∀ operand : Operand, (∀ l ∈ operand.lookups, Shows n p.scope l.accessor) →
      RunsAlike n Eq (p.operand site operand) (q.operand site (n.operand operand))
  | .literal _, _ => runsAlike_pure rfl
  | .lookup path, hshows => h.lookup path (hshows path List.mem_cons_self)
  | .lambda path, hshows => by
    rw [Erasure.operand, Place.operand, Place.operand]
    refine runsAlike_bind (h.lookup path (hshows path List.mem_cons_self)) ?_
    rintro v _ rfl
    cases v with
    | function f =>
      have happly := h.apply {} f site path.spelling [] [] none path.loc
      rw [n.callIds_none] at happly
      exact happly
    | _ => exact runsAlike_pure rfl
  | .call c, hshows => h.call site c hshows
  | .ambiguous c, hshows => h.ambiguous site c hshows

/-- The arguments have the same values and the same function is called, with paths that may be
erased. -/
theorem call (h : PlacesAlike n o p q) (site : List Nat) :
    ∀ c : Call, (∀ l ∈ c.lookups, Shows n p.scope l.accessor) →
      RunsAlike n Eq (p.call site c) (q.call site (n.call c))
  | ⟨name, helper, value, params, hash, ids, loc⟩, hshows => by
    obtain ⟨hhead, harguments⟩ := List.forall_mem_append.1 hshows
    obtain ⟨hparams, hhash⟩ := List.forall_mem_append.1 harguments
    rw [Erasure.call, Place.call, Place.call]
    refine runsAlike_bind (h.callee helper value hhead) ?_
    rintro found _ rfl
    cases found with
    | helper f | lambda f =>
      refine runsAlike_bind (h.operands site 0 params hparams) ?_
      rintro vs _ rfl
      refine runsAlike_bind (h.hashValues site 0 hash hhash) ?_
      rintro table _ rfl
      exact h.apply {} f site name vs table ids loc
    | value v =>
      have hisEmpty : (n.operands params).isEmpty = params.isEmpty := by cases params <;> rfl
      have hnone : (n.named hash).isEmpty = hash.isEmpty := by cases hash <;> rfl
      dsimp only
      rw [hisEmpty, hnone]
      split
      · exact runsAlike_pure rfl
      · refine runsAlike_fail ?_
        exact congrArg (fun loc => TemplateError.ofRuntime (.missingHelper name loc))
          (n.loc_loc loc).symm

/-- A name that is no helper in the one run is none in the other. -/
theorem ambiguous (h : PlacesAlike n o p q) (site : List Nat) :
    ∀ c : Call, (∀ l ∈ c.lookups, Shows n p.scope l.accessor) →
      RunsAlike n Eq (p.ambiguous site c) (q.ambiguous site (n.call c))
  | ⟨name, helper, value, params, hash, ids, loc⟩, hshows => by
    obtain ⟨hhead, harguments⟩ := List.forall_mem_append.1 hshows
    obtain ⟨-, hhash⟩ := List.forall_mem_append.1 harguments
    rw [Erasure.call, Place.ambiguous, Place.ambiguous]
    refine runsAlike_bind (h.callee helper value hhead) ?_
    rintro found _ rfl
    cases found with
    | helper f | lambda f =>
      refine runsAlike_bind (h.hashValues site 0 hash hhash) ?_
      rintro table _ rfl
      exact h.apply {} f site name [] table ids loc
    | value v => exact runsAlike_pure rfl

theorem operands (h : PlacesAlike n o p q) (site : List Nat) (index : Nat) :
    ∀ os : List Operand, (∀ l ∈ Operand.lookupsAll os, Shows n p.scope l.accessor) →
      RunsAlike n Eq (p.operands site index os) (q.operands site index (n.operands os))
  | [], _ => runsAlike_pure rfl
  | first :: rest, hshows => by
    obtain ⟨hfirst, hrest⟩ := List.forall_mem_append.1 hshows
    rw [Erasure.operands, Place.operands, Place.operands]
    refine runsAlike_bind (h.operand _ first hfirst) ?_
    rintro v _ rfl
    refine runsAlike_bind (h.operands site (index + 1) rest hrest) ?_
    rintro vs _ rfl
    exact runsAlike_pure rfl

theorem hashValues (h : PlacesAlike n o p q) (site : List Nat) (index : Nat) :
    ∀ hash : List (String × Operand),
      (∀ l ∈ Operand.lookupsNamed hash, Shows n p.scope l.accessor) →
      RunsAlike n Eq (p.hashValues site index hash) (q.hashValues site index (n.named hash))
  | [], _ => runsAlike_pure rfl
  | (name, first) :: rest, hshows => by
    obtain ⟨hfirst, hrest⟩ := List.forall_mem_append.1 hshows
    rw [Erasure.named, Place.hashValues, Place.hashValues]
    refine runsAlike_bind (h.operand _ first hfirst) ?_
    rintro v _ rfl
    refine runsAlike_bind (h.hashValues site (index + 1) rest hrest) ?_
    rintro vs _ rfl
    exact runsAlike_pure rfl

end

include h

/-! ## Blocks -/

/-- Items are rendered one after the other, from the same values. -/
theorem sectionItems (body : Option Nat) :
    ∀ (items : List Value) (index : Nat),
      RunsAlike n Eq (p.sectionItems body index items) (q.sectionItems body index items)
  | [], _ => runsAlike_pure rfl
  | item :: rest, index => by
    rw [Place.sectionItems, Place.sectionItems]
    refine runsAlike_bind (h.invoke body item (.refl n _) _) ?_
    rintro text _ rfl
    refine runsAlike_bind (sectionItems body rest (index + 1)) ?_
    rintro more _ rfl
    exact runsAlike_pure rfl

/-- What a section does depends on the value, which is the same. -/
theorem overValue (parts : Place.Parts) (v : Value) :
    RunsAlike n Eq (p.overValue parts v) (q.overValue parts v) := by
  have hinvoke : ∀ (program : Option Nat) (context : Value),
      RunsAlike n Eq (p.invoke program context {}) (q.invoke program context {}) :=
    fun program context => h.invoke program context (.refl n _) _
  unfold Place.overValue
  rw [h.scope.context]
  dsimp only
  split
  · exact hinvoke parts.body _
  · exact hinvoke parts.inverse _
  · exact hinvoke parts.inverse _
  · exact hinvoke parts.inverse _
  · exact hinvoke parts.inverse _
  · exact h.sectionItems parts.body _ _
  · exact hinvoke parts.body _

/-- What opens the block is found alike, and what it does then. -/
theorem block (b : BlockCall) (hshows : ∀ l ∈ b.kind.lookups, Shows n p.scope l.accessor) :
    RunsAlike n Eq (p.block b) (q.block (n.blockCall b)) := by
  obtain ⟨kind, opened, program, inverse, mark⟩ := b
  unfold Place.block Erasure.blockCall
  dsimp only at hshows ⊢
  -- How a block is opened is the same in both; what differs are the notes that are handed on.
  cases kind with
  | helper call =>
    obtain ⟨name, helper, value, params, hash, ids, loc⟩ := call
    obtain ⟨hhead, harguments⟩ := List.forall_mem_append.1 hshows
    obtain ⟨hparams, hhash⟩ := List.forall_mem_append.1 harguments
    rw [Erasure.blockKind, Erasure.call]
    refine runsAlike_bind (h.callee helper value hhead) ?_
    rintro found _ rfl
    cases found with
    | value v =>
      -- Only the location in the error differs, and it is erased.
      refine runsAlike_fail ?_
      exact congrArg (fun loc => TemplateError.ofRuntime (.missingHelper name loc))
        (n.loc_loc loc).symm
    | helper f | lambda f =>
      refine runsAlike_bind (h.operands [] 0 params hparams) ?_
      rintro vs _ rfl
      refine runsAlike_bind (h.hashValues [] 0 hash hhash) ?_
      rintro table _ rfl
      refine runsAlike_bind (h.apply ⟨program, inverse⟩ f [] name vs table ids loc) ?_
      rintro v _ rfl
      exact runsAlike_pure rfl
  | ambiguous call =>
    obtain ⟨name, helper, value, params, hash, ids, loc⟩ := call
    obtain ⟨hhead, harguments⟩ := List.forall_mem_append.1 hshows
    obtain ⟨-, hhash⟩ := List.forall_mem_append.1 harguments
    rw [Erasure.blockKind, Erasure.call]
    refine runsAlike_bind (h.callee helper value hhead) ?_
    rintro found _ rfl
    cases found with
    | value v => exact h.overValue ⟨program, inverse⟩ v
    | helper f =>
      refine runsAlike_bind (h.hashValues [] 0 hash hhash) ?_
      rintro table _ rfl
      refine runsAlike_bind (h.apply ⟨program, inverse⟩ f [] name [] table ids loc) ?_
      rintro v _ rfl
      exact runsAlike_pure rfl
    | lambda f =>
      refine runsAlike_bind (h.hashValues [] 0 hash hhash) ?_
      rintro table _ rfl
      refine runsAlike_bind (h.apply ⟨program, inverse⟩ f [] name [] table ids loc) ?_
      rintro v _ rfl
      exact h.overValue ⟨program, inverse⟩ v
  | «section» operand =>
    refine runsAlike_bind (h.operand [0, 0] operand hshows) ?_
    rintro v _ rfl
    exact h.overValue ⟨program, inverse⟩ v

/-! ## Partials -/

/-- A name that is computed is an operand, and not a name if it is not a string. -/
theorem partialName (name : PartialName) (hshows : ∀ l ∈ name.lookups, Shows n p.scope l.accessor) :
    RunsAlike n Eq (p.partialName name) (q.partialName (n.partialName name)) := by
  cases name with
  | computed operand =>
    refine runsAlike_bind (h.operand [0] operand hshows) ?_
    rintro v _ rfl
    exact runsAlike_pure rfl
  | fixed name accessor =>
    have hbare : RunsAlike n Eq
        (Run.ofRuntime (lookupBare p.frame.env p.spec.options p.scope accessor))
        (Run.ofRuntime (lookupBare q.frame.env q.spec.options q.scope accessor)) := by
      refine runsAlike_ofRuntime ?_
      rw [← h.env, h.options_eq]
      exact h.scope.lookupBare_erased _ _ accessor (hshows _ List.mem_cons_self)
    unfold Place.partialName Erasure.partialName
    dsimp only
    split
    · exact runsAlike_pure rfl
    · exact runsAlike_pure rfl
    · refine runsAlike_bind hbare ?_
      rintro v _ rfl
      exact runsAlike_pure rfl

/-- The context of a partial is made of values that are the same. -/
theorem partialContext (context : Value) (hash : Table Value) :
    p.partialContext context hash = q.partialContext context hash := by
  unfold Place.partialContext
  rw [h.level]

/-- The body of a partial block runs in its own scope, with the data variables of the partial. -/
theorem bodyVisit {b b' : PartialBody} (hbody : BodiesAlike n o b b') (context : Value) :
    VisitsAlike n o (p.bodyVisit b context) (q.bodyVisit b' context) where
  spec := hbody.spec
  program := hbody.program
  scope := by
    have hscope := hbody.scope.enter context []
    exact .intro hscope.contexts hscope.blockParams (.frame (fun _ _ => rfl) h.scope.data)
      hbody.scope.body

/-- A partial is entered with the same context, with bodies that correspond, and with data variables
that show the same. -/
theorem partialVisit {s t : Spec} (hspec : SpecsAlike n o s t) (program : Option Nat)
    (context : Value) :
    VisitsAlike n o (p.partialVisit s program context) (q.partialVisit t program context) where
  spec := hspec
  program := by
    rw [hspec.erased]
    rfl
  scope := by
    cases program with
    | none => exact h.scope.forPartial context
    | some id =>
      have hbody : BodiesAlike n o ⟨p.spec, id, p.scope⟩ ⟨q.spec, id, q.scope⟩ :=
        ⟨h.spec, rfl, h.scope⟩
      exact (h.scope.withPartialBlock hbody).forPartial context

/-- The partial is the body that was lent, a registered one, or none in both. -/
theorem partialText (name : String) (program : Option Nat) (context : Value) :
    RunsAlike n Eq (p.partialText name program context) (q.partialText name program context) := by
  unfold Place.partialText
  split
  · have hbody := h.scope.body
    generalize p.scope.partialBlock = lent, q.scope.partialBlock = lent' at hbody
    cases hbody with
    | none => exact runsAlike_fail rfl
    | some hbody => exact h.below _ _ (h.bodyVisit hbody context)
  · have hfound : RunsAlike n (Option.Rel (SpecsAlike n o))
      (p.frame.partialSpec p.spec.options name)
        (q.frame.partialSpec q.spec.options name) := by
      rw [h.options_eq, h.spec.options]
      exact h.partialSpec name
    refine runsAlike_bind hfound fun found found' hrel => ?_
    cases hrel with
    | some hspec => exact h.below _ _ (h.partialVisit hspec program context)
    | none =>
      -- The body of the call stands in for a partial that is not registered.
      unfold Place.foundText
      dsimp only
      split
      · exact h.invoke program context (.refl n _) _
      · exact runsAlike_fail rfl

/-- Indentation is put in front of the lines of the same text. -/
theorem partialInvocation (i : PartialInvocation)
    (hshows : ∀ l ∈ (Instruction.partialCall i).lookups, Shows n p.scope l.accessor) :
    RunsAlike n Eq (p.partialInvocation i) (q.partialInvocation (n.invocation i)) := by
  obtain ⟨hhead, hhash⟩ := List.forall_mem_append.1 hshows
  obtain ⟨hname, hcontext⟩ := List.forall_mem_append.1 hhead
  unfold Place.partialInvocation
  refine runsAlike_bind (h.partialName i.name hname) ?_
  rintro name _ rfl
  refine runsAlike_bind (h.operand [1] i.context hcontext) ?_
  rintro context _ rfl
  refine runsAlike_bind (h.hashValues [2] 0 i.hash hhash) ?_
  rintro hash _ rfl
  rw [h.partialContext]
  refine runsAlike_bind (h.partialText name i.program _) ?_
  rintro text _ rfl
  exact runsAlike_pure rfl

/-! ## Instructions -/

/-- Each form of instruction is carried out alike. -/
theorem piece (i : Instruction) (hshows : ∀ l ∈ i.lookups, Shows n p.scope l.accessor) :
    RunsAlike n Eq (p.piece i) (q.piece (n.instruction i)) := by
  cases i with
  | content text => exact runsAlike_pure rfl
  | append operand escape =>
    refine runsAlike_bind (h.operand [] operand hshows) ?_
    rintro v _ rfl
    exact runsAlike_pure rfl
  | block b =>
    refine runsAlike_bind (h.block b hshows) ?_
    rintro text _ rfl
    exact runsAlike_pure rfl
  | partialCall i =>
    refine runsAlike_bind (h.partialInvocation i hshows) ?_
    rintro text _ rfl
    exact runsAlike_pure rfl

/-- Instructions are carried out one after the other, up to the first error that ends them. -/
theorem textOf (strict : Bool) (is : List Instruction)
    (hshows : ∀ i ∈ is, ∀ l ∈ i.lookups, Shows n p.scope l.accessor) :
    RunsAlike n Eq (textOf strict p.piece is) (textOf strict q.piece (is.map n.instruction)) := by
  induction is with
  | nil => exact runsAlike_pure rfl
  | cons i rest ih =>
    rw [List.map_cons, Render.textOf, Render.textOf]
    refine runsAlike_bind (runsAlike_recover strict (h.piece i (hshows i List.mem_cons_self))) ?_
    intro first first' hfirst
    refine runsAlike_bind (ih fun i hi => hshows i (List.mem_cons_of_mem _ hi)) ?_
    rintro more _ rfl
    cases hfirst with
    | none => exact runsAlike_pure rfl
    | some heq => exact runsAlike_pure (heq ▸ rfl)

end PlacesAlike

/-! ## Renderings -/

variable (n o) in
/-- Two renderers in one environment, whose functions heed no notes. Under the options by which
fewer notes are taken the one finds the partials that the other finds, with notes erased. -/
structure RenderersAlike (r r' : Renderer) : Prop where
  env : r.env = r'.env
  heedless : r.env.Heedless n
  partialSpec : ∀ name, RunsAlike n (Option.Rel (SpecsAlike n o)) (r.partialSpec o name)
    (r'.partialSpec (n.options o) name)

namespace RenderersAlike

variable {r r' : Renderer} (h : RenderersAlike n o r r')

include h

/-- By induction on the levels that are left: an entered program runs its instructions, which enter
others one level on. -/
theorem invokeAt : ∀ (level : Nat) (u v : Visit), VisitsAlike n o u v →
    RunsAlike n Eq (r.invokeAt level u) (r'.invokeAt level v)
  | 0, _, _, _ => by
    refine runsAlike_fail ?_
    rw [h.env]
  | level + 1, u, v, huv => by
    have hplaces : PlacesAlike n o (r.placeAt level u) (r'.placeAt level v) := {
      env := h.env
      heedless := h.heedless
      level := rfl
      spec := huv.spec
      scope := huv.scope
      below := invokeAt level
      partialSpec := h.partialSpec }
    rw [Renderer.invokeAt_succ, Renderer.invokeAt_succ]
    refine runsAlike_nested u v fun hpasses => ?_
    have hchunk : v.spec.program? v.program = (u.spec.program? u.program).map n.chunk := by
      rw [huv.spec.erased, huv.program, n.program?_spec]
    have hstrict : v.spec.options.strict = u.spec.options.strict := by
      rw [huv.spec.erased]
      rfl
    unfold Renderer.chunk
    rw [hchunk, hstrict, ← huv.program]
    cases hc : u.spec.program? u.program with
    | none => exact runsAlike_fail rfl
    | some c =>
      refine hplaces.textOf _ c.instructions fun i hi l hl => ?_
      have hmem : l ∈ c.lookups := List.mem_flatMap.2 ⟨i, hi, hl⟩
      -- The entered event of this program is in the trace, so its own lookups climb past no frame.
      refine ⟨huv.spec.reads u.program c hc l hmem, fun hids => ?_⟩
      have hpasses := hpasses hids
      rw [Visit.passesNoPath, hc] at hpasses
      exact List.all_eq_true.1 hpasses l hmem

/-- A rendering enters the main program in the outermost scope, which is the same for both. -/
theorem text {s t : Spec} (hspec : SpecsAlike n o s t) (context : Value) (values : List Value) :
    RunsAlike n Eq (r.text s context values) (r'.text t context values) := by
  have hcheck : t.check = s.check := by
    rw [hspec.erased]
    rfl
  have hmain : t.main = s.main := by
    rw [hspec.erased]
    rfl
  have hroot : VisitsAlike n o ⟨s, s.main, Scope.root context r.env.data values⟩
      ⟨t, t.main, Scope.root context r.env.data values⟩ :=
    ⟨hspec, hmain.symm, scopesAlike_root o context r.env.data values⟩
  unfold Renderer.text
  rw [hcheck, ← h.env]
  cases s.check with
  | error e => exact runsAlike_fail rfl
  | ok _ => exact h.invokeAt r.env.maxDepth _ _ hroot

end RenderersAlike

end Stencil.Render
