import Stencil.Proofs.Code.Operands
import Stencil.Proofs.Render.Promise

/-!
# Places where a promise is kept

Evaluation with the built-in helpers only, at a place where every value in scope is of the kind that
is promised (`Place.Keeps`). What an operand gives is of the kind (`Place.Keeps.operand`), and so is
the text of a block if nested programs keep the promise (`Place.Keeps.block`). Which lookups and
calls there may be is left open, as long as no lookup makes a helper a value, and every error of a
lookup or a call is one of those that may be.
-/

set_option autoImplicit false

namespace Stencil.Render

open Stencil.Code (Lookup Operand Call CallIds BlockCall)

/-! ## Built-in helpers only -/

/-- No helpers are registered but the built-in ones under their names. -/
def Environment.OnlyBuiltins (env : Environment) : Prop :=
  ∀ name, env.helpers.get? name = Builtin.table.get? name

theorem Builtin.of_get?_table {name : String} {f : FunctionId}
    (h : Builtin.table.get? name = some f) : ∃ b : Builtin, f = .builtin b ∧ b.name = name := by
  obtain ⟨b, -, hb⟩ := List.mem_map.1 (Table.mem_of_get? h)
  cases hb
  exact ⟨b, rfl, rfl⟩

/-- A place where every value in scope is of the kind that is promised, and where nested programs,
whose numbers have a property, keep the promise. A lookup or a call that there may be does not make
a helper a value, and fails with errors only that may be. -/
structure Place.Keeps (w : Promise) (R : Nat → Prop) (L : Lookup → Prop) (C : Call → Prop)
    (p : Place) :
    Prop where
  helpers : p.frame.env.OnlyBuiltins
  scope : p.scope.Holds w.values
  missingHelper : ∀ name loc, w.errors (.ofRuntime (.missingHelper name loc))
  apart : ∀ {l}, L l → l.Apart
  lookup_error : ∀ {l}, L l → ∀ {e}, Render.lookup p.frame.env p.spec.options p.scope l = .error e →
    w.errors (.ofRuntime e)
  named : ∀ {c : Call}, C c → c.Apart
  call_error : ∀ {c : Call}, C c → ∀ {b : Builtin},
    c.helper = some (.member .helpers b.name .helper) → ¬ b.Takes c.params.length →
      ∀ name message, w.errors (.ofRuntime (.helper name message))
  nested : ∀ {id}, R id → ∀ {context args}, w.values context → BlockArgs.Holds w.values args →
    (p.frame.below (p.nestedVisit id context args)).Obeys w.errors w.texts

namespace Place.Keeps

variable {w : Promise} {R : Nat → Prop} {L : Lookup → Prop} {C : Call → Prop} {p : Place}

section

variable (h : p.Keeps w R L C)

include h

/-! ## Helpers -/

theorem context : w.values p.scope.context := w.hereditary.context h.scope

theorem invoke {program : Option Nat} (hprogram : ∀ id ∈ program, R id) {context : Value}
    (hc : w.values context) {args : BlockArgs} (ha : args.Holds w.values) :
    (p.invoke program context args).Obeys w.errors w.texts := by
  cases program with
  | none => exact Run.obeys_pure w.textKind.empty
  | some id => exact h.nested (hprogram id rfl) hc ha

theorem helperCall_holds (site : List Nat) (name : String) {params : List Value}
    (hparams : ∀ v ∈ params, w.values v) (hash : Table Value) (ids : Option CallIds)
    (loc : Option Text.Location) (parts : Place.Parts) :
    (p.helperCall site name params hash ids loc parts).Holds w.values :=
  ⟨hparams, h.context⟩

theorem apply {parts : Place.Parts} (hparts : ∀ part, ∀ id ∈ parts.program part, R id) {b : Builtin}
    {call : HelperCall} (hc : call.Holds w.values)
    (fails : ¬ b.Takes call.params.length →
      ∀ name message, w.errors (.ofRuntime (.helper name message))) :
    (p.apply parts (.builtin b) call).Obeys w.errors (b.Result w call) := by
  have carried : ∀ handOver,
      (p.carryOut parts (.builtin b) call handOver).Obeys w.errors (b.Result w call) :=
    fun _ => (b.keeps_helper hc fails).run fun part _ _ hcontext hargs =>
      h.invoke (hparts part) hcontext hargs
  unfold Place.apply
  -- A built-in helper hands over to no function, so it does not matter whether there is one.
  cases call.params.length with
  | zero => exact carried _
  | succ bound => exact carried _

omit h in
/-- Where there is no block there are no programs. -/
theorem noParts (part : Part) : ∀ id ∈ ({} : Place.Parts).program part, R id := by
  cases part <;> exact fun id hid => nomatch hid

/-! ## Operands -/

theorem lookup {path : Lookup} (hpath : L path) : (p.lookup path).Obeys w.errors w.values :=
  Run.obeys_ofRuntime (fun _ hv => w.hereditary.resolve h.scope (h.apart hpath) hv)
    fun _ he => h.lookup_error hpath he

/-- A name stands for a built-in helper or for a value of the kind. -/
theorem callee {call : Call} (hcall : C call) (hvalue : ∀ path ∈ call.value, L path) :
    (p.callee call.helper call.value).Obeys w.errors fun found =>
      (∃ b : Builtin, call.helper = some (.member .helpers b.name .helper) ∧
          found = .helper (.builtin b)) ∨
        ∃ v, w.values v ∧ found = .value v := by
  have hnamed := h.named hcall
  refine Run.obeys_ofRuntime (fun found hfound => ?_) fun e he => ?_
  · rcases w.hereditary.callee h.scope hnamed (fun path hpath => h.apart (hvalue path hpath))
      hfound with
      ⟨name, f, hname, hget, rfl⟩ | hv
    · rw [h.helpers] at hget
      obtain ⟨b, rfl, rfl⟩ := Builtin.of_get?_table hget
      exact .inl ⟨b, hname, rfl⟩
    · exact .inr hv
  · -- Only the lookup of the value can fail, that of the helper does not.
    rcases callee_error_lookup he with ⟨a, ha, hfails⟩ | ⟨path, hpath, hfails⟩
    · obtain ⟨name, rfl⟩ := hnamed a ha
      cases hfails
    · exact h.lookup_error (hvalue path hpath) hfails

end

mutual

theorem operand (h : p.Keeps w R L C) (site : List Nat) :
    ∀ {o : Operand}, o.Every L C → (p.operand site o).Obeys w.errors w.values
  | .literal l, _ => Run.obeys_pure (w.hereditary.literalValue l)
  | .lookup path, ho => h.lookup ho
  | .lambda path, ho => by
    refine Run.obeys_bind (h.lookup ho) fun v hv => ?_
    cases v with
    | function f => exact absurd hv (w.hereditary.not_function f)
    | _ => exact Run.obeys_pure hv
  | .call c, ho => h.call site ho
  | .ambiguous c, ho => h.ambiguous site ho.1 ho.2

theorem call (h : p.Keeps w R L C) (site : List Nat) :
    ∀ {c : Call}, c.Every L C → (p.call site c).Obeys w.errors w.values
  | ⟨name, helper, value, params, hash, ids, loc⟩, hc => by
    obtain ⟨hcall, hvalue, hparams, hhash⟩ := hc
    refine Run.obeys_bind (h.callee hcall hvalue) fun found hfound => ?_
    rcases hfound with ⟨b, hb, rfl⟩ | ⟨v, hv, rfl⟩
    · refine Run.obeys_bind (h.operands site 0 hparams) fun values hvalues => ?_
      refine Run.obeys_bind (h.hashValues site 0 hhash) fun hash _ => ?_
      have hholds := h.helperCall_holds site name hvalues.1 hash ids loc {}
      have hresult := h.apply noParts hholds (hvalues.2 ▸ h.call_error hcall hb)
      exact hresult.imp (fun _ he => he) fun _ hv => hv.value
    · dsimp only
      split
      · exact Run.obeys_pure hv
      · exact Run.obeys_fail (h.missingHelper name loc)

theorem ambiguous (h : p.Keeps w R L C) (site : List Nat) :
    ∀ {c : Call}, c.params = [] → c.Every L C → (p.ambiguous site c).Obeys w.errors w.values
  | ⟨name, helper, value, _, hash, ids, loc⟩, rfl, hc => by
    obtain ⟨hcall, hvalue, -, hhash⟩ := hc
    refine Run.obeys_bind (h.callee hcall hvalue) fun found hfound => ?_
    rcases hfound with ⟨b, hb, rfl⟩ | ⟨v, hv, rfl⟩
    · refine Run.obeys_bind (h.hashValues site 0 hhash) fun hash _ => ?_
      have hnone : ∀ v ∈ ([] : List Value), w.values v := nofun
      have hholds := h.helperCall_holds site name hnone hash ids loc {}
      have hresult := h.apply noParts hholds (h.call_error hcall hb)
      exact hresult.imp (fun _ he => he) fun _ hv => hv.value
    · exact Run.obeys_pure hv

/-- There are as many values as operands. -/
theorem operands (h : p.Keeps w R L C) (site : List Nat) (index : Nat) :
    ∀ {os : List Operand}, Operand.AllEvery L C os →
      (p.operands site index os).Obeys w.errors fun vs =>
        (∀ v ∈ vs, w.values v) ∧ vs.length = os.length
  | [], _ => Run.obeys_pure ⟨nofun, rfl⟩
  | o :: rest, hos => by
    refine Run.obeys_bind (h.operand (index :: 0 :: site) hos.1) fun v hv => ?_
    refine Run.obeys_bind (h.operands site (index + 1) hos.2) fun vs hvs => ?_
    exact Run.obeys_pure ⟨List.forall_mem_cons.2 ⟨hv, hvs.1⟩, congrArg (· + 1) hvs.2⟩

theorem hashValues (h : p.Keeps w R L C) (site : List Nat) (index : Nat) :
    ∀ {hash : List (String × Operand)}, Operand.NamedEvery L C hash →
      (p.hashValues site index hash).Obeys w.errors (TableHolds w.values)
  | [], _ => Run.obeys_pure tableHolds_nil
  | (name, o) :: rest, hhash => by
    refine Run.obeys_bind (h.operand (index :: 1 :: site) hhash.1) fun v hv => ?_
    refine Run.obeys_bind (h.hashValues site (index + 1) hhash.2) fun vs hvs => ?_
    exact Run.obeys_pure (hvs.cons hv)

end

section

variable (h : p.Keeps w R L C)

include h

/-! ## Blocks -/

theorem sectionItems {body : Option Nat} (hbody : ∀ id ∈ body, R id) :
    ∀ {items : List Value}, (∀ v ∈ items, w.values v) →
      ∀ index : Nat, (p.sectionItems body index items).Obeys w.errors w.texts
  | [], _, _ => Run.obeys_pure w.textKind.empty
  | item :: rest, hitems, index => by
    have values := w.hereditary
    obtain ⟨hitem, hrest⟩ := List.forall_mem_cons.1 hitems
    have hdata : TableHolds w.values
        [("key", .int index), ("index", .int index), ("first", .bool (index == 0)),
          ("last", .bool rest.isEmpty)] :=
      (((tableHolds_nil.cons (values.bool _)).cons (values.bool _)).cons (values.int _)).cons
        (values.int _)
    have hparams : ∀ v ∈ [item, .int index], w.values v :=
      List.forall_mem_cons.2 ⟨hitem, List.forall_mem_singleton.2 (values.int _)⟩
    refine Run.obeys_bind (h.invoke hbody hitem ⟨hdata, hparams⟩) fun text htext => ?_
    refine Run.obeys_bind (sectionItems hbody hrest (index + 1)) fun more hmore => ?_
    exact Run.obeys_pure (w.textKind.append htext hmore)

theorem overValue {parts : Place.Parts} (hparts : ∀ part, ∀ id ∈ parts.program part, R id)
    {v : Value} (hv : w.values v) : (p.overValue parts v).Obeys w.errors w.texts := by
  have here : ∀ part, (p.invoke (parts.program part) p.scope.context {}).Obeys w.errors w.texts :=
    fun part => h.invoke (hparts part) h.context BlockArgs.holds_none
  unfold Place.overValue
  split
  · exact here .body
  · exact here .inverse
  · exact here .inverse
  · exact here .inverse
  · exact here .inverse
  next items _ => exact h.sectionItems (hparts .body) (w.hereditary.array_iff.1 hv) 0
  · exact h.invoke (hparts .body) hv BlockArgs.holds_none

/-- The text of a block is of the kind, unless the block shows what the helper `lookup` gives. -/
theorem block {b : BlockCall} (hb : b.kind.Every L C) (hprogram : ∀ id ∈ b.program, R id)
    (hinverse : ∀ id ∈ b.inverse, R id)
    (shown : ∀ c, b.kind = .helper c → c.helper = some (.member .helpers "lookup" .helper) →
      c.params = [] ∨ ∀ text, w.texts text) :
    (p.block b).Obeys w.errors w.texts := by
  obtain ⟨kind, name, program, inverse, loc⟩ := b
  have hparts : ∀ part, ∀ id ∈ Place.Parts.program ⟨program, inverse⟩ part, R id := by
    intro part
    cases part with
    | body => exact hprogram
    | inverse => exact hinverse
  unfold Place.block
  cases kind with
  | helper c =>
    obtain ⟨name, helper, value, params, hash, ids, loc⟩ := c
    obtain ⟨hcall, hvalue, hparams, hhash⟩ := hb
    refine Run.obeys_bind (h.callee hcall hvalue) fun found hfound => ?_
    rcases hfound with ⟨b, hb, rfl⟩ | ⟨v, -, rfl⟩
    · refine Run.obeys_bind (h.operands [] 0 hparams) fun values hvalues => ?_
      refine Run.obeys_bind (h.hashValues [] 0 hhash) fun hash _ => ?_
      have hholds := h.helperCall_holds [] name hvalues.1 hash ids loc ⟨program, inverse⟩
      have hresult := h.apply hparts hholds (hvalues.2 ▸ h.call_error hcall hb)
      refine Run.obeys_bind hresult fun v hv => Run.obeys_pure ?_
      -- What `lookup` gives is a value of any text, which the block shows as it is.
      by_cases hlookup : b = .lookupHelper
      · subst hlookup
        rcases shown _ rfl hb with hnone | hall
        · obtain rfl : params = [] := hnone
          exact hv.text fun _ => List.length_eq_zero_iff.1 hvalues.2
        · exact hall _
      · exact hv.text fun hb => absurd hb hlookup
    · exact Run.obeys_fail (h.missingHelper name loc)
  | ambiguous c =>
    obtain ⟨name, helper, value, params, hash, ids, loc⟩ := c
    obtain ⟨rfl, hcall, hvalue, -, hhash⟩ := hb
    refine Run.obeys_bind (h.callee hcall hvalue) fun found hfound => ?_
    rcases hfound with ⟨b, hb, rfl⟩ | ⟨v, hv, rfl⟩
    · refine Run.obeys_bind (h.hashValues [] 0 hhash) fun hash _ => ?_
      have hnone : ∀ v ∈ ([] : List Value), w.values v := nofun
      have hholds := h.helperCall_holds [] name hnone hash ids loc ⟨program, inverse⟩
      have hresult := h.apply hparts hholds (h.call_error hcall hb)
      exact Run.obeys_bind hresult fun v hv => Run.obeys_pure (hv.text fun _ => rfl)
    · exact h.overValue hparts hv
  | «section» o => exact Run.obeys_bind (h.operand [0, 0] hb) fun v hv => h.overValue hparts hv

end

end Place.Keeps

end Stencil.Render
