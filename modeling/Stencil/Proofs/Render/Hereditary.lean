import Stencil.Proofs.Render.Lookups

/-!
# Properties that members inherit

A property of values is hereditary if it passes from a value to its members and back, and no
function has it (`Value.Hereditary`). What templates make of values with the property has it again:
members of them, scopes with more of them, lookups in such scopes that do not start from the
registered helpers (`Value.Hereditary.resolve`). So a name stands for a registered helper or for a
value with the property, never for a function found as a value (`Value.Hereditary.callee`).
-/

set_option autoImplicit false

namespace Stencil.Render

open Stencil.Code (Options Lookup Accessor)

/-- A value has the property if its members have it; what has no members has it, except perhaps a
text that is shown as it is, and except functions. -/
structure Value.Hereditary (P : Value → Prop) : Prop where
  undefined : P .undefined
  null : P .null
  bool : ∀ b, P (.bool b)
  int : ∀ n, P (.int n)
  float : ∀ x, P (.float x)
  string : ∀ text, P (.string text)
  array_iff : ∀ {id items}, P (.array id items) ↔ ∀ v ∈ items, P v
  object_iff : ∀ {id entries}, P (.object id entries) ↔ ∀ e ∈ entries, P e.2
  not_function : ∀ f, ¬ P (.function f)

/-! ## Tables and scopes -/

/-- Every value of the table has the property. -/
def TableHolds (P : Value → Prop) (table : Table Value) : Prop := ∀ e ∈ table, P e.2

section Tables

variable {P : Value → Prop}

theorem tableHolds_nil : TableHolds P [] := fun _ h => absurd h List.not_mem_nil

theorem TableHolds.cons {name : String} {v : Value} {table : Table Value} (hv : P v)
    (h : TableHolds P table) : TableHolds P ((name, v) :: table) :=
  List.forall_mem_cons.2 ⟨hv, h⟩

/-- What is found in a table is one of its values. -/
theorem TableHolds.get? {table : Table Value} (h : TableHolds P table) {name : String} {v : Value}
    (hv : Table.get? name table = some v) : P v :=
  h (name, v) (Table.mem_of_get? hv)

/-- A value that is entered under a name may take the place of another one. -/
theorem TableHolds.insert {name : String} {v : Value} (hv : P v) :
    ∀ {table : Table Value}, TableHolds P table → TableHolds P (table.insert name v)
  | [], _ => tableHolds_nil.cons hv
  | (key, old) :: rest, h => by
    obtain ⟨hold, hrest⟩ := List.forall_mem_cons.1 h
    rw [Table.insert]
    split
    · exact TableHolds.cons hv hrest
    · exact TableHolds.cons hold (TableHolds.insert hv hrest)

/-- The entries of one table entered into another. -/
theorem TableHolds.foldl_insert {entries table : Table Value} (hentries : TableHolds P entries)
    (htable : TableHolds P table) :
    TableHolds P (entries.foldl (fun t e => Table.insert e.1 e.2 t) table) := by
  induction entries generalizing table with
  | nil => exact htable
  | cons e rest ih =>
    obtain ⟨hentry, hrest⟩ := List.forall_mem_cons.1 hentries
    exact ih hrest (htable.insert hentry)

end Tables

/-- Every value that a name in scope can mean has the property, the body of a partial block left
aside. -/
structure Scope.Holds (P : Value → Prop) (s : Scope) : Prop where
  contexts : ∀ v ∈ s.contexts, P v
  blockParams : ∀ frame ∈ s.blockParams, ∀ v ∈ frame, P v
  data : ∀ frame ∈ s.data, TableHolds P frame

/-- What a part of a block is given beside its context has the property. -/
structure BlockArgs.Holds (P : Value → Prop) (args : BlockArgs) : Prop where
  data : TableHolds P args.data
  blockParams : ∀ v ∈ args.blockParams, P v

/-- The values that a helper is called with have the property. -/
structure HelperCall.Holds (P : Value → Prop) (c : HelperCall) : Prop where
  params : ∀ v ∈ c.params, P v
  this : P c.this

theorem BlockArgs.holds_none {P : Value → Prop} : BlockArgs.Holds P {} :=
  ⟨tableHolds_nil, fun _ h => absurd h List.not_mem_nil⟩

namespace Scope.Holds

variable {P : Value → Prop} {s : Scope} (h : s.Holds P)

include h

/-- A context that is entered goes on top, unless it is the same as the one there. -/
theorem contextsWith {context : Value} (hc : P context) : ∀ v ∈ s.contextsWith context, P v := by
  unfold Scope.contextsWith
  split
  · exact h.contexts
  · exact List.forall_mem_cons.2 ⟨hc, h.contexts⟩

/-- A nested program is entered with values that have the property. -/
theorem enter {context : Value} (hc : P context) {values : List Value} (hv : ∀ v ∈ values, P v) :
    (s.enter context values).Holds P :=
  ⟨h.contextsWith hc, List.forall_mem_cons.2 ⟨hv, h.blockParams⟩, h.data⟩

theorem forPartial {context : Value} (hc : P context) : (s.forPartial context).Holds P := by
  refine ⟨h.contextsWith hc, List.forall_mem_cons.2 ⟨?_, ?_⟩, h.data⟩
  · exact fun _ h => absurd h List.not_mem_nil
  · exact fun _ h => absurd h List.not_mem_nil

/-- A frame is made of such values. -/
theorem withData {frame : Table Value} (hf : TableHolds P frame) : (s.withData frame).Holds P := by
  unfold Scope.withData
  split
  · exact h
  · exact ⟨h.contexts, h.blockParams, List.forall_mem_cons.2 ⟨hf, h.data⟩⟩

theorem withPartialBlock (body : Option PartialBody) : (s.withPartialBlock body).Holds P :=
  ⟨h.contexts, h.blockParams, List.forall_mem_cons.2 ⟨tableHolds_nil, h.data⟩⟩

omit h in
theorem dataValue? {frames : List (List (String × Value))}
    (h : ∀ frame ∈ frames, TableHolds P frame) {name : String} {v : Value}
    (hv : Render.dataValue? name frames = some v) : P v := by
  induction frames with
  | nil => cases hv
  | cons frame outer ih =>
    obtain ⟨hframe, houter⟩ := List.forall_mem_cons.1 h
    rw [Render.dataValue?] at hv
    split at hv
    next found hfound =>
      cases hv
      exact hframe.get? hfound
    next => exact ih houter hv

/-- A data variable is in one of the frames. -/
theorem data? {depth : Nat} {name : String} {v : Value} (hv : s.data? depth name = some v) : P v :=
  dataValue? (fun frame hframe => h.data frame (List.mem_of_mem_drop hframe)) hv

end Scope.Holds

/-- In the scope of a main program every value has the property if the values have it that it is
given. -/
theorem Scope.holds_root {P : Value → Prop} {context : Value} (hc : P context) {data : Table Value}
    (hd : TableHolds P data) {values : List Value} (hv : ∀ v ∈ values, P v) :
    (Scope.root context data values).Holds P := by
  refine ⟨fun v hmem => ?_, fun frame hframe => ?_, fun frame hframe => ?_⟩
  · obtain rfl := List.mem_singleton.1 hmem
    exact hc
  · obtain rfl := List.mem_singleton.1 hframe
    exact hv
  · obtain rfl := List.mem_singleton.1 hframe
    split
    · exact hd
    · exact hd.insert hc

namespace Value.Hereditary

variable {P : Value → Prop} (hereditary : Value.Hereditary P)

include hereditary

/-! ## Members -/

theorem getElem? {values : List Value} (h : ∀ v ∈ values, P v) (i : Nat) :
    P ((values[i]?).getD .undefined) := by
  cases hv : values[i]? with
  | none => exact hereditary.undefined
  | some v => exact h v (List.mem_of_getElem? hv)

/-- Entries of an object are values in it. -/
theorem entries {v : Value} (h : P v) : TableHolds P (v.entries?.getD []) := by
  cases v with
  | object id entries => exact hereditary.object_iff.1 h
  | _ => exact tableHolds_nil

/-- A member of a value with the property has it, too. -/
theorem property {v : Value} (h : P v) (name : String) : P (v.property name) := by
  unfold Value.property Value.property?
  cases v with
  | object id entries =>
    dsimp only
    cases hv : Table.get? name entries with
    | none => exact hereditary.undefined
    | some v => exact TableHolds.get? (hereditary.object_iff.1 h) hv
  | array id items =>
    dsimp only
    split
    · exact hereditary.int _
    · cases hi : Value.index? name with
      | none => exact hereditary.undefined
      | some i => exact hereditary.getElem? (hereditary.array_iff.1 h) i
  | string text =>
    dsimp only
    split
    · exact hereditary.int _
    · exact hereditary.undefined
  | safe text =>
    dsimp only
    split
    · exact hereditary.int _
    · exact hereditary.undefined
  | _ => exact hereditary.undefined

theorem context {s : Scope} (h : s.Holds P) : P s.context := by
  unfold Scope.context
  cases hc : s.contexts with
  | nil => exact hereditary.undefined
  | cons c rest => exact h.contexts c (hc ▸ List.mem_cons_self)

/-- A block parameter that is not there is undefined, which has the property. -/
theorem blockParam {s : Scope} (h : s.Holds P) (depth index : Nat) :
    P (s.blockParam depth index) := by
  unfold Scope.blockParam
  cases hf : s.blockParams[depth]? with
  | none => exact hereditary.undefined
  | some frame => exact hereditary.getElem? (h.blockParams frame (List.mem_of_getElem? hf)) index

/-! ## Lookups -/

/-- A property of a value is a value in it, or undefined. -/
theorem memberOf {options : Options} {path : Lookup} {terminal : Bool} {parent v : Value}
    {name : String} (hparent : P parent)
    (h : Render.memberOf options path terminal parent name = .ok v) : P v := by
  unfold Render.memberOf missingProperty at h
  split at h
  · split at h
    · cases h
    · cases h
      exact hereditary.undefined
  · split at h
    · cases h
    · cases h
      exact hereditary.property hparent name

/-- What does not start from the registered helpers has the property that every value in scope
has. -/
theorem resolve {env : Environment} {options : Options} {scope : Scope} (hs : scope.Holds P)
    {path : Lookup} {accessor : Accessor} {terminal : Bool} (hroot : accessor.root ≠ .helpers)
    {v : Value} (h : Render.resolve env options scope path terminal accessor = .ok v) : P v := by
  induction accessor generalizing terminal v with
  | helpers => exact absurd rfl hroot
  | data | partials =>
    cases h
    exact hereditary.undefined
  | context depth =>
    cases h
    exact hereditary.getElem? hs.contexts depth
  | blockParam depth index =>
    cases h
    exact hereditary.blockParam hs depth index
  | anyContext name =>
    cases h
    -- The value is that of some context, if any has one.
    cases hfound : (scope.contexts.map fun c => c.property name).find? fun v => !v.isNullish with
    | none => exact hereditary.undefined
    | some found =>
      obtain ⟨context, hcontext, rfl⟩ := List.mem_map.1 (List.mem_of_find?_eq_some hfound)
      exact hereditary.property (hs.contexts context hcontext) name
  | member base name kind ih =>
    cases base with
    | helpers => exact absurd rfl hroot
    | partials =>
      cases h
      exact hereditary.undefined
    | data depth =>
      rw [Render.resolve] at h
      split at h
      next found hfound =>
        cases h
        exact hs.data? hfound
      next =>
        split at h
        · cases h
        · cases h
          exact hereditary.undefined
    | context depth => exact hereditary.memberOf (hereditary.getElem? hs.contexts depth) h
    | blockParam depth index => exact hereditary.memberOf (hereditary.blockParam hs depth index) h
    | anyContext first =>
      have hparent : Render.resolve env options scope path false (.anyContext first) = .ok _ := rfl
      exact hereditary.memberOf (ih hroot hparent) h
    | member base' first kind' =>
      simp only [Render.resolve] at h
      split at h
      next parent hparent => exact hereditary.memberOf (ih hroot hparent) h
      next => cases h

/-- Literals make values of the simplest kinds. -/
theorem literalValue : ∀ l : Code.Literal, P (Render.literalValue l)
  | .string text => hereditary.string text
  | .number x => hereditary.float x
  | .boolean b => hereditary.bool b
  | .undefined => hereditary.undefined
  | .null => hereditary.null

/-! ## Callees -/

/-- A name stands for a registered helper or for a value with the property, unless it is in
error. -/
theorem callee {env : Environment} {options : Options} {scope : Scope} (hs : scope.Holds P)
    {helper : Option Accessor} {value : Option Lookup}
    (hhelper : ∀ a ∈ helper, ∃ name, a = .member .helpers name .helper)
    (hvalue : ∀ path ∈ value, path.accessor.root ≠ .helpers) {found : Callee}
    (h : Render.callee env options scope helper value = .ok found) :
    (∃ name f, helper = some (.member .helpers name .helper) ∧ env.helpers.get? name = some f ∧
        found = .helper f) ∨
      ∃ v, P v ∧ found = .value v := by
  -- Where no helper is found, the name stands for what the path finds.
  have ofValue : Render.callee env options scope none value = .ok found →
      ∃ v, P v ∧ found = .value v := by
    intro h
    cases value with
    | none =>
      cases h
      exact ⟨_, hereditary.undefined, rfl⟩
    | some path =>
      cases hpath : lookup env options scope path with
      | error e =>
        simp only [Render.callee, hpath] at h
        cases h
      | ok v =>
        have hv : P v := hereditary.resolve hs (hvalue path rfl) hpath
        simp only [Render.callee, hpath] at h
        cases v with
        | function f => exact absurd hv (hereditary.not_function f)
        | _ =>
          cases h
          exact ⟨_, hv, rfl⟩
  cases helper with
  | none => exact .inr (ofValue h)
  | some a =>
    obtain ⟨name, rfl⟩ := hhelper a rfl
    cases hget : env.helpers.get? name with
    | none =>
      simp only [Render.callee, lookupBare, lookup, Render.resolve, hget] at h
      exact .inr (ofValue h)
    | some f =>
      simp only [Render.callee, lookupBare, lookup, Render.resolve, hget] at h
      cases h
      exact .inl ⟨name, f, rfl, hget, rfl⟩

end Value.Hereditary

end Stencil.Render
