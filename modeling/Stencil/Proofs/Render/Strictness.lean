import Stencil.Proofs.Render.Precedence
import Stencil.Proofs.Render.Tracking
import Stencil.Proofs.Render.Walking

/-!
# Missing names in strict code

In strict code a tag or block whose head is a path may not name what is not there. Where the path
starts is its `Origin`: a frame of data variables, a context, or, in compatible code, whichever
context knows the first part. From there every part names an own property of the value before it
(`Origin.follow?`); the last of them is missing if there is none.

Following the accessor of such a path comes to the same value, or to an error where there is none
(`lookup_followed`), with one exception: a single part that is looked for in all contexts. Nothing
checks whether any of them knows it, so a tag of such a name shows nothing and a block over it takes
its inverse, in strict code as in any other (`missingNames_reported`, `missingName_unreported`).
-/

set_option autoImplicit false

namespace Stencil.Tree

/-- The head of a mustache or block. -/
def Statement.head? {ℓ : Type} : Statement ℓ → Option (Expr ℓ)
  | .mustache m => some m.expr
  | .block b => some b.expr
  | .content _ | .comment _ | .partialCall _ | .partialBlock _ => none

end Stencil.Tree

namespace Stencil.Code

open Stencil.Text (Location)
open Stencil.Tree (Path Expr)
open Compiling (Gives gives_pure gives_bind gives_guard gives_map)

/-- Where a path starts that starts from no block parameter. -/
inductive Origin where
  /-- The frame of data variables so many frames up. -/
  | data (depth : Nat)
  /-- Whichever context knows the first part. -/
  | contexts
  /-- The context so many levels up. -/
  | context (depth : Nat)
deriving DecidableEq

namespace Origin

/-- Where a path starts: in compatible code, a path that neither climbs nor says where it starts may
start from any context. -/
def of (options : Options) (p : Path (Option Location)) : Origin :=
  if p.data then .data p.depth
  else if options.compat && (!p.isScoped && p.depth == 0) then .contexts
  else .context p.depth

/-- The accessor of the first part of a path, and the kind of its further steps. -/
def first (name : String) : Origin → Accessor × LookupKind
  | .data depth => (.member (.data depth) name .data, .data)
  | .contexts => (.anyContext name, .context)
  | .context depth => (.member (.context depth) name .context, .context)

/-- The accessor of the parts of a path. -/
def accessor (o : Origin) (name : String) (rest : List String) : Accessor :=
  rest.foldl (fun a part => .member a part (o.first name).2) (o.first name).1

end Origin

namespace Compiler

variable {options : Options} {frames : Frames} {p : Path (Option Location)} {terminal : Bool}

/-- What a path is compiled to that starts from no block parameter. -/
theorem gives_lookup_unbound (unbound : frames.boundTo? p = none) {name : String}
    {rest : List String} (parts : p.parts = name :: rest) {l : Lookup}
    (h : Gives (({ options } : Compiler).lookup frames p terminal) l) :
    l = { accessor := (Origin.of options p).accessor name rest, requireTerminal := terminal
          spelling := p.spelling, loc := p.mark } := by
  unfold Compiler.lookup at h
  obtain ⟨⟨base, steps, kind⟩, hstart, h⟩ := gives_bind (gives_guard h)
  obtain rfl := gives_pure.1 h
  have hrequire : (terminal && !p.parts.isEmpty) = terminal := by
    rw [parts, List.isEmpty_cons, Bool.not_false, Bool.and_true]
  simp only [hrequire, Lookup.mk.injEq, and_true]
  unfold Compiler.start at hstart
  replace hstart := gives_guard hstart
  rw [← Frames.boundTo?_eq, unbound] at hstart
  dsimp only at hstart
  -- The compiler asks what the origin of the path asks, in the same order.
  rw [Origin.of]
  split at hstart
  next hdata =>
    obtain ⟨_, -, hstart⟩ := gives_bind hstart
    cases gives_pure.1 hstart
    rw [if_pos hdata, parts]
    rfl
  next hdata =>
    rw [if_neg hdata]
    rw [parts] at hstart
    dsimp only at hstart
    split at hstart
    next hsearches =>
      obtain ⟨_, -, hstart⟩ := gives_bind hstart
      cases gives_pure.1 hstart
      rw [if_pos hsearches]
      rfl
    next hsearches =>
      cases gives_pure.1 hstart
      rw [if_neg hsearches]
      rfl

/-! ## Heads that are paths -/

/-- The head of a tag or block is a path, or a literal read as one, of at least one part and without
arguments or parentheses, and names neither a block parameter nor a known helper. -/
structure NamesValue (options : Options) (frames : Frames) (f : Form) : Prop where
  parts : f.path.parts ≠ []
  noArguments : f.hasArguments = false
  bare : f.parenthesised = false
  unbound : frames.boundTo? f.path = none
  unknown : f.path.isSimple = true → options.knownHelpers.contains f.head = false

/-- Such a head is no certain call. -/
theorem NamesValue.kind_ne_call {f : Form} (h : NamesValue options frames f) :
    f.kind options frames ≠ .call := by
  intro hcall
  unfold Form.kind at hcall
  dsimp only at hcall
  rw [h.noArguments, h.bare] at hcall
  split at hcall
  · cases hcall
  split at hcall
  next himpossible => cases himpossible
  split at hcall
  · cases hcall
  next hsimple =>
    rw [h.unknown (by simpa using hsimple)] at hcall
    split at hcall
    next himpossible => cases himpossible
    split at hcall <;> cases hcall

/-- What a tag of such a head shows is the value of the path, before which a helper of the name
comes. -/
theorem NamesValue.gives_shown {e : Expr (Option Location)}
    (hhead : NamesValue options frames (Form.ofExpr e)) {o : Operand}
    (h : Gives (({ options } : Compiler).shown frames e) o) :
    ∃ l, Gives (({ options } : Compiler).lookup frames (Form.ofExpr e).path options.strict) l ∧
      (o = .lambda l ∨ (Form.ofExpr e).path.isSimple = true ∧ ∃ c, o = .ambiguous c ∧
        c.helper = some (.member .helpers (Form.ofExpr e).head .helper) ∧ c.value = some l) := by
  rcases Compiler.gives_shown h with ⟨hkind, -⟩ | ⟨hkind, c, rfl, hc⟩ | ⟨-, l, rfl, hl⟩
  · exact absurd hkind hhead.kind_ne_call
  · obtain ⟨l, hl, rfl⟩ := gives_ambiguousCall hc
    exact ⟨l, hl, .inr ⟨(Form.of_kind_ambiguous hkind).1, _, rfl, rfl, rfl⟩⟩
  · exact ⟨l, hl, .inl rfl⟩

/-- So is what a block of such a head is over. -/
theorem NamesValue.gives_blockKind {e : Expr (Option Location)}
    (hhead : NamesValue options frames (Form.ofExpr e)) {kind : BlockKind}
    (h : Gives (({ options } : Compiler).blockKind frames e) kind) :
    ∃ l, Gives (({ options } : Compiler).lookup frames (Form.ofExpr e).path options.strict) l ∧
      (kind = .section (.lambda l) ∨ (Form.ofExpr e).path.isSimple = true ∧
        ∃ c, kind = .ambiguous c ∧
        c.helper = some (.member .helpers (Form.ofExpr e).head .helper) ∧ c.value = some l) := by
  rcases Compiler.gives_blockKind h with ⟨hkind, -⟩ | ⟨hkind, c, rfl, hc⟩ | ⟨-, l, rfl, hl⟩
  · exact absurd hkind hhead.kind_ne_call
  · obtain ⟨l, hl, rfl⟩ := gives_ambiguousCall hc
    exact ⟨l, hl, .inr ⟨(Form.of_kind_ambiguous hkind).1, _, rfl, rfl, rfl⟩⟩
  · exact ⟨l, hl, .inl rfl⟩

end Compiler

end Stencil.Code

namespace Stencil.Render

open Stencil.Text (Location)
open Stencil.Tree (Path Nesting Statement Expr)
open Stencil.Code (Spec Options Lookup Accessor LookupKind Frames Compiler Chunk Form Origin
  Instruction Operand BlockKind Call)
open Stencil.Code.Compiling (Gives)

/-! ## What a path names -/

/-- The nearest property of a name among those that contexts own: one that is neither null nor
undefined, if there is one. -/
def Scope.nearest? (scope : Scope) (name : String) : Option Value :=
  let owned := scope.contexts.filterMap fun c => c.property? name
  (owned.find? fun v => !v.isNullish).or owned.head?

/-- What looking for a name in all contexts gives. -/
def Scope.anywhere (scope : Scope) (name : String) : Value :=
  ((scope.contexts.map fun c => c.property name).find? fun v => !v.isNullish).getD .undefined

/-- What the first part of a path names. -/
def Scope.named? (scope : Scope) (name : String) : Origin → Option Value
  | .data depth => scope.data? depth name
  | .contexts => scope.nearest? name
  | .context depth => ((scope.contexts[depth]?).getD .undefined).property? name

/-- Parts taken as own properties, each of the value before it. -/
def followed? : Option Value → List String → Option Value
  | v, [] => v
  | v, name :: rest => followed? (v.bind fun parent => parent.property? name) rest

/-- What a path names that starts from no block parameter, if its last part names an own
property. -/
def Scope.follow? (scope : Scope) (o : Origin) : List String → Option Value
  | [] => none
  | name :: rest => followed? (scope.named? name o) rest

section Lookups

variable {env : Environment} {options : Options} {frames : Frames} {scope : Scope}
  {p : Path (Option Location)}

theorem followed?_none (steps : List String) : followed? none steps = none := by
  induction steps with
  | nil => rfl
  | cons name rest ih => exact ih

/-- Only the own properties of the value count from which steps are taken. -/
theorem followed?_cons_congr {v w : Option Value} {name : String}
    (h : (v.bind fun parent => parent.property? name) = w.bind fun parent => parent.property? name)
    (rest : List String) : followed? v (name :: rest) = followed? w (name :: rest) := by
  rw [followed?, followed?, h]

/-- In strict code steps lead to what they name, or break off at one of them. -/
theorem advance_followed (strict : options.strict = true) (v : Value) (steps : List String) :
    (followed? (some v) steps = none ∧ ∃ name ∈ steps,
      advance options p true v steps = .error (.missingProperty name p.spelling p.mark)) ∨
    ∃ w, followed? (some v) steps = some w ∧ advance options p true v steps = .ok w := by
  induction steps generalizing v with
  | nil => exact .inr ⟨v, rfl, rfl⟩
  | cons name rest ih =>
    rw [advance, strict, Bool.true_or, Bool.and_true, Bool.true_and]
    show (followed? (v.property? name) rest = none ∧ _) ∨
      ∃ w, followed? (v.property? name) rest = some w ∧ _
    cases hproperty : v.property? name with
    | some w =>
      have hown : v.isNullish = false ∧ v.hasProperty name = true := by
        refine ⟨?_, by rw [Value.hasProperty, hproperty]; rfl⟩
        cases v <;> first | rfl | cases hproperty
      rw [hown.1, hown.2, Value.property, hproperty, Bool.not_true, Bool.and_false, Bool.or_false]
      rcases ih w with ⟨hnone, part, hpart, herror⟩ | hfound
      · exact .inl ⟨hnone, part, List.mem_cons_of_mem name hpart, herror⟩
      · exact .inr hfound
    | none =>
      refine .inl ⟨followed?_none rest, ?_⟩
      have hmissing : v.hasProperty name = false := by rw [Value.hasProperty, hproperty]; rfl
      rw [hmissing, Bool.not_false, Bool.and_true]
      split
      · exact ⟨name, List.mem_cons_self, rfl⟩
      next hgoes =>
        -- The step gives undefined, from which the next one cannot be taken.
        rw [Bool.or_eq_true, not_or] at hgoes
        cases rest with
        | nil => exact absurd rfl hgoes.2
        | cons next rest =>
          refine ⟨next, List.mem_cons_of_mem name List.mem_cons_self, ?_⟩
          rw [Value.property, hproperty, advance, strict]
          rfl

/-- A lookup is followed by what it says of its last part, its spelling and its mark, not by its
accessor. -/
theorem resolve_withAccessor (l : Lookup) (other : Accessor) (terminal : Bool) (a : Accessor) :
    resolve env options scope { l with accessor := other } terminal a =
      resolve env options scope l terminal a := by
  induction a generalizing terminal with
  | member base name kind ih =>
    cases base with
    | member base' name' kind' => simp only [resolve, memberOf, missingProperty, ih]
    | _ => rfl
  | _ => rfl

/-- Contexts that do not own a name give undefined for it, which is passed over as if they were not
there. -/
theorem Scope.anywhere_eq (scope : Scope) (name : String) :
    scope.anywhere name =
      ((scope.contexts.filterMap fun c => c.property? name).find? fun v => !v.isNullish).getD
        .undefined := by
  rw [Scope.anywhere]
  refine congrArg (Option.getD · Value.undefined) ?_
  induction scope.contexts with
  | nil => rfl
  | cons c rest ih =>
    rw [List.map_cons, List.find?_cons, List.filterMap_cons, Value.property, ih]
    cases c.property? name <;> rfl

/-- A name that no context owns stands for undefined. -/
theorem Scope.anywhere_of_nearest?_eq_none {name : String} (h : scope.nearest? name = none) :
    scope.anywhere name = .undefined := by
  obtain ⟨hfound, -⟩ := Option.or_eq_none_iff.1 h
  rw [Scope.anywhere_eq, hfound]
  rfl

/-- Steps from the nearest property of a name are steps from what the contexts give for it. -/
theorem Scope.property?_nearest? (scope : Scope) (name part : String) :
    ((scope.nearest? name).bind fun parent => parent.property? part) =
      (some (scope.anywhere name)).bind fun parent => parent.property? part := by
  rw [Scope.anywhere_eq, Scope.nearest?]
  generalize (scope.contexts.filterMap fun c => c.property? name) = owned
  cases hfound : owned.find? fun v => !v.isNullish with
  | some v => rfl
  | none =>
    rw [Option.none_or]
    cases owned with
    | nil => rfl
    | cons v rest =>
      -- What the contexts own is null or undefined, and has no properties either.
      have hnullish := List.find?_eq_none.1 hfound v List.mem_cons_self
      cases v <;> first | rfl | exact absurd rfl hnullish

/-- What a lookup in strict code comes to: what the path names, or an error for a part of it. -/
def Followed (p : Path (Option Location)) (named : Option Value) (r : Except RuntimeError Value) :
    Prop :=
  (named = none ∧ ∃ name ∈ p.parts, r = .error (.missingProperty name p.spelling p.mark)) ∨
    ∃ v, named = some v ∧ r = .ok v

/-- Steps from the value of an accessor, where the last of them is the last part of the path. -/
theorem followed_steps (strict : options.strict = true) (base : Accessor) (hbase : HasOwnValue base)
    {v : Value}
    (hv : resolve env options scope (Compiler.lookupOf frames p true) false base = .ok v)
    {name : String} {rest : List String} (kind : LookupKind)
    (hsteps : ∀ part ∈ name :: rest, part ∈ p.parts) :
    Followed p (followed? (some v) (name :: rest))
      (resolve env options scope (Compiler.lookupOf frames p true) true
        ((name :: rest).foldl (fun a part => .member a part kind) base)) := by
  have hparts : p.parts.isEmpty = false := by
    cases hempty : p.parts with
    | nil => exact absurd (hempty ▸ hsteps name List.mem_cons_self) List.not_mem_nil
    | cons _ _ => rfl
  rw [resolve_foldl (fun _ => strict) base hbase kind hv (name :: rest) nofun, hparts]
  show Followed p _ (advance options p true v (name :: rest))
  rcases advance_followed (p := p) strict v (name :: rest) with
    ⟨hnone, part, hpart, herror⟩ | hfound
  · exact .inl ⟨hnone, part, hsteps part hpart, herror⟩
  · exact .inr hfound

/-- In strict code the lookup of a tag's path comes to what the path names or to an error, unless
the path is a single part that is looked for in all contexts. -/
theorem lookup_followed (env : Environment) (scope : Scope) (strict : options.strict = true)
    (unbound : frames.boundTo? p = none) {name : String} {rest : List String}
    (parts : p.parts = name :: rest) (located : Origin.of options p = .contexts → rest ≠ [])
    {l : Lookup} (h : Gives (({ options } : Compiler).lookup frames p true) l) :
    Followed p (scope.follow? (Origin.of options p) p.parts) (lookup env options scope l) := by
  obtain rfl := Compiler.gives_lookup_unbound unbound parts h
  have hlookup : lookup env options scope
      { accessor := (Origin.of options p).accessor name rest, requireTerminal := true
        spelling := p.spelling, loc := p.mark } =
      resolve env options scope (Compiler.lookupOf frames p true) true
        ((Origin.of options p).accessor name rest) := by
    rw [← resolve_withAccessor _ ((Origin.of options p).accessor name rest)]
    rw [Compiler.lookupOf, parts]
    rfl
  rw [hlookup, parts, Scope.follow?]
  have hrest : ∀ part ∈ rest, part ∈ p.parts := by
    intro part hpart
    rw [parts]
    exact List.mem_cons_of_mem name hpart
  cases horigin : Origin.of options p with
  | context depth =>
    -- The first part is a step like the others.
    exact followed_steps strict (.context depth) trivial rfl .context fun part hpart =>
      parts ▸ hpart
  | data depth =>
    show Followed p (followed? (scope.data? depth name) rest) _
    cases rest with
    | nil =>
      show Followed p (scope.data? depth name)
        (resolve env options scope _ true (.member (.data depth) name .data))
      have hrequired : (Compiler.lookupOf frames p true).requireTerminal = true := by
        rw [Compiler.lookupOf, parts]
        rfl
      rw [resolve, hrequired]
      cases hdata : scope.data? depth name with
      | some v => exact .inr ⟨v, rfl, rfl⟩
      | none => exact .inl ⟨rfl, name, by rw [parts]; exact List.mem_cons_self, rfl⟩
    | cons next rest =>
      have hv : resolve env options scope (Compiler.lookupOf frames p true) false
          (.member (.data depth) name .data) = .ok ((scope.data? depth name).getD .undefined) := by
        rw [resolve]
        cases scope.data? depth name <;> rfl
      have hfollowed : followed? (scope.data? depth name) (next :: rest) =
          followed? (some ((scope.data? depth name).getD .undefined)) (next :: rest) := by
        refine followed?_cons_congr ?_ rest
        cases scope.data? depth name <;> rfl
      rw [hfollowed]
      exact followed_steps strict (.member (.data depth) name .data) trivial hv .data hrest
  | contexts =>
    cases rest with
    | nil => exact absurd rfl (located horigin)
    | cons next rest =>
      have hfollowed : followed? (scope.nearest? name) (next :: rest) =
          followed? (some (scope.anywhere name)) (next :: rest) := by
        exact followed?_cons_congr (scope.property?_nearest? name next) rest
      show Followed p (followed? (scope.nearest? name) (next :: rest)) _
      rw [hfollowed]
      exact followed_steps strict (.anyContext name) trivial rfl .context hrest

end Lookups

/-! ## Tags -/

namespace Place

variable {at_ : Place} {l : Lookup} {name : String}

/-- A name under which no helper is registered stands for what its lookup comes to. -/
theorem callee_of_lookup_error (unregistered : at_.frame.env.helpers.get? name = none)
    {e : RuntimeError} (h : Render.lookup at_.frame.env at_.spec.options at_.scope l = .error e) :
    at_.callee (some (.member .helpers name .helper)) (some l) = Run.failRuntime e := by
  rw [callee_unregistered unregistered, Place.callee, Render.callee]
  simp only [h]
  rfl

theorem callee_of_lookup_undefined (unregistered : at_.frame.env.helpers.get? name = none)
    (h : Render.lookup at_.frame.env at_.spec.options at_.scope l = .ok .undefined) :
    at_.callee (some (.member .helpers name .helper)) (some l) = pure (.value .undefined) := by
  rw [callee_unregistered unregistered, Place.callee, Render.callee]
  simp only [h]
  rfl

/-- The piece of an instruction that fails because a path names nothing. -/
def FailsFor (at_ : Place) (p : Path (Option Location)) (i : Instruction) : Prop :=
  ∃ part ∈ p.parts, Run.recover at_.spec.options.strict (at_.piece i) =
    Run.failRuntime (.missingProperty part p.spelling p.mark)

/-- What an instruction gives over nothing: an empty text, or the inverse of a block. -/
def overNothing (at_ : Place) : Instruction → Run Append
  | .block b => do
    let text ← at_.invoke b.inverse at_.scope.context {}
    pure ⟨text, true⟩
  | .content _ | .append _ _ | .partialCall _ => pure ⟨"", true⟩

variable {options : Options} {frames : Frames} {next : Nat} {s : Statement (Option Location)}
  {i : Instruction}
  {e : Expr (Option Location)}

/-- A name that is a helper or a value, by what its head stands for. -/
theorem ambiguous_eq (site : List Nat) (c : Call) :
    at_.ambiguous site c = at_.callee c.helper c.value >>= fun
      | .helper f | .lambda f => do
        let hash ← at_.hashValues site 0 c.hash
        at_.apply {} f (at_.helperCall site c.name [] hash c.ids c.loc {})
      | .value v => pure v := by
  obtain ⟨name, helper, value, params, hash, ids, loc⟩ := c
  unfold Place.ambiguous
  refine bind_congr fun x => ?_
  cases x <;> rfl

theorem output_undefined (escaped : Bool) : output escaped (pure .undefined) = pure ⟨"", true⟩ := by
  cases escaped <;> rfl

/-- A tag or block over a path comes to what the lookup of the path comes to: an error, or a piece
over nothing. -/
theorem piece_of_emits (hemits : ({ options } : Compiler).Emits frames next s i)
    (head : s.head? = some e) (hhead : Compiler.NamesValue options frames (Form.ofExpr e))
    (unregistered : (Form.ofExpr e).path.isSimple = true →
      at_.frame.env.helpers.get? (Form.ofExpr e).head = none) :
    ∃ l, Gives (({ options } : Compiler).lookup frames (Form.ofExpr e).path options.strict) l ∧
      (∀ err, Render.lookup at_.frame.env at_.spec.options at_.scope l = .error err →
        at_.piece i = Run.failRuntime err) ∧
      (Render.lookup at_.frame.env at_.spec.options at_.scope l = .ok .undefined →
        at_.piece i = at_.overNothing i) := by
  cases hemits with
  | mustache hshown =>
    obtain rfl := Option.some.inj head
    -- A simple name may be that of a helper as well. None is registered, so its value decides.
    obtain ⟨l, hl, rfl | ⟨hsimple, c, rfl, hhelper, hvalue⟩⟩ := hhead.gives_shown hshown
    · refine ⟨l, hl, fun err herror => ?_, fun hundefined => ?_⟩
      · rw [piece, Place.operand, Place.lookup, herror]
        rfl
      · rw [piece, Place.operand, Place.lookup, hundefined]
        exact output_undefined _
    · refine ⟨l, hl, fun err herror => ?_, fun hundefined => ?_⟩
      · rw [piece, Place.operand, ambiguous_eq, hhelper, hvalue,
          callee_of_lookup_error (unregistered hsimple) herror]
        rfl
      · rw [piece, Place.operand, ambiguous_eq, hhelper, hvalue,
          callee_of_lookup_undefined (unregistered hsimple) hundefined]
        exact output_undefined _
  | block hopens =>
    obtain rfl := Option.some.inj head
    obtain ⟨l, hl, rfl | ⟨hsimple, c, rfl, hhelper, hvalue⟩⟩ := hhead.gives_blockKind hopens
    · refine ⟨l, hl, fun err herror => ?_, fun hundefined => ?_⟩
      · simp only [piece, Place.block, Place.operand, Place.lookup, herror]
        rfl
      · simp only [piece, Place.block, Place.operand, Place.lookup, hundefined]
        rfl
    · refine ⟨l, hl, fun err herror => ?_, fun hundefined => ?_⟩
      · simp only [piece, Place.block, hhelper, hvalue,
          callee_of_lookup_error (unregistered hsimple) herror]
        rfl
      · simp only [piece, Place.block, hhelper, hvalue,
          callee_of_lookup_undefined (unregistered hsimple) hundefined]
        rfl
  | partialCall => cases head
  | partialBlock => cases head

end Place

/-- In strict code every tag or block whose head is a path fails if the last part of the path names
no own property, unless a helper of the name is registered: the error is that a part of the path is
missing, and no text stands in for it. Only a single part that is looked for in all contexts is let
pass; it stands for nothing. -/
theorem missingNames_reported {options : Options} (strict : options.strict = true)
    {tree : Tree.Located} {spec : Spec}
    (compiled : ({ options } : Compiler).compile tree = .ok spec) {id : Nat}
    {n : Nesting (Option Location)} (hn : (tree.nestings [] 0)[id]? = some n) :
    ∃ c, spec.program? id = some c ∧
      List.Forall₂
        (fun t i => ∀ e, t.2.head? = some e →
          Compiler.NamesValue options (Nesting.frames n) (Form.ofExpr e) →
          ∀ at_ : Place, at_.spec = spec →
            ((Form.ofExpr e).path.isSimple = true →
              at_.frame.env.helpers.get? (Form.ofExpr e).head = none) →
            at_.scope.follow? (Origin.of options (Form.ofExpr e).path)
              (Form.ofExpr e).path.parts = none →
            if Origin.of options (Form.ofExpr e).path = .contexts ∧
              (Form.ofExpr e).path.parts.length = 1 then
              at_.piece i = at_.overNothing i
            else at_.FailsFor (Form.ofExpr e).path i)
        (Nesting.tags n) (Instruction.tags c.instructions) := by
  obtain ⟨c, hc, hcompiles⟩ := Compiler.exists_chunk Code.Backend.keepsTags_standard compiled hn
  have hoptions : spec.options = options := (Compiler.main_of_compile compiled).2
  refine ⟨c, hc, (hcompiles.emits Code.Backend.keepsTags_standard).imp fun t i hemits => ?_⟩
  rintro e head hhead at_ rfl unregistered missing
  obtain ⟨l, hl, hfails, hnothing⟩ := Place.piece_of_emits hemits head hhead unregistered
  rw [strict] at hl
  rw [hoptions] at hfails hnothing
  obtain ⟨name, rest, parts⟩ := List.exists_cons_of_ne_nil hhead.parts
  -- The one part that is looked for in all contexts, and every other path.
  split
  next hsearched =>
    obtain ⟨horigin, hlength⟩ := hsearched
    obtain rfl : rest = [] := by
      rw [parts] at hlength
      exact List.length_eq_zero_iff.1 (Nat.succ.inj hlength)
    rw [horigin, parts] at missing
    refine hnothing ?_
    obtain rfl := Compiler.gives_lookup_unbound hhead.unbound parts hl
    rw [horigin]
    exact congrArg Except.ok (Scope.anywhere_of_nearest?_eq_none missing)
  next hlocated =>
    have hrest : Origin.of options (Form.ofExpr e).path = .contexts → rest ≠ [] := by
      rintro horigin rfl
      exact hlocated ⟨horigin, by rw [parts]; rfl⟩
    -- A strict lookup comes to what the path names or to an error, and there is nothing that it
    -- names.
    rcases lookup_followed at_.frame.env at_.scope strict hhead.unbound parts hrest hl with
      ⟨-, part, hpart, herror⟩ | ⟨v, hfound, -⟩
    · refine ⟨part, hpart, ?_⟩
      rw [hfails _ herror, hoptions, strict]
      rfl
    · rw [missing] at hfound
      cases hfound

/-! ## A missing name -/

/-- Options that are strict and search all contexts. -/
def searching : Options := { strict := true, compat := true, trackLocations := false }

/-- The path `person.name`. -/
def personName : Path (Option Location) :=
  { parts := ["person", "name"], spelling := "person.name", mark := none }

/-- A template that shows the name of a person. -/
def nameTree : Tree.Located :=
  { body := [.mustache { expr := .path personName, escaped := true, mark := none }]
    blockParams := [], chained := false, mark := none }

/-- The template as it is compiled. -/
def nameSpec : Spec where
  stamp := { features := ⟨16⟩ }
  main := 0
  programs :=
    [{ instructions :=
        [.append
          (.lambda
            { accessor := .member (.anyContext "person") "name" .context, requireTerminal := true
              spelling := "person.name" })
          true]
       blockParams := 0 }]
  options := searching

/-- The place of the template where the person has no name. -/
def namelessPlace : Place :=
  (Renderer.cached .builtins searching).placeAt 63
    ⟨nameSpec, 0, Scope.root (.object (.given 0) [("person", .object (.given 1) [])]) [] []⟩

/-- The name of a person that has none is an error of strict code, though all contexts are searched
for the person. -/
theorem missingNames_reported_nameless :
    ({ options := searching } : Compiler).compile nameTree = .ok nameSpec ∧
      ∃ i, (nameSpec.programs.flatMap Chunk.instructions) = [i] ∧
        namelessPlace.FailsFor personName i := by
  have compiled : ({ options := searching } : Compiler).compile nameTree = .ok nameSpec := rfl
  obtain ⟨c, hc, htags⟩ := @missingNames_reported searching rfl nameTree nameSpec compiled 0 _ rfl
  obtain rfl := Option.some.inj hc
  cases htags with
  | cons htag _ =>
    have hhead : Compiler.NamesValue searching [[]] (Form.ofExpr (.path personName)) :=
      ⟨by decide, rfl, rfl, by decide +kernel, by decide +kernel⟩
    have hfails := htag (.path personName) rfl hhead namelessPlace rfl nofun rfl
    exact ⟨compiled, _, rfl, hfails⟩

/-- A template that shows a single name. -/
def missingText : String := "\x7b\x7bmissing\x7d\x7d"

/-- Where all contexts are searched, a name that none of them knows shows nothing, though the code
is strict; where only the current one counts, it is an error. -/
theorem missingName_unreported :
    (renderSource searching .builtins none missingText (.object (.given 0) []) []).result = .ok "" ∧
      (renderSource { searching with compat := false } .builtins none missingText
        (.object (.given 0) [])
        []).result = .error (.ofRuntime (.missingProperty "missing" "missing" none)) := by
  constructor
  · decide +kernel
  · decide +kernel

end Stencil.Render
