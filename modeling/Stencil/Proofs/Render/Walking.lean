import Stencil.Proofs.Code.Operands
import Stencil.Proofs.Render.Lookups
import Mathlib.Data.List.Induction

/-!
# Walking along a path

What the value of a path is, said without compiled code. A path is walked front to back: from the
block parameter that its first part names, from a data variable, or from a context, each further
part is an own property of the value reached so far (`walk`).

The compiler folds the parts of a path into an accessor, and the accessor is followed from the
outside in. Both come to the same (`lookup_walks`), to the value or to the error, which is said once
more without any order of steps: what a walk leads to (`destination`), and when it breaks off
(`Breaks`).
-/

set_option autoImplicit false

namespace Stencil.Code

open Stencil.Text (Location)
open Stencil.Tree (Path Nesting)
open Compiling (Gives gives_pure gives_bind gives_guard)

/-! ## What a path is compiled to -/

/-- The address of the block parameter that a path starts from, if it starts from one: only a path
that neither climbs nor names a data variable nor says where it starts may. -/
def Frames.boundTo? (frames : Frames) (p : Path (Option Location)) : Option (Nat × Nat) :=
  if p.isScoped || p.depth != 0 || p.data then none else p.head?.bind frames.find?

theorem Frames.boundTo?_eq (frames : Frames) (p : Path (Option Location)) :
    frames.boundTo? p =
      if (!p.isScoped && p.depth == 0) && !p.data then p.head?.bind frames.find? else none := by
  unfold Frames.boundTo?
  cases p.isScoped <;> cases p.data <;> by_cases h0 : p.depth = 0 <;> simp [h0]

namespace Compiler

variable {options : Options} {frames : Frames} {p : Path (Option Location)} {terminal : Bool}

/-- The accessor of a path, where contexts are not searched. -/
def accessorOf (frames : Frames) (p : Path (Option Location)) : Accessor :=
  match frames.boundTo? p with
  | some (depth, index) =>
    p.parts.tail.foldl (fun a name => .member a name .context) (.blockParam depth index)
  | none =>
    if p.data then p.parts.foldl (fun a name => .member a name .data) (.data p.depth)
    else p.parts.foldl (fun a name => .member a name .context) (.context p.depth)

/-- The lookup of a path, where contexts are not searched. -/
def lookupOf (frames : Frames) (p : Path (Option Location)) (terminal : Bool) : Lookup where
  accessor := accessorOf frames p
  requireTerminal := terminal && !p.parts.isEmpty
  spelling := p.spelling
  loc := p.mark

theorem gives_start (hcompat : options.compat = false) {r : Accessor × List String × LookupKind}
    (h : Gives (({ options } : Compiler).start frames p) r) :
    r.2.1.foldl (fun a name => .member a name r.2.2) r.1 = accessorOf frames p := by
  unfold Compiler.start at h
  replace h := gives_guard h
  rw [← Frames.boundTo?_eq] at h
  split at h
  next depth index hfound =>
    obtain ⟨_, -, h⟩ := gives_bind h
    obtain rfl := gives_pure.1 h
    simp only [accessorOf, hfound]
  next hnone =>
    split at h
    next hdata =>
      obtain ⟨_, -, h⟩ := gives_bind h
      obtain rfl := gives_pure.1 h
      simp only [accessorOf, hnone, hdata, if_true]
    next hdata =>
      have haccessor : accessorOf frames p =
          p.parts.foldl (fun a name => .member a name .context) (.context p.depth) := by
        simp only [accessorOf, hnone, hdata]
        rfl
      rw [haccessor]
      split at h
      next name rest hparts =>
        -- Contexts are searched in compatible code only.
        simp only [hcompat, Bool.false_and] at h
        obtain rfl := gives_pure.1 h
        rfl
      next hparts =>
        obtain rfl := gives_pure.1 h
        rw [hparts]

/-- What a path is compiled to, where contexts are not searched. -/
theorem gives_lookup (hcompat : options.compat = false) {l : Lookup}
    (h : Gives (({ options } : Compiler).lookup frames p terminal) l) :
    l = lookupOf frames p terminal := by
  unfold Compiler.lookup at h
  obtain ⟨⟨base, steps, kind⟩, hstart, h⟩ := gives_bind (gives_guard h)
  obtain rfl := gives_pure.1 h
  simp only [lookupOf, Lookup.mk.injEq, and_true]
  exact gives_start hcompat hstart

theorem start_total (compiler : Compiler) (frames : Frames) (p : Path (Option Location))
    (before : Features) : ∃ r after, (compiler.start frames p).run before = .ok (r, after) := by
  unfold Compiler.start
  dsimp only
  by_cases hdepth : p.depth > 0
  all_goals
    simp only [hdepth, if_true, if_false]
    split
    · exact ⟨_, _, rfl⟩
    · split
      · exact ⟨_, _, rfl⟩
      · split
        · split
          · exact ⟨_, _, rfl⟩
          · exact ⟨_, _, rfl⟩
        · exact ⟨_, _, rfl⟩

/-- Every path compiles, unless the options are strict and a part of it is empty. -/
theorem gives_lookupOf (frames : Frames) (terminal : Bool) (hcompat : options.compat = false)
    (hparts : (options.strict && p.parts.any String.isEmpty) = false) :
    Gives (({ options } : Compiler).lookup frames p terminal) (lookupOf frames p terminal) := by
  obtain ⟨r, after, hstart⟩ := start_total { options } frames p Features.none
  have h : Gives (({ options } : Compiler).lookup frames p terminal)
      ⟨r.2.1.foldl (fun a name => .member a name r.2.2) r.1, terminal && !p.parts.isEmpty,
        p.spelling, p.mark⟩ := by
    refine ⟨Features.none, after, ?_⟩
    unfold Compiler.lookup
    dsimp only
    rw [hparts]
    show ((({ options } : Compiler).start frames p).run Features.none).bind _ = _
    rw [hstart]
    rfl
  rwa [gives_lookup hcompat h] at h

/-- That a path leads to an existing property is required in strict code only. -/
theorem makes_strict {compiler : Compiler} :
    compiler.Makes (fun l => l.requireTerminal = true → compiler.options.strict = true)
      fun _ => True where
  lookup h hterminal := by
    unfold Compiler.lookup at h
    obtain ⟨⟨base, steps, kind⟩, -, h⟩ := gives_bind (gives_guard h)
    obtain rfl := gives_pure.1 h
    intro hrequired
    exact hterminal (Bool.and_eq_true_iff.1 hrequired).1
  call _ := trivial
  ambiguousCall _ _ := trivial

end Compiler

end Stencil.Code

namespace Stencil.Render

open Stencil.Text (Location)
open Stencil.Tree (Path Nesting)
open Stencil.Code (Options Lookup Accessor LookupKind Frames Compiler Chunk)
open Stencil.Code.Compiling (Gives)

/-! ## The walk -/

section Walk

variable (options : Options) (frames : Frames) (scope : Scope) (p : Path (Option Location))

/-- The value of the innermost block parameter of a name, if an enclosing program declares it: the
value at its place among those with which that program was entered, of which there may be too few.
-/
def bound? (name : String) : Frames → List (List Value) → Option Value
  | names :: outer, values :: further =>
    match names.findIdx? (· == name) with
    | some index => some ((values[index]?).getD .undefined)
    | none => bound? name outer further
  | _, _ => none

/-- The value from which a path is walked, and the parts that are taken as steps. -/
def outset : Value × List String :=
  match if p.isScoped || p.depth != 0 || p.data then none
    else p.head?.bind fun name => bound? name frames scope.blockParams with
  | some v => (v, p.parts.tail)
  | none =>
    if p.data then
      match p.parts with
      | [] => (.undefined, [])
      | name :: rest => ((scope.data? p.depth name).getD .undefined, rest)
    else ((scope.contexts[p.depth]?).getD .undefined, p.parts)

/-- The data variable that a path names and does not go on from, if it is not visible. -/
def unseen? : Option String :=
  match p.data, p.parts with
  | true, [name] => if (scope.data? p.depth name).isSome then none else some name
  | _, _ => none

/-- The parts of a path taken as steps from a value, front to back. -/
def advance (terminal : Bool) : Value → List String → Except RuntimeError Value
  | v, [] => .ok v
  | v, name :: rest =>
    if v.isNullish && (options.strict || options.assumeObjects) ||
        terminal && rest.isEmpty && !v.hasProperty name then
      .error (.missingProperty name p.spelling p.mark)
    else advance terminal (v.property name) rest

/-- The walk along a path. `terminal` says that its last part must be there. -/
def walk (terminal : Bool) : Except RuntimeError Value :=
  match if terminal then unseen? scope p else none with
  | some name => .error (.missingProperty name p.spelling p.mark)
  | none => advance options p terminal (outset frames scope p).1 (outset frames scope p).2

/-- What a path leads to if its steps are taken whatever they are taken from. -/
def destination : Value := (outset frames scope p).2.foldl Value.property (outset frames scope p).1

/-- Taking steps from a value breaks off where a step is taken from null or undefined, if the
options do not let that pass, or where the last part, which must be there, is not. -/
def BreaksFrom (terminal : Bool) (v : Value) (steps : List String) : Prop :=
  ((options.strict = true ∨ options.assumeObjects = true) ∧
    ∃ before name after, steps = before ++ name :: after ∧
      (before.foldl Value.property v).isNullish = true) ∨
  (terminal = true ∧
    ∃ before name, steps = before ++ [name] ∧
      (before.foldl Value.property v).hasProperty name = false)

/-- A walk breaks off at one of its steps, or at a data variable that must be there and is not
visible. -/
def Breaks (terminal : Bool) : Prop :=
  BreaksFrom options terminal (outset frames scope p).1 (outset frames scope p).2 ∨
    (terminal = true ∧ ∃ name, p.data = true ∧ p.parts = [name] ∧ scope.data? p.depth name = none)

end Walk

/-! ## Following accessors -/

variable {env : Environment} {options : Options} {frames : Frames} {scope : Scope}
  {p : Path (Option Location)} {terminal : Bool}

/-- Where names and values are paired, the value of a name is that at its address. -/
theorem bound?_eq {name : String} :
    ∀ {frames : Frames} {values : List (List Value)}, frames.length = values.length →
      bound? name frames values = (frames.find? name).map fun address =>
        ((values[address.1]?).bind fun frame => frame[address.2]?).getD .undefined
  | [], [], _ => rfl
  | names :: outer, here :: further, h => by
    rw [bound?, Frames.find?]
    cases names.findIdx? (· == name) with
    | some index => rfl
    | none =>
      simp only [bound?_eq (Nat.succ.inj h), Option.map_map]
      rfl

/-- One more step at the end of a walk. -/
theorem advance_concat (v : Value) (steps : List String) (name : String) :
    advance options p terminal v (steps ++ [name]) =
      (advance options p false v steps).bind fun parent =>
        advance options p terminal parent [name] := by
  induction steps generalizing v with
  | nil => rfl
  | cons step rest ih =>
    have hrest : (rest ++ [name]).isEmpty = false := by simp
    simp only [List.cons_append, advance, hrest, Bool.and_false, Bool.false_and, Bool.or_false]
    split
    · rfl
    · exact ih (v.property step)

/-- A step of a lookup is a step of the walk, if the options let nothing pass where the last part
must be there. -/
theorem memberOf_eq_advance (hterminal : terminal = true → options.strict = true) (last : Bool)
    (parent : Value) (name : String) :
    memberOf options (Compiler.lookupOf frames p terminal) last parent name =
      advance options p (last && (terminal && !p.parts.isEmpty)) parent [name] := by
  unfold memberOf missingProperty Compiler.lookupOf
  by_cases hnullish : parent.isNullish = true
  · -- There is no property of nothing, which is no error where the last part need not be there.
    have hproperty : parent.property name = .undefined ∧ parent.hasProperty name = false := by
      cases parent <;> first | exact ⟨rfl, rfl⟩ | cases hnullish
    cases hpass : (options.strict || options.assumeObjects) with
    | true => simp [hnullish, hpass, advance]
    | false =>
      have hfalse : terminal = false := by
        by_contra h
        rw [hterminal (by simpa using h)] at hpass
        cases hpass
      simp [hnullish, hpass, advance, hproperty, hfalse]
  · simp [hnullish, advance]

/-- An accessor that has a value of its own, from which steps may be taken. -/
def HasOwnValue : Accessor → Prop
  | .data _ | .helpers | .partials => False
  | .context _ | .blockParam _ _ | .anyContext _ | .member _ _ _ => True

theorem resolve_member {l : Lookup} {base : Accessor} (hbase : HasOwnValue base) (name : String)
    (kind : LookupKind) :
    resolve env options scope l terminal (.member base name kind) =
      (resolve env options scope l false base).bind fun parent =>
        memberOf options l terminal parent name := by
  cases base with
  | data depth => exact hbase.elim
  | helpers => exact hbase.elim
  | partials => exact hbase.elim
  | context depth => rfl
  | blockParam depth index => rfl
  | anyContext name => rfl
  | member base name kind =>
    simp only [resolve]
    split
    next parent hparent => rw [hparent]; rfl
    next e he => rw [he]; rfl

/-- Steps folded into an accessor lead to where the walk from its value does. -/
theorem resolve_foldl (hterminal : terminal = true → options.strict = true) (base : Accessor)
    (hbase : HasOwnValue base) {v : Value} (kind : LookupKind) {last : Bool}
    (hv : resolve env options scope (Compiler.lookupOf frames p terminal) false base = .ok v)
    (steps : List String)
    (hlast : steps = [] →
      resolve env options scope (Compiler.lookupOf frames p terminal) last base = .ok v) :
    resolve env options scope (Compiler.lookupOf frames p terminal) last
        (steps.foldl (fun a name => .member a name kind) base) =
      advance options p (last && (terminal && !p.parts.isEmpty)) v steps := by
  induction steps using List.reverseRecOn generalizing last with
  | nil => exact hlast rfl
  | append_singleton steps name ih =>
    have hown : HasOwnValue (steps.foldl (fun a name => .member a name kind) base) := by
      cases steps using List.reverseRecOn with
      | nil => exact hbase
      | append_singleton steps last => rw [List.foldl_concat]; trivial
    rw [List.foldl_concat, resolve_member hown, ih fun _ => hv, advance_concat, Bool.false_and]
    congr 1
    funext parent
    exact memberOf_eq_advance hterminal last parent name

/-- From a context or a block parameter every part is a step. -/
theorem resolve_foldl_of_forall (hterminal : terminal = true → options.strict = true)
    (base : Accessor) (hbase : HasOwnValue base) {v : Value} (kind : LookupKind)
    (hv : ∀ last, resolve env options scope (Compiler.lookupOf frames p terminal) last base = .ok v)
    {steps : List String} (hsteps : p.parts = [] → steps = []) :
    resolve env options scope (Compiler.lookupOf frames p terminal) true
        (steps.foldl (fun a name => .member a name kind) base) =
          advance options p terminal v steps := by
  rw [resolve_foldl hterminal base hbase kind (hv false) steps fun _ => hv true, Bool.true_and]
  cases hparts : p.parts with
  | nil =>
    rw [hsteps hparts]
    rfl
  | cons name rest => rw [List.isEmpty_cons, Bool.not_false, Bool.and_true]

theorem unseen?_of_data_eq_false (hdata : p.data = false) : unseen? scope p = none := by
  simp [unseen?, hdata]

/-- Following the accessor of a data path is walking along the path. -/
theorem resolve_data (hterminal : terminal = true → options.strict = true) (hdata : p.data = true) :
    resolve env options scope (Compiler.lookupOf frames p terminal) true
        (p.parts.foldl (fun a name => .member a name .data) (.data p.depth)) =
      walk options frames scope p terminal := by
  have houtset : outset frames scope p =
      match p.parts with
      | [] => (.undefined, [])
      | name :: rest => ((scope.data? p.depth name).getD .undefined, rest) := by
    simp [outset, hdata]
  unfold walk
  rw [houtset]
  cases hparts : p.parts with
  | nil => simp [unseen?, hdata, hparts, resolve, advance]
  | cons name rest =>
    rw [List.foldl_cons]
    cases hseen : scope.data? p.depth name with
    | some v =>
      have hunseen : unseen? scope p = none := by
        cases rest <;> simp [unseen?, hdata, hparts, hseen]
      simp only [hunseen, ite_self]
      refine resolve_foldl_of_forall hterminal (.member (.data p.depth) name .data) trivial .data
        (fun last => ?_) fun h => ?_
      · simp only [resolve, hseen, Option.getD_some]
      · rw [h] at hparts
        cases hparts
    | none =>
      cases rest with
      | nil =>
        -- The variable is all there is of the path, and has to be there if it is required.
        cases terminal <;>
          simp [resolve, advance, unseen?, missingProperty, Compiler.lookupOf, hdata, hparts, hseen]
      | cons next rest =>
        have hunseen : unseen? scope p = none := by simp [unseen?, hdata, hparts]
        have hv : resolve env options scope (Compiler.lookupOf frames p terminal) false
            (.member (.data p.depth) name .data) = .ok .undefined := by simp [resolve, hseen]
        rw [resolve_foldl hterminal (.member (.data p.depth) name .data) trivial .data hv
          (next :: rest) fun h => by cases h]
        simp [hunseen, hparts, hseen]

/-- The value from which a path is walked is that of the block parameter at its address, if it has
one. -/
theorem outset_eq (hframes : frames.length = scope.blockParams.length) :
    outset frames scope p =
      match frames.boundTo? p with
      | some (depth, index) => (scope.blockParam depth index, p.parts.tail)
      | none =>
        if p.data then
          match p.parts with
          | [] => (.undefined, [])
          | name :: rest => ((scope.data? p.depth name).getD .undefined, rest)
        else ((scope.contexts[p.depth]?).getD .undefined, p.parts) := by
  have hbound : (if p.isScoped || p.depth != 0 || p.data then none
      else p.head?.bind fun name => bound? name frames scope.blockParams) =
        (frames.boundTo? p).map fun address => scope.blockParam address.1 address.2 := by
    unfold Frames.boundTo?
    split
    · rfl
    · cases p.head? with
      | none => rfl
      | some name => exact bound?_eq hframes
  unfold outset
  rw [hbound]
  cases frames.boundTo? p <;> rfl

theorem Frames.parts_of_boundTo? {address : Nat × Nat} (h : frames.boundTo? p = some address) :
    p.data = false ∧ p.parts ≠ [] := by
  unfold Frames.boundTo? at h
  split at h
  · cases h
  next hfree =>
    refine ⟨by simp at hfree; exact hfree.2, fun hparts => ?_⟩
    rw [Path.head?, hparts] at h
    cases h

/-- Following the accessor of a path is walking along the path. -/
theorem lookup_eq_walk (env : Environment) (hcompat : options.compat = false)
    (hframes : frames.length = scope.blockParams.length)
    (hterminal : terminal = true → options.strict = true) {l : Lookup}
    (h : Gives (({ options } : Compiler).lookup frames p terminal) l) :
    lookup env options scope l = walk options frames scope p terminal := by
  obtain rfl := Compiler.gives_lookup hcompat h
  show resolve env options scope _ true (Compiler.accessorOf frames p) = _
  unfold Compiler.accessorOf
  cases hbound : frames.boundTo? p with
  | some address =>
    obtain ⟨hdata, hparts⟩ := Frames.parts_of_boundTo? hbound
    simp only [walk, outset_eq hframes, hbound, unseen?_of_data_eq_false hdata, ite_self]
    exact resolve_foldl_of_forall hterminal (.blockParam address.1 address.2) trivial .context
      (fun _ => rfl) fun h => absurd h hparts
  | none =>
    cases hdata : p.data with
    | true => exact resolve_data hterminal hdata
    | false =>
      simp only [walk, outset_eq hframes, hbound, unseen?_of_data_eq_false hdata, ite_self, hdata]
      exact resolve_foldl_of_forall hterminal (.context p.depth) trivial .context (fun _ => rfl) id

/-! ## Where a walk breaks off -/

theorem not_breaksFrom_nil (v : Value) : ¬ BreaksFrom options terminal v [] := by
  rintro (⟨-, before, name, after, h, -⟩ | ⟨-, before, name, h, -⟩)
  · simp at h
  · simp at h

theorem breaksFrom_cons {v : Value} {name : String} {rest : List String} :
    BreaksFrom options terminal v (name :: rest) ↔
      ((options.strict = true ∨ options.assumeObjects = true) ∧ v.isNullish = true) ∨
        (terminal = true ∧ rest = [] ∧ v.hasProperty name = false) ∨
          BreaksFrom options terminal (v.property name) rest := by
  constructor
  · rintro (⟨hopt, before, last, after, h, hnullish⟩ | ⟨hterminal, before, last, h, hmissing⟩)
    · cases before with
      | nil => exact .inl ⟨hopt, hnullish⟩
      | cons first before =>
        obtain ⟨rfl, rfl⟩ := List.cons.inj h
        exact .inr (.inr (.inl ⟨hopt, before, last, after, rfl, hnullish⟩))
    · cases before with
      | nil =>
        obtain ⟨rfl, rfl⟩ := List.cons.inj h
        exact .inr (.inl ⟨hterminal, rfl, hmissing⟩)
      | cons first before =>
        obtain ⟨rfl, rfl⟩ := List.cons.inj h
        exact .inr (.inr (.inr ⟨hterminal, before, last, rfl, hmissing⟩))
  · rintro (⟨hopt, hnullish⟩ | ⟨hterminal, rfl, hmissing⟩ |
      ⟨hopt, before, last, after, rfl, hnullish⟩ | ⟨hterminal, before, last, rfl, hmissing⟩)
    · exact .inl ⟨hopt, [], name, rest, rfl, hnullish⟩
    · exact .inr ⟨hterminal, [], name, rfl, hmissing⟩
    · exact .inl ⟨hopt, name :: before, last, after, rfl, hnullish⟩
    · exact .inr ⟨hterminal, name :: before, last, rfl, hmissing⟩

/-- Steps that break off are in error for one of the parts, and others lead to what they lead to. -/
theorem advance_cases (options : Options) (p : Path (Option Location)) (terminal : Bool) (v : Value)
    (steps : List String) :
    (BreaksFrom options terminal v steps ∧ ∃ name ∈ steps,
      advance options p terminal v steps = .error (.missingProperty name p.spelling p.mark)) ∨
    (¬ BreaksFrom options terminal v steps ∧
      advance options p terminal v steps = .ok (steps.foldl Value.property v)) := by
  induction steps generalizing v with
  | nil => exact .inr ⟨not_breaksFrom_nil v, rfl⟩
  | cons name rest ih =>
    rw [breaksFrom_cons, advance, List.foldl_cons]
    split
    next hhere =>
      refine .inl ⟨?_, name, List.mem_cons_self, rfl⟩
      simp only [Bool.or_eq_true, Bool.and_eq_true, List.isEmpty_iff, Bool.not_eq_true'] at hhere
      rcases hhere with ⟨hnullish, hopt⟩ | ⟨⟨hterminal, hrest⟩, hmissing⟩
      · exact .inl ⟨hopt, hnullish⟩
      · exact .inr (.inl ⟨hterminal, hrest, hmissing⟩)
    next hhere =>
      simp only [Bool.or_eq_true, Bool.and_eq_true, List.isEmpty_iff, Bool.not_eq_true', not_or]
        at hhere
      rcases ih (v.property name) with ⟨hbreaks, part, hpart, herror⟩ | ⟨hfree, hok⟩
      · exact .inl ⟨.inr (.inr hbreaks), part, List.mem_cons_of_mem name hpart, herror⟩
      · refine .inr ⟨?_, hok⟩
        rintro (⟨hopt, hnullish⟩ | ⟨hterminal, hrest, hmissing⟩ | hbreaks)
        · exact hhere.1 ⟨hnullish, hopt⟩
        · exact hhere.2 ⟨⟨hterminal, hrest⟩, hmissing⟩
        · exact hfree hbreaks

/-- The steps of a walk are among the parts of its path. -/
theorem outset_steps_subset : ∀ name ∈ (outset frames scope p).2, name ∈ p.parts := by
  unfold outset
  split
  · exact fun name h => List.mem_of_mem_tail h
  · split
    · split
      next hparts => exact nofun
      next first rest hparts =>
        intro name h
        rw [hparts]
        exact List.mem_cons_of_mem first h
    · exact fun name h => h

theorem unseen?_eq_some {name : String} :
    unseen? scope p = some name ↔
      p.data = true ∧ p.parts = [name] ∧ scope.data? p.depth name = none := by
  unfold unseen?
  split
  next part hdata hparts =>
    cases hseen : scope.data? p.depth part with
    | none =>
      simp only [Option.isSome_none, Bool.false_eq_true, if_false, Option.some.injEq, hdata, hparts,
        true_and, List.cons.injEq, and_true]
      constructor
      · rintro rfl
        exact ⟨rfl, hseen⟩
      · rintro ⟨rfl, -⟩
        rfl
    | some v =>
      simp only [Option.isSome_some, if_true, hparts, List.cons.injEq, and_true]
      constructor
      · rintro ⟨⟩
      · rintro ⟨-, rfl, hnone⟩
        rw [hseen] at hnone
        cases hnone
  next hother =>
    constructor
    · rintro ⟨⟩
    · rintro ⟨hdata, hparts, -⟩
      exact absurd hparts (hother name hdata)

/-- A walk that breaks off is in error for one of the parts of its path, and any other leads to what
its steps lead to. -/
theorem walk_cases (options : Options) (frames : Frames) (scope : Scope)
    (p : Path (Option Location)) (terminal : Bool) :
    (Breaks options frames scope p terminal ∧ ∃ name ∈ p.parts,
      walk options frames scope p terminal = .error (.missingProperty name p.spelling p.mark)) ∨
    (¬ Breaks options frames scope p terminal ∧
      walk options frames scope p terminal = .ok (destination frames scope p)) := by
  unfold walk
  split
  next name hunseen =>
    split at hunseen
    next hterminal =>
      obtain ⟨hdata, hparts, hnone⟩ := unseen?_eq_some.1 hunseen
      exact .inl ⟨.inr ⟨hterminal, name, hdata, hparts, hnone⟩, name, by simp [hparts], rfl⟩
    next => cases hunseen
  next hseen =>
    have hfree : ¬ (terminal = true ∧
        ∃ name, p.data = true ∧ p.parts = [name] ∧ scope.data? p.depth name = none) := by
      rintro ⟨hterminal, name, h⟩
      rw [if_pos hterminal, unseen?_eq_some.2 h] at hseen
      cases hseen
    rcases advance_cases options p terminal (outset frames scope p).1 (outset frames scope p).2 with
      ⟨hbreaks, name, hname, herror⟩ | ⟨hgoes, hok⟩
    · exact .inl ⟨.inl hbreaks, name, outset_steps_subset name hname, herror⟩
    · refine .inr ⟨?_, hok⟩
      rintro (hbreaks | hunseen)
      · exact hgoes hbreaks
      · exact hfree hunseen

/-- For every path that compiles, where contexts are not searched, and every scope whose programs
were entered as they are nested in the template: following the accessor is walking along the path.
It is in error exactly if the walk breaks off, for a part of the path and with its spelling and
mark, and else gives what the path leads to. In all code, only strict options require that a last
part is there. -/
theorem lookup_walks (env : Environment) (scope : Scope) (hcompat : options.compat = false)
    (hframes : frames.length = scope.blockParams.length)
    (hterminal : terminal = true → options.strict = true) {l : Lookup}
    (h : Gives (({ options } : Compiler).lookup frames p terminal) l) :
    lookup env options scope l = walk options frames scope p terminal ∧
      ((∃ e, lookup env options scope l = .error e) ↔ Breaks options frames scope p terminal) ∧
      (∀ e, lookup env options scope l = .error e →
        ∃ name ∈ p.parts, e = .missingProperty name p.spelling p.mark) ∧
      (¬ Breaks options frames scope p terminal →
        lookup env options scope l = .ok (destination frames scope p)) ∧
      ∀ {n : Nesting (Option Location)} {c : Chunk}, ({ options } : Compiler).Compiles n c →
        ∀ m ∈ c.lookups, m.requireTerminal = true → options.strict = true := by
  have hwalk := lookup_eq_walk env hcompat hframes hterminal h
  refine ⟨hwalk, ?_⟩
  rw [hwalk, ← and_assoc, ← and_assoc]
  constructor
  · rcases walk_cases options frames scope p terminal with
      ⟨hbreaks, name, hname, herror⟩ | ⟨hgoes, hok⟩
    · rw [herror]
      refine ⟨⟨⟨fun _ => hbreaks, fun _ => ⟨_, rfl⟩⟩, ?_⟩, fun hgoes => absurd hbreaks hgoes⟩
      rintro e ⟨⟩
      exact ⟨name, hname, rfl⟩
    · rw [hok]
      refine ⟨⟨⟨?_, fun hbreaks => absurd hbreaks hgoes⟩, nofun⟩, fun _ => rfl⟩
      rintro ⟨e, ⟨⟩⟩
  · intro n c hcompiles
    exact Compiler.makes_strict.compiled (fun _ => nofun)
      nofun Code.Backend.keepsTags_standard hcompiles

/-- The path `item.name.first`. -/
def firstOfName : Path (Option Location) :=
  { parts := ["item", "name", "first"], spelling := "item.name.first", mark := none }

/-- A scope within a program with one block parameter, an object with a name that is null. -/
def namelessItem : Scope where
  contexts := [.undefined]
  blockParams := [[.object (.made 0 []) [("name", .null)]], []]
  data := []
  partialBlock := none

/-- Strict code walks from a block parameter to a name that is null, and no further. -/
theorem lookup_walks_pastNull :
    Gives (({ options := { strict := true } } : Compiler).lookup [["item"], []] firstOfName true)
        (Compiler.lookupOf [["item"], []] firstOfName true) ∧
      Breaks { strict := true } [["item"], []] namelessItem firstOfName true ∧
      lookup {} { strict := true } namelessItem
        (Compiler.lookupOf [["item"], []] firstOfName true) =
        .error (.missingProperty "first" "item.name.first" none) := by
  have hcompat : ({ strict := true } : Options).compat = false := rfl
  have hparts :
      (({ strict := true } : Options).strict && firstOfName.parts.any String.isEmpty) = false := by
    decide +kernel
  have h := Compiler.gives_lookupOf [["item"], []] true hcompat hparts
  have hframes : List.length [["item"], []] = namelessItem.blockParams.length := rfl
  obtain ⟨hwalk, hbreaks, -⟩ := lookup_walks {} namelessItem hcompat hframes (fun _ => rfl) h
  have herror : walk { strict := true } [["item"], []] namelessItem firstOfName true =
      .error (.missingProperty "first" "item.name.first" none) := by
    have hscoped : firstOfName.isScoped = false := by decide +kernel
    have houtset : outset [["item"], []] namelessItem firstOfName =
        (.object (.made 0 []) [("name", .null)], ["name", "first"]) := by
      unfold outset
      rw [hscoped]
      rfl
    unfold walk
    rw [houtset]
    rfl
  exact ⟨h, hbreaks.1 ⟨_, hwalk.trans herror⟩, hwalk.trans herror⟩

end Stencil.Render
