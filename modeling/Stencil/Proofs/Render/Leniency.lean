import Stencil.Proofs.Code.Arity
import Stencil.Proofs.Code.Gathering
import Stencil.Proofs.Code.SelfContained
import Stencil.Proofs.Render.Keeping

/-!
# Leniency

A template without partials that is compiled with default options renders with the built-in helpers
whatever its context is, unless programs are nested too deep (`render_ok_or_depthExceeded`). Lookups
do not fail, because code that is not strict insists on nothing (`exists_lookup_eq_ok`); built-in
helpers do not fail, because the compiler has counted their parameters (`Builtin.takes_of_admits`);
and programs that code refers to are there. So what may end an instruction is that a helper is
missing or that programs are nested too deep (`lenientPromise`). Code that is not strict goes on
where a helper is missing, and by induction on the levels of nesting only the other error ends a
program (`Renderer.obeys_invokeAt`).
-/

set_option autoImplicit false

namespace Stencil.Render

open Stencil.Code (Spec Options Compiler Lookup Call Arity KnownHelpers Instruction)
open Stencil.Tree (Statement)

/-! ## Values without functions -/

/-- There is no function in the value. -/
inductive Value.FunctionFree : Value → Prop
  | undefined : FunctionFree .undefined
  | null : FunctionFree .null
  | bool (b : Bool) : FunctionFree (.bool b)
  | int (n : Int) : FunctionFree (.int n)
  | float (x : Float) : FunctionFree (.float x)
  | string (text : String) : FunctionFree (.string text)
  | safe (text : String) : FunctionFree (.safe text)
  | array {id : Identity} {items : List Value} (h : ∀ v ∈ items, FunctionFree v) :
    FunctionFree (.array id items)
  | object {id : Identity} {entries : List (String × Value)} (h : ∀ e ∈ entries, FunctionFree e.2) :
    FunctionFree (.object id entries)

theorem Value.functionFree_hereditary : Value.Hereditary Value.FunctionFree where
  undefined := .undefined
  null := .null
  bool := .bool
  int := .int
  float := .float
  string := .string
  array_iff := by
    refine ⟨fun h => ?_, .array⟩
    cases h with
    | array h => exact h
  object_iff := by
    refine ⟨fun h => ?_, .object⟩
    cases h with
    | object h => exact h
  not_function f h := nomatch h

/-! ## Lookups -/

/-- Where null has no members rather than being in error, every step leads somewhere. -/
theorem memberOf_eq_ok {options : Options} (strict : options.strict = false)
    (objects : options.assumeObjects = false) {path : Lookup}
    (lenient : path.requireTerminal = false) (terminal : Bool) (parent : Value) (name : String) :
    ∃ v, memberOf options path terminal parent name = .ok v := by
  unfold memberOf
  rw [strict, objects, lenient, Bool.and_false, Bool.false_and]
  split
  · exact ⟨_, rfl⟩
  · exact ⟨_, rfl⟩

/-- Where null has no members rather than being in error, a path that need not lead to an existing
property leads somewhere. -/
theorem exists_lookup_eq_ok {options : Options} (strict : options.strict = false)
    (objects : options.assumeObjects = false) {path : Lookup}
    (lenient : path.requireTerminal = false) (env : Environment) (scope : Scope) :
    ∃ v, lookup env options scope path = .ok v := by
  suffices ∀ terminal accessor, ∃ v, resolve env options scope path terminal accessor = .ok v from
    this true path.accessor
  intro terminal accessor
  fun_induction resolve env options scope path terminal accessor with
  | case10 terminal depth name kind hnone hterminal =>
    -- Only a path that must lead to a data variable fails for want of it.
    rw [lenient, Bool.and_false] at hterminal
    cases hterminal
  | case12 terminal base name kind hhelpers hpartials hdata parent hparent ih =>
    exact memberOf_eq_ok strict objects lenient terminal parent name
  | case13 terminal base name kind hhelpers hpartials hdata e he ih =>
    obtain ⟨v, hv⟩ := ih
    rw [he] at hv
    cases hv
  | _ => exact ⟨_, rfl⟩

/-! ## Built-in helpers -/

/-- As many parameters as the compiler admits do not make a built-in helper fail. -/
theorem Builtin.takes_of_admits {b : Builtin} {count : Nat}
    (h : ∀ arity ∈ KnownHelpers.standard.get? b.name, Arity.Admits arity count) :
    b.Takes count := by
  cases b with
  | ifHelper | unlessHelper | withHelper => exact h _ rfl
  | eachHelper =>
    obtain rfl : count = 1 := h _ rfl
    exact Nat.one_pos
  | lookupHelper | logHelper => trivial

/-! ## Programs -/

/-- Values have no functions in them, and what ends an instruction is recovered from, or programs
are nested too deep. -/
def lenientPromise (limit : Nat) : Promise where
  values := Value.FunctionFree
  texts _ := True
  errors e := e.isRecoverable = true ∨ e = .ofRuntime (.depthExceeded limit)
  hereditary := Value.functionFree_hereditary
  textKind := ⟨trivial, fun _ _ => trivial⟩

/-- A lookup as default options make it. -/
def LenientLookup (l : Lookup) : Prop := l.Apart ∧ l.StrictOnly {}

/-- A call as default options make it. -/
def LenientCall (c : Call) : Prop := c.Apart ∧ c.Fits {}

theorem makes_lenient : ({} : Compiler).Makes LenientLookup LenientCall :=
  Compiler.makes_apart.and Compiler.makes_fitting

namespace Place

variable {p : Place} {limit : Nat} {R : Nat → Prop}

/-- A place in code with default options keeps the promise if the programs nested in it do. -/
theorem keeps_lenient (helpers : p.frame.env.OnlyBuiltins) (options : p.spec.options = {})
    (scope : p.scope.Holds Value.FunctionFree)
    (nested : ∀ {id}, R id → ∀ {context args}, context.FunctionFree →
      BlockArgs.Holds Value.FunctionFree args →
        (p.frame.below (p.nestedVisit id context args)).Obeys (lenientPromise limit).errors
          fun _ => True) :
    p.Keeps (lenientPromise limit) R LenientLookup LenientCall where
  helpers := helpers
  scope := scope
  missingHelper _ _ := .inl rfl
  apart hl := hl.1
  lookup_error {l} hl e he := by
    -- A lookup that insists on nothing has a value.
    have lenient : l.requireTerminal = false := by
      by_contra hterminal
      cases hl.2 (Bool.not_eq_false _ ▸ hterminal)
    have hstrict : p.spec.options.strict = false := by rw [options]
    have hobjects : p.spec.options.assumeObjects = false := by rw [options]
    obtain ⟨v, hv⟩ := exists_lookup_eq_ok hstrict hobjects lenient p.frame.env p.scope
    rw [hv] at he
    cases he
  named hc := hc.1
  call_error {c} hc {b} hname htakes := by
    have hadmits := hc.2 b.name hname
    exact absurd (Builtin.takes_of_admits hadmits) htakes
  nested := nested

/-- The piece of an instruction that is emitted for a tag other than a partial, where the programs
that it refers to keep the promise. -/
theorem Keeps.obeys_piece (h : p.Keeps (lenientPromise limit) R LenientLookup LenientCall)
    {i : Instruction}
    (emitted : i.isText = false → ∃ frames next s, ({} : Compiler).Emits frames next s i)
    (own : ∀ call, i ≠ .partialCall call) (hr : ∀ id ∈ i.references, R id) :
    (p.piece i).Obeys (lenientPromise limit).errors fun _ => True := by
  cases i with
  | content text => exact Run.obeys_pure trivial
  | append o escape =>
    obtain ⟨frames, next, s, hemits⟩ := emitted rfl
    exact Run.obeys_bind (h.operand [] (makes_lenient.append hemits)) fun _ _ =>
      Run.obeys_pure trivial
  | block b =>
    obtain ⟨frames, next, s, hemits⟩ := emitted rfl
    have hprogram : ∀ id ∈ b.program, R id := by
      intro id hid
      exact hr id (List.mem_append_left _ (Option.mem_toList.2 hid))
    have hinverse : ∀ id ∈ b.inverse, R id := by
      intro id hid
      exact hr id (List.mem_append_right _ (Option.mem_toList.2 hid))
    have hblock :=
      h.block (makes_lenient.block hemits) hprogram hinverse fun _ _ _ => .inr fun _ => trivial
    exact Run.obeys_bind hblock fun _ _ => Run.obeys_pure trivial
  | partialCall call => exact absurd rfl (own call)

end Place

section Levels

variable {r : Renderer} (helpers : r.env.OnlyBuiltins) {tree : Tree.Located}
  (own : tree.Every Statement.NoPartial) {spec : Spec}
  (compiled : ({} : Compiler).compile tree = .ok spec)

include helpers own compiled

/-- Nothing ends a program of the tree, except that programs are nested too deep. -/
theorem Renderer.obeys_invokeAt :
    ∀ (level : Nat) (v : Visit), v.spec = spec →
      ∀ n, (tree.nestings [] 0)[v.program]? = some n → v.scope.Holds Value.FunctionFree →
        (r.invokeAt level v).Obeys (fun e => e = .ofRuntime (.depthExceeded r.env.maxDepth))
          fun _ => True := by
  intro level
  induction level with
  | zero =>
    intro v _ _ _ _
    exact Run.obeys_fail rfl
  | succ level ih =>
    rintro v rfl n hn hscope
    have keepsTags := Code.Backend.keepsTags_standard
    have hoptions : v.spec.options = {} := (Compiler.main_of_compile compiled).2
    obtain ⟨c, hc, hcompiles⟩ := Compiler.exists_chunk keepsTags compiled hn
    have place : (r.placeAt level v).Keeps (lenientPromise r.env.maxDepth) (· ∈ c.references)
        LenientLookup LenientCall := by
      refine Place.keeps_lenient helpers hoptions hscope ?_
      intro id hid context args hcontext hargs
      -- The program that is run below is one of the tree, directly in this one.
      obtain ⟨child, hchild⟩ := Compiler.exists_child_of_reference keepsTags compiled hc hn hid
      have hentered := (hscope.enter hcontext hargs.blockParams).withData hargs.data
      have hbelow :=
        ih ((r.placeAt level v).nestedVisit id context args) rfl (child :: n) hchild hentered
      exact hbelow.imp (fun _ he => .inr he) fun _ _ => trivial
    have pieces : ∀ i ∈ c.instructions,
        ((r.placeAt level v).piece i).Obeys (lenientPromise r.env.maxDepth).errors fun _ =>
          True := by
      intro i hi
      have hpartial := hcompiles.ne_partialCall keepsTags own (List.mem_of_getElem? hn) hi
      apply place.obeys_piece _ hpartial
      · intro id hid
        exact List.mem_flatMap.2 ⟨i, hi, hid⟩
      · intro htag
        obtain ⟨t, -, hemits⟩ := hcompiles.exists_tag keepsTags hi htag
        exact ⟨_, _, _, hemits⟩
    -- What is recovered from ends no program, because the code is not strict.
    have ends : ∀ e, (lenientPromise r.env.maxDepth).errors e →
        (!v.spec.options.strict && e.isRecoverable) = false →
          e = .ofRuntime (.depthExceeded r.env.maxDepth) := by
      rintro e (hrecovers | hdepth) hends
      · rw [hoptions, hrecovers] at hends
        cases hends
      · exact hdepth
    rw [r.invokeAt_of_program? level hc]
    exact Run.Obeys.nested (obeys_textOf (lenientPromise r.env.maxDepth).textKind ends pieces) v

end Levels

/-- A tree without partials, whatever text it is read from, that compiles with default options
renders in an environment of the built-in helpers, whatever its limit is, in every context without
functions: there is an output, or programs are nested deeper than the limit, and never another
error. -/
theorem render_ok_or_depthExceeded {env : Environment} (helpers : env.OnlyBuiltins)
    {tree : Tree.Located} (own : tree.Every Statement.NoPartial) {spec : Spec}
    (compiled : ({} : Compiler).compile tree = .ok spec) {context : Value}
    (hcontext : context.FunctionFree) (hdata : TableHolds Value.FunctionFree env.data)
    {values : List Value} (hvalues : ∀ v ∈ values, v.FunctionFree) :
    (∃ output, (render env spec context values).result = .ok output) ∨
      (render env spec context values).result =
        .error (.ofRuntime (.depthExceeded env.maxDepth)) := by
  let r := Renderer.cached env spec.options
  let main := r.rootVisit spec context values
  have hmain : (tree.nestings [] 0)[main.program]? = some [⟨0, tree⟩] :=
    Compiler.nestings_main compiled
  have hroot : main.scope.Holds Value.FunctionFree := Scope.holds_root hcontext hdata hvalues
  have hobeys := r.obeys_invokeAt helpers own compiled env.maxDepth main rfl _ hmain hroot
  rw [render, Renderer.render_eq_text, r.text_eq_invokeAt (Compiler.check_of_compile rfl compiled)]
  cases hresult : (r.invokeAt env.maxDepth main).result with
  | ok output => exact .inl ⟨output, hresult⟩
  | error e => exact .inr (hresult.trans (congrArg _ (hobeys.error e hresult)))

/-! ### Nothing there -/

/-- Repeats a body for items, calls a helper, and shows a property of a property. -/
def greetingText : String :=
  "\x7b\x7b#each items\x7d\x7d\x7b\x7bthis\x7d\x7d\x7b\x7b/each\x7d\x7d" ++
    "[\x7b\x7bgreet name\x7d\x7d\x7b\x7b#unless done\x7d\x7d" ++
    "\x7b\x7btitle.text\x7d\x7d!\x7b\x7b/unless\x7d\x7d]"

/-- An object without properties. -/
def emptyContext : Value := .object (.given 0) []

/-- Where there are no properties and no such helper, what remains is the text. -/
theorem render_ok_or_depthExceeded_greeting :
    ∃ tree spec output,
      Template.read (({} : Options).readOptions none) greetingText = .ok tree ∧
        tree.Every Statement.NoPartial ∧ ({} : Compiler).compile tree = .ok spec ∧
          (render .builtins spec emptyContext []).result = .ok output ∧
            output.toList = "[!]".toList := by
  obtain ⟨tree, read, hrest⟩ :
      ∃ tree, Template.read (({} : Options).readOptions none) greetingText = .ok tree ∧
        (decide (tree.Every Statement.NoPartial) &&
          (({} : Compiler).compile tree).toOption.any fun spec =>
            (render .builtins spec emptyContext []).result.toOption.any fun output =>
              output.toList == "[!]".toList) = true :=
    exists_ok_of_any (by decide +kernel)
  obtain ⟨hown, hrest⟩ := Bool.and_eq_true_iff.1 hrest
  have own : tree.Every Statement.NoPartial := of_decide_eq_true hown
  obtain ⟨spec, compiled, houtput⟩ := exists_ok_of_any hrest
  have helpers : Environment.builtins.OnlyBuiltins := fun _ => rfl
  have hcontext : emptyContext.FunctionFree := .object fun _ h => absurd h List.not_mem_nil
  have hvalues : ∀ v ∈ ([] : List Value), v.FunctionFree := fun _ h => absurd h List.not_mem_nil
  rcases render_ok_or_depthExceeded helpers own compiled hcontext tableHolds_nil hvalues with
    ⟨output, hresult⟩ | hresult
  · rw [hresult] at houtput
    exact ⟨tree, spec, output, read, own, compiled, hresult, eq_of_beq houtput⟩
  · rw [hresult] at houtput
    cases houtput

end Stencil.Render
