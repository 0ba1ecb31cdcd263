import Stencil.Proofs.Code.Harmless
import Stencil.Proofs.Render.Hereditary
import Stencil.Proofs.Render.Keeping
import Stencil.Proofs.Render.Visits
import Stencil.Proofs.Syntax.Shape

/-!
# Escaped output

A value is plain if there is in it neither a text that is shown as it is nor a function. That is
hereditary (`Value.plain_hereditary`), so what templates make of plain values is plain.

A harmless template that is rendered with plain values and the built-in helpers gives escaped
output, whatever the values are (`render_escaped`). Blocks and partials append what they capture as
it is, so this is an invariant of every program that a rendering runs: the program is of harmless
code, every value in its scope is plain, and so it is for the bodies of partial blocks that the
scope holds (`Scope.Harmless`). What such a program gives is escaped if what the programs below it
give is (`Place.Harmless.piece`), which is a promise that the built-in helpers keep
(`escapedPromise`), so by induction on the levels of nesting it is escaped
(`Renderer.escapes_invokeAt`).
-/

set_option autoImplicit false

namespace Stencil.Render

open Stencil.Code (Spec Options Compiler Lookup Operand Call Instruction BlockCall PartialInvocation
  AllHarmless)

/-! ## Plain values -/

/-- There is neither a text that is shown as it is nor a function in the value. -/
inductive Value.Plain : Value → Prop
  | undefined : Plain .undefined
  | null : Plain .null
  | bool (b : Bool) : Plain (.bool b)
  | int (n : Int) : Plain (.int n)
  | float (x : Float) : Plain (.float x)
  | string (text : String) : Plain (.string text)
  | array {id : Identity} {items : List Value} (h : ∀ v ∈ items, Plain v) : Plain (.array id items)
  | object {id : Identity} {entries : List (String × Value)} (h : ∀ e ∈ entries, Plain e.2) :
    Plain (.object id entries)

/-- Every one of the values is plain. -/
def AllPlain (values : List Value) : Prop := ∀ v ∈ values, v.Plain

/-- Every value of the table is plain. -/
def TablePlain (table : Table Value) : Prop := ∀ e ∈ table, e.2.Plain

theorem allPlain_nil : AllPlain [] := fun _ h => absurd h List.not_mem_nil

theorem AllPlain.cons {v : Value} {values : List Value} (hv : v.Plain) (h : AllPlain values) :
    AllPlain (v :: values) :=
  List.forall_mem_cons.2 ⟨hv, h⟩

theorem tablePlain_nil : TablePlain [] := fun _ h => absurd h List.not_mem_nil

theorem TablePlain.cons {name : String} {v : Value} {table : Table Value} (hv : v.Plain)
    (h : TablePlain table) : TablePlain ((name, v) :: table) :=
  List.forall_mem_cons.2 ⟨hv, h⟩

theorem Value.Plain.not_safe {v : Value} (h : v.Plain) : v.isSafe = false := by
  cases h <;> rfl

theorem Value.plain_hereditary : Value.Hereditary Value.Plain where
  undefined := .undefined
  null := .null
  bool := .bool
  int := .int
  float := .float
  string := .string
  array_iff := by
    refine ⟨fun h => ?_, .array⟩
    cases h with
    | array h => exact h
  object_iff := by
    refine ⟨fun h => ?_, .object⟩
    cases h with
    | object h => exact h
  not_function f h := nomatch h

/-- The scope of a main program is plain if the values are that it is given. -/
theorem Scope.plain_root {context : Value} (hc : context.Plain) {data : Table Value}
    (hd : TablePlain data) {values : List Value} (hv : AllPlain values) :
    (Scope.root context data values).Holds Value.Plain :=
  Scope.holds_root hc hd hv

/-! ## Scopes and places -/

/-- Values are plain and texts are escaped, whatever the errors. -/
def escapedPromise : Promise where
  values := Value.Plain
  texts text := Text.Escaped text.toList
  errors _ := True
  hereditary := Value.plain_hereditary
  textKind := textKind_escaped

/-- Every value in scope is plain, also where the body of a partial block is from, which is some
code with the property. -/
inductive Scope.Harmless (P : Spec → Prop) : Scope → Prop
  | intro {scope : Scope} (plain : scope.Holds Value.Plain)
    (spec : ∀ body, scope.partialBlock = some body → P body.spec)
    (outer : ∀ body, scope.partialBlock = some body → Harmless P body.scope) : Harmless P scope

/-- A place in code with a property, in a harmless scope, where the programs below give escaped
texts. -/
structure Place.Harmless (P : Spec → Prop) (p : Place) : Prop where
  helpers : p.frame.env.OnlyBuiltins
  spec : P p.spec
  scope : p.scope.Harmless P
  below : ∀ v : Visit, P v.spec → v.scope.Harmless P → (p.frame.below v).Escapes
  found : ∀ name, (p.frame.partialSpec p.spec.options name).Ensures fun found => ∀ s ∈ found, P s

namespace Scope.Harmless

variable {P : Spec → Prop} {s : Scope}

theorem plain (h : s.Harmless P) : s.Holds Value.Plain := by
  cases h with
  | intro plain _ _ => exact plain

/-- Other plain values do not matter. -/
theorem withPlain (h : s.Harmless P) {t : Scope} (ht : t.Holds Value.Plain)
    (hbody : t.partialBlock = s.partialBlock) : t.Harmless P := by
  cases h with
  | intro _ spec outer => exact .intro ht (hbody ▸ spec) (hbody ▸ outer)

end Scope.Harmless

namespace Place.Harmless

variable {P : Spec → Prop} {p : Place} (h : p.Harmless P)

include h

theorem below_nestedVisit (id : Nat) {context : Value} (hc : context.Plain) {args : BlockArgs}
    (ha : args.Holds Value.Plain) : (p.frame.below (p.nestedVisit id context args)).Escapes := by
  refine h.below _ h.spec (h.scope.withPlain ?_ (Scope.partialBlock_withData _ _))
  exact (h.scope.plain.enter hc ha.blockParams).withData ha.data

/-- Such a place keeps the promise of escaped texts, whatever programs are nested. -/
theorem keeps : p.Keeps escapedPromise (fun _ => True) Lookup.Apart Call.Apart where
  helpers := h.helpers
  scope := h.scope.plain
  missingHelper _ _ := trivial
  apart hl := hl
  lookup_error _ _ _ := trivial
  named hc := hc
  call_error _ _ _ _ _ _ := trivial
  nested _ _ _ hc ha := (h.below_nestedVisit _ hc ha).obeys

theorem operand (site : List Nat) {o : Operand} (ho : o.KeepsApart) :
    (p.operand site o).Ensures Value.Plain :=
  (h.keeps.operand site ho).ensures

/-- A block is escaped, because it does not show what the helper `lookup` gives. -/
theorem block {b : BlockCall} (hb : b.kind.Harmless) : (p.block b).Escapes := by
  refine (h.keeps.block hb.1 (fun _ _ => trivial) (fun _ _ => trivial) ?_).ensures
  exact fun c hkind hlookup => .inl (hb.2 c hkind hlookup)

/-! ## Partials -/

omit h in
theorem partialContext {context : Value} (hc : context.Plain) {hash : Table Value}
    (hh : TableHolds Value.Plain hash) : (p.partialContext context hash).Plain := by
  unfold Place.partialContext
  split
  · exact hc
  · exact .object (TableHolds.foldl_insert hh (Value.plain_hereditary.entries hc))

theorem foundText (name : String) (program : Option Nat) {context : Value} (hc : context.Plain)
    {found : Option Spec} (hfound : ∀ s ∈ found, P s) :
    (p.foundText name program context found).Escapes := by
  cases found with
  | none =>
    cases program with
    | none => exact Run.ensures_failRuntime _
    | some id => exact h.below_nestedVisit id hc BlockArgs.holds_none
  | some s =>
    refine h.below _ (hfound s rfl) ?_
    cases program with
    | none => exact h.scope.withPlain (h.scope.plain.forPartial hc) rfl
    | some id =>
      -- The partial is lent a body from this place.
      refine .intro ((h.scope.plain.withPartialBlock _).forPartial hc) ?_ ?_
      · rintro body ⟨⟩
        exact h.spec
      · rintro body ⟨⟩
        exact h.scope

theorem partialText (name : String) (program : Option Nat) {context : Value}
    (hc : context.Plain) : (p.partialText name program context).Escapes := by
  unfold Place.partialText
  split
  · split
    next body hbody =>
      -- The body runs in the scope of its own place, with the data variables of this one.
      have hscope := h.scope
      cases hscope with
      | intro plain spec outer =>
        refine h.below _ (spec body hbody) ((outer body hbody).withPlain ?_ rfl)
        have henter := (outer body hbody).plain.enter hc allPlain_nil
        have hdata := List.forall_mem_cons.2 ⟨tablePlain_nil, plain.data⟩
        exact ⟨henter.contexts, henter.blockParams, hdata⟩
    next => exact Run.ensures_failRuntime _
  · exact Run.ensures_bind (h.found name) fun found hfound => h.foundText name program hc hfound

theorem partialInvocation {i : PartialInvocation} (hi : Instruction.Harmless (.partialCall i)) :
    (p.partialInvocation i).Escapes := by
  obtain ⟨hcontext, hhash, hindent⟩ := hi
  refine Run.ensures_bind (Run.ensures_true _) fun name _ => ?_
  refine Run.ensures_bind (h.operand [1] hcontext) fun context hcontext => ?_
  refine Run.ensures_bind (h.keeps.hashValues [2] 0 hhash).ensures fun hash hhash => ?_
  refine Run.ensures_bind (h.partialText name i.program (partialContext hcontext hhash))
    fun text htext => ?_
  exact Run.ensures_pure (htext.indentLines hindent)

/-! ## Instructions -/

/-- The piece of a harmless instruction is escaped. -/
theorem piece {i : Instruction} (hi : i.Harmless) :
    (p.piece i).Ensures fun a => Text.Escaped a.text.toList := by
  cases i with
  | content text => exact Run.ensures_pure (Text.Clean.escaped hi)
  | append o escape =>
    obtain ⟨rfl, ho⟩ := hi
    refine Run.ensures_bind (h.operand [] ho) fun v hv => Run.ensures_pure ?_
    rw [hv.not_safe]
    exact Text.escaped_escape v.text
  | block b => exact Run.ensures_bind (h.block hi) fun text htext => Run.ensures_pure htext
  | partialCall i =>
    exact Run.ensures_bind (h.partialInvocation hi) fun text htext => Run.ensures_pure htext

end Place.Harmless

/-! ## Levels -/

/-- Every instruction of the code is harmless. -/
def HarmlessCode (s : Spec) : Prop := ∀ id c, s.program? id = some c → AllHarmless c.instructions

/-- Where partials that are found have the property of their caller, and only harmless code has it,
a program gives an escaped text on every level. -/
theorem Renderer.escapes_invokeAt {P : Spec → Prop} {r : Renderer} (helpers : r.env.OnlyBuiltins)
    (code : ∀ s, P s → HarmlessCode s)
    (found : ∀ s, P s → ∀ name,
      (r.partialSpec s.options name).Ensures fun found => ∀ t ∈ found, P t) :
    ∀ (level : Nat) (v : Visit), P v.spec → v.scope.Harmless P → (r.invokeAt level v).Escapes
  | 0, _, _, _ => Run.ensures_failRuntime _
  | level + 1, v, hspec, hscope => by
    rw [invokeAt_succ]
    refine Run.Ensures.nested ?_ v
    have place : (r.placeAt level v).Harmless P :=
      ⟨helpers, hspec, hscope, Renderer.escapes_invokeAt helpers code found level,
        found v.spec hspec⟩
    have chunk : (Run.ofExcept (chunk v.spec v.program)).Ensures fun c =>
        AllHarmless c.instructions :=
      Run.ensures_ofExcept fun c hc => code v.spec hspec v.program c (program?_of_chunk hc)
    exact Run.ensures_bind chunk fun c hc => escapes_textOf _ fun i hi => place.piece (hc i hi)

/-! ## Templates -/

/-- The code is harmless, and compiled under options that are alike. -/
def HarmlessFor (options : Options) (s : Spec) : Prop :=
  s.options.alike options = true ∧ HarmlessCode s

/-- The tree of a text that is harmless compiles to harmless code. -/
theorem harmlessFor_of_read {options o : Options} (escapes : options.noEscape = false)
    (alike : o.alike options = true) {name : Option String} {text : String} {tree : Tree.Located}
    (read : Template.read (o.readOptions name) text = .ok tree)
    (harmless : tree.Every Tree.Statement.Harmless) {s : Spec}
    (compiled : ({ options := o } : Compiler).compile tree = .ok s) : HarmlessFor options s := by
  refine ⟨(Compiler.main_of_compile compiled).2 ▸ alike, fun id c hc => ?_⟩
  obtain ⟨known, rfl, -⟩ := Options.alike_iff.1 alike
  obtain ⟨here, outer, -, hn, hcompiles⟩ :=
    Compiler.exists_nesting Code.Backend.keepsTags_standard compiled hc
  have hmem := List.mem_of_getElem? hn
  have hescapes : o.noEscape = false := escapes
  refine hcompiles.harmless hescapes (harmless.of_nestings [] 0 _ hmem) fun here' hhere t ht => ?_
  -- All indentation that is read is padding.
  have hpadded := (Template.padded_of_read read).of_nestings [] 0 _ hmem here' hhere t ht
  cases t with
  | partialCall p => exact Text.clean_of_isPad hpadded
  | _ => trivial

/-- Output injection safety. A template is harmless, as are the texts of the partials: no text in
them has a character in need of an entity, every value is shown escaped, and no block is one of the
helper `lookup`. Only the built-in helpers are registered, and the context and the data hold plain
values. Then the output is escaped, if there is any, at any nesting of blocks, partials and bodies
of partials, and whatever else the options say. -/
theorem render_escaped {env : Environment} {options : Options} (helpers : env.OnlyBuiltins)
    (escapes : options.noEscape = false) {name : Option String} {text : String}
    {tree : Tree.Located} (read : Template.read (options.readOptions name) text = .ok tree)
    (harmless : tree.Every Tree.Statement.Harmless)
    (sources : ∀ name spec, env.partials.get? name ≠ some (.compiled spec))
    (partials : ∀ name text tree, env.partials.get? name = some (.source text) →
      Template.read (options.readOptions (some name)) text = .ok tree →
        tree.Every Tree.Statement.Harmless)
    {spec : Spec} (compiled : ({ options } : Compiler).compile tree = .ok spec) {context : Value}
    (hcontext : context.Plain) (hdata : TablePlain env.data) {values : List Value}
    (hvalues : AllPlain values) {output : String}
    (h : (render env spec context values).result = .ok output) : Text.Escaped output.toList := by
  have main : HarmlessFor options spec :=
    harmlessFor_of_read escapes options.alike_refl read harmless compiled
  have found : ∀ s, HarmlessFor options s → ∀ name,
      ((Renderer.cached env spec.options).partialSpec s.options name).Ensures fun found =>
        ∀ t ∈ found, HarmlessFor options t := by
    rintro s ⟨halike, -⟩ name
    refine Run.ensures_ofExcept fun found hfound => ?_
    rintro t rfl
    rcases Library.found_cases hfound with hget | ⟨o, text, tree, ho, hget, hread, hcompiled⟩
    · exact absurd hget (sources name t)
    · -- The text is read and compiled under options alike those of its caller.
      have halike' := Options.alike_trans ho halike
      have hsame : o.readOptions (some name) = options.readOptions (some name) := by
        obtain ⟨known, rfl, -⟩ := Options.alike_iff.1 halike'
        rfl
      have hharmless := partials name text tree hget (hsame ▸ hread)
      exact harmlessFor_of_read escapes halike' hread hharmless hcompiled
  -- Nothing is lent to the main program.
  have root : (Scope.root context env.data values).Harmless (HarmlessFor options) :=
    .intro (Scope.plain_root hcontext hdata hvalues) nofun nofun
  have text : ((Renderer.cached env spec.options).text spec context values).Escapes :=
    Run.ensures_bind (Run.ensures_true _) fun _ _ =>
      Renderer.escapes_invokeAt helpers (fun _ hs => hs.2) found _ _ main root
  unfold render at h
  rw [Renderer.render_eq_text] at h
  exact text output h

/-! ### A list -/

/-- Shows every item of a list, then calls a partial. -/
def listText : String :=
  "\x7b\x7b#each items\x7d\x7d[\x7b\x7bthis\x7d\x7d]\x7b\x7b/each\x7d\x7d\x7b\x7b> by\x7d\x7d"

/-- The partial that the list calls. -/
def byText : String := " by \x7b\x7bname\x7d\x7d"

/-- The built-in helpers and the partial. -/
def listEnvironment : Environment :=
  { Environment.builtins with partials := [("by", .source byText)] }

/-- A list with characters in need of an entity. -/
def listContext : Value :=
  .object (.given 0)
    [("items", .array (.given 1) [.string "a<b", .string "c&d"]), ("name", .string "\"e\"")]

theorem listContext_plain : listContext.Plain :=
  .object ((tablePlain_nil.cons (.string _)).cons
    (.array ((allPlain_nil.cons (.string _)).cons (.string _))))

theorem render_escaped_list :
    ∃ tree spec output,
      Template.read (({} : Options).readOptions none) listText = .ok tree ∧
      ({} : Compiler).compile tree = .ok spec ∧
      (render listEnvironment spec listContext []).result = .ok output ∧
      output.toList = "[a&lt;b][c&amp;d] by &quot;e&quot;".toList ∧
      Text.Escaped output.toList := by
  obtain ⟨tree, read, hrest⟩ :
      ∃ tree, Template.read (({} : Options).readOptions none) listText = .ok tree ∧
        (decide (tree.Every Tree.Statement.Harmless) &&
          (({} : Compiler).compile tree).toOption.any fun spec =>
            (render listEnvironment spec listContext []).result.toOption.any fun output =>
              output.toList == "[a&lt;b][c&amp;d] by &quot;e&quot;".toList) = true :=
    exists_ok_of_any (by decide +kernel)
  obtain ⟨harmless, hrest⟩ := Bool.and_eq_true_iff.1 hrest
  obtain ⟨spec, compiled, hrest⟩ := exists_ok_of_any hrest
  obtain ⟨output, houtput, hsame⟩ := exists_ok_of_any hrest
  -- The text of the partial is harmless as well.
  obtain ⟨byTree, hread, hby⟩ :
      ∃ tree, Template.read (({} : Options).readOptions (some "by")) byText = .ok tree ∧
        decide (tree.Every Tree.Statement.Harmless) = true :=
    exists_ok_of_any (by decide +kernel)
  have sources : ∀ name spec, listEnvironment.partials.get? name ≠ some (.compiled spec) := by
    intro name spec h
    cases List.mem_singleton.1 (Table.mem_of_get? h)
  have partials : ∀ name text tree, listEnvironment.partials.get? name = some (.source text) →
      Template.read (({} : Options).readOptions (some name)) text = .ok tree →
        tree.Every Tree.Statement.Harmless := by
    intro name text tree h htree
    cases List.mem_singleton.1 (Table.mem_of_get? h)
    cases hread.symm.trans htree
    exact of_decide_eq_true hby
  refine ⟨tree, spec, output, read, compiled, houtput, eq_of_beq hsame, ?_⟩
  exact render_escaped (fun _ => rfl) rfl read (of_decide_eq_true harmless)
    sources partials compiled
    listContext_plain tablePlain_nil allPlain_nil houtput

end Stencil.Render
