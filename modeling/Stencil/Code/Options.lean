import Stencil.Json.Decode
import Stencil.Template

/-!
# Options of the compiler

What a template assumes about names, strictness and context, and the table of
helpers it may count on. The options travel with compiled code.
-/

set_option autoImplicit false

namespace Stencil.Code

/-- How many parameters a known helper takes. -/
inductive Arity where
  | any
  | exactly (count : Nat)
deriving DecidableEq

/-- The helpers that a template may count on. A bare name among them is always a
call. -/
abbrev KnownHelpers : Type := Table Arity

/-- The helpers that come with the library. -/
def KnownHelpers.standard : KnownHelpers :=
  [("if", .exactly 1), ("unless", .exactly 1), ("with", .exactly 1), ("each", .exactly 1),
    ("lookup", .exactly 2), ("log", .any)]

/-- The options of the compiler. -/
structure Options where
  /-- Missing properties and helpers are errors instead of rendering as nothing. -/
  strict : Bool := false
  /-- Bare names are looked for in all enclosing contexts. -/
  compat : Bool := false
  /-- Following a path through null or undefined is an error. -/
  assumeObjects : Bool := false
  /-- The indentation of a partial is written once, not on every line. -/
  preventIndent : Bool := false
  knownHelpers : KnownHelpers := KnownHelpers.standard
  /-- Only known helpers may be called. -/
  knownHelpersOnly : Bool := false
  /-- Helpers learn the paths of their parameters. -/
  trackIds : Bool := false
  /-- Output is never escaped. -/
  noEscape : Bool := false
  /-- A partial without a context parameter sees no context. -/
  explicitPartialContext : Bool := false
  ignoreStandalone : Bool := false
  trackLocations : Bool := true
deriving DecidableEq

/-- The options with which the compiler reads a template of the given name. -/
def Options.readOptions (o : Options) (sourceName : Option String) : Template.ReadOptions where
  trackLocations := o.trackLocations
  ignoreStandalone := o.ignoreStandalone
  sourceName := sourceName

/-- Whether two sets of options agree; the order of known helpers does not
count. -/
def Options.alike (o p : Options) : Bool :=
  decide ({ o with knownHelpers := [] } = { p with knownHelpers := [] }) &&
    Table.alike o.knownHelpers p.knownHelpers

/-- Alike options differ at most in the order of their known helpers. -/
theorem Options.alike_iff {o p : Options} :
    o.alike p = true ↔
      ∃ known : KnownHelpers, p = { o with knownHelpers := known } ∧
        ∀ name, known.get? name = o.knownHelpers.get? name := by
  rw [Options.alike, Bool.and_eq_true, decide_eq_true_eq, Table.alike_iff]
  constructor
  · rintro ⟨hrest, hknown⟩
    refine ⟨p.knownHelpers, ?_, fun name => (hknown name).symm⟩
    exact congrArg (fun q : Options => { q with knownHelpers := p.knownHelpers }) hrest.symm
  · rintro ⟨known, rfl, hknown⟩
    exact ⟨rfl, fun name => (hknown name).symm⟩

theorem Options.alike_refl (o : Options) : o.alike o = true :=
  Options.alike_iff.2 ⟨o.knownHelpers, rfl, fun _ => rfl⟩

theorem Options.alike_trans {o p q : Options} (hop : o.alike p = true) (hpq : p.alike q = true) :
    o.alike q = true := by
  obtain ⟨known, rfl, hknown⟩ := Options.alike_iff.1 hop
  obtain ⟨known', rfl, hknown'⟩ := Options.alike_iff.1 hpq
  exact Options.alike_iff.2 ⟨known', rfl, fun name => (hknown' name).trans (hknown name)⟩

/-! ## Interchange -/

/-- An arity as JSON. -/
def Arity.toJson : Arity → Json
  | .any => .str "any"
  | .exactly n => .obj [("exactly", .int n)]

/-- Reads an arity. -/
def Arity.ofJson? (j : Json) : Option Arity :=
  match j.variant? with
  | some ("any", .null) => some .any
  | some ("exactly", data) => (Json.word64? data).map .exactly
  | _ => none

/-- A table of known helpers as JSON. -/
def KnownHelpers.toJson (t : KnownHelpers) : Json := .obj (Table.mapValues Arity.toJson t)

/-- Options as JSON. -/
def Options.toJson (o : Options) : Json :=
  .obj
    [("strict", .bool o.strict), ("compat", .bool o.compat),
      ("assumeObjects", .bool o.assumeObjects), ("preventIndent", .bool o.preventIndent),
      ("knownHelpers", KnownHelpers.toJson o.knownHelpers),
      ("knownHelpersOnly", .bool o.knownHelpersOnly), ("trackIds", .bool o.trackIds),
      ("noEscape", .bool o.noEscape),
      ("explicitPartialContext", .bool o.explicitPartialContext),
      ("ignoreStandalone", .bool o.ignoreStandalone),
      ("trackLocations", .bool o.trackLocations)]

/-- Reads options. A missing one has its default; a table of known helpers
replaces the default one. -/
def Options.ofJson? (j : Json) : Option Options := do
  let d : Options := {}
  let r ← j.record? 11
  let strict ← r.withDefault 0 "strict" d.strict Json.bool?
  let compat ← r.withDefault 1 "compat" d.compat Json.bool?
  let assumeObjects ← r.withDefault 2 "assumeObjects" d.assumeObjects Json.bool?
  let preventIndent ← r.withDefault 3 "preventIndent" d.preventIndent Json.bool?
  let knownHelpers ← r.withDefault 4 "knownHelpers" d.knownHelpers (Json.table? Arity.ofJson?)
  let knownHelpersOnly ← r.withDefault 5 "knownHelpersOnly" d.knownHelpersOnly Json.bool?
  let trackIds ← r.withDefault 6 "trackIds" d.trackIds Json.bool?
  let noEscape ← r.withDefault 7 "noEscape" d.noEscape Json.bool?
  let explicitPartialContext ←
    r.withDefault 8 "explicitPartialContext" d.explicitPartialContext Json.bool?
  let ignoreStandalone ← r.withDefault 9 "ignoreStandalone" d.ignoreStandalone Json.bool?
  let trackLocations ← r.withDefault 10 "trackLocations" d.trackLocations Json.bool?
  pure { strict, compat, assumeObjects, preventIndent, knownHelpers, knownHelpersOnly, trackIds,
         noEscape, explicitPartialContext, ignoreStandalone, trackLocations }

end Stencil.Code
