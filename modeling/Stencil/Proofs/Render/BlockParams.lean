import Stencil.Proofs.Code.Addresses
import Stencil.Proofs.Render.Visits

/-!
# Block parameters

The addresses that the compiler gives to block parameters are those under which a rendering finds
them. Whenever a program is run, its scope has as many frames of block parameters as there are
programs around it in its own template, and each frame is that of a run of the program that it
belongs to (`Called.enclosed`). So an address, which counts programs outwards from the place where a
name is used, leads to the value that the innermost program that declares the name was passed for it
when it was entered (`Rendering.blockParams_enclosing`).
-/

set_option autoImplicit false

namespace Stencil.Tree

/-- The program `here`, so many programs out, declares the name at a place among its block
parameters, and no program further in declares it. -/
structure Nesting.Declares {ℓ : Type} (n : Nesting ℓ) (name : String) (depth index : Nat)
    (here : Opened ℓ) : Prop where
  out : n[depth]? = some here
  place : here.program.blockParams.findIdx? (· == name) = some index
  innermost : ∀ inner ∈ n.take depth, name ∉ inner.program.blockParams

/-- The address of a name among the frames of a nesting is that of the innermost program that
declares it. -/
theorem Nesting.exists_declares {ℓ : Type} {n : Nesting ℓ} {name : String} {depth index : Nat}
    (h : Code.Frames.find? (Nesting.frames n) name = some (depth, index)) :
    ∃ here, n.Declares name depth index here := by
  obtain ⟨⟨names, hout, hplace⟩, hinner⟩ := Code.Frames.find?_eq_some.1 h
  rw [Nesting.frames, List.getElem?_map] at hout
  obtain ⟨here, hhere, rfl⟩ := Option.map_eq_some_iff.1 hout
  refine ⟨here, hhere, hplace, fun inner hmem => ?_⟩
  rw [Nesting.frames, ← List.map_take] at hinner
  exact hinner _ (List.mem_map_of_mem hmem)

theorem Nesting.Declares.find?_eq {ℓ : Type} {n : Nesting ℓ} {name : String} {depth index : Nat}
    {here : Opened ℓ} (h : n.Declares name depth index here) :
    Code.Frames.find? (Nesting.frames n) name = some (depth, index) := by
  refine Code.Frames.find?_eq_some.2 ⟨⟨here.program.blockParams, ?_, h.place⟩, ?_⟩
  · rw [Nesting.frames, List.getElem?_map, h.out]
    rfl
  · rw [Nesting.frames, ← List.map_take]
    intro names hnames
    obtain ⟨inner, hinner, rfl⟩ := List.mem_map.1 hnames
    exact h.innermost inner hinner

/-- A name that no program declares has no address. -/
theorem Nesting.find?_eq_none {ℓ : Type} {n : Nesting ℓ} {name : String}
    (h : ∀ o ∈ n, name ∉ o.program.blockParams) :
    Code.Frames.find? (Nesting.frames n) name = none := by
  cases hfind : Code.Frames.find? (Nesting.frames n) name with
  | none => rfl
  | some address =>
    obtain ⟨here, hdeclares⟩ := Nesting.exists_declares hfind
    obtain ⟨hlt, hname, -⟩ := List.findIdx?_eq_some_iff_getElem.1 hdeclares.place
    rw [beq_iff_eq] at hname
    exact absurd (hname ▸ List.getElem_mem hlt) (h here (List.mem_of_getElem? hdeclares.out))

end Stencil.Tree

namespace Stencil.Render

open Stencil.Code (Spec Options Compiler Lookup)
open Stencil.Tree (Nesting)

/-! ## Frames -/

variable {r : Renderer} {template : Spec} {seen : Visit → Prop}

/-- A visit of compiled code has a frame of block parameters for each program around its own, and
the frames from one of them on are those of a visit of that program. -/
theorem Called.enclosed {options : Options} {tree : Tree.Located} :
    ∀ {v : Visit}, Called r template seen v →
      ({ options } : Compiler).compile tree = .ok v.spec →
        ∃ n, (tree.nestings [] 0)[v.program]? = some n ∧
          v.scope.blockParams.length = n.length ∧
          ∀ depth here, n[depth + 1]? = some here →
            ∃ u, seen u ∧ u.spec = v.spec ∧ u.program = here.id ∧
              u.scope.blockParams = v.scope.blockParams.drop (depth + 1)
  | _, .main reached frames lent, compiled => by
    -- Only the main program is around itself.
    have hlength := congrArg List.length frames
    exact ⟨[⟨0, tree⟩], Compiler.nestings_main compiled, hlength, fun depth here h => nomatch h⟩
  | _, @Called.nested _ _ _ u c id scope values before called chunk reference frames lent,
    compiled => by
    obtain ⟨n, hn, hlength, henclosing⟩ := called.enclosed compiled
    obtain ⟨child, here, outer, rfl, hhere, hparent, hchild, -⟩ :=
      Compiler.exists_opened_of_reference Code.Backend.keepsTags_standard compiled chunk reference
    rw [hparent] at hn
    obtain rfl := Option.some.inj hn
    -- The frames from the first one out are those of the visit that referred to the program.
    refine ⟨child :: here :: outer, hchild, ?_, fun depth enclosing henclosing' => ?_⟩
    · rw [frames, List.length_cons, hlength]
      rfl
    · rw [frames, List.drop_succ_cons]
      cases depth with
      | zero =>
        obtain rfl : here = enclosing := Option.some.inj henclosing'
        exact ⟨u, before, rfl, hhere.symm, rfl⟩
      | succ depth => exact henclosing depth enclosing henclosing'

/-- The frame so many out of a visited program of compiled code is that of a visit of the program so
many out. -/
theorem Rendering.exists_enclosing {env : Environment} {context : Value} {values : List Value}
    {trace : List Event} (h : Rendering env template context values trace) {v : Visit}
    (hv : .entered v ∈ trace) {options : Options} {tree : Tree.Located}
    (compiled : ({ options } : Compiler).compile tree = .ok v.spec) :
    ∃ n, (tree.nestings [] 0)[v.program]? = some n ∧
      v.scope.blockParams.length = n.length ∧
      ∀ depth here, n[depth]? = some here →
        ∃ u, .entered u ∈ trace ∧ u.spec = v.spec ∧ u.program = here.id ∧
          u.scope.blockParams = v.scope.blockParams.drop depth := by
  obtain ⟨n, hn, hlength, henclosing⟩ := (h.called hv).enclosed compiled
  refine ⟨n, hn, hlength, fun depth here hhere => ?_⟩
  cases depth with
  | succ depth => exact henclosing depth here hhere
  | zero =>
    obtain ⟨first, outer, rfl, hid⟩ := tree.numberedFrom_nestings [] 0 _ _ hn
    obtain rfl : first = here := Option.some.inj hhere
    exact ⟨v, hv, rfl, by omega, rfl⟩

/-- A block parameter in scope is the one that the innermost frame was given. -/
theorem resolve_blockParam {u v : Visit} {depth index : Nat}
    (h : u.scope.blockParams = v.scope.blockParams.drop depth) (env : Environment)
    (options : Options) (path : Lookup) (terminal : Bool) :
    resolve env options v.scope path terminal (.blockParam depth index) =
      .ok ((u.given[index]?).getD .undefined) := by
  have hgiven : u.given = (v.scope.blockParams[depth]?).getD [] := by
    unfold Visit.given
    rw [h, List.headD_eq_head?_getD, List.head?_drop]
  show Except.ok (v.scope.blockParam depth index) = _
  unfold Scope.blockParam
  rw [hgiven]
  cases v.scope.blockParams[depth]? with
  | none => rfl
  | some frame => rfl

/-- Whenever a program of compiled code is run, its scope has a frame of block parameters for each
program lexically around it, itself counted. Every lookup of its instructions that starts from a
block parameter is that of a path of the program, and its address leads to the frame of the
innermost program that declares the head of the path. The run of that program was passed one list of
values when it was entered, and what the address gives is the value at that index of them, undefined
if there are fewer. -/
theorem Rendering.blockParams_enclosing {env : Environment} {template : Spec} {context : Value}
    {values : List Value} {trace : List Event} (h : Rendering env template context values trace)
    {v : Visit} (hv : .entered v ∈ trace) :
    (IsCompiled template → env.Compiled → IsCompiled v.spec) ∧
      ∀ (options : Options) (tree : Tree.Located),
        ({ options } : Compiler).compile tree = .ok v.spec →
          ∃ n c, (tree.nestings [] 0)[v.program]? = some n ∧
            v.spec.program? v.program = some c ∧ ({ options } : Compiler).Compiles n c ∧
            v.scope.blockParams.length = n.length ∧
            ∀ l ∈ c.lookups, ∀ depth index, l.accessor.root = .blockParam depth index →
              ∃ p ∈ Nesting.paths n, p.spelling = l.spelling ∧ p.mark = l.loc ∧
                ∃ name here, p.head? = some name ∧ n.Declares name depth index here ∧
                  ∃ u, .entered u ∈ trace ∧ u.spec = v.spec ∧ u.program = here.id ∧
                    u.scope.blockParams = v.scope.blockParams.drop depth ∧
                    ∃ passed,
                      (∀ other,
                        Passed (Renderer.cached env template.options) template context values
                          (fun w => .entered w ∈ trace) u other ↔ other = passed) ∧
                      ∀ terminal,
                        resolve env v.spec.options v.scope l terminal (.blockParam depth index) =
                          .ok ((passed[index]?).getD .undefined) := by
  refine ⟨fun ht he => (h.called hv).reaches.isCompiled ht he, fun options tree compiled => ?_⟩
  obtain ⟨n, hn, hlength, henclosing⟩ := h.exists_enclosing hv compiled
  obtain ⟨c, hc, hcompiles⟩ :=
    Compiler.exists_chunk Code.Backend.keepsTags_standard compiled hn
  refine ⟨n, c, hn, hc, hcompiles, hlength, ?_⟩
  intro l hl depth index hroot
  -- The compiler took the address from the names of the nesting.
  obtain ⟨p, hp, hspelling, hmark, name, hhead, hname⟩ :=
    hcompiles.addressed Code.Backend.keepsTags_standard Code.Backend.keepsRoots_standard hl hroot
  obtain ⟨here, hdeclares⟩ := Nesting.exists_declares hname
  -- So many frames out there is the frame of a run of the program that declares the name, and what
  -- that run was passed is in it.
  obtain ⟨u, hu, hspec, hprogram, hframes⟩ := henclosing depth here hdeclares.out
  refine ⟨p, hp, hspelling, hmark, name, here, hhead, hdeclares, u, hu, hspec, hprogram, hframes,
    u.given, h.passed_iff hu, ?_⟩
  intro terminal
  exact resolve_blockParam hframes env v.spec.options l terminal

/-! ## Sections -/

/-- The path of one bare name. -/
def barePath (name : String) : Tree.Path (Option Text.Location) :=
  { parts := [name], spelling := name, mark := none }

/-- A template with the block parameter `x`, which a section over `y` shows. -/
def sectionTree : Tree.Located :=
  { body :=
      [.block
        { expr := .path (barePath "y")
          program := some
            { body := [.mustache { expr := .path (barePath "x"), escaped := true, mark := none }]
              blockParams := [], chained := false, mark := none }
          inverse := none, openStrip := {}, inverseStrip := {}, closeStrip := {}
          close := some (barePath "y"), mark := none }]
    blockParams := ["x"], chained := false, mark := none }

/-- The section as it is compiled. -/
def sectionSpec : Spec where
  stamp := { features := ⟨2⟩ }
  main := 0
  programs :=
    [{ instructions :=
        [.block
          { kind := .ambiguous
              { name := "y"
                helper := some (.member .helpers "y" .helper)
                value := some { accessor := .member (.context 0) "y" .context, spelling := "y" }
                params := [], hash := [], ids := none, loc := none }
            name := "y", program := some 1, inverse := none, loc := none }]
       blockParams := 1 },
      { instructions :=
          [.append (.lambda { accessor := .blockParam 1 0, spelling := "x" }) true]
        blockParams := 0 }]
  options := {}

/-- A context in which `y` holds, and which has an `x` of its own. -/
def sectionContext : Value := .object (.given 0) [("y", .bool true), ("x", .string "b")]

/-- The run of the section's program. -/
def sectionVisit : Visit :=
  ⟨sectionSpec, 1, (Scope.root sectionContext [] [.string "a"]).enter sectionContext []⟩

/-- A section over a name, whose program declares names. -/
def sectionOver (name : String) (names : List String)
    (body : List (Tree.Statement (Option Text.Location))) : Tree.Statement (Option Text.Location) :=
  .block
    { expr := .path (barePath name)
      program := some { body, blockParams := names, chained := false, mark := none }
      inverse := none, openStrip := {}, inverseStrip := {}, closeStrip := {}
      close := some (barePath name), mark := none }

/-- A template that goes over `y`, calls each item `x`, and shows it from within a section over
it. -/
def itemsTree : Tree.Located :=
  { body :=
      [sectionOver "y" ["x"]
        [sectionOver "x" []
          [.mustache { expr := .path (barePath "x"), escaped := true, mark := none }]]]
    blockParams := [], chained := false, mark := none }

/-- That template as it is compiled. -/
def itemsSpec : Spec where
  stamp := { features := ⟨2⟩ }
  main := 0
  programs :=
    [{ instructions :=
        [.block
          { kind := .ambiguous
              { name := "y"
                helper := some (.member .helpers "y" .helper)
                value := some { accessor := .member (.context 0) "y" .context, spelling := "y" }
                params := [], hash := [], ids := none, loc := none }
            name := "y", program := some 1, inverse := none, loc := none }]
       blockParams := 0 },
      { instructions :=
          [.block
            { kind := .section (.lambda { accessor := .blockParam 0 0, spelling := "x" })
              name := "x", program := some 2, inverse := none, loc := none }]
        blockParams := 1 },
      { instructions :=
          [.append (.lambda { accessor := .blockParam 1 0, spelling := "x" }) true]
        blockParams := 0 }]
  options := {}

/-- A context with two items, and an `x` of its own. -/
def itemsContext : Value :=
  .object (.given 0)
    [("y", .array (.given 1) [.string "a", .string "b"]), ("x", .string "c")]

/-- The run of the inner section's program for the second item. -/
def itemVisit : Visit :=
  let outer : Scope :=
    ((Scope.root itemsContext [] []).enter (.string "b") [.string "b", .int 1]).withData
      [("key", .int 1), ("index", .int 1), ("first", .bool false), ("last", .bool true)]
  ⟨itemsSpec, 2, outer.enter (.string "b") []⟩

/-- For the second item, `x` stands one program further out. The run of that program was passed the
item and its index, and `x` is the item. -/
theorem blockParams_enclosing_items :
    ∃ n, (itemsTree.nestings [] 0)[2]? = some n ∧ n.length = 3 ∧
      ∃ here, n.Declares "x" 1 0 here ∧
        ∃ u : Visit, u.program = here.id ∧
          (∀ passed,
            Passed (Renderer.cached {} {}) itemsSpec itemsContext []
              (fun w => .entered w ∈ (render {} itemsSpec itemsContext []).trace) u passed ↔
              passed = [.string "b", .int 1]) ∧
          resolve {} {} itemVisit.scope { accessor := .blockParam 1 0, spelling := "x" } true
            (.blockParam 1 0) = .ok (.string "b") := by
  -- Before it come the main program, both programs for the first item, and the outer one for the
  -- second.
  have hv : .entered itemVisit ∈ (render {} itemsSpec itemsContext []).trace :=
    List.mem_of_getElem? (i := 6) rfl
  obtain ⟨-, h⟩ := Rendering.blockParams_enclosing
    (rendering_render {} itemsSpec itemsContext []) hv
  obtain ⟨n, c, hn, hc, -, hlength, hlookups⟩ := h {} itemsTree rfl
  obtain rfl : itemsSpec.programs[2] = c := Option.some.inj hc
  obtain ⟨p, hp, -, -, name, here, hhead, hdeclares, u, -, -, hprogram, hframes, passed, hpassed,
    hvalue⟩ := hlookups _ List.mem_cons_self 1 0 rfl
  -- The only path of the inner program is `x`.
  obtain rfl := Option.some.inj hn
  obtain rfl : p = barePath "x" := List.mem_singleton.1 hp
  obtain rfl : "x" = name := Option.some.inj hhead
  have hgiven : passed = [.string "b", .int 1] := by
    rw [((hpassed passed).2 rfl).eq_given]
    show u.scope.blockParams.headD [] = _
    rw [hframes]
    rfl
  rw [hgiven] at hpassed hvalue
  exact ⟨_, hn, hlength.symm, here, hdeclares, u, hprogram, hpassed, hvalue true⟩

end Stencil.Render
