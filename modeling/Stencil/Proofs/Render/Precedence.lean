import Stencil.Proofs.Render.BlockParams

/-!
# Precedence

What a bare name stands for. With default options a tag of one bare name shows, in this order, the
innermost block parameter of the name, the helper that is registered under it, and the property of
the current context; the name of a known helper that is not registered gives undefined instead of
the property (`Rendering.bareNames_inOrder`). The compiler decides as much as it knows
(`Frames.operand`) and leaves the registered helpers to the rendering, which asks for them under
bare names only (`resolve_congr_env`).
-/

set_option autoImplicit false

namespace Stencil.Tree

/-- A bare name is a path of this one name, from the current context. -/
theorem Path.bare_of_isSimple {ℓ : Type} {p : Path ℓ} {name : String} (h : p.isSimple = true)
    (hname : p.head? = some name) :
    p.parts = [name] ∧ p.depth = 0 ∧ p.data = false ∧ p.isScoped = false := by
  simp only [isSimple, Bool.and_eq_true, beq_iff_eq, Bool.not_eq_true'] at h
  obtain ⟨⟨⟨hlength, hdepth⟩, hdata⟩, hscoped⟩ := h
  obtain ⟨part, hparts⟩ := List.length_eq_one_iff.1 hlength
  rw [head?, hparts] at hname
  obtain rfl : part = name := Option.some.inj hname
  exact ⟨hparts, hdepth, hdata, hscoped⟩

end Stencil.Tree

namespace Stencil.Code

open Stencil.Text (Location)
open Stencil.Tree (Expr Path)
open Compiling (Gives gives_pure gives_bind gives_map gives_guard)

/-! ## Bare names in code -/

/-- A bare name as a call of a helper, or of a function that is found as a value. -/
def bareCall (p : Path (Option Location)) (name : String) (value : Option Lookup) : Call where
  name := p.spelling
  helper := some (.member .helpers name .helper)
  value := value
  params := []
  hash := []
  ids := none
  loc := p.mark

/-- What a bare name is compiled to: a block parameter if a program around declares it, else a
helper if it is that of a known one, else whichever of a helper and a property there is. -/
def Frames.operand (frames : Frames) (p : Path (Option Location)) (name : String) : Operand :=
  match frames.find? name with
  | some (depth, index) =>
    .lambda { accessor := .blockParam depth index, spelling := p.spelling, loc := p.mark }
  | none =>
    if KnownHelpers.standard.contains name then .call (bareCall p name none)
    else
      .ambiguous
        (bareCall p name
          (some
            { accessor := .member (.context 0) name .context
              spelling := p.spelling
              loc := p.mark }))

/-- A head that is no bare name is either a call or the value of a path. -/
theorem Form.kind_ne_ambiguous {options : Options} {frames : Frames} {f : Form}
    (h : f.path.isSimple = false) : f.kind options frames ≠ .ambiguous := by
  intro hkind
  rw [(Form.of_kind_ambiguous hkind).1] at h
  cases h

variable {frames : Frames} {p : Path (Option Location)} {name : String}

theorem Frames.operand_of_known (undeclared : frames.find? name = none)
    (known : KnownHelpers.standard.contains name = true) :
    frames.operand p name = .call (bareCall p name none) := by
  unfold Frames.operand
  rw [undeclared, known]
  rfl

theorem Frames.operand_of_unknown (undeclared : frames.find? name = none)
    (unknown : KnownHelpers.standard.contains name = false) :
    frames.operand p name =
      .ambiguous
        (bareCall p name
          (some
            { accessor := .member (.context 0) name .context
              spelling := p.spelling
              loc := p.mark })) := by
  unfold Frames.operand
  rw [undeclared, unknown]
  rfl

/-- Where a bare name is looked up. -/
theorem Compiler.gives_lookup_bare (simple : p.isSimple = true) (head : p.head? = some name)
    {l : Lookup} (h : Gives (({} : Compiler).lookup frames p false) l) :
    l =
      { accessor :=
          match frames.find? name with
          | some (depth, index) => .blockParam depth index
          | none => .member (.context 0) name .context
        spelling := p.spelling
        loc := p.mark } := by
  obtain ⟨hparts, hdepth, hdata, hscoped⟩ := Path.bare_of_isSimple simple head
  unfold Compiler.lookup at h
  obtain ⟨⟨base, steps, kind⟩, hstart, h⟩ := gives_bind (gives_guard h)
  obtain rfl := gives_pure.1 h
  unfold Compiler.start at hstart
  replace hstart := gives_guard hstart
  simp only [head, hparts, hdepth, hdata, hscoped, Option.bind_some] at hstart
  cases hfind : frames.find? name with
  | some address =>
    rw [hfind] at hstart
    obtain ⟨_, -, hstart⟩ := gives_bind hstart
    obtain ⟨rfl, rfl, rfl⟩ := gives_pure.1 hstart
    rfl
  | none =>
    rw [hfind] at hstart
    obtain ⟨rfl, rfl, rfl⟩ := gives_pure.1 hstart
    rfl

theorem Form.head_ofExpr_path (head : p.head? = some name) :
    (Form.ofExpr (.path p)).head = name := by
  show p.head?.getD "" = name
  rw [head, Option.getD_some]

/-- A known helper is looked up under its name only. -/
theorem Compiler.gives_call_bare (simple : p.isSimple = true) (head : p.head? = some name)
    (known : KnownHelpers.standard.contains name = true) {c : Call}
    (h : Gives (({} : Compiler).call frames (Form.ofExpr (.path p))
      (({} : Compiler).arguments frames (Form.ofExpr (.path p)))) c) :
    c = bareCall p name none := by
  obtain ⟨harguments, hspelling, hloc, hids, -, hhelper, hvalue⟩ := gives_call h
  have hsimple : (Form.ofExpr (.path p)).path.isSimple = true := simple
  have hknown : (true && KnownHelpers.standard.contains name) = true := known
  rw [Form.head_ofExpr_path head, hsimple] at hhelper hvalue
  rw [hknown] at hvalue
  -- There are no arguments to compile.
  obtain ⟨params, hparams, harguments⟩ := gives_bind harguments
  obtain ⟨hash, hhash, harguments⟩ := gives_bind harguments
  obtain rfl := gives_pure.1 hparams
  obtain rfl := gives_pure.1 hhash
  have hboth := gives_pure.1 harguments
  cases c
  cases hboth
  cases hspelling
  cases hloc
  cases hids
  cases hhelper
  cases hvalue
  rfl

/-- With default options a tag of a bare name is compiled to the operand of that name. -/
theorem Compiler.gives_shown_bare (simple : p.isSimple = true) (head : p.head? = some name)
    {o : Operand} (h : Gives (({} : Compiler).shown frames (.path p)) o) :
    o = frames.operand p name := by
  have hname := Form.head_ofExpr_path head
  have hkind : (Form.ofExpr (.path p)).kind {} frames =
      if (frames.find? name).isSome then .value
      else if KnownHelpers.standard.contains name then .call else .ambiguous := by
    have hpath : (Form.ofExpr (.path p)).path = p := rfl
    unfold Form.kind
    rw [hname, hpath, simple, head]
    rfl
  rw [Compiler.shown, hkind] at h
  -- A declared name is a block parameter, a known one a call, and any other may be either.
  cases hfind : frames.find? name with
  | some address =>
    rw [hfind] at h
    obtain ⟨l, hl, rfl⟩ := gives_map h
    rw [gives_lookup_bare simple head hl, Frames.operand, hfind]
  | none =>
    rw [hfind] at h
    cases hknown : KnownHelpers.standard.contains name with
    | true =>
      rw [hknown] at h
      obtain ⟨c, hc, rfl⟩ := gives_map h
      rw [gives_call_bare simple head hknown hc, Frames.operand_of_known hfind hknown]
    | false =>
      rw [hknown] at h
      obtain ⟨c, hc, rfl⟩ := gives_map h
      obtain ⟨l, hl, rfl⟩ := gives_ambiguousCall hc
      rw [gives_lookup_bare simple head hl, hfind, hname, Frames.operand_of_unknown hfind hknown]
      rfl

end Stencil.Code

namespace Stencil.Render

open Stencil.Text (Location)
open Stencil.Code (Spec Options Compiler Frames KnownHelpers Accessor Lookup Operand Call BlockKind
  Instruction Form bareCall)
open Stencil.Code.Compiling (Gives gives_pure gives_map)
open Stencil.Tree (Expr Path Nesting)

/-! ## Values of bare names -/

namespace Place

variable (at_ : Place) (p : Path (Option Location))

/-- Calls the function that a bare name stands for: with no parameters and no named arguments. -/
def applyBare (f : FunctionId) : Run Value :=
  at_.apply {} f (at_.helperCall [] p.spelling [] [] none p.mark {})

/-- What a bare name gives that stands for a value: a function is called. -/
def called : Value → Run Value
  | .function f => at_.applyBare p f
  | v => pure v

end Place

/-- What a tag shows of a value. -/
def output (escaped : Bool) (value : Run Value) : Run Append := do
  let v ← value
  pure ⟨if escaped && !v.isSafe then Text.escape v.text else v.text, true⟩

variable {at_ : Place} {p : Path (Option Location)} {name : String} {frames : Frames}

/-- A tag of a declared name shows the block parameter. -/
theorem operand_declared {depth index : Nat} (declared : frames.find? name = some (depth, index))
    {v : Value}
    (value : ∀ l : Lookup, resolve at_.frame.env at_.spec.options at_.scope l true
      (.blockParam depth index) = .ok v) :
    at_.operand [] (frames.operand p name) = at_.called p v := by
  rw [Frames.operand, declared]
  show at_.operand [] (.lambda _) = _
  rw [Place.operand, Place.lookup, Render.lookup, value]
  cases v <;> rfl

/-- A bare name stands for the helper that is registered under it. -/
theorem callee_registered {value : Option Lookup} {f : FunctionId}
    (registered : at_.frame.env.helpers.get? name = some f) :
    at_.callee (some (.member .helpers name .helper)) value = pure (.helper f) := by
  unfold Place.callee Render.callee lookupBare Render.lookup
  simp only [resolve, registered]
  rfl

/-- A bare name under which no helper is registered stands for its value. -/
theorem callee_unregistered {value : Option Lookup}
    (unregistered : at_.frame.env.helpers.get? name = none) :
    at_.callee (some (.member .helpers name .helper)) value = at_.callee none value := by
  unfold Place.callee Render.callee lookupBare Render.lookup
  simp only [resolve, unregistered]
  rfl

/-- A tag of a name that is not declared shows what the helper of this name gives. -/
theorem operand_registered (undeclared : frames.find? name = none) {f : FunctionId}
    (registered : at_.frame.env.helpers.get? name = some f) :
    at_.operand [] (frames.operand p name) = at_.applyBare p f := by
  cases hknown : KnownHelpers.standard.contains name with
  | true =>
    rw [Frames.operand_of_known undeclared hknown, Place.operand, bareCall, Place.call,
      callee_registered registered]
    rfl
  | false =>
    rw [Frames.operand_of_unknown undeclared hknown, Place.operand, bareCall, Place.ambiguous,
      callee_registered registered]
    rfl

theorem operand_known (undeclared : frames.find? name = none)
    (unregistered : at_.frame.env.helpers.get? name = none)
    (known : KnownHelpers.standard.contains name = true) :
    at_.operand [] (frames.operand p name) = pure .undefined := by
  rw [Frames.operand_of_known undeclared known, Place.operand, bareCall, Place.call,
    callee_unregistered unregistered]
  rfl

/-- The property of the current context, where nothing has to exist. -/
theorem resolve_property {env : Environment} {options : Options} {scope : Scope} {path : Lookup}
    (lenient : options.strict = false ∧ options.assumeObjects = false)
    (optional : path.requireTerminal = false) :
    resolve env options scope path true (.member (.context 0) name .context) =
      .ok (scope.context.property name) := by
  have hcontext : (scope.contexts[0]?).getD .undefined = scope.context := by
    rw [Scope.context, List.headD_eq_head?_getD, List.head?_eq_getElem?]
  simp only [resolve, hcontext]
  unfold memberOf
  rw [lenient.1, lenient.2, optional]
  cases scope.context <;> rfl

theorem operand_property
    (lenient : at_.spec.options.strict = false ∧ at_.spec.options.assumeObjects = false)
    (undeclared : frames.find? name = none)
    (unregistered : at_.frame.env.helpers.get? name = none)
    (unknown : KnownHelpers.standard.contains name = false) :
    at_.operand [] (frames.operand p name) = at_.called p (at_.scope.context.property name) := by
  rw [Frames.operand_of_unknown undeclared unknown, Place.operand, bareCall, Place.ambiguous,
    callee_unregistered unregistered]
  unfold Place.callee Render.callee Render.lookup
  simp only [resolve_property lenient]
  cases at_.scope.context.property name <;> rfl

/-! ## Heads that are no bare names -/

/-- Only what starts from the helpers depends on the environment. -/
theorem resolve_congr_env (env env' : Environment) (options : Options) (scope : Scope)
    (path : Lookup) (terminal : Bool) (accessor : Accessor) (h : accessor.root ≠ .helpers) :
    resolve env options scope path terminal accessor =
      resolve env' options scope path terminal accessor := by
  refine resolve_congr options.alike_refl rfl path terminal accessor fun name hname => ?_
  rw [Accessor.helper?_eq_none h] at hname
  cases hname

/-- What is looked up does not depend on the environment, so not on the helpers that it has. -/
def LookupIgnoresHelpers (l : Lookup) : Prop :=
  ∀ (env env' : Environment) (options : Options) (scope : Scope),
    lookup env options scope l = lookup env' options scope l

/-- What the head of a call stands for does not depend on the environment. -/
def CalleeIgnoresHelpers (c : Call) : Prop :=
  ∀ (env env' : Environment) (options : Options) (scope : Scope),
    callee env options scope c.helper c.value = callee env' options scope c.helper c.value

/-- The head of an operand stands for the same in every environment; its arguments need not. -/
def HeadIgnoresHelpers : Operand → Prop
  | .literal _ => True
  | .lookup l | .lambda l => LookupIgnoresHelpers l
  | .call c | .ambiguous c => CalleeIgnoresHelpers c

/-- What opens a block stands for the same in every environment; its arguments need not. -/
def OpeningIgnoresHelpers : BlockKind → Prop
  | .helper c | .ambiguous c => CalleeIgnoresHelpers c
  | .section o => HeadIgnoresHelpers o

section Heads

variable {compiler : Compiler} (keeps : compiler.backend.KeepsRoots)

include keeps

theorem lookup_ignoresHelpers {terminal : Bool} {l : Lookup}
    (h : Gives (compiler.lookup frames p terminal) l) : LookupIgnoresHelpers l := by
  intro env env' options scope
  obtain ⟨hrooted, -, -⟩ := Compiler.lookup_rooted keeps h
  exact resolve_congr_env env env' options scope l true l.accessor hrooted.ne_helpers

/-- A call whose head is no bare name asks for no helper, and finds the value of its path. -/
theorem call_ignoresHelpers {f : Form} (hf : f.path.isSimple = false)
    {arguments : Code.Compiling (List Operand × Table Operand)} {c : Call}
    (h : Gives (compiler.call frames f arguments) c) : CalleeIgnoresHelpers c := by
  intro env env' options scope
  obtain ⟨-, -, -, -, -, hhelper, hvalue⟩ := Compiler.gives_call h
  rw [hf] at hhelper hvalue
  obtain ⟨l, hl, hgives⟩ := hvalue
  have hlookup := lookup_ignoresHelpers keeps hgives env env' options scope
  rw [hhelper, hl]
  unfold callee
  simp only [Bool.false_eq_true, if_false, hlookup]

variable {e : Expr (Option Location)} (he : (Form.ofExpr e).path.isSimple = false)

include he

theorem shown_ignoresHelpers {o : Operand} (h : Gives (compiler.shown frames e) o) :
    HeadIgnoresHelpers o := by
  rcases Compiler.gives_shown h with ⟨-, c, rfl, hc⟩ | ⟨hkind, -⟩ | ⟨-, l, rfl, hl⟩
  · exact call_ignoresHelpers keeps he hc
  · exact absurd hkind (Form.kind_ne_ambiguous he)
  · exact lookup_ignoresHelpers keeps hl

theorem blockKind_ignoresHelpers {kind : BlockKind} (h : Gives (compiler.blockKind frames e) kind) :
    OpeningIgnoresHelpers kind := by
  rcases Compiler.gives_blockKind h with ⟨-, c, rfl, hc⟩ | ⟨hkind, -⟩ | ⟨-, l, rfl, hl⟩
  · exact call_ignoresHelpers keeps he hc
  · exact absurd hkind (Form.kind_ne_ambiguous he)
  · exact lookup_ignoresHelpers keeps hl

theorem operand_ignoresHelpers {o : Operand} (h : Gives (compiler.operand frames e) o) :
    HeadIgnoresHelpers o := by
  cases e with
  | path p =>
    obtain ⟨l, hl, rfl⟩ := gives_map h
    exact lookup_ignoresHelpers keeps hl
  | call c =>
    rcases Compiler.gives_operand_call h with ⟨-, c, rfl, hc⟩ | ⟨hkind, -⟩ | ⟨-, l, rfl, hl⟩
    · exact call_ignoresHelpers keeps he hc
    · exact absurd hkind (Form.kind_ne_ambiguous he)
    · exact lookup_ignoresHelpers keeps hl
  | _ =>
    obtain rfl := gives_pure.1 h
    trivial

end Heads

/-! ## In order of precedence -/

/-- What a tag of one bare name shows: the innermost block parameter of the name, which is what a
run of the program that declares it was given; else what the helper gives that is registered under
the name; else, if the name is that of a known helper, `unregistered`; else the property of the
current context. -/
structure Place.ShowsInOrder (at_ : Place) (unregistered : Run Value) (trace : List Event)
    (n : Nesting (Option Location)) (p : Path (Option Location)) (name : String)
    (shown : Run Value) : Prop where
  blockParam : ∀ depth index here, n.Declares name depth index here →
    ∃ u, .entered u ∈ trace ∧ u.spec = at_.spec ∧ u.program = here.id ∧
      u.scope.blockParams = at_.scope.blockParams.drop depth ∧
      shown = at_.called p ((u.given[index]?).getD .undefined)
  helper : (∀ o ∈ n, name ∉ o.program.blockParams) →
    ∀ f, at_.frame.env.helpers.get? name = some f → shown = at_.applyBare p f
  known : (∀ o ∈ n, name ∉ o.program.blockParams) →
    at_.frame.env.helpers.get? name = none → KnownHelpers.standard.contains name = true →
      shown = unregistered
  property : (∀ o ∈ n, name ∉ o.program.blockParams) →
    at_.frame.env.helpers.get? name = none → KnownHelpers.standard.contains name = false →
      shown = at_.called p (at_.scope.context.property name)

/-- A visit gives the pieces of its instructions one after the other, and each of its tags of one
bare name shows what comes first of what the name may stand for. -/
def Renderer.VisitsInOrder (r : Renderer) (unregistered : Path (Option Location) → Run Value)
    (trace : List Event) (tree : Tree.Located) (v : Visit) : Prop :=
  ∃ n c, (tree.nestings [] 0)[v.program]? = some n ∧ v.spec.program? v.program = some c ∧
    (∀ level, r.invokeAt (level + 1) v =
      Run.nested v (textOf v.spec.options.strict (r.placeAt level v).piece c.instructions)) ∧
    List.Forall₂
      (fun t i => ∀ m p name, t.2 = .mustache m → m.expr = .path p → p.isSimple = true →
        p.head? = some name → ∀ level, ∃ shown,
          (r.placeAt level v).piece i = output m.escaped shown ∧
            (r.placeAt level v).ShowsInOrder (unregistered p) trace n p name shown)
      (Nesting.tags n) (Instruction.tags c.instructions)

/-- With default options a tag of one bare name shows the innermost block parameter of the name,
whatever helpers there are and whatever the context holds; else what the helper gives that is
registered under the name, called without arguments; else undefined, if the name is that of a known
helper; else the property of the current context. A function that is found as a value is called.
What the run of a program is given for its block parameters is what it was passed when it was
entered. A head that is no bare name stands for the same whatever helpers are registered. -/
theorem Rendering.bareNames_inOrder {env : Environment} {template : Spec} {context : Value}
    {values : List Value} {trace : List Event} (h : Rendering env template context values trace)
    {v : Visit} (hv : .entered v ∈ trace) {tree : Tree.Located}
    (compiled : ({} : Compiler).compile tree = .ok v.spec) :
    (Renderer.cached env template.options).VisitsInOrder (fun _ => pure .undefined) trace tree v ∧
      (∀ u, .entered u ∈ trace → ∀ passed,
        Passed (Renderer.cached env template.options) template context values
          (fun w => .entered w ∈ trace) u passed ↔ passed = u.given) ∧
      ∀ (options : Options) (frames : Frames) (e : Expr (Option Location)),
        (Form.ofExpr e).path.isSimple = false →
          (∀ o, Gives (({ options } : Compiler).shown frames e) o → HeadIgnoresHelpers o) ∧
          (∀ o, Gives (({ options } : Compiler).operand frames e) o → HeadIgnoresHelpers o) ∧
          ∀ kind, Gives (({ options } : Compiler).blockKind frames e) kind →
            OpeningIgnoresHelpers kind := by
  have keeps := Code.Backend.keepsRoots_standard
  refine ⟨?_, fun u hu => h.passed_iff hu, fun options frames e he =>
    ⟨fun o => shown_ignoresHelpers keeps he, fun o => operand_ignoresHelpers keeps he,
      fun kind => blockKind_ignoresHelpers keeps he⟩⟩
  obtain ⟨n, hn, -, henclosing⟩ := h.exists_enclosing hv compiled
  obtain ⟨c, hc, hcompiles⟩ :=
    Compiler.exists_chunk Code.Backend.keepsTags_standard compiled hn
  have hoptions : v.spec.options = {} := (Compiler.main_of_compile compiled).2
  refine ⟨n, c, hn, hc, fun level => ?_, ?_⟩
  · rw [Renderer.invokeAt_succ, Renderer.chunk, hc]
    rfl
  -- The instruction of a tag of a bare name appends the operand of that name.
  refine (hcompiles.emits Code.Backend.keepsTags_standard).imp fun t i hemits => ?_
  intro m p name ht hm simple head level
  rw [ht] at hemits
  cases hemits with
  | @mustache _ value hshown =>
    rw [hm] at hshown
    obtain rfl := Compiler.gives_shown_bare simple head hshown
    refine ⟨_, by rw [Bool.not_false, Bool.and_true]; rfl, ?_⟩
    constructor
    case blockParam =>
      intro depth index here hdeclares
      -- So many frames out there is the frame of a run of the program that declares the name.
      obtain ⟨u, hu, hspec, hprogram, hframes⟩ := henclosing depth here hdeclares.out
      refine ⟨u, hu, hspec, hprogram, hframes, ?_⟩
      exact operand_declared hdeclares.find?_eq fun l =>
        resolve_blockParam hframes env v.spec.options l true
    case helper =>
      intro undeclared f registered
      exact operand_registered (Nesting.find?_eq_none undeclared) registered
    case known =>
      intro undeclared unregistered known
      exact operand_known (Nesting.find?_eq_none undeclared) unregistered known
    case property =>
      intro undeclared unregistered unknown
      have lenient : v.spec.options.strict = false ∧ v.spec.options.assumeObjects = false := by
        rw [hoptions]
        exact ⟨rfl, rfl⟩
      exact operand_property lenient (Nesting.find?_eq_none undeclared) unregistered unknown

/-- An environment with a helper of the name `x`. -/
def environmentWithX : Environment := { helpers := [("x", .builtin .logHelper)] }

/-- In the section, `x` shows what the template was given for it, though there are a helper and a
property of this name; and `x.z` would stand for the same in every environment. -/
theorem bareNames_inOrder_section :
    ((Renderer.cached environmentWithX {}).placeAt 62 sectionVisit).piece
          (.append (.lambda { accessor := .blockParam 1 0, spelling := "x" }) true) =
        output true (pure (.string "a")) ∧
      HeadIgnoresHelpers
        (.lambda { accessor := .member (.blockParam 1 0) "z" .context, spelling := "x.z" }) := by
  have hv : .entered sectionVisit ∈
      (render environmentWithX sectionSpec sectionContext [.string "a"]).trace :=
    List.mem_cons_of_mem _ List.mem_cons_self
  have compiled : ({} : Compiler).compile sectionTree = .ok sectionVisit.spec := rfl
  obtain ⟨⟨n, c, hn, hc, -, htags⟩, -, hheads⟩ := Rendering.bareNames_inOrder
    (rendering_render environmentWithX sectionSpec sectionContext [.string "a"]) hv compiled
  obtain rfl := Option.some.inj hn
  obtain rfl := Option.some.inj hc
  constructor
  · cases htags with
    | cons htag _ =>
      obtain ⟨shown, hpiece, hshown⟩ := htag _ (barePath "x") "x" rfl rfl rfl rfl 62
      obtain ⟨u, -, -, -, hframes, hvalue⟩ :=
        hshown.blockParam 1 0 ⟨0, sectionTree⟩ ⟨rfl, rfl, by decide⟩
      have hgiven : u.given = [.string "a"] := by
        show u.scope.blockParams.headD [] = _
        rw [hframes]
        rfl
      rw [hgiven] at hvalue
      rw [hvalue] at hpiece
      exact hpiece
  · obtain ⟨hshown, -⟩ := hheads {} [[], ["x"]]
      (.path { parts := ["x", "z"], spelling := "x.z", mark := none }) rfl
    exact hshown _ ⟨Code.Features.none, _, rfl⟩

/-! ## The name of a known helper that is not registered -/

/-- A template that shows `log`. -/
def logTree : Tree.Located :=
  { body := [.mustache { expr := .path (barePath "log"), escaped := true, mark := none }]
    blockParams := [], chained := false, mark := none }

/-- The template as it is compiled. -/
def logSpec : Spec where
  stamp := {}
  main := 0
  programs :=
    [{ instructions := [.append (.call (bareCall (barePath "log") "log" none)) true]
       blockParams := 0 }]
  options := {}

/-- The run of its program where no helpers are registered. -/
def logVisit : Visit := ⟨logSpec, 0, Scope.root .undefined [] []⟩

/-- Where `log` is not registered, a tag of this name does not fail as if a helper were missing. -/
theorem not_missingHelper_log :
    ({} : Compiler).compile logTree = .ok logSpec ∧
      render {} logSpec .undefined [] = ⟨[.entered logVisit, .left], .ok ""⟩ ∧
      ¬ (Renderer.cached {} {}).VisitsInOrder
        (fun p => Run.failRuntime (.missingHelper p.spelling p.mark))
        (render {} logSpec .undefined []).trace logTree logVisit := by
  refine ⟨rfl, rfl, ?_⟩
  rintro ⟨n, c, hn, hc, -, htags⟩
  obtain rfl := Option.some.inj hn
  obtain rfl := Option.some.inj hc
  cases htags with
  | cons htag _ =>
    obtain ⟨shown, hpiece, hshown⟩ := htag _ (barePath "log") "log" rfl rfl rfl rfl 0
    have hfails := hshown.known (by decide) rfl rfl
    rw [hfails] at hpiece
    -- The tag gives an empty text, where a missing helper would be an error.
    exact absurd (congrArg Run.result hpiece) nofun

end Stencil.Render
