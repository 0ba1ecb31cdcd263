import Stencil.Proofs.Render.Precedence

/-!
# Iteration

A block over an array repeats its body in two ways: as a section, where evaluation itself goes over
the items (`Place.sectionItems`), and as a block of the helper `each`, whose plan asks for the body
item by item (`eachItem`). They are one loop, written once as a recursion that puts texts together
after each other and once as a plan that carries the text so far along (`run_eachItem`): each item
is visited in the same scope, with the same data variables and block parameters, and the first item
whose body fails ends both. So a block that is a section over an array and a block that calls `each`
with this array are the same run, with the same trace (`block_section_eq_each`), as long as the
helper is not told the path of the array, which it would hand on as one more data variable. A block
of `each` is compiled to such a call where paths are not tracked
(`Compiler.callsEach_of_blockKind`).
-/

set_option autoImplicit false

namespace Stencil.Render

open Stencil.Code (Spec Compiler Frames Form Lookup Operand Call Accessor BlockKind)
open Stencil.Code.Compiling (Gives gives_bind gives_pure)
open Stencil.Tree (Expr)

/-! ## Plans that go on with the text of a part -/

/-- What follows a run need only be right for the values that the run gives. -/
theorem Run.bind_congr_of_result {α β : Type} {r : Run α} {next next' : α → Run β}
    (h : ∀ a, r.result = .ok a → next a = next' a) : (r >>= next) = (r >>= next') := by
  obtain ⟨trace, result⟩ := r
  cases result with
  | error e => rfl
  | ok a =>
    show Run.mk (trace ++ (next a).trace) (next a).result = _
    rw [h a rfl]
    rfl

/-- Where a part fails, the plan fails with its error; so the part is a step like any other. -/
theorem Plan.run_renderThen (render : Part → Value → BlockArgs → Run String)
    (callFirst : List Value → Run Value) (part : Part) (context : Value) (args : BlockArgs)
    (next : String → Plan) :
    (Plan.renderThen part context args next).run render callFirst =
      render part context args >>= fun text => (next text).run render callFirst := by
  rw [Plan.renderThen, Plan.run]
  show Run.bind (Run.attempt (render part context args)) _ = Run.bind (render part context args) _
  obtain ⟨trace, result⟩ := render part context args
  cases result with
  | ok text => rfl
  | error e => exact Run.ext (List.append_nil trace) rfl

/-! ## The loop of `each` -/

section Loop

variable (at_ : Place) (parts : Place.Parts) (callFirst : List Value → Run Value)

/-- How a place renders the parts of a block for a plan. -/
def Place.render (part : Part) (context : Value) (args : BlockArgs) : Run String :=
  at_.invoke (parts.program part) context args

/-- The loop of `each` after a text is the loop of sections, with the text in front of what comes of
it. -/
theorem run_eachItem (items : List Value) (index : Nat) (text : String) :
    (eachItem none index text items).run (at_.render parts) callFirst =
      at_.sectionItems parts.body index items >>= fun more => pure (.string (text ++ more)) := by
  induction items generalizing index text with
  | nil =>
    show pure (.string text) = (pure "" >>= fun more => pure (.string (text ++ more)) : Run Value)
    rw [pure_bind, String.append_empty]
  | cons item rest ih =>
    rw [eachItem, Plan.run_renderThen, Place.sectionItems, bind_assoc]
    -- Both invoke the body with the same arguments; what follows is the loop over the other items.
    show at_.invoke parts.body item _ >>= _ = at_.invoke parts.body item _ >>= _
    refine bind_congr fun t => ?_
    rw [ih, bind_assoc]
    refine bind_congr fun more => ?_
    rw [pure_bind, String.append_assoc]

end Loop

/-! ## The two blocks -/

variable {at_ : Place}

/-- What `each` makes of an array, whose path it is not told, is the section over it as a text. -/
theorem apply_each {parts : Place.Parts} {call : HelperCall} {id : Identity} {items : List Value}
    (hparams : call.params = [.array id items]) (hthis : call.this = at_.scope.context)
    (untold : call.ids = none) :
    at_.apply parts (.builtin .eachHelper) call =
      at_.overValue parts (.array id items) >>= fun text => pure (.string text) := by
  have hpath : contextPath? call = none := by
    rw [contextPath?, HelperCall.firstId?, untold]
    rfl
  rw [Place.apply, hparams]
  show (eachHelper call).run (at_.render parts) _ = _
  rw [eachHelper, hparams]
  cases items with
  | nil =>
    show (renderHere call .inverse).run _ _ = at_.invoke parts.inverse at_.scope.context {} >>= _
    rw [renderHere, Plan.run_renderThen, hthis]
    rfl
  | cons item rest =>
    show (eachItem (contextPath? call) 0 "" (item :: rest)).run _ _ =
      at_.sectionItems parts.body 0 (item :: rest) >>= _
    rw [hpath, run_eachItem]
    refine bind_congr fun more => ?_
    rw [String.empty_append]

/-- A call of the helper `each` with an operand as its only argument, of which the helper is not
told the path. -/
structure CallsEach (o : Operand) (c : Call) : Prop where
  helper : c.helper = some (.member .helpers "each" .helper)
  params : c.params = [o]
  hash : c.hash = []
  untold : c.ids = none

/-- A block of `each` with an argument is compiled to such a call, unless the paths of arguments are
tracked or a block parameter has the name of the helper. -/
theorem Compiler.callsEach_of_blockKind {compiler : Compiler}
    (standard : compiler.backend = .standard) (untracked : compiler.options.trackIds = false)
    {frames : Frames} (undeclared : frames.find? "each" = none)
    {written : Tree.Call (Option Text.Location)} (simple : written.path.isSimple = true)
    (head : written.path.head? = some "each") {e : Expr (Option Text.Location)}
    (params : written.params = [e]) (hash : written.hash = none) {kind : BlockKind}
    (h : Gives (compiler.blockKind frames (.call written)) kind) :
    ∃ o c, kind = .helper c ∧ Gives (compiler.operand frames e) o ∧ CallsEach o c := by
  let f : Form := Form.ofCall written
  have hkind : f.kind compiler.options frames = .call := by
    simp [f, Form.kind, Form.ofCall, Form.hasArguments, simple, head, undeclared, params]
  have hhead : f.head = "each" := by
    show written.path.head?.getD "" = "each"
    rw [head]
    rfl
  -- With a parameter the form is a call, so it is neither ambiguous nor a section.
  rcases Compiler.gives_blockKind h with ⟨-, c, rfl, hc⟩ | ⟨hambiguous, -⟩ | ⟨hvalue, -⟩
  · obtain ⟨harguments, -, -, hids, -, hhelper, -⟩ := Compiler.gives_call hc
    obtain ⟨os, hos, harguments⟩ := gives_bind harguments
    obtain ⟨named, hnamed, harguments⟩ := gives_bind harguments
    obtain ⟨hparams, hhash⟩ := Prod.mk.inj (gives_pure.1 harguments)
    -- The one parameter gives the one operand, and there is no table.
    replace hos : Gives (compiler.operands frames written.params) os := hos
    rw [params] at hos
    obtain ⟨o, ho, hos⟩ := gives_bind hos
    obtain ⟨rest, hrest, hos⟩ := gives_bind hos
    obtain rfl := gives_pure.1 hrest
    obtain rfl := gives_pure.1 hos
    replace hnamed : Gives (compiler.hashOperands frames written.hash) named := hnamed
    rw [hash] at hnamed
    obtain rfl := gives_pure.1 hnamed
    refine ⟨o, c, rfl, ho, ?_, hparams.symm, hhash.symm, ?_⟩
    · rw [hhelper, standard]
      show (if written.path.isSimple then
        some (Accessor.member .helpers f.head .helper) else none) = _
      rw [simple, hhead]
      rfl
    · rw [hids, untracked]
      rfl
  · cases hkind.symm.trans hambiguous
  · cases hkind.symm.trans hvalue

/-- A block of such a call evaluates the operand and goes on as a section over its value, if that is
an array. -/
theorem block_each {o : Operand} {c : Call} (hcall : CallsEach o c)
    (registered : at_.frame.env.helpers.get? "each" = some (.builtin .eachHelper)) {id : Identity}
    {items : List Value} (evaluates : (at_.operand [0, 0] o).result = .ok (.array id items))
    (name : String) (program inverse : Option Nat) (loc : Option Text.Location) :
    at_.block ⟨.helper c, name, program, inverse, loc⟩ =
      at_.operand [0, 0] o >>= fun v => at_.overValue ⟨program, inverse⟩ v := by
  have hcallee : at_.callee c.helper c.value = pure (.helper (.builtin .eachHelper)) := by
    rw [hcall.helper, callee_registered registered]
  have hparams : at_.operands [] 0 c.params = at_.operand [0, 0] o >>= fun v => pure [v] := by
    rw [hcall.params, Place.operands, Place.operands]
    simp only [pure_bind]
  have hhash : at_.hashValues [] 0 c.hash = pure [] := by
    rw [hcall.hash, Place.hashValues]
  rw [Place.block]
  simp only [hcallee, hparams, hhash, pure_bind, bind_assoc]
  refine Run.bind_congr_of_result fun v hv => ?_
  obtain rfl : Value.array id items = v := Except.ok.inj (evaluates.symm.trans hv)
  rw [apply_each rfl rfl (by rw [hcall.untold]; rfl), bind_assoc]
  -- The helper gives the text as a value, and the block takes the text of that value.
  exact bind_pure _

/-- A block over a name that stands for an array goes on as a section over it. -/
theorem block_ambiguous_eq_section {o : Operand} {named : Call} {id : Identity} {items : List Value}
    (hnamed : at_.callee named.helper named.value = pure (.value (.array id items)))
    (evaluates : at_.operand [0, 0] o = pure (.array id items)) (name : String)
    (program inverse : Option Nat) (loc : Option Text.Location) :
    at_.block ⟨.ambiguous named, name, program, inverse, loc⟩ =
      at_.block ⟨.section o, name, program, inverse, loc⟩ := by
  rw [Place.block, Place.block]
  simp only [hnamed, evaluates, pure_bind]

/-- A section over an array and a block of `each` with it are the same run: the same bodies are
visited in the same scopes one after the other, with the same text or the same error in the end. So
is a block over a name that stands for the array. And a block of `each` with an argument is compiled
to a call of this kind, where the paths of arguments are not tracked. -/
theorem block_section_eq_each {o : Operand} {c : Call} (hcall : CallsEach o c)
    (registered : at_.frame.env.helpers.get? "each" = some (.builtin .eachHelper)) {id : Identity}
    {items : List Value} (evaluates : (at_.operand [0, 0] o).result = .ok (.array id items))
    (name : String) (program inverse : Option Nat) (loc : Option Text.Location) :
    at_.block ⟨.section o, name, program, inverse, loc⟩ =
        at_.block ⟨.helper c, name, program, inverse, loc⟩ ∧
      (∀ named : Call, at_.callee named.helper named.value = pure (.value (.array id items)) →
        at_.operand [0, 0] o = pure (.array id items) →
          at_.block ⟨.ambiguous named, name, program, inverse, loc⟩ =
            at_.block ⟨.helper c, name, program, inverse, loc⟩) ∧
      ∀ (compiler : Compiler) (frames : Frames) (written : Tree.Call (Option Text.Location))
        (e : Expr (Option Text.Location)) (kind : BlockKind), compiler.backend = .standard →
          compiler.options.trackIds = false → frames.find? "each" = none →
            written.path.isSimple = true → written.path.head? = some "each" → written.params = [e] →
              written.hash = none → Gives (compiler.blockKind frames (.call written)) kind →
                ∃ o c, kind = .helper c ∧ Gives (compiler.operand frames e) o ∧ CallsEach o c := by
  have hsection : at_.block ⟨.section o, name, program, inverse, loc⟩ =
      at_.block ⟨.helper c, name, program, inverse, loc⟩ := by
    rw [block_each hcall registered evaluates, Place.block]
  refine ⟨hsection, fun named hnamed hvalue => ?_, ?_⟩
  · exact (block_ambiguous_eq_section hnamed hvalue name program inverse loc).trans hsection
  · intro compiler frames written e kind standard untracked undeclared simple head params hash h
    exact Compiler.callsEach_of_blockKind standard untracked undeclared simple head params hash h

/-! ## Rows -/

/-- The call of `each` with what a path stands for. -/
def callOfEach (path : Lookup) : Call where
  name := "each"
  helper := some (.member .helpers "each" .helper)
  value := none
  params := [.lookup path]
  hash := []
  ids := none
  loc := none

/-- A row with its number in front: its items, or a dash if there are none. -/
def rowsSpec : Spec where
  stamp := {}
  main := 0
  programs :=
    [{ instructions := [], blockParams := 0 },
      { instructions :=
          [.append
              (.lookup { accessor := .member (.data 0) "index" .data, spelling := "@index" }) true,
            .block
              { kind := .helper (callOfEach { accessor := .blockParam 0 0, spelling := "row" })
                name := "each", program := some 2, inverse := some 3, loc := none }]
        blockParams := 1 },
      { instructions := [.append (.lookup { accessor := .context 0, spelling := "this" }) true]
        blockParams := 0 },
      { instructions := [.content "-"], blockParams := 0 }]
  options := {}

/-- Three rows, of which the last is the first one again and that between them is empty. -/
def rows : Value :=
  .array (.given 1)
    [.array (.given 2) [.string "a", .string "b"], .array (.given 3) [],
      .array (.given 2) [.string "a", .string "b"]]

/-- The place of a template whose context is the rows. -/
def rowsPlace : Place :=
  (Renderer.cached .builtins {}).placeAt 63 ⟨rowsSpec, 0, Scope.root rows [] []⟩

/-- What the rows give as a section is what they give in a block of `each`. -/
theorem block_section_eq_each_rows :
    (rowsPlace.operand [0, 0] (.lookup { accessor := .context 0, spelling := "this" })).result =
      .ok rows ∧
      (rowsPlace.block
          ⟨.section (.lookup { accessor := .context 0, spelling := "this" }), "this", some 1, none,
            none⟩).result =
        .ok "0ab1-2ab" := by
  obtain ⟨hsame, -⟩ :=
    @block_section_eq_each rowsPlace _ (callOfEach { accessor := .context 0, spelling := "this" })
    ⟨rfl, rfl, rfl, rfl⟩ rfl (.given 1) _ rfl "this" (some 1) none none
  exact ⟨rfl, (congrArg Run.result hsame).trans rfl⟩

end Stencil.Render
