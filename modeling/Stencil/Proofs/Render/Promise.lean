import Stencil.Proofs.Render.Ensuring
import Stencil.Proofs.Render.Hereditary

/-!
# Promises of helpers

A `Promise` says of what kind the values are that a rendering sees, of what kind the texts that it
makes, and which errors may end a part of it. A plan keeps a promise if what it renders and what it
gives is of these kinds as long as what is rendered for it is (`Plan.Keeps`). All built-in helpers
keep every promise, as far as they are called with as many parameters as they take; only the text of
what `lookup` gives may be of another kind (`Builtin.keeps_helper`).
-/

set_option autoImplicit false

namespace Stencil.Render

/-- What is promised of a rendering. -/
structure Promise where
  /-- Of what kind the values are that it sees. -/
  values : Value → Prop
  /-- Of what kind the texts are that it makes. -/
  texts : String → Prop
  /-- Which errors may end a part of it. -/
  errors : TemplateError → Prop
  hereditary : Value.Hereditary values
  textKind : TextKind texts

/-! ## Plans -/

/-- The plan renders parts with values of the kind, and gives values with the property and fails
with errors that may be as long as what it renders keeps the promise. It does not hand over to
another function. -/
inductive Plan.Keeps (w : Promise) (post : Value → Prop) : Plan → Prop
  | give {v : Value} (h : post v) : Keeps w post (.give v)
  | fail {e : TemplateError} (h : w.errors e) : Keeps w post (.fail e)
  | render {part : Part} {context : Value} {args : BlockArgs}
    {next : Except TemplateError String → Plan} (hcontext : w.values context)
    (hargs : args.Holds w.values)
    (hnext : ∀ rendered, (∀ text, rendered = .ok text → w.texts text) →
      (∀ e, rendered = .error e → w.errors e) → Keeps w post (next rendered)) :
    Keeps w post (.render part context args next)
  | log {level : LogLevel} {message : String} {next : Plan} (h : Keeps w post next) :
    Keeps w post (.log level message next)

namespace Plan.Keeps

variable {w : Promise} {post : Value → Prop}

theorem imp {post' : Value → Prop} (himp : ∀ v, post v → post' v) {plan : Plan}
    (h : plan.Keeps w post) : plan.Keeps w post' := by
  induction h with
  | give h => exact .give (himp _ h)
  | fail h => exact .fail h
  | render hcontext hargs _ ih => exact .render hcontext hargs ih
  | log _ ih => exact .log ih

theorem swapped {plan : Plan} (h : plan.Keeps w post) : plan.swapped.Keeps w post := by
  induction h with
  | give h => exact .give h
  | fail h => exact .fail h
  | render hcontext hargs _ ih => exact .render hcontext hargs ih
  | log _ ih => exact .log ih

theorem renderThen {part : Part} {context : Value} {args : BlockArgs} {next : String → Plan}
    (hcontext : w.values context) (hargs : args.Holds w.values)
    (hnext : ∀ text, w.texts text → (next text).Keeps w post) :
    (Plan.renderThen part context args next).Keeps w post := by
  refine .render hcontext hargs fun rendered htext herror => ?_
  cases rendered with
  | ok text => exact hnext text (htext text rfl)
  | error e => exact .fail (herror e rfl)

/-- Carrying out a plan, given that rendering a part keeps the promise. -/
theorem run {render : Part → Value → BlockArgs → Run String} {callFirst : List Value → Run Value}
    (hrender : ∀ part context args, w.values context → BlockArgs.Holds w.values args →
      (render part context args).Obeys w.errors w.texts)
    {plan : Plan} (h : plan.Keeps w post) : (plan.run render callFirst).Obeys w.errors post := by
  induction h with
  | give h => exact Run.obeys_pure h
  | fail h => exact Run.obeys_fail h
  | render hcontext hargs _ ih =>
    refine Run.obeys_bind (hrender _ _ _ hcontext hargs).attempt ?_
    rintro rendered ⟨htext, herror⟩
    exact ih rendered htext herror
  | @log level message next _ ih =>
    have hlogged : (Run.emit (.logged level message)).Obeys w.errors fun _ => True :=
      ⟨Run.ensures_true _, nofun⟩
    exact Run.obeys_bind hlogged fun _ _ => ih

end Plan.Keeps

/-! ## Built-in helpers -/

/-- With so many parameters the built-in helper does not fail. -/
def Builtin.Takes : Builtin → Nat → Prop
  | .ifHelper, n | .unlessHelper, n | .withHelper, n => n = 1
  | .eachHelper, n => 0 < n
  | .lookupHelper, _ | .logHelper, _ => True

/-- The value and its text are of the kinds that are promised. -/
def Promise.Shows (w : Promise) (v : Value) : Prop := w.values v ∧ w.texts v.text

/-- What a built-in helper gives is of the kind that is promised, and so is its text, unless the
helper is `lookup` with any parameters. -/
structure Builtin.Result (w : Promise) (b : Builtin) (c : HelperCall) (v : Value) : Prop where
  value : w.values v
  text : (b = .lookupHelper → c.params = []) → w.texts v.text

section Helpers

variable {w : Promise} {c : HelperCall} (hc : c.Holds w.values)

theorem Promise.shows_string {text : String} (h : w.texts text) : w.Shows (.string text) :=
  ⟨w.hereditary.string text, h⟩

theorem Promise.shows_undefined : w.Shows .undefined := ⟨w.hereditary.undefined, w.textKind.empty⟩

theorem iterationArgs_holds (path : Option String) {key item : Value} (hkey : w.values key)
    (hitem : w.values item) (index : Nat) (last : Bool) :
    (iterationArgs path key item index last).Holds w.values := by
  have values := w.hereditary
  have known : ∀ {rest : Table Value}, TableHolds w.values rest →
      TableHolds w.values
        ([("key", key), ("index", .int index), ("first", .bool (index == 0)),
          ("last", .bool last)] ++
          rest) :=
    fun hrest => (((hrest.cons (values.bool _)).cons (values.bool _)).cons (values.int _)).cons hkey
  refine ⟨?_, List.forall_mem_cons.2 ⟨hitem, List.forall_mem_singleton.2 hkey⟩⟩
  cases path with
  | none => exact known tableHolds_nil
  | some path => exact known (tableHolds_nil.cons (values.string _))

theorem keeps_eachItem (path : Option String) :
    ∀ {items : List Value}, (∀ v ∈ items, w.values v) →
      ∀ (index : Nat) {text : String},
        w.texts text → (eachItem path index text items).Keeps w w.Shows
  | [], _, _, _, htext => .give (Promise.shows_string htext)
  | item :: rest, h, index, text, htext => by
    obtain ⟨hitem, hrest⟩ := List.forall_mem_cons.1 h
    have hargs := iterationArgs_holds path (w.hereditary.int index) hitem index rest.isEmpty
    refine .renderThen hitem hargs fun t ht => ?_
    exact keeps_eachItem path hrest (index + 1) (w.textKind.append htext ht)

theorem keeps_eachEntry (path : Option String) :
    ∀ {entries : List (String × Value)}, TableHolds w.values entries →
      ∀ (index : Nat) {text : String}, w.texts text →
        (eachEntry path index text entries).Keeps w w.Shows
  | [], _, _, _, htext => .give (Promise.shows_string htext)
  | (key, item) :: rest, h, index, text, htext => by
    obtain ⟨hitem, hrest⟩ := List.forall_mem_cons.1 h
    have hargs := iterationArgs_holds path (w.hereditary.string key) hitem index rest.isEmpty
    refine .renderThen hitem hargs fun t ht => ?_
    exact keeps_eachEntry path hrest (index + 1) (w.textKind.append htext ht)

include hc

theorem keeps_withOnlyParam
    (fails : c.params.length ≠ 1 → ∀ name message, w.errors (.ofRuntime (.helper name message)))
    {post : Value → Prop} {next : Value → Plan} (h : ∀ v, w.values v → (next v).Keeps w post) :
    (withOnlyParam c next).Keeps w post := by
  unfold withOnlyParam
  split
  next v hparams => exact h v (hc.params v (hparams ▸ List.mem_cons_self))
  next hother =>
    refine .fail (fails (fun hlength => ?_) _ _)
    obtain ⟨v, hv⟩ := List.length_eq_one_iff.1 hlength
    exact hother v hv

theorem keeps_renderHere (part : Part) : (renderHere c part).Keeps w w.Shows :=
  .renderThen hc.this BlockArgs.holds_none fun _ htext => .give (Promise.shows_string htext)

theorem keeps_withHelper
    (fails : c.params.length ≠ 1 → ∀ name message, w.errors (.ofRuntime (.helper name message))) :
    (withHelper c).Keeps w w.Shows := by
  refine keeps_withOnlyParam hc fails fun context hcontext => ?_
  split
  · exact keeps_renderHere hc .inverse
  · refine .renderThen hcontext ⟨?_, List.forall_mem_singleton.2 hcontext⟩ fun _ htext =>
      .give (Promise.shows_string htext)
    dsimp only
    split
    · exact tableHolds_nil.cons (w.hereditary.string _)
    · exact tableHolds_nil

theorem keeps_eachHelper
    (fails : ¬ 0 < c.params.length → ∀ name message, w.errors (.ofRuntime (.helper name message))) :
    (eachHelper c).Keeps w w.Shows := by
  unfold eachHelper
  split
  next hnone =>
    rw [hnone] at fails
    exact .fail (fails (Nat.lt_irrefl 0) _ _)
  next id item items rest hparams =>
    have hfirst := hc.params _ (hparams ▸ List.mem_cons_self)
    exact keeps_eachItem _ (w.hereditary.array_iff.1 hfirst) 0 w.textKind.empty
  next id entry entries rest hparams =>
    have hfirst := hc.params _ (hparams ▸ List.mem_cons_self)
    exact keeps_eachEntry _ (w.hereditary.object_iff.1 hfirst) 0 w.textKind.empty
  next => exact keeps_renderHere hc .inverse

theorem keeps_lookupHelper : (lookupHelper c).Keeps w (Builtin.Result w .lookupHelper c) := by
  have hparams := hc.params
  have given : ∀ {v}, w.values v → c.params ≠ [] → Builtin.Result w .lookupHelper c v :=
    fun hv hsome => ⟨hv, fun hnone => absurd (hnone rfl) hsome⟩
  unfold lookupHelper
  split
  next object field rest hcall =>
    rw [hcall] at hparams
    have hobject := hparams object List.mem_cons_self
    have hsome : c.params ≠ [] := hcall ▸ nofun
    split
    · exact .give (given (w.hereditary.property hobject _) hsome)
    · exact .give (given hobject hsome)
  next object hcall =>
    rw [hcall] at hparams
    exact .give (given (hparams object List.mem_cons_self) (hcall ▸ nofun))
  next => exact .give ⟨w.hereditary.undefined, fun _ => w.textKind.empty⟩

/-- A built-in helper that is called with values of the kind keeps the promise, if it takes so many
parameters or else may fail. -/
theorem Builtin.keeps_helper (b : Builtin)
    (fails : ¬ b.Takes c.params.length →
      ∀ name message, w.errors (.ofRuntime (.helper name message))) :
    (b.helper c).Keeps w (b.Result w c) := by
  have shows : ∀ {plan : Plan}, plan.Keeps w w.Shows → plan.Keeps w (b.Result w c) :=
    fun h => h.imp fun v hv => ⟨hv.1, fun _ => hv.2⟩
  cases b with
  | ifHelper => exact shows (keeps_withOnlyParam hc fails fun _ _ => keeps_renderHere hc _)
  | unlessHelper =>
    exact shows (keeps_withOnlyParam hc fails fun _ _ => keeps_renderHere hc _).swapped
  | withHelper => exact shows (keeps_withHelper hc fails)
  | eachHelper => exact shows (keeps_eachHelper hc fails)
  | lookupHelper => exact keeps_lookupHelper hc
  | logHelper => exact shows (.log (.give Promise.shows_undefined))

end Helpers

end Stencil.Render
