import Stencil.Proofs.Render.Heedless
import Stencil.Proofs.Render.Lookups
import Stencil.Proofs.Render.Output

/-!
# Scopes and lookups without notes

What evaluation starts from when notes are erased: runs that tell the same and end alike
(`RunsAlike`), scopes that show the same (`ScopesAlike`), and lookups in them. Where the paths of
arguments are noted, a frame of data may be there for the path of a context alone. It shows nothing
else, but where frames are counted it counts; so a lookup must not climb past such a frame
(`Scope.passesNoPath`). Then it gives the same value with notes and without, or the same error up to
notes (`lookup_erased`).
-/

set_option autoImplicit false

namespace Stencil.Render

open Stencil.Code (Erasure Spec Options Chunk Lookup Accessor)

variable (n : Erasure) {α β γ δ : Type}

/-! ## Frames for a path -/

/-- The frame of data is there for the path of a context alone. -/
def isPathFrame (frame : Table Value) : Bool :=
  !frame.isEmpty && frame.names.all (· == "contextPath")

/-- No frame that the accessor climbs past is there for the path of a context alone. -/
def Scope.passesNoPath (s : Scope) (a : Accessor) : Bool :=
  match a.root with
  | .data depth => (s.data.take depth).all fun frame => !isPathFrame frame
  | _ => true

/-- No lookup of the program climbs past a frame that is there for the path of a context alone. -/
def Visit.passesNoPath (v : Visit) : Bool :=
  (v.spec.program? v.program).all fun c => c.lookups.all fun l => v.scope.passesNoPath l.accessor

/-! ## Runs -/

/-- What a run tells: its messages, and the errors that it replaces, with notes erased. -/
def told : List Event → List Event :=
  List.filterMap fun
    | .logged level message => some (.logged level message)
    | .replaced e => some (.replaced (n.error e))
    | .entered _ | .left => none

/-- Where the paths of arguments are erased, no program that is run climbs past a frame for one of
them. -/
def Clear (trace : List Event) : Prop :=
  n.ids = true → ∀ v, .entered v ∈ trace → v.passesNoPath = true

/-- Two runs that tell the same and end alike, as long as the first climbs past no frame that the
second may lack. -/
def RunsAlike (V : α → β → Prop) (r : Run α) (s : Run β) : Prop :=
  Clear n r.trace → told n r.trace = told n s.trace ∧ EndsAlike n V r.result s.result

variable {n} {V : α → β → Prop} {W : γ → δ → Prop}

/-- Fewer events name fewer programs that could look past a frame. -/
theorem Clear.mono {events more : List Event} (h : Clear n more) (hsub : events ⊆ more) :
    Clear n events :=
  fun hids v hv => h hids v (hsub hv)

theorem told_append (events more : List Event) :
    told n (events ++ more) = told n events ++ told n more :=
  List.filterMap_append

/-- A result tells nothing, and neither does its counterpart. -/
theorem runsAlike_pure {a : α} {b : β} (h : V a b) : RunsAlike n V (pure a) (pure b) :=
  fun _ => ⟨rfl, .ok h⟩

/-- Results or errors that are alike make runs that are. -/
theorem runsAlike_ofExcept {x : Except TemplateError α} {y : Except TemplateError β}
    (h : EndsAlike n V x y) : RunsAlike n V (Run.ofExcept x) (Run.ofExcept y) :=
  fun _ => ⟨rfl, h⟩

/-- Errors are alike if they are the same once erased. -/
theorem runsAlike_fail {e e' : TemplateError} (h : n.error e = n.error e') :
    RunsAlike n V (Run.fail e) (Run.fail e') :=
  fun _ => ⟨rfl, .error h⟩

theorem runsAlike_emit (level : LogLevel) (message : String) :
    RunsAlike n Eq (Run.emit (.logged level message)) (Run.emit (.logged level message)) :=
  fun _ => ⟨rfl, .ok rfl⟩

/-- Both runs get on or both fail. If they get on, what the second parts enter is among what the
whole enters, so that what keeps the whole clear keeps them clear. -/
theorem runsAlike_bind {r : Run α} {s : Run β} {f : α → Run γ} {g : β → Run δ}
    (h : RunsAlike n V r s) (next : ∀ a b, V a b → RunsAlike n W (f a) (g b)) :
    RunsAlike n W (r >>= f) (s >>= g) := by
  obtain ⟨rTrace, rResult⟩ := r
  obtain ⟨sTrace, sResult⟩ := s
  intro clear
  -- What the first part does is done by the whole.
  have hsub : rTrace ⊆ ((⟨rTrace, rResult⟩ : Run α) >>= f).trace := by
    cases rResult with
    | error e => exact fun _ hmem => hmem
    | ok a => exact List.subset_append_left _ _
  obtain ⟨htold, hends⟩ := h (clear.mono hsub)
  cases hends with
  | error he => exact ⟨htold, .error he⟩
  | @ok a b hab =>
    obtain ⟨hmore, hend⟩ := next a b hab (clear.mono (List.subset_append_right rTrace _))
    refine ⟨?_, hend⟩
    show told n (rTrace ++ (f a).trace) = told n (sTrace ++ (g b).trace)
    rw [told_append, told_append, hmore]
    exact congrArg (· ++ _) htold

/-- An error that is caught has a counterpart that is caught too. -/
theorem runsAlike_attempt {r : Run α} {s : Run β} (h : RunsAlike n V r s) :
    RunsAlike n (EndsAlike n V) (Run.attempt r) (Run.attempt s) :=
  fun clear => ⟨(h clear).1, .ok (h clear).2⟩

/-- Whether an error is recovered from does not depend on its notes. -/
theorem runsAlike_recover (strict : Bool) {r : Run α} {s : Run β} (h : RunsAlike n V r s) :
    RunsAlike n (Option.Rel V) (Run.recover strict r) (Run.recover strict s) := by
  obtain ⟨rTrace, rResult⟩ := r
  obtain ⟨sTrace, sResult⟩ := s
  intro clear
  have hsub : rTrace ⊆ (Run.recover strict ⟨rTrace, rResult⟩).trace := by
    cases rResult with
    | ok a => exact fun _ hmem => hmem
    | error e =>
      rw [Run.recover]
      split
      · exact List.subset_append_left _ _
      · exact fun _ hmem => hmem
  obtain ⟨htold, hends⟩ := h (clear.mono hsub)
  cases hends with
  | ok hab => exact ⟨htold, .ok (.some hab)⟩
  | @error e e' he =>
    have hrecoverable : e.isRecoverable = e'.isRecoverable := by
      rw [← n.isRecoverable_error e, he, n.isRecoverable_error]
    simp only [Run.recover, hrecoverable]
    split
    · refine ⟨?_, .ok .none⟩
      show told n (rTrace ++ [.replaced e]) = told n (sTrace ++ [.replaced e'])
      have hlast : told n [.replaced e] = told n [.replaced e'] :=
        congrArg (fun e => [Event.replaced e]) he
      rw [told_append, told_append, hlast]
      exact congrArg (· ++ _) htold
    · exact ⟨htold, .error he⟩

/-- Which program is run is not told. It climbs past no frame for a path, as none of them does. -/
theorem runsAlike_nested (u v : Visit) {r : Run α} {s : Run β}
    (h : (n.ids = true → u.passesNoPath = true) → RunsAlike n V r s) :
    RunsAlike n V (Run.nested u r) (Run.nested v s) := by
  intro clear
  have hsub : r.trace ⊆ (Run.nested u r).trace :=
    fun _ hmem => List.mem_cons_of_mem _ (List.mem_append_left _ hmem)
  obtain ⟨htold, hends⟩ := h (fun hids => clear hids u List.mem_cons_self) (clear.mono hsub)
  refine ⟨?_, hends⟩
  show told n (r.trace ++ [.left]) = told n (s.trace ++ [.left])
  rw [told_append, told_append, htold]

/-- An evaluation that gives the same with notes and without, or fails with the same error up to
notes. -/
theorem runsAlike_ofRuntime {x y : Except RuntimeError α} (h : y = x.mapError n.runtimeError) :
    RunsAlike n Eq (Run.ofRuntime x) (Run.ofRuntime y) := by
  obtain rfl := h
  cases x with
  | ok a => exact fun _ => ⟨rfl, .ok rfl⟩
  | error e =>
    have he := n.runtimeError_runtimeError e
    exact fun _ => ⟨rfl, .error (congrArg TemplateError.ofRuntime he.symm)⟩

/-! ## Data variables -/

variable (n) in
/-- Two stacks of frames, the second with notes erased: frame by frame they show the same, but where
the paths of arguments are erased, frames that are there for a path alone may be missing. -/
inductive ChainsAlike : List (List (String × Value)) → List (List (String × Value)) → Prop
  | nil : ChainsAlike [] []
  | frame {frame frame' : Table Value} {data data' : List (List (String × Value))}
    (entries : ∀ name, n.Reads name → frame.get? name = frame'.get? name)
    (rest : ChainsAlike data data') : ChainsAlike (frame :: data) (frame' :: data')
  | path {frame : Table Value} {data data' : List (List (String × Value))} (hids : n.ids = true)
    (hpath : isPathFrame frame = true) (rest : ChainsAlike data data') :
    ChainsAlike (frame :: data) data'

theorem ChainsAlike.refl : ∀ data, ChainsAlike n data data
  | [] => .nil
  | _ :: rest => .frame (fun _ _ => rfl) (refl rest)

/-- A frame for the path of a context has no other entry. -/
theorem get?_of_isPathFrame {frame : Table Value} (hpath : isPathFrame frame = true) {name : String}
    (hname : name ≠ "contextPath") : frame.get? name = none := by
  obtain ⟨-, hnames⟩ := Bool.and_eq_true_iff.1 hpath
  refine Table.get?_eq_none fun hmem => hname ?_
  exact eq_of_beq (List.all_eq_true.1 hnames name hmem)

/-- A frame that shows what no frame does is there for the path of a context. -/
theorem isPathFrame_of_entries {frame : Table Value}
    (hentries : ∀ name, name ≠ "contextPath" → frame.get? name = none)
    (hopen : frame.isEmpty = false) :
    isPathFrame frame = true := by
  refine Bool.and_eq_true_iff.2 ⟨by rw [hopen]; rfl, List.all_eq_true.2 fun name hmem => ?_⟩
  by_contra hname
  exact Table.not_mem_names (hentries name fun heq => hname (beq_iff_eq.2 heq)) hmem

namespace ChainsAlike

variable {data data' : List (List (String × Value))} (h : ChainsAlike n data data')

include h

/-- A data variable that holds nothing of what is erased is the same in both stacks. -/
theorem dataValue?_eq {name : String} (hreads : n.Reads name) :
    dataValue? name data = dataValue? name data' := by
  induction h with
  | nil => rfl
  | frame entries _ ih => rw [dataValue?, dataValue?, entries name hreads, ih]
  | path hids hpath _ ih => rw [dataValue?, get?_of_isPathFrame hpath (hreads hids), ih]

/-- So many frames up both stacks go on alike, if none of these frames may be missing. -/
theorem drop (depth : Nat)
    (clear : n.ids = true → ∀ frame ∈ data.take depth, isPathFrame frame = false) :
    ChainsAlike n (data.drop depth) (data'.drop depth) := by
  induction h generalizing depth with
  | nil =>
    rw [List.drop_nil]
    exact .nil
  | frame entries rest ih =>
    cases depth with
    | zero => exact .frame entries rest
    | succ depth =>
      exact ih depth fun hids frame hmem => clear hids frame (List.mem_cons_of_mem _ hmem)
  | path hids hpath rest ih =>
    cases depth with
    | zero => exact .path hids hpath rest
    | succ depth =>
      -- The frame is among those that are passed.
      rw [clear hids _ List.mem_cons_self] at hpath
      cases hpath

omit h

/-- A frame that holds the same under all names that are read goes on top of both stacks. -/
theorem withData {s s' : Scope} (h : ChainsAlike n s.data s'.data) {frame frame' : Table Value}
    (hframe : FramesAlike n frame frame') :
    ChainsAlike n (s.withData frame).data (s'.withData frame').data := by
  unfold Scope.withData
  cases hopen : frame.isEmpty with
  | true =>
    rw [hframe.opened hopen]
    exact h
  | false =>
    cases hopen' : frame'.isEmpty with
    | false => exact .frame hframe.entries h
    | true =>
      -- The frame is there in one stack only, so it tells nothing but a path.
      have hids : n.ids = true := by
        by_contra hkept
        rw [hframe.counted (Bool.eq_false_iff.2 hkept) hopen'] at hopen
        cases hopen
      refine .path hids (isPathFrame_of_entries (fun name hname => ?_) hopen) h
      rw [hframe.entries name fun _ => hname, List.isEmpty_iff.1 hopen']
      rfl

end ChainsAlike

/-! ## Scopes -/

variable (n) in
/-- The one code is the other with notes erased. It was compiled under the given options, and its
lookups lead to no data variables that hold something of what is erased. -/
structure SpecsAlike (o : Options) (s t : Spec) : Prop where
  erased : t = n.spec s
  options : s.options = o
  reads : ∀ id c, s.program? id = some c → ∀ l ∈ c.lookups, n.ReadsVia l.accessor

variable (n) in
/-- Two scopes that show the same, and lend bodies of code that differs in erased notes. -/
inductive ScopesAlike (o : Options) : Scope → Scope → Prop
  | bare {contexts : List Value} {blockParams : List (List Value)}
    {data data' : List (List (String × Value))} (hdata : ChainsAlike n data data') :
    ScopesAlike o ⟨contexts, blockParams, data, none⟩ ⟨contexts, blockParams, data', none⟩
  | lent {contexts : List Value} {blockParams : List (List Value)}
    {data data' : List (List (String × Value))} (hdata : ChainsAlike n data data') {s t : Spec}
    (hspec : SpecsAlike n o s t) (id : Nat) {scope scope' : Scope}
    (hscope : ScopesAlike o scope scope') :
    ScopesAlike o ⟨contexts, blockParams, data, some ⟨s, id, scope⟩⟩
      ⟨contexts, blockParams, data', some ⟨t, id, scope'⟩⟩

variable (n) in
/-- Two bodies of partial blocks: the same program of code that differs in erased notes, in scopes
that show the same. -/
structure BodiesAlike (o : Options) (b b' : PartialBody) : Prop where
  spec : SpecsAlike n o b.spec b'.spec
  program : b.program = b'.program
  scope : ScopesAlike n o b.scope b'.scope

namespace ScopesAlike

variable {o : Options} {s s' : Scope}

/-- Scopes are alike if their parts are. -/
theorem intro (hcontexts : s.contexts = s'.contexts) (hblockParams : s.blockParams = s'.blockParams)
    (hdata : ChainsAlike n s.data s'.data)
    (hbody : Option.Rel (BodiesAlike n o) s.partialBlock s'.partialBlock) :
    ScopesAlike n o s s' := by
  obtain ⟨contexts, blockParams, data, body⟩ := s
  obtain ⟨_, _, data', body'⟩ := s'
  cases hcontexts
  cases hblockParams
  cases hbody with
  | none => exact .bare hdata
  | @some b b' h =>
    obtain ⟨t, id, scope⟩ := b
    obtain ⟨t', id', scope'⟩ := b'
    obtain ⟨hspec, hid, hscope⟩ := h
    obtain rfl : id = id' := hid
    exact .lent hdata hspec id hscope

variable (h : ScopesAlike n o s s')

include h

theorem contexts : s.contexts = s'.contexts := by
  cases h <;> rfl

theorem blockParams : s.blockParams = s'.blockParams := by
  cases h <;> rfl

theorem data : ChainsAlike n s.data s'.data := by
  cases h with
  | bare hdata => exact hdata
  | lent hdata _ _ _ => exact hdata

theorem body : Option.Rel (BodiesAlike n o) s.partialBlock s'.partialBlock := by
  cases h with
  | bare _ => exact .none
  | lent _ hspec _ hscope => exact .some ⟨hspec, rfl, hscope⟩

theorem context : s.context = s'.context := by
  unfold Scope.context
  rw [h.contexts]

theorem contextsWith (context : Value) : s.contextsWith context = s'.contextsWith context := by
  unfold Scope.contextsWith
  rw [h.context, h.contexts]

/-- Both scopes are entered with the same context and the same values. -/
theorem enter (context : Value) (values : List Value) :
    ScopesAlike n o (s.enter context values) (s'.enter context values) :=
  .intro (h.contextsWith context) (congrArg (values :: ·) h.blockParams) h.data h.body

/-- A partial has the contexts, the data variables and the body in reach, and no block
parameters. -/
theorem forPartial (context : Value) :
    ScopesAlike n o (s.forPartial context) (s'.forPartial context) :=
  .intro (h.contextsWith context) rfl h.data h.body

theorem withData {frame frame' : Table Value} (hframe : FramesAlike n frame frame') :
    ScopesAlike n o (s.withData frame) (s'.withData frame') := by
  refine .intro ?_ ?_ (h.data.withData hframe) ?_
  · rw [Scope.contexts_withData, Scope.contexts_withData, h.contexts]
  · rw [Scope.blockParams_withData, Scope.blockParams_withData, h.blockParams]
  · rw [Scope.partialBlock_withData, Scope.partialBlock_withData]
    exact h.body

theorem withPartialBlock {b b' : PartialBody} (hbody : BodiesAlike n o b b') :
    ScopesAlike n o (s.withPartialBlock (some b)) (s'.withPartialBlock (some b')) :=
  .intro h.contexts h.blockParams (.frame (fun _ _ => rfl) h.data) (.some hbody)

end ScopesAlike

/-- The outermost scope is made of what the rendering is given. -/
theorem scopesAlike_root (o : Options) (context : Value) (data : Table Value)
    (values : List Value) :
    ScopesAlike n o (Scope.root context data values) (Scope.root context data values) :=
  .bare (.refl _)

/-! ## Lookups -/

variable (n) in
/-- In the scope, what the accessor gives shows nothing of what is erased: it leads to no data
variable that holds something of it, and climbs past no frame that is there for it alone. -/
structure Shows (s : Scope) (a : Accessor) : Prop where
  via : n.ReadsVia a
  clear : n.ids = true → s.passesNoPath a = true

/-- A property is found by its name. If it is missing, the error has the location of the lookup,
which is erased. -/
theorem memberOf_erased (options : Options) (path : Lookup) (terminal : Bool) (parent : Value)
    (name : String) :
    memberOf (n.options options) (n.lookup path) terminal parent name =
      (memberOf options path terminal parent name).mapError n.runtimeError := by
  unfold memberOf
  split
  · show (if options.strict || options.assumeObjects then _ else _) = _
    split <;> rfl
  · show (if terminal && path.requireTerminal && !parent.hasProperty name then _ else _) = _
    split <;> rfl

namespace ScopesAlike

variable {o : Options} {s s' : Scope} (h : ScopesAlike n o s s') (env : Environment)
  (options : Options)

include h

/-- What an accessor gives that shows nothing of what is erased is the same with notes and
without. -/
theorem resolve_erased (path : Lookup) (terminal : Bool) (accessor : Accessor)
    (hshows : Shows n s accessor) :
    resolve env (n.options options) s' (n.lookup path) terminal accessor =
      (resolve env options s path terminal accessor).mapError n.runtimeError := by
  induction accessor generalizing terminal with
  | member base name kind ih =>
    have hstep : ∀ parent, memberOf (n.options options) (n.lookup path) terminal parent name =
        (memberOf options path terminal parent name).mapError n.runtimeError :=
      fun parent => memberOf_erased options path terminal parent name
    cases base with
    | helpers => rfl
    | partials => rfl
    | data depth =>
      have hdata : s.data? depth name = s'.data? depth name := by
        refine (h.data.drop depth fun hids frame hmem => ?_).dataValue?_eq hshows.via
        have hclear : (s.data.take depth).all (fun frame => !isPathFrame frame) = true :=
          hshows.clear hids
        simpa only [Bool.not_eq_true'] using List.all_eq_true.1 hclear frame hmem
      rw [resolve, resolve, hdata]
      cases s'.data? depth name with
      | some v => rfl
      | none =>
        show (if terminal && path.requireTerminal then _ else _) = _
        dsimp only
        split <;> rfl
    | _ =>
      have hbase := ih false ⟨hshows.via, hshows.clear⟩
      generalize hparent : resolve env options s path false _ = parent at hbase
      unfold resolve
      rw [hbase, hparent]
      cases parent with
      | ok parent => exact hstep parent
      | error e => rfl
  | context depth => rw [resolve, resolve, h.contexts]; rfl
  | blockParam depth index =>
    have hparam : s.blockParam depth index = s'.blockParam depth index := by
      unfold Scope.blockParam
      rw [h.blockParams]
    rw [resolve, resolve, hparam]
    rfl
  | anyContext name => rw [resolve, resolve, h.contexts]; rfl
  | _ => rfl

/-- What the lookup of a path gives that shows nothing of what is erased is the same with notes and
without. -/
theorem lookup_erased (path : Lookup) (hshows : Shows n s path.accessor) :
    lookup env (n.options options) s' (n.lookup path) =
      (lookup env options s path).mapError n.runtimeError :=
  h.resolve_erased env options path true path.accessor hshows

/-- An accessor alone has no location to erase. -/
theorem lookupBare_erased (accessor : Accessor) (hshows : Shows n s accessor) :
    lookupBare env (n.options options) s' accessor =
      (lookupBare env options s accessor).mapError n.runtimeError := by
  have hlookup := h.lookup_erased env options (Lookup.bare accessor) hshows
  rw [n.lookup_of_loc (l := Lookup.bare accessor) rfl] at hlookup
  exact hlookup

/-- What the name of a call stands for is the same with notes and without. -/
theorem callee_erased (helper : Option Accessor) (value : Option Lookup)
    (hhelper : ∀ a ∈ helper, Shows n s a) (hvalue : ∀ l ∈ value, Shows n s l.accessor) :
    callee env (n.options options) s' helper (value.map n.lookup) =
      (callee env options s helper value).mapError n.runtimeError := by
  -- Where the helper is not asked or is no function, the value decides.
  have ofValue : callee env (n.options options) s' none (value.map n.lookup) =
      (callee env options s none value).mapError n.runtimeError := by
    cases value with
    | none => rfl
    | some path =>
      have hpath := h.lookup_erased env options path (hvalue path rfl)
      simp only [callee, Option.map_some, hpath]
      cases lookup env options s path with
      | error e => rfl
      | ok v => cases v <;> rfl
  cases helper with
  | none => exact ofValue
  | some a =>
    have ha := h.lookupBare_erased env options a (hhelper a rfl)
    cases hbare : lookupBare env options s a with
    | error e =>
      rw [hbare] at ha
      simp only [callee, ha, hbare]
      rfl
    | ok v =>
      rw [hbare] at ha
      simp only [callee, ha, hbare]
      cases v with
      | function f => rfl
      | _ => exact ofValue

end ScopesAlike

end Stencil.Render
