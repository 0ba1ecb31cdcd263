import Stencil.Proofs.Render.Simulation

/-!
# Correspondence of renderings

Two renderings agree if their visits correspond in a way that their renderers keep up. What has to
be shown for that is said about visits only: corresponding visits are of chunks that do the same and
see the same names, and the visits that the one makes correspond to those that the other makes
(`Renderer.Keeps`).

Often visits correspond because their programs do, wherever they are: then it is enough to say which
programs correspond (`Visit.Like`, `Renderer.Corresponds`).
-/

set_option autoImplicit false

namespace Stencil.Render

open Stencil.Code (Spec Options Chunk)

variable {a : Agreement} {m m' : Type → Type} [Monad m] [Carrier m] [Monad m'] [Carrier m']

/-! ## Renderers that keep visits in correspondence -/

namespace Renderer

/-- Two visits see the same names, and the visits that the renderers make from them correspond:
those of nested programs, whose numbers are related by `R`, of the bodies of partial blocks and of
registered partials. -/
structure KeepsFrom (r : Renderer m) (r' : Renderer m') (c : Comparison a m m')
    (R : Nat → Nat → Prop) (u v : Visit) : Prop where
  options : u.spec.options.alike v.spec.options = true
  names : u.scope.names = v.scope.names
  declared : ∀ {i j}, R i j →
    (u.spec.program? i).map Chunk.blockParams = (v.spec.program? j).map Chunk.blockParams
  nested : ∀ {i j}, R i j → ∀ level context args,
    a.visits ((r.placeAt level u).nestedVisit i context args)
      ((r'.placeAt level v).nestedVisit j context args)
  body : Option.Rel
    (fun b d => ∀ level context,
      a.visits ((r.placeAt level u).bodyVisit b context) ((r'.placeAt level v).bodyVisit d context))
    u.scope.partialBlock v.scope.partialBlock
  registered : ∀ name,
    c.Finds
      (fun s t => ∀ {program program'}, Option.Rel R program program' → ∀ level context,
        a.visits ((r.placeAt level u).partialVisit s program context)
          ((r'.placeAt level v).partialVisit t program' context))
      (r.partialSpec u.spec.options name) (r'.partialSpec v.spec.options name)

/-- Corresponding visits are of chunks that do the same, with numbers of programs related by `R`,
and so are the visits that the renderers make from them. -/
structure Keeps (r : Renderer m) (r' : Renderer m') (c : Comparison a m m')
    (R : Visit → Visit → Nat → Nat → Prop) : Prop where
  allows : a.Allows r.env
  maxDepth : r.env.maxDepth = r'.env.maxDepth
  functions : ∀ f, r.env.function? f = r'.env.function? f
  chunk : ∀ {u v}, a.visits u v →
    Option.Rel (Chunk.Counterpart (R u v)) (u.spec.program? u.program) (v.spec.program? v.program)
  missing : ∀ {u v}, a.visits u v → u.spec.program? u.program = none →
    u.program = v.program ∧ a.errors (.ofRuntime (.invalidProgram u.program))
  helpers : ∀ {u v}, a.visits u v → ∀ {chunk}, u.spec.program? u.program = some chunk →
    ∀ l ∈ chunk.lookups, ∀ name, l.accessor.helper? = some name →
      r.env.helpers.get? name = r'.env.helpers.get? name
  onward : ∀ {u v}, a.visits u v → a.seen u → r.KeepsFrom r' c (R u v) u v

variable {r : Renderer m} {r' : Renderer m'} {c : Comparison a m m'}

/-- At two visits there are corresponding places, if the level below keeps up the correspondence. -/
theorem KeepsFrom.places {R : Nat → Nat → Prop} {u v : Visit} (h : r.KeepsFrom r' c R u v)
    (allows : a.Allows r.env) (functions : ∀ f, r.env.function? f = r'.env.function? f)
    {level : Nat} (below : ∀ u v, a.visits u v → c.Rel (r.invokeAt level u) (r'.invokeAt level v))
    {L : Code.Lookup → Prop} (helpers : ∀ l, L l → ∀ name, l.accessor.helper? = some name →
      r.env.helpers.get? name = r'.env.helpers.get? name) :
    c.Places R L (r.placeAt level u) (r'.placeAt level v) where
  admits := allows.toAdmits
  missingPartial := allows.missingPartial
  functions := functions
  level := rfl
  lookup l hl := resolve_congr h.options h.names l true l.accessor (helpers l hl)
  context := by
    show u.scope.names.context = v.scope.names.context
    rw [h.names]
  data name := by
    show u.scope.names.data? 0 name = v.scope.names.data? 0 name
    rw [h.names]
  declared hij := congrArg (Option.getD · 0) (h.declared hij)
  nested hij context args := below _ _ (h.nested hij level context args)
  -- A body that is lent is called from here with the level below.
  body := by
    have hrel := h.body
    show Option.Rel _ u.scope.partialBlock v.scope.partialBlock
    generalize u.scope.partialBlock = x, v.scope.partialBlock = y at hrel
    cases hrel with
    | none => exact .none
    | some hbody => exact .some fun context => below _ _ (hbody level context)
  registered name := by
    intro α f g hfound
    refine h.registered name fun x y hxy => hfound x y ?_
    cases hxy with
    | none => exact .none
    | some hvisits =>
      exact .some fun hprogram context => below _ _ (hvisits hprogram level context)

namespace Keeps

variable {R : Visit → Visit → Nat → Nat → Prop} (keeps : r.Keeps r' c R)

include keeps

/-- There are corresponding places at corresponding visits. -/
theorem places {level : Nat}
    (below : ∀ u v, a.visits u v → c.Rel (r.invokeAt level u) (r'.invokeAt level v))
    {u v : Visit} (h : a.visits u v) (seen : a.seen u) {chunk : Chunk}
    (hchunk : u.spec.program? u.program = some chunk) :
    c.Places (R u v) (· ∈ chunk.lookups) (r.placeAt level u) (r'.placeAt level v) :=
  (keeps.onward h seen).places keeps.allows keeps.functions below (keeps.helpers h hchunk)

variable [LawfulCarrier m] [LawfulCarrier m']

/-- Corresponding visits have chunks that do the same, or are of one number that stands for none. -/
theorem rel_chunk {α : Type} {u v : Visit} (h : a.visits u v) {f : Chunk → m α} {g : Chunk → m' α}
    (next : ∀ x y, u.spec.program? u.program = some x → v.spec.program? v.program = some y →
      x.Counterpart (R u v) y → c.Rel (f x) (g y)) :
    c.Rel (Carrier.ofRun (.ofExcept (Renderer.chunk u.spec u.program)) >>= f)
      (Carrier.ofRun (.ofExcept (Renderer.chunk v.spec v.program)) >>= g) := by
  have hrel := keeps.chunk h
  unfold Renderer.chunk
  cases hu : u.spec.program? u.program with
  | none =>
    obtain ⟨hprogram, herror⟩ := keeps.missing h hu
    rw [hu] at hrel
    generalize v.spec.program? v.program = y at hrel
    cases hrel
    -- Neither goes on.
    rw [← hprogram]
    show c.Rel (Carrier.ofRun (.fail _) >>= f) (Carrier.ofRun (.fail _) >>= g)
    rw [LawfulCarrier.ofRun_fail_bind, LawfulCarrier.ofRun_fail_bind]
    exact c.rel_fail herror
  | some x =>
    rw [hu] at hrel
    generalize hv : v.spec.program? v.program = y at hrel
    cases hrel with
    | some hsame =>
      show c.Rel (Carrier.ofRun (pure _) >>= f) (Carrier.ofRun (pure _) >>= g)
      rw [LawfulCarrier.ofRun_pure, LawfulCarrier.ofRun_pure, pure_bind, pure_bind]
      exact next x _ hu hv hsame

/-- Runs of corresponding programs agree at every level. -/
theorem rel_invokeAt :
    ∀ (level : Nat) (u v : Visit), a.visits u v →
      c.Rel (r.invokeAt level u) (r'.invokeAt level v)
  | 0, u, v, _ => by
    unfold invokeAt tooDeep
    rw [← keeps.maxDepth]
    exact c.rel_fail keeps.allows.depthExceeded
  | level + 1, u, v, h => by
    rw [invokeAt_succ, invokeAt_succ]
    refine c.rel_nested h fun seen => keeps.rel_chunk h fun x y hx _ hsame => ?_
    obtain ⟨known, hoptions, -⟩ := Options.alike_iff.1 (keeps.onward h seen).options
    rw [hoptions]
    refine c.rel_textOf (keeps.places (rel_invokeAt level) h seen hx) _ hsame.strokes
      fun i hi l hl => ?_
    exact List.mem_flatMap.2 ⟨i, hi, hl⟩

/-- Renderings of corresponding templates agree. -/
theorem rel_text {spec spec' : Spec} {context : Value} {values : List Value}
    (root : a.visits (r.rootVisit spec context values) (r'.rootVisit spec' context values))
    (check : spec.check = spec'.check)
    (herror : ∀ e, spec.check = .error e → a.errors (.ofRuntime e)) :
    c.Rel (r.text spec context values) (r'.text spec' context values) := by
  unfold Renderer.text
  rw [← check, ← keeps.maxDepth]
  exact c.rel_bind (c.rel_ofRuntime herror) fun _ => keeps.rel_invokeAt _ _ _ root

end Keeps

/-- A rendering into a sink whose errors may be agrees with itself. -/
theorem Keeps.runs_renderInto {r : Renderer} {R : Visit → Visit → Nat → Nat → Prop}
    (keeps : r.Keeps r a.comparison R) {α σ : Type} {sink : Sink σ} {finish : σ → α} {state : σ}
    {spec : Spec} {context : Value} {values : List Value}
    (root : a.visits (r.rootVisit spec context values) (r.rootVisit spec context values))
    (check : ∀ e, spec.check = .error e → a.errors (.ofRuntime e))
    (htake : ∀ state x e, sink.take state x = .error e → a.errors (.ofRuntime e)) :
    a.Runs ((r.renderInto sink state spec context values).run finish)
      ((r.renderInto sink state spec context values).run finish) := by
  rw [run_renderInto_eq]
  refine a.comparison.rel_bind (a.comparison.rel_ofRuntime check) fun _ => ?_
  have htooDeep : a.Runs (r.tooDeep : Run α) r.tooDeep :=
    a.comparison.rel_fail keeps.allows.depthExceeded
  cases hdepth : r.env.maxDepth with
  | zero => exact htooDeep
  | succ level =>
    refine a.comparison.rel_nested root fun seen => keeps.rel_chunk root fun x y hx hy hsame => ?_
    obtain rfl : x = y := Option.some.inj (hx.symm.trans hy)
    have places := keeps.places (keeps.rel_invokeAt level) root seen hx
    refine a.comparison.rel_map ?_ finish
    refine a.comparison.rel_collect _
      (fun state x => a.comparison.rel_ofRuntime (htake state x)) state
      fun i hi => ?_
    exact places.rel_piece (hsame.self hi) fun l hl => List.mem_flatMap.2 ⟨i, hi, hl⟩

end Renderer

/-! ## Programs that correspond -/

/-- The visit of a body at the place of its block. -/
def PartialBody.visit (b : PartialBody) : Visit := ⟨b.spec, b.program, b.scope⟩

/-- Two visits of programs that correspond, with the same names in scope and such bodies of partial
blocks. -/
inductive Visit.Like (P : Spec → Nat → Spec → Nat → Prop) : Visit → Visit → Prop
  | intro {u v : Visit} (program : P u.spec u.program v.spec v.program)
    (names : u.scope.names = v.scope.names)
    (body : Option.Rel (fun b d => Visit.Like P b.visit d.visit) u.scope.partialBlock
      v.scope.partialBlock) : Visit.Like P u v

/-- Two places with the same names in scope and bodies of partial blocks that correspond. -/
structure Place.Like (P : Spec → Nat → Spec → Nat → Prop) (p : Place m) (q : Place m') : Prop where
  names : p.scope.names = q.scope.names
  body : Option.Rel (fun b d => Visit.Like P b.visit d.visit)
    p.scope.partialBlock q.scope.partialBlock

namespace Place.Like

variable {P : Spec → Nat → Spec → Nat → Prop} {p : Place m} {q : Place m'} (h : Place.Like P p q)

include h

omit [Monad m] [Carrier m] [Monad m'] [Carrier m']

theorem nestedVisit {i j : Nat} (hij : P p.spec i q.spec j) (context : Value) (args : BlockArgs) :
    Visit.Like P (p.nestedVisit i context args) (q.nestedVisit j context args) := by
  refine .intro hij ?_ ?_
  · show ((p.scope.enter _ _).withData _).names = ((q.scope.enter _ _).withData _).names
    rw [Scope.names_withData, Scope.names_withData, Scope.names_enter, Scope.names_enter, h.names]
  · show Option.Rel _ ((p.scope.enter _ _).withData _).partialBlock
      ((q.scope.enter _ _).withData _).partialBlock
    rw [Scope.partialBlock_withData, Scope.partialBlock_withData]
    exact h.body

theorem bodyVisit {b d : PartialBody} (hbody : Visit.Like P b.visit d.visit) (context : Value) :
    Visit.Like P (p.bodyVisit b context) (q.bodyVisit d context) := by
  obtain ⟨bprogram, bnames, bbody⟩ := hbody
  have hnames : b.scope.names = d.scope.names := bnames
  refine .intro bprogram ?_ bbody
  show ({ b.scope.names.enter context [] with data := [] :: p.scope.names.data } : Scope) =
    { d.scope.names.enter context [] with data := [] :: q.scope.names.data }
  rw [h.names, hnames]

theorem partialVisit {s t : Spec} (main : P s s.main t t.main) {program program' : Option Nat}
    (hprogram : Option.Rel (fun i j => P p.spec i q.spec j) program program') (context : Value) :
    Visit.Like P (p.partialVisit s program context) (q.partialVisit t program' context) := by
  cases hprogram with
  | none =>
    refine .intro main ?_ h.body
    show p.scope.names.forPartial context = q.scope.names.forPartial context
    rw [h.names]
  | some hij =>
    -- The call lends its own program, with the scope that it stands in.
    refine .intro main ?_ (.some (.intro hij h.names h.body))
    show (p.scope.names.withPartialBlock none).forPartial context =
      (q.scope.names.withPartialBlock none).forPartial context
    rw [h.names]

end Place.Like

/-- The agreement of renderings whose visits correspond because their programs do. -/
def likeAgreement (P : Spec → Nat → Spec → Nat → Prop) : Agreement where
  visits := Visit.Like P
  seen := fun _ => True
  errors := fun _ => True

namespace Renderer

variable {P : Spec → Nat → Spec → Nat → Prop}

/-- Corresponding programs do the same and hold corresponding programs, and from code that has
corresponding programs the same partials are found, but for the correspondence of their main
programs. -/
structure Corresponds (r : Renderer m) (r' : Renderer m') (c : Comparison (likeAgreement P) m m') :
    Prop where
  maxDepth : r.env.maxDepth = r'.env.maxDepth
  functions : ∀ f, r.env.function? f = r'.env.function? f
  options : ∀ {s i t j}, P s i t j → s.options.alike t.options = true
  chunk : ∀ {s i t j}, P s i t j →
    Option.Rel (Chunk.Counterpart fun i' j' => P s i' t j') (s.program? i) (t.program? j)
  missing : ∀ {s i t j}, P s i t j → s.program? i = none → i = j
  helpers : ∀ {s i t j}, P s i t j → ∀ {chunk}, s.program? i = some chunk →
    ∀ l ∈ chunk.lookups, ∀ name, l.accessor.helper? = some name →
      r.env.helpers.get? name = r'.env.helpers.get? name
  registered : ∀ {s i t j}, P s i t j → ∀ name,
    c.Finds (fun s' t' => P s' s'.main t' t'.main) (r.partialSpec s.options name)
      (r'.partialSpec t.options name)

theorem Corresponds.declared {r : Renderer m} {r' : Renderer m'}
    {c : Comparison (likeAgreement P) m m'} (h : r.Corresponds r' c) {s t : Spec} {i j : Nat}
    (hij : P s i t j) :
    (s.program? i).map Chunk.blockParams = (t.program? j).map Chunk.blockParams := by
  have hrel := h.chunk hij
  generalize s.program? i = x, t.program? j = y at hrel
  cases hrel with
  | none => rfl
  | some hsame => exact congrArg some hsame.blockParams

/-- Two visits with the same names in scope and such bodies of partial blocks, where the same
partials are found, are gone on from in the same way. -/
theorem Corresponds.keepsFrom {r : Renderer m} {r' : Renderer m'}
    {c : Comparison (likeAgreement P) m m'} (h : r.Corresponds r' c) {u v : Visit}
    (options : u.spec.options.alike v.spec.options = true)
    (like : ∀ level, Place.Like P (r.placeAt level u) (r'.placeAt level v))
    (registered : ∀ name, c.Finds (fun s t => P s s.main t t.main)
      (r.partialSpec u.spec.options name) (r'.partialSpec v.spec.options name)) :
    r.KeepsFrom r' c (fun i j => P u.spec i v.spec j) u v where
  options := options
  names := (like 0).names
  declared hij := h.declared hij
  nested hij level context args := (like level).nestedVisit hij context args
  body := by
    have body := (like 0).body
    show Option.Rel _ (r.placeAt 0 u).scope.partialBlock (r'.placeAt 0 v).scope.partialBlock
    generalize (r.placeAt 0 u).scope.partialBlock = x,
      (r'.placeAt 0 v).scope.partialBlock = y at body
    cases body with
    | none => exact .none
    | some hbody => exact .some fun level context => (like level).bodyVisit hbody context
  registered name := by
    intro α f g hfound
    refine registered name fun x y hxy => hfound x y ?_
    cases hxy with
    | none => exact .none
    | some hmain =>
      exact .some fun hprogram level context => (like level).partialVisit hmain hprogram context

/-- Renderers keep up the correspondence of visits that goes by their programs. -/
theorem Corresponds.keeps {r : Renderer m} {r' : Renderer m'}
    {c : Comparison (likeAgreement P) m m'} (h : r.Corresponds r' c) :
    r.Keeps r' c fun u v i j => P u.spec i v.spec j where
  allows := Agreement.allows_of_all (fun _ => trivial) _
  maxDepth := h.maxDepth
  functions := h.functions
  chunk := fun | .intro program _ _ => h.chunk program
  missing := fun | .intro program _ _ => fun hnone => ⟨h.missing program hnone, trivial⟩
  helpers := fun | .intro program _ _ => h.helpers program
  onward := by
    rintro u v ⟨program, names, body⟩ -
    exact h.keepsFrom (h.options program) (fun level => ⟨names, body⟩) (h.registered program)

variable [LawfulCarrier m] [LawfulCarrier m']

/-- Renderings of two templates whose main programs correspond. -/
theorem Corresponds.rel_text {r : Renderer m} {r' : Renderer m'}
    {c : Comparison (likeAgreement P) m m'} (h : r.Corresponds r' c) {s t : Spec}
    (main : P s s.main t t.main) (check : s.check = t.check) (data : r.env.data = r'.env.data)
    (context : Value) (values : List Value) :
    c.Rel (r.text s context values) (r'.text t context values) := by
  refine h.keeps.rel_text (.intro main ?_ .none) check fun _ _ => trivial
  unfold rootVisit
  rw [data]

end Renderer

end Stencil.Render
