import Stencil.Proofs.Render.Counting

/-!
# Degrading

What a template that is not strict makes of an instruction that fails because a helper or a partial
is missing, wherever below the instruction that came up: nothing. No piece of it reaches the sink,
however much was rendered on the way, and as many programs are active after it as before
(`gather_cons_of_degrades`). So a program does the same without such instructions
(`degraded_instructions`, by induction on the instructions), and no rendering of the template ends
with such an error.
-/

set_option autoImplicit false

namespace Stencil.Render

open Stencil.Code (BufferKind Instruction Options Spec)

/-! ## Runs that degrade -/

/-- The run fails with an error that a template goes on after, unless it is strict. -/
def Run.degrades {α : Type} (r : Run α) : Bool :=
  match r.result with
  | .ok _ => false
  | .error e => e.isRecoverable

/-- From so many active programs, the run fails with an error that a template goes on after, unless
it is strict. -/
def Counting.degrades {α : Type} (r : Counting α) (active : Nat) : Bool :=
  (r active).any fun done => done.1.degrades

theorem Run.degrades_iff {α : Type} {r : Run α} :
    r.degrades = true ↔ ∃ e, r.result = .error e ∧ e.isRecoverable = true := by
  obtain ⟨trace, result⟩ := r
  cases result with
  | ok a => simp [degrades]
  | error e => simp [degrades]

/-- What is not recovered from outside strict templates is not recoverable. -/
theorem Run.recover_error {α : Type} {r : Run α} {e : TemplateError}
    (h : (Run.recover false r).result = .error e) : e.isRecoverable = false := by
  obtain ⟨trace, result⟩ := r
  cases result with
  | ok a => cases h
  | error e' =>
    by_cases hrecovers : (!false && e'.isRecoverable) = true
    · simp only [Run.recover, if_pos hrecovers] at h
      cases h
    · simp only [Run.recover, if_neg hrecovers] at h
      cases h
      exact Bool.eq_false_iff.2 hrecovers

/-! ## Sinks -/

section Sinks

variable {ι σ : Type} (sink : Sink σ) (piece : ι → Run Append)

/-- An instruction that fails so hands nothing to the sink, and the others find the sink as it
was. -/
theorem gather_cons_of_degrades {i : ι} {trace : List Event} {e : TemplateError}
    (hi : piece i = ⟨trace, .error e⟩) (he : e.isRecoverable = true) (rest : List ι) (state : σ) :
    gather sink false piece (i :: rest) state =
      { gather sink false piece rest state with
        trace := trace ++ [.replaced e] ++ (gather sink false piece rest state).trace } := by
  have htaken : (Run.recover false do
      let a ← piece i
      Run.ofRuntime (sink.take state a)) = ⟨trace ++ [.replaced e], .ok none⟩ := by
    rw [hi]
    exact if_pos he
  rw [gather, htaken]
  rfl

/-- A sink gathers the same from the instructions that do not fail so. -/
theorem gather_filter (is : List ι) (state : σ) :
    (gather sink false piece (is.filter fun i => !(piece i).degrades) state).state =
        (gather sink false piece is state).state ∧
      (gather sink false piece (is.filter fun i => !(piece i).degrades) state).result =
        (gather sink false piece is state).result := by
  induction is generalizing state with
  | nil => exact ⟨rfl, rfl⟩
  | cons i rest ih =>
    by_cases hi : (piece i).degrades = true
    · obtain ⟨e, hresult, he⟩ := Run.degrades_iff.1 hi
      have hpiece : piece i = ⟨(piece i).trace, .error e⟩ := Run.ext rfl hresult
      rw [List.filter_cons_of_neg (by simp [hi]),
        gather_cons_of_degrades sink piece hpiece he rest state]
      exact ih state
    · -- Both begin with the piece of this instruction.
      rw [List.filter_cons_of_pos (by simp [hi]), gather, gather]
      generalize Run.recover false _ = taken
      obtain ⟨trace, result⟩ := taken
      cases result with
      | error e => exact ⟨rfl, rfl⟩
      | ok next => exact ih (next.getD state)

/-- Gathering does not end with an error that is gone on after. -/
theorem gather_error {is : List ι} {state : σ} {e : TemplateError}
    (h : (gather sink false piece is state).result = .error e) : e.isRecoverable = false := by
  induction is generalizing state with
  | nil => cases h
  | cons i rest ih =>
    have hrecover := @Run.recover_error σ (do
      let a ← piece i
      Run.ofRuntime (sink.take state a)) e
    rw [gather] at h
    -- Only how the first step ends counts, which the recovery tells.
    generalize (Run.recover false do
      let a ← piece i
      Run.ofRuntime (sink.take state a)) = taken at h hrecover
    obtain ⟨trace, result⟩ := taken
    cases result with
    | error e' =>
      cases h
      exact hrecover rfl
    | ok next => exact ih h

/-- The captured text is the same without the instructions that fail so. -/
theorem capture_filter (kind : BufferKind) (is : List ι) :
    (capture kind false piece (is.filter fun i => !(piece i).degrades)).result =
      (capture kind false piece is).result := by
  have hcollect : ∀ {τ : Type} (s : Sink τ) (finish : τ → String) (state : τ),
      (finish <$> collect s false piece (is.filter fun i => !(piece i).degrades) state).result =
        (finish <$> collect s false piece is state).result := by
    intro τ s finish state
    obtain ⟨hstate, hresult⟩ := gather_filter s piece is state
    rw [← run_gather_eq, ← run_gather_eq]
    show (Gathered.result _).map _ = (Gathered.result _).map _
    rw [hstate, hresult]
  cases kind with
  | string =>
    have hid := hcollect Sink.string id ""
    rwa [id_map, id_map] at hid
  | fragments => exact hcollect Sink.fragments joinFragments []

end Sinks

/-! ## Counted programs -/

section Counted

variable {ι σ : Type} {piece : ι → Counting Append} {run : ι → Run Append} {active : Nat}
  (hrun : ∀ i, piece i active = some (run i, active))

include hrun

theorem others_eq (is : List ι) :
    (is.filter fun i => !(piece i).degrades active) = is.filter fun i => !(run i).degrades := by
  refine List.filter_congr fun i _ => ?_
  unfold Counting.degrades
  rw [hrun]
  rfl

/-- An instruction that fails so leaves the sink and the count as they were. -/
theorem gatherCounting_of_degrades (sink : Sink σ) (state : σ) {i : ι} {trace : List Event}
    {e : TemplateError} {count : Nat} (hi : piece i active = some (⟨trace, .error e⟩, count))
    (he : e.isRecoverable = true) :
    gatherCounting sink false piece [i] state active =
      some (⟨trace ++ [.replaced e], state, .ok ()⟩, active) := by
  have hfails : run i = ⟨trace, .error e⟩ :=
    congrArg Prod.fst (Option.some.inj ((hrun i).symm.trans hi))
  rw [gatherCounting_eq sink false fun j _ => hrun j, gather_cons_of_degrades sink run hfails he]
  simp [gather]

/-- A sink gathers the same from the instructions that do not fail so, and the count is left as it
was. -/
theorem gatherCounting_filter (sink : Sink σ) (state : σ) (is : List ι) :
    ∃ whole rest, gatherCounting sink false piece is state active = some (whole, active) ∧
      gatherCounting sink false piece (is.filter fun i => !(piece i).degrades active) state active =
        some (rest, active) ∧
      whole.state = rest.state ∧ whole.result = rest.result := by
  have hgather :=
    fun js : List ι => gatherCounting_eq sink false (fun j (_ : j ∈ js) => hrun j) state
  obtain ⟨hstate, hresult⟩ := gather_filter sink run is state
  refine ⟨_, _, hgather is, hgather _, ?_, ?_⟩
  · rw [others_eq hrun, hstate]
  · rw [others_eq hrun, hresult]

/-- The captured text is the same without the instructions that fail so, and the count is left as it
was. -/
theorem capture_counting_filter (kind : BufferKind) (is : List ι) :
    ∃ whole rest, capture kind false piece is active = some (whole, active) ∧
      capture kind false piece (is.filter fun i => !(piece i).degrades active) active =
        some (rest, active) ∧
      whole.result = rest.result := by
  have hcapture := fun js : List ι =>
    (countingComparison active).rel_capture kind false fun j (_ : j ∈ js) => hrun j
  refine ⟨_, _, hcapture is, hcapture _, ?_⟩
  rw [others_eq hrun, capture_filter]

end Counted

/-! ## Renderings -/

/-- The check of code does not fail with an error that is gone on after. -/
theorem check_error {s : Spec} {e : RuntimeError} (h : s.check = .error e) :
    e.isRecoverable = false := by
  unfold Spec.check Code.Stamp.check at h
  split at h
  · cases h
    rfl
  · split at h
    · cases h
      rfl
    · cases h

/-- A rendering of a template that is not strict does not end with an error that is gone on
after. -/
theorem Renderer.renderInto_error (r : Renderer) {σ : Type} (sink : Sink σ) (state : σ)
    {template : Spec} (lax : template.options.strict = false) (context : Value)
    (values : List Value) {e : TemplateError}
    (h : (r.renderInto sink state template context values).result = .error e) :
    e.isRecoverable = false := by
  unfold renderInto at h
  -- A rendering fails at the check, at the limit, for want of a program, or while it gathers.
  cases hcheck : template.check with
  | error e' =>
    rw [hcheck] at h
    cases h
    exact check_error hcheck
  | ok _ =>
    rw [hcheck] at h
    cases hdepth : r.env.maxDepth with
    | zero =>
      rw [hdepth] at h
      cases h
      rfl
    | succ level =>
      rw [hdepth] at h
      unfold chunk at h
      cases hprogram : template.program? template.main with
      | none =>
        rw [hprogram] at h
        cases h
        rfl
      | some c =>
        rw [hprogram, lax] at h
        exact gather_error sink _ h

theorem Renderer.render_error (r : Renderer) {template : Spec}
    (lax : template.options.strict = false) (context : Value) (values : List Value)
    {e : TemplateError} (h : (r.render template context values).result = .error e) :
    e.isRecoverable = false := by
  -- The output is what a sink has gathered, so the two end with one error.
  have hgathered : ∀ {σ α : Type} (sink : Sink σ) (state : σ) (finish : σ → α),
      ((r.renderInto sink state template context values).run finish).result = .error e →
        e.isRecoverable = false := by
    intro σ α sink state finish hrun
    refine r.renderInto_error sink state lax context values ?_
    unfold Gathered.run at hrun
    generalize (r.renderInto sink state template context values).result = result at hrun
    cases result with
    | ok _ => cases hrun
    | error e' =>
      cases hrun
      rfl
  unfold render at h
  cases hbuffer : template.buffer with
  | string =>
    rw [hbuffer] at h
    exact hgathered Sink.string "" id h
  | fragments =>
    rw [hbuffer] at h
    exact hgathered Sink.fragments [] joinFragments h

/-- The piece of an instruction where as many programs are active as may be, or fewer. -/
theorem Renderer.exists_piece_counting (r : Renderer) {active : Nat} (h : active ≤ r.env.maxDepth)
    (spare : Nat) (v : Visit) :
    ∃ piece : Instruction → Run Append, ∀ i,
      (r.countingPlace (r.invokeCounting (r.env.maxDepth + 1 + spare)) active v).piece i active =
        some (piece i, active) := by
  have hlevel : active + (r.env.maxDepth - active) = r.env.maxDepth := by omega
  exact ⟨_, fun i => r.piece_counting (by omega) hlevel v i⟩

/-- In code that is not strict, in any scope and with any number of active programs that is allowed,
an instruction whose evaluation fails because a helper or a partial is missing leaves what a sink
has gathered and the count of active programs as they were. A program has the same output and
result, into any sink and captured, as it has without such instructions. So no rendering of the
code, into any sink, ends with a missing helper or a missing partial. -/
theorem degraded_instructions (env : Environment) (code : Spec)
    (lax : code.options.strict = false) :
    (∀ (options : Options) (id : Nat) (scope : Scope) (active spare : Nat), active ≤ env.maxDepth →
      let r := Renderer.cached env options
      let steps := env.maxDepth + 1 + spare
      let piece := (r.countingPlace (r.invokeCounting steps) active ⟨code, id, scope⟩).piece
      let strict := code.options.strict
      (∀ {σ : Type} (sink : Sink σ) (state : σ) (i : Instruction) trace e count,
        piece i active = some (⟨trace, .error e⟩, count) → e.isRecoverable = true →
          gatherCounting sink strict piece [i] state active =
            some (⟨trace ++ [.replaced e], state, .ok ()⟩, active)) ∧
      ∀ is : List Instruction,
        let others := is.filter fun i => !(piece i).degrades active
        (∀ {σ : Type} (sink : Sink σ) (state : σ), ∃ whole rest,
          gatherCounting sink strict piece is state active = some (whole, active) ∧
            gatherCounting sink strict piece others state active = some (rest, active) ∧
            whole.state = rest.state ∧ whole.result = rest.result) ∧
        ∀ kind, ∃ whole rest,
          capture kind strict piece is active = some (whole, active) ∧
            capture kind strict piece others active = some (rest, active) ∧
            whole.result = rest.result) ∧
    (∀ {σ : Type} (sink : Sink σ) (state : σ) (context : Value) (values : List Value) e,
      ((Renderer.cached env code.options).renderInto sink state code context values).result =
        .error e →
        e.isRecoverable = false) ∧
    ∀ context values, (∀ name loc, (render env code context values).result ≠
        .error (.ofRuntime (.missingHelper name loc))) ∧
      ∀ name, (render env code context values).result ≠ .error
        (.ofRuntime (.missingPartial name)) := by
  refine ⟨fun options id scope active spare hactive => ?_, fun sink state context values e h => ?_,
    fun context values => ?_⟩
  · intro r steps piece strict
    -- At a number of active programs that is allowed, every instruction has a piece that counts
    -- back to it.
    obtain ⟨run, hrun⟩ := r.exists_piece_counting hactive spare ⟨code, id, scope⟩
    have hstrict : strict = false := lax
    rw [hstrict]
    refine ⟨fun sink state i trace e count hi he => ?_, fun is =>
      ⟨fun sink state => ?_, fun kind => ?_⟩⟩
    · exact gatherCounting_of_degrades hrun sink state hi he
    · exact gatherCounting_filter hrun sink state is
    · exact capture_counting_filter hrun kind is
  · exact Renderer.renderInto_error _ sink state lax context values h
  · have hend :=
      fun e => Renderer.render_error (Renderer.cached env code.options) lax context values (e := e)
    constructor
    · intro name loc h
      exact Bool.noConfusion (hend _ h)
    · intro name h
      exact Bool.noConfusion (hend _ h)

/-- A call of a helper that is missing, between two texts. -/
theorem degraded_call_between_texts :
    let call : Instruction :=
      .append (.call ⟨"shout", none, none, [.literal .null], [], none, none⟩) true
    let code : Spec :=
      { stamp := {}, main := 0, programs := [⟨[.content "a", call, .content "b"], 0⟩],
        options := {} }
    let r := Renderer.cached {} code.options
    let visit := r.rootVisit code .null []
    code.options.strict = false ∧
      gatherCounting Sink.string false (r.countingPlace (r.invokeCounting 65) 1 visit).piece
        [call] "a" 1 =
        some (⟨[.replaced (.ofRuntime (.missingHelper "shout" none))], "a", .ok ()⟩, 1) ∧
      (render {} code .null []).result = .ok "ab" ∧
      (render {} code .null []).result ≠ .error (.ofRuntime (.missingHelper "shout" none)) := by
  intro call code r visit
  have degraded := degraded_instructions {} code rfl
  have step :=
    (degraded.1 code.options 0 visit.scope 1 0 (by decide)).1 Sink.string "a" call [] _ 1 rfl rfl
  exact ⟨rfl, step, by decide +kernel, (degraded.2.2 .null []).1 "shout" none⟩

end Stencil.Render
