import Stencil.Proofs.Render.Output

/-!
# Handing output to sinks

What a sink has to do with the output of a template: nothing but to take it. The pieces that are
offered to a sink do not depend on it, so every sink that takes them all ends as the one that
records them does (`gather_of_takeAll`); and a sink that refuses one has gathered those before it
and ends the rendering with its error, in strict code or not (`gather_of_refusal`). Both are
inductions on the instructions, in which an instruction that degrades offers nothing and one that
fails ends the offers.

A whole rendering is the gathering of the main program, if it comes to that, so the same is true of
it (`output_handed_to_sinks`).
-/

set_option autoImplicit false

namespace Stencil.Render

open Stencil.Code (Spec Instruction)

variable {ι σ : Type}

/-! ## Sinks -/

/-- What a sink has gathered when it was handed some pieces, or the error with which it refuses
one. -/
def Sink.takeAll (sink : Sink σ) (state : σ) (pieces : List Append) : Except RuntimeError σ :=
  pieces.foldlM sink.take state

/-- The texts of some pieces, one after the other. -/
def Append.join (pieces : List Append) : String := String.join (pieces.map Append.text)

section Sinks

variable {sink : Sink σ}

theorem Sink.takeAll_cons {state last : σ} {a : Append} {rest : List Append} :
    sink.takeAll state (a :: rest) = .ok last ↔
      ∃ next, sink.take state a = .ok next ∧ sink.takeAll next rest = .ok last := by
  unfold takeAll
  rw [List.foldlM_cons]
  cases sink.take state a with
  | error e => exact ⟨nofun, nofun⟩
  | ok next => exact ⟨fun h => ⟨next, rfl, h⟩, fun ⟨_, hnext, h⟩ => Except.ok.inj hnext ▸ h⟩

/-- A sink that spells what it takes spells the texts of some pieces. -/
theorem Sink.Spells.takeAll {finish : σ → String} (spells : sink.Spells finish)
    (pieces : List Append) (state : σ) :
    ∃ next, sink.takeAll state pieces = .ok next ∧
      finish next = finish state ++ Append.join pieces := by
  induction pieces generalizing state with
  | nil => exact ⟨state, rfl, (String.append_empty).symm⟩
  | cons a rest ih =>
    obtain ⟨next, htake, hfinish⟩ := spells state a
    obtain ⟨last, htakes, hlast⟩ := ih next
    refine ⟨last, Sink.takeAll_cons.2 ⟨next, htake, htakes⟩, ?_⟩
    rw [hlast, hfinish, String.append_assoc, Append.join, Append.join, List.map_cons,
      String.join_cons]

/-- The recorder without a limit takes all pieces. -/
theorem Sink.takeAll_recorder (pieces old : List Append) :
    (Sink.recorder none).takeAll old pieces = .ok (pieces.reverse ++ old) := by
  induction pieces generalizing old with
  | nil => rfl
  | cons a rest ih =>
    refine Sink.takeAll_cons.2 ⟨a :: old, rfl, ?_⟩
    rw [ih, List.reverse_cons, List.append_assoc]
    rfl

end Sinks

/-! ## Pieces that are offered -/

/-- The pieces that some instructions offer to a sink that refuses none. Unless `strict`, an
instruction that fails with a recoverable error offers nothing; any other failure is the end. -/
def offered (strict : Bool) (piece : ι → Run Append) : List ι → List Append
  | [] => []
  | i :: rest =>
    match (Run.recover strict (piece i)).result with
    | .error _ => []
    | .ok first => first.toList ++ offered strict piece rest

/-- What is done with a value is recovered from like what gave the value. -/
theorem Run.recover_bind {α β : Type} (strict : Bool) (r : Run α) (next : α → Run β) :
    Run.recover strict (r >>= next) =
      Run.recover strict r >>= fun
        | none => pure none
        | some a => Run.recover strict (next a) := by
  obtain ⟨trace, result⟩ := r
  cases result with
  | error e =>
    show Run.recover strict ⟨trace, .error e⟩ = Run.recover strict ⟨trace, .error e⟩ >>= _
    unfold Run.recover
    dsimp only
    split
    · exact Run.ext (List.append_nil _).symm rfl
    · rfl
  | ok a =>
    show Run.recover strict ⟨trace ++ (next a).trace, (next a).result⟩ =
      ⟨trace ++ (Run.recover strict (next a)).trace, (Run.recover strict (next a)).result⟩
    obtain ⟨trace', result'⟩ := next a
    cases result' with
    | ok b => rfl
    | error e =>
      unfold Run.recover
      dsimp only
      split
      · exact Run.ext (List.append_assoc _ _ _) rfl
      · rfl

section Gathering

variable {sink : Sink σ} {strict : Bool} {piece : ι → Run Append} {i : ι} {rest : List ι}
  {trace : List Event} {state : σ}

/-- An instruction that fails ends the gathering. -/
theorem gather_cons_of_error {e : TemplateError}
    (h : Run.recover strict (piece i) = ⟨trace, .error e⟩) :
    gather sink strict piece (i :: rest) state = ⟨trace, state, .error e⟩ := by
  rw [gather, Run.recover_bind, h]
  rfl

/-- An instruction that offers nothing leaves the sink as it is. -/
theorem gather_cons_of_none (h : Run.recover strict (piece i) = ⟨trace, .ok none⟩) :
    gather sink strict piece (i :: rest) state =
      { gather sink strict piece rest state with
        trace := trace ++ (gather sink strict piece rest state).trace } := by
  rw [gather, Run.recover_bind, h]
  show Gathered.mk ((trace ++ []) ++ _) _ _ = _
  rw [List.append_nil]
  rfl

/-- A piece that the sink takes. -/
theorem gather_cons_of_taken {a : Append} {next : σ}
    (h : Run.recover strict (piece i) = ⟨trace, .ok (some a)⟩)
    (htake : sink.take state a = .ok next) :
    gather sink strict piece (i :: rest) state =
      { gather sink strict piece rest next with
        trace := trace ++ (gather sink strict piece rest next).trace } := by
  have htaken : Run.recover strict (Run.ofRuntime (sink.take state a)) = pure (some next) := by
    rw [htake]
    rfl
  rw [gather, Run.recover_bind, h]
  simp only [bind, Run.bind, htaken]
  show Gathered.mk ((trace ++ []) ++ _) _ _ = _
  rw [List.append_nil]
  rfl

/-- A piece that the sink refuses with an error that no template goes on after. -/
theorem gather_cons_of_refused {a : Append} {e : RuntimeError}
    (h : Run.recover strict (piece i) = ⟨trace, .ok (some a)⟩)
    (htake : sink.take state a = .error e) (he : e.isRecoverable = false) :
    gather sink strict piece (i :: rest) state = ⟨trace, state, .error (.ofRuntime e)⟩ := by
  have hrefused : Run.recover strict (Run.ofRuntime (sink.take state a)) =
      ⟨[], .error (.ofRuntime e)⟩ := by
    rw [htake]
    refine if_neg fun hrecovers => ?_
    have hrecoverable : e.isRecoverable = true := (Bool.and_eq_true_iff.1 hrecovers).2
    exact Bool.noConfusion (he.symm.trans hrecoverable)
  rw [gather, Run.recover_bind, h]
  simp only [bind, Run.bind, hrefused, List.append_nil]

/-- What is offered does not depend on the sink, so two sinks that take it all have the same trace
and the same result. -/
theorem gather_of_takeAll {τ : Type} {other : Sink τ} {is : List ι} {state last : σ}
    {state' last' : τ} (h : sink.takeAll state (offered strict piece is) = .ok last)
    (h' : other.takeAll state' (offered strict piece is) = .ok last') :
    gather sink strict piece is state =
      { gather other strict piece is state' with state := last } := by
  induction is generalizing state state' with
  | nil =>
    cases h
    rfl
  | cons i rest ih =>
    rcases hi : Run.recover strict (piece i) with ⟨trace, result⟩
    rw [offered, hi] at h h'
    cases result with
    | error e =>
      cases h
      rw [gather_cons_of_error hi, gather_cons_of_error hi]
    | ok first =>
      cases first with
      | none => rw [gather_cons_of_none hi, gather_cons_of_none hi, ih h h']
      | some a =>
        obtain ⟨next, htake, hrest⟩ := Sink.takeAll_cons.1 h
        obtain ⟨next', htake', hrest'⟩ := Sink.takeAll_cons.1 h'
        rw [gather_cons_of_taken hi htake, gather_cons_of_taken hi htake', ih hrest hrest']

/-- A sink that refuses a piece has gathered those before it, and its error ends the gathering. -/
theorem gather_of_refusal {is : List ι} {before after : List Append} {a : Append} {state last : σ}
    {e : RuntimeError} (hoffered : offered strict piece is = before ++ a :: after)
    (h : sink.takeAll state before = .ok last) (htake : sink.take last a = .error e)
    (he : e.isRecoverable = false) :
    (gather sink strict piece is state).state = last ∧
      (gather sink strict piece is state).result = .error (.ofRuntime e) := by
  induction is generalizing state before with
  | nil => exact absurd hoffered (by simp [offered])
  | cons i rest ih =>
    rcases hi : Run.recover strict (piece i) with ⟨trace, result⟩
    rw [offered, hi] at hoffered
    cases result with
    | error e' => exact absurd hoffered (by simp)
    | ok first =>
      cases first with
      | none =>
        rw [gather_cons_of_none hi]
        exact ih hoffered h
      | some b =>
        cases before with
        | nil =>
          -- This is the piece that is refused.
          obtain ⟨rfl, -⟩ := List.cons.inj hoffered
          cases h
          rw [gather_cons_of_refused hi htake he]
          exact ⟨rfl, rfl⟩
        | cons b' before =>
          obtain ⟨rfl, hrest⟩ := List.cons.inj hoffered
          obtain ⟨next, hnext, hbefore⟩ := Sink.takeAll_cons.1 h
          rw [gather_cons_of_taken hi hnext]
          exact ih hrest hbefore

end Gathering

/-! ## Renderings -/

namespace Renderer

/-- Handing the output of a template to a sink ends before anything is offered, or is the gathering
of the pieces of some instructions. -/
theorem exists_gather (r : Renderer) (code : Spec) (context : Value) (values : List Value) :
    (∃ trace e, ∀ {σ : Type} (sink : Sink σ) (state : σ),
        r.renderInto sink state code context values = ⟨trace, state, .error e⟩) ∨
      ∃ (visit : Visit) (piece : Instruction → Run Append) (is : List Instruction),
        ∀ {σ : Type} (sink : Sink σ) (state : σ),
          r.renderInto sink state code context values =
            { gather sink code.options.strict piece is state with
              trace := .entered visit ::
                ((gather sink code.options.strict piece is state).trace ++ [.left]) } := by
  unfold renderInto
  cases hcheck : code.check with
  | error e => exact .inl ⟨_, _, fun _ _ => rfl⟩
  | ok _ =>
    cases r.env.maxDepth with
    | zero => exact .inl ⟨_, _, fun _ _ => rfl⟩
    | succ level =>
      cases hchunk : chunk code code.main with
      | error e => exact .inl ⟨_, _, fun _ _ => rfl⟩
      | ok c => exact .inr ⟨_, _, c.instructions, fun _ _ => rfl⟩

variable (r : Renderer) (code : Spec) (context : Value) (values : List Value)

/-- The pieces that a template offers to a sink, as the recorder has them. -/
def pieces : List Append :=
  (r.renderInto (Sink.recorder none) [] code context values).state.reverse

theorem pieces_of_gather {visit : Visit} {piece : Instruction → Run Append} {is : List Instruction}
    (h : ∀ {σ : Type} (sink : Sink σ) (state : σ),
      r.renderInto sink state code context values =
        { gather sink code.options.strict piece is state with
          trace := .entered visit ::
            ((gather sink code.options.strict piece is state).trace ++ [.left]) }) :
    r.pieces code context values = offered code.options.strict piece is := by
  have htakes := Sink.takeAll_recorder (offered code.options.strict piece is) []
  rw [pieces, h, gather_of_takeAll htakes htakes]
  simp

variable {σ : Type} {sink : Sink σ} {state last : σ}

/-- A sink that takes all pieces ends as the recorder does. -/
theorem renderInto_of_takeAll
    (h : sink.takeAll state (r.pieces code context values) = .ok last) :
    r.renderInto sink state code context values =
      { r.renderInto (Sink.recorder none) [] code context values with state := last } := by
  rcases r.exists_gather code context values with ⟨trace, e, hends⟩ | ⟨visit, piece, is, hgather⟩
  · have hnone : r.pieces code context values = [] := by
      rw [pieces, hends]
      rfl
    rw [hnone] at h
    cases h
    rw [hends, hends]
  · rw [r.pieces_of_gather code context values hgather] at h
    rw [hgather, hgather, gather_of_takeAll h (Sink.takeAll_recorder _ [])]

/-- A sink that refuses a piece has gathered those before it, and its error ends the rendering. -/
theorem renderInto_of_refusal {before after : List Append} {a : Append} {e : RuntimeError}
    (hpieces : r.pieces code context values = before ++ a :: after)
    (h : sink.takeAll state before = .ok last) (htake : sink.take last a = .error e)
    (he : e.isRecoverable = false) :
    (r.renderInto sink state code context values).state = last ∧
      (r.renderInto sink state code context values).result = .error (.ofRuntime e) := by
  rcases r.exists_gather code context values with ⟨trace, e', hends⟩ | ⟨visit, piece, is, hgather⟩
  · rw [pieces, hends] at hpieces
    exact absurd hpieces (by simp)
  · rw [r.pieces_of_gather code context values hgather] at hpieces
    rw [hgather]
    exact gather_of_refusal hpieces h htake he

/-- A sink that spells what it takes spells the output. -/
theorem renderInto_of_spells (state : σ) {finish : σ → String} (spells : sink.Spells finish) :
    ∃ last, finish last = finish state ++ Append.join (r.pieces code context values) ∧
      r.renderInto sink state code context values =
        { r.renderInto (Sink.recorder none) [] code context values with state := last } := by
  obtain ⟨last, htakes, hlast⟩ := spells.takeAll (r.pieces code context values) state
  exact ⟨last, hlast, r.renderInto_of_takeAll code context values htakes⟩

/-- The text of a template is that of the pieces which it offers. -/
theorem render_eq_join :
    r.render code context values =
      (r.renderInto (Sink.recorder none) [] code context values).run
        fun recorded => Append.join recorded.reverse := by
  have whole : ∀ {τ : Type} (sink : Sink τ) (finish : τ → String) (state : τ), sink.Spells finish →
      finish state = "" → (r.renderInto sink state code context values).run finish =
        (r.renderInto (Sink.recorder none) [] code context values).run
          fun recorded => Append.join recorded.reverse := by
    intro τ sink finish state spells hstate
    obtain ⟨last, hlast, hinto⟩ := r.renderInto_of_spells code context values state spells
    rw [hinto]
    unfold Gathered.run
    rw [hlast, hstate, String.empty_append]
    rfl
  unfold render
  cases code.buffer with
  | string => exact whole Sink.string id "" Sink.spells_string rfl
  | fragments => exact whole Sink.fragments joinFragments [] Sink.spells_fragments rfl

end Renderer

/-- Let `pieces` be what a sink that never refuses records of a rendering. The text of the rendering
is that of the pieces, or the error is the same; so is what a sink for one text or for fragments has
gathered. A sink that takes the first `k` pieces ends as the recorder does if there are no more; and
if it refuses the next one with an error of its own, the rendering ends with that error, whatever
the options, and the sink has gathered the first `k` pieces and no more. -/
theorem output_handed_to_sinks (env : Environment) (code : Spec) (context : Value)
    (values : List Value) :
    let r := Renderer.cached env code.options
    let recorded := r.renderInto (Sink.recorder none) [] code context values
    let pieces := recorded.state.reverse
    let text := String.join (pieces.map Append.text)
    render env code context values = ⟨recorded.trace, recorded.result.map fun _ => text⟩ ∧
      (∀ out, r.renderInto Sink.string out code context values =
        { recorded with state := out ++ text }) ∧
      (∀ out, ∃ fragments, joinFragments fragments = joinFragments out ++ text ∧
        r.renderInto Sink.fragments out code context values =
          { recorded with state := fragments }) ∧
      ∀ {σ : Type} (sink : Sink σ) (state last : σ) (k : Nat),
        sink.takeAll state (pieces.take k) = .ok last →
          let done := r.renderInto sink state code context values
          (pieces.length ≤ k → done = { recorded with state := last }) ∧
            ∀ a message, pieces[k]? = some a → sink.take last a = .error (.io message) →
              done.state = last ∧ done.result = .error (.ofRuntime (.io message)) := by
  intro r recorded pieces text
  refine ⟨r.render_eq_join code context values, fun out => ?_, fun out => ?_, ?_⟩
  · obtain ⟨_, rfl, hinto⟩ :=
      r.renderInto_of_spells code context values out Sink.spells_string
    exact hinto
  · exact r.renderInto_of_spells code context values out Sink.spells_fragments
  · intro σ sink state last k htakes done
    constructor
    · intro hlength
      rw [List.take_of_length_le hlength] at htakes
      exact r.renderInto_of_takeAll code context values htakes
    · intro a message ha hrefuses
      obtain ⟨hk, rfl⟩ := List.getElem?_eq_some_iff.1 ha
      -- The sink takes the pieces before the one that it refuses.
      have hpieces : pieces = pieces.take k ++ pieces[k] :: pieces.drop (k + 1) := by
        rw [List.getElem_cons_drop, List.take_append_drop]
      exact r.renderInto_of_refusal code context values hpieces htakes hrefuses rfl

/-- A text, a call of a helper that is missing, a block and a value, written to a place of one byte:
the text fits, the call offers nothing, and the block is refused. -/
theorem output_handed_to_narrow_writer :
    let call : Instruction :=
      .append (.call ⟨"shout", none, none, [.literal .null], [], none, none⟩) true
    let block : Instruction :=
      .block ⟨.section (.literal (.boolean true)), "", some 1, none, none⟩
    let value : Instruction := .append (.literal (.string "c")) true
    let code : Spec :=
      { stamp := {}, main := 0, options := {}
        programs := [⟨[.content "a", call, block, value], 0⟩, ⟨[.content "b"], 0⟩] }
    let r := Renderer.cached {} code.options
    let pieces := (r.renderInto (Sink.recorder none) [] code .null []).state.reverse
    let written := r.renderInto (Sink.writer (some 1)) "" code .null []
    pieces = [⟨"a", false⟩, ⟨"b", true⟩, ⟨"c", true⟩] ∧
      (Sink.writer (some 1)).takeAll "" (pieces.take 1) = .ok "a" ∧
      written.state = "a" ∧ written.result = .error (.ofRuntime (.io "writer full")) := by
  intro call block value code r pieces written
  have hpieces : pieces = [⟨"a", false⟩, ⟨"b", true⟩, ⟨"c", true⟩] := by decide +kernel
  have htakes : (Sink.writer (some 1)).takeAll "" (pieces.take 1) = .ok "a" := by
    rw [hpieces]
    decide +kernel
  have hnext : pieces[1]? = some ⟨"b", true⟩ := by rw [hpieces]; rfl
  have handed :=
    (output_handed_to_sinks {} code .null []).2.2.2 (Sink.writer (some 1)) "" "a" 1 htakes
  obtain ⟨hstate, hresult⟩ := handed.2 ⟨"b", true⟩ "writer full" hnext (by decide +kernel)
  exact ⟨hpieces, htakes, hstate, hresult⟩

end Stencil.Render
