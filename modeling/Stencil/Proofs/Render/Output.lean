import Stencil.Proofs.Code.Joining
import Stencil.Render.Rendering

/-!
# Output

The text that instructions give, whatever it is that carries evaluation. Whichever way output is
gathered, it is the texts of the pieces one after the other (`capture_eq_textOf`), and a text of the
template may be cut anywhere (`textOf_eq_strokeText`). A rendering is the check of the code and a
run of its main program at the outermost level (`Renderer.render_eq_text`).
-/

set_option autoImplicit false

namespace Stencil.Render

open Stencil.Code (Instruction Spec BufferKind strokes)

variable {ι σ : Type}

/-- What has a result that passes a test has a result. -/
theorem exists_ok_of_any {ε α : Type} {x : Except ε α} {p : α → Bool}
    (h : x.toOption.any p = true) : ∃ a, x = .ok a ∧ p a = true := by
  cases x with
  | error e => cases h
  | ok a => exact ⟨a, rfl, h⟩

/-! ## Carriers -/

/-- A carrier that takes the run of a value for the value, and does not go on after a failure, and
in which a value needs no recovering, and whether an error is recovered from does not depend on what
is made of the value. -/
class LawfulCarrier (m : Type → Type) [Monad m] [Carrier m] : Prop extends LawfulMonad m where
  ofRun_pure : ∀ {α : Type} (a : α), (Carrier.ofRun (pure a) : m α) = pure a
  ofRun_fail_bind : ∀ {α β : Type} (e : TemplateError) (f : α → m β),
    (Carrier.ofRun (Run.fail e : Run α) >>= f) = Carrier.ofRun (Run.fail e)
  recover_pure : ∀ {α : Type} (strict : Bool) (a : α),
    (Carrier.recover strict (pure a) : m (Option α)) = pure (some a)
  recover_map : ∀ {α β : Type} (strict : Bool) (f : α → β) (r : m α),
    Carrier.recover strict (f <$> r) = Option.map f <$> Carrier.recover strict r

namespace Run

variable {α β : Type}

theorem map_eq (f : α → β) (r : Run α) : f <$> r = ⟨r.trace, r.result.map f⟩ := by
  obtain ⟨trace, result⟩ := r
  rw [map_eq_pure_bind]
  cases result with
  | error e => rfl
  | ok a => exact Run.ext (List.append_nil trace) rfl

instance : LawfulCarrier Run where
  ofRun_pure _ := rfl
  ofRun_fail_bind _ _ := rfl
  recover_pure _ _ := rfl
  recover_map strict f r := by
    obtain ⟨trace, result⟩ := r
    rw [map_eq, map_eq]
    cases result with
    | error e =>
      show Run.recover strict ⟨trace, .error e⟩ = _
      simp only [Carrier.recover, Run.recover]
      split <;> rfl
    | ok a => rfl

end Run

section Texts

variable {m : Type → Type} [Monad m] [Carrier m]

/-! ## Pieces one after the other -/

/-- The texts of the pieces of some instructions, one after the other. Unless `strict`, an
instruction that fails with a recoverable error has none. -/
def textOf (strict : Bool) (piece : ι → m Append) : List ι → m String
  | [] => pure ""
  | i :: rest => do
    let first ← Carrier.recover strict (piece i)
    let more ← textOf strict piece rest
    pure (first.elim "" Append.text ++ more)

/-- The sink takes every piece, and what it has gathered spells the texts of the pieces. -/
def Sink.Spells (sink : Sink σ) (finish : σ → String) : Prop :=
  ∀ state a, ∃ next, sink.take state a = .ok next ∧ finish next = finish state ++ a.text

theorem Sink.spells_string : Sink.string.Spells id := fun _ _ => ⟨_, rfl, rfl⟩

theorem Sink.spells_fragments : Sink.fragments.Spells joinFragments := by
  intro pieces a
  refine ⟨_, rfl, ?_⟩
  split
  next hempty => rw [String.isEmpty_iff.1 hempty, String.append_empty]
  next =>
    rw [joinFragments, List.reverse_cons, String.join_append, String.join_cons, String.join_nil,
      String.append_empty]
    rfl

variable [LawfulCarrier m]

theorem map_empty_append (r : m String) : ("" ++ ·) <$> r = r := by
  rw [show (("" : String) ++ ·) = id from funext fun _ => String.empty_append]
  exact id_map r

/-- A sink that spells the texts of the pieces gives them one after the other. -/
theorem collect_eq_textOf {sink : Sink σ} {finish : σ → String} (spells : sink.Spells finish)
    (strict : Bool) (piece : ι → m Append) (is : List ι) (state : σ) :
    finish <$> collect sink strict piece is state =
      (finish state ++ ·) <$> textOf strict piece is := by
  choose step htake hfinish using spells
  induction is generalizing state with
  | nil => rw [collect, textOf, map_pure, map_pure, String.append_empty]
  | cons i rest ih =>
    -- The sink takes the piece, so handing it over maps the piece to the next state.
    have hstep : (do
        let a ← piece i
        Carrier.ofRun (.ofRuntime (sink.take state a))) = step state <$> piece i := by
      rw [map_eq_pure_bind]
      refine congrArg _ (funext fun a => ?_)
      rw [htake]
      exact LawfulCarrier.ofRun_pure _
    rw [collect, hstep, LawfulCarrier.recover_map, textOf, bind_map_left, map_bind, map_bind]
    refine congrArg _ (funext fun first => ?_)
    rw [ih, map_bind, map_eq_pure_bind]
    refine congrArg _ (funext fun more => ?_)
    rw [map_pure]
    cases first with
    | none => rw [Option.elim_none, String.empty_append]; rfl
    | some a =>
      rw [Option.elim_some, ← String.append_assoc, ← hfinish]
      rfl

/-- Captured output is the texts of the pieces one after the other, in whichever way it is
gathered. -/
theorem capture_eq_textOf (kind : BufferKind) (strict : Bool) (piece : ι → m Append)
    (is : List ι) : capture kind strict piece is = textOf strict piece is := by
  cases kind with
  | string =>
    refine (id_map _).symm.trans ?_
    exact (collect_eq_textOf Sink.spells_string strict piece is "").trans (map_empty_append _)
  | fragments =>
    exact (collect_eq_textOf Sink.spells_fragments strict piece is []).trans (map_empty_append _)

/-- The texts of instructions are those of the first and those of the rest. -/
theorem textOf_append (strict : Bool) (piece : ι → m Append) (js : List ι) :
    ∀ is : List ι, textOf strict piece (is ++ js) =
      (do
        let first ← textOf strict piece is
        let more ← textOf strict piece js
        pure (first ++ more))
  | [] => by
    rw [textOf, pure_bind, ← map_eq_pure_bind]
    exact (map_empty_append _).symm
  | i :: rest => by
    rw [List.cons_append, textOf, textOf, bind_assoc]
    refine congrArg _ (funext fun first => ?_)
    rw [textOf_append strict piece js rest, bind_assoc, bind_assoc]
    simp only [bind_assoc, pure_bind, String.append_assoc]

/-! ## Texts of the template letter by letter -/

omit [LawfulCarrier m]

/-- The texts of letters and of the pieces of other instructions, one after the other. -/
def strokeText (strict : Bool) (piece : Instruction → m Append) :
    List (Char ⊕ Instruction) → m String
  | [] => pure ""
  | .inl c :: rest => (String.singleton c ++ ·) <$> strokeText strict piece rest
  | .inr i :: rest => do
    let first ← Carrier.recover strict (piece i)
    let more ← strokeText strict piece rest
    pure (first.elim "" Append.text ++ more)

variable [LawfulCarrier m]

theorem strokeText_letters (strict : Bool) (piece : Instruction → m Append)
    (rest : List (Char ⊕ Instruction)) :
    ∀ cs : List Char,
      strokeText strict piece (cs.map .inl ++ rest) =
        (String.ofList cs ++ ·) <$> strokeText strict piece rest
  | [] => (map_empty_append _).symm
  | c :: cs => by
    rw [List.map_cons, List.cons_append, strokeText, strokeText_letters strict piece rest cs,
      ← comp_map]
    refine congrArg (· <$> _) (funext fun t => ?_)
    rw [Function.comp_apply, ← String.append_assoc, String.ofList_cons]

/-- It does not matter how the texts of the template are cut. -/
theorem textOf_eq_strokeText (strict : Bool) {piece : Instruction → m Append}
    (content : ∀ text, piece (.content text) = pure ⟨text, false⟩) :
    ∀ is : List Instruction, textOf strict piece is = strokeText strict piece (strokes is)
  | [] => rfl
  | i :: rest => by
    rw [textOf, textOf_eq_strokeText strict content rest]
    show _ = strokeText strict piece (i.strokes ++ strokes rest)
    cases i with
    | content text =>
      rw [Instruction.strokes, strokeText_letters, String.ofList_toList, content,
        LawfulCarrier.recover_pure, pure_bind]
      exact (map_eq_pure_bind _ _).symm
    | append value escape => rfl
    | block b => rfl
    | partialCall p => rfl

end Texts

/-! ## Rendering as a run -/

/-- What a sink has gathered is what it has collected, if it ends well. -/
theorem run_gather_eq {α : Type} (sink : Sink σ) (finish : σ → α) (strict : Bool)
    (piece : ι → Run Append) :
    ∀ (is : List ι) (state : σ),
      (gather sink strict piece is state).run finish =
        finish <$> collect sink strict piece is state
  | [], state => rfl
  | i :: rest, state => by
    rw [collect, gather, map_bind]
    simp only [← run_gather_eq sink finish strict piece rest]
    show _ = Run.recover strict _ >>= _
    obtain ⟨trace, result⟩ := Run.recover strict do
      let a ← piece i
      Run.ofRuntime (sink.take state a)
    cases result with
    | error e => rfl
    | ok next => rfl

namespace Renderer

section

variable {m : Type → Type}

/-- The visit of the main program of a template. -/
def rootVisit (r : Renderer m) (spec : Spec) (context : Value) (values : List Value) : Visit :=
  ⟨spec, spec.main, Scope.root context r.env.data values⟩

/-- The instructions of a program are those that the code has under its number. -/
theorem program?_of_chunk {spec : Spec} {id : Nat} {c : Code.Chunk} (h : chunk spec id = .ok c) :
    spec.program? id = some c := by
  unfold chunk at h
  split at h
  next c' hc =>
    cases h
    exact hc
  next => cases h

variable [Monad m] [Carrier m]

/-- The place of a visit when so many levels are left below it. -/
def placeAt (r : Renderer m) (level : Nat) (v : Visit) : Place m :=
  ⟨⟨r.env, r.partialSpec, r.invokeAt level, level⟩, v.spec, v.scope⟩

variable [LawfulCarrier m]

/-- One program at one level: its pieces one after the other. -/
theorem invokeAt_succ (r : Renderer m) (level : Nat) (v : Visit) :
    r.invokeAt (level + 1) v =
      Carrier.nested v (do
        let c ← Carrier.ofRun (.ofExcept (chunk v.spec v.program))
        textOf v.spec.options.strict (r.placeAt level v).piece c.instructions) := by
  rw [invokeAt]
  simp only [capture_eq_textOf]
  rfl

/-- One program that is there, at one level. -/
theorem invokeAt_of_program? (r : Renderer m) (level : Nat) {v : Visit} {c : Code.Chunk}
    (h : v.spec.program? v.program = some c) :
    r.invokeAt (level + 1) v =
      Carrier.nested v
        (textOf v.spec.options.strict (r.placeAt level v).piece c.instructions) := by
  have hchunk : chunk v.spec v.program = .ok c := by
    unfold chunk
    rw [h]
  rw [invokeAt_succ, hchunk]
  show Carrier.nested v (Carrier.ofRun (pure c) >>= _) = _
  rw [LawfulCarrier.ofRun_pure, pure_bind]

end

/-- Handing the output of a template to a sink: the code is checked, and the main program is run if
there is a level left for it. -/
theorem run_renderInto_eq {α : Type} (r : Renderer) (sink : Sink σ) (finish : σ → α) (state : σ)
    (spec : Spec) (context : Value) (values : List Value) :
    (r.renderInto sink state spec context values).run finish =
      (do
        Run.ofRuntime spec.check
        match r.env.maxDepth with
        | 0 => r.tooDeep
        | level + 1 =>
          let v := r.rootVisit spec context values
          Run.nested v (do
            let c ← Run.ofExcept (chunk spec spec.main)
            finish <$>
              collect sink spec.options.strict (r.placeAt level v).piece c.instructions
                state)) := by
  simp only [← run_gather_eq]
  unfold renderInto
  cases hcheck : spec.check with
  | error e => rfl
  | ok _ =>
    cases hdepth : r.env.maxDepth with
    | zero =>
      unfold tooDeep
      rw [hdepth]
      rfl
    | succ level =>
      cases hchunk : chunk spec spec.main with
      | error e => rfl
      | ok c => rfl

/-- A rendering gives the text of the template, in whichever way it is gathered. -/
theorem render_eq_text (r : Renderer) (spec : Spec) (context : Value) (values : List Value) :
    r.render spec context values = r.text spec context values := by
  have whole : ∀ {τ : Type} (sink : Sink τ) (finish : τ → String) (state : τ),
      sink.Spells finish → finish state = "" →
        (r.renderInto sink state spec context values).run finish = r.text spec context values := by
    intro τ sink finish state spells hstate
    rw [run_renderInto_eq]
    refine congrArg _ (funext fun _ => ?_)
    cases r.env.maxDepth with
    | zero => rfl
    | succ level =>
      rw [invokeAt_succ]
      simp only [collect_eq_textOf spells, hstate, map_empty_append]
      rfl
  unfold Renderer.render
  cases spec.buffer with
  | string => exact whole Sink.string id "" Sink.spells_string rfl
  | fragments => exact whole Sink.fragments joinFragments [] Sink.spells_fragments rfl

/-- The text of a template whose code is in order is that of its main program at the outermost
level. -/
theorem text_eq_invokeAt (r : Renderer) {spec : Spec} (check : spec.check = .ok ())
    (context : Value) (values : List Value) :
    r.text spec context values = r.invokeAt r.env.maxDepth (r.rootVisit spec context values) := by
  unfold text
  rw [check]
  exact Run.pure_bind () _

end Renderer

end Stencil.Render
