import Stencil.Proofs.Render.Activity
import Stencil.Render.Counting

/-!
# Counting

A rendering that counts the programs that are active is one whose levels run out. With so many
programs active, as many levels are left as the limit allows for beyond them, and each program that
is nested is refused in the one rendering where it is in the other; so the two give the same run,
and what is counted before a run is counted after it, however it ends
(`Renderer.invokeCounting_eq`). The induction is on the steps that are allowed for nesting: one for
each level is enough. It follows that every rendering comes to an end, of whatever code, and that no
more programs are ever active than the limit (`rendering_within_limit`).
-/

set_option autoImplicit false

namespace Stencil.Render

open Stencil.Code (Spec Instruction BlockCall)

/-! ## Runs that count -/

namespace Counting

variable {α β : Type}

/-- A run that gives an answer, followed by one that does and that leaves the count as it is. -/
theorem bind_of_eq {r : Counting α} {next : α → Counting β} {active : Nat} {run : Run α}
    {more : α → Run β} (h : r active = some (run, active))
    (hnext : ∀ a, next a active = some (more a, active)) :
    (r >>= next) active = some (run >>= more, active) := by
  show (r active).bind (goOn next) = _
  rw [h]
  obtain ⟨trace, result⟩ := run
  cases result with
  | error e => rfl
  | ok a =>
    show (next a active).map _ = _
    rw [hnext]
    rfl

theorem bind_pure (r : Counting α) : (r >>= pure) = r := by
  funext active
  show (r active).bind (goOn pure) = r active
  rcases r active with _ | ⟨⟨trace, result⟩, count⟩
  · rfl
  cases result with
  | error e => rfl
  | ok a =>
    show some ((⟨trace ++ [], .ok a⟩ : Run α), count) = _
    rw [List.append_nil]

theorem pure_bind (a : α) (next : α → Counting β) : (pure a >>= next) = next a := by
  funext active
  show (next a active).map _ = next a active
  cases next a active with
  | none => rfl
  | some done => rfl

theorem bind_assoc {γ : Type} (r : Counting α) (f : α → Counting β) (g : β → Counting γ) :
    (r >>= f >>= g) = (r >>= fun a => f a >>= g) := by
  funext active
  show ((r active).bind (goOn f)).bind (goOn g) = (r active).bind (goOn fun a => f a >>= g)
  rcases r active with _ | ⟨⟨trace, result⟩, count⟩
  · rfl
  cases result with
  | error e => rfl
  | ok a =>
    show ((f a count).map _).bind (goOn g) = ((f a count).bind (goOn g)).map _
    rcases f a count with _ | ⟨⟨trace', result'⟩, count'⟩
    · rfl
    cases result' with
    | error e => rfl
    | ok b =>
      show (g b count').map _ = ((g b count').map _).map _
      rw [Option.map_map]
      refine congrArg (Option.map · _) (funext fun done => ?_)
      exact congrArg (fun t => ((⟨t, done.1.result⟩ : Run γ), done.2)) (List.append_assoc _ _ _)

instance : LawfulMonad Counting :=
  LawfulMonad.mk' Counting (fun r => bind_pure r) (fun a next => pure_bind a next)
    (fun r f g => bind_assoc r f g)

end Counting

/-- All visits correspond to themselves, and nothing is asked of errors. -/
def sameAgreement : Agreement where
  visits := Eq
  seen := fun _ => True
  errors := fun _ => True

/-- A run where programs are counted gives an answer, which is that of a run where they are not, and
leaves the count as it was. -/
def countingComparison (active : Nat) : Comparison sameAgreement Counting Run where
  Rel r s := r active = some (s, active)
  rel_pure _ := rfl
  rel_ofExcept _ := rfl
  rel_log _ _ := rfl
  rel_bind h next := Counting.bind_of_eq h next
  rel_attempt_bind := by
    intro α β r s f g h next
    have hattempt : Counting.mapRun Run.attempt r active = some (s.attempt, active) := by
      rw [Counting.mapRun, h]
      rfl
    exact Counting.bind_of_eq hattempt fun x => next x fun _ _ => trivial
  rel_recover := by
    intro α strict r s h
    show Counting.mapRun (Run.recover strict) r active = _
    rw [Counting.mapRun, h]
    rfl
  rel_nested := by
    intro α u v r s huv h
    obtain rfl := huv
    show Counting.mapRun (Run.nested u) r active = _
    rw [Counting.mapRun, h trivial]
    rfl

/-! ## Programs that are counted -/

section Guarded

variable {β : Type} {limit active : Nat} {refused : β} {run : Nat → Option (β × Nat)}

/-- One program more than the limit is refused. -/
theorem guarded_of_le (h : limit ≤ active) :
    guarded limit refused run active = some (refused, active) :=
  if_pos (Nat.lt_succ_of_le h)

/-- What leaves the count as it was when it began does so when it is guarded. -/
theorem guarded_of_lt (h : active < limit) {done : β}
    (hrun : run (active + 1) = some (done, active + 1)) :
    guarded limit refused run active = some (done, active) := by
  rw [guarded, if_neg (Nat.not_lt.2 h), hrun]
  rfl

end Guarded

namespace Renderer

variable (r : Renderer)

/-- With as many programs active as leave that many levels, places are compared whose nested
programs are. -/
theorem places_counting {level active : Nat} (hactive : active + level = r.env.maxDepth)
    {below : Visit → Counting String}
    (hbelow : ∀ v, below v active = some (r.invokeAt level v, active)) (v : Visit) :
    (countingComparison active).Places Eq (fun _ => True) (r.countingPlace below active v)
      (r.placeAt level v) := by
  have hlevel : r.env.maxDepth - active = level := by omega
  have hfound : ∀ options name, (countingComparison active).Rel
      (Carrier.ofRun (r.partialSpec options name)) (r.partialSpec options name) := fun _ _ => rfl
  unfold countingPlace placeAt
  rw [hlevel]
  exact (countingComparison active).places_of_below (fun _ => trivial) hfound hbelow _

/-- A program that is nested gives an answer, if a step is left for each level, and leaves the count
of active programs as it was. The answer is that of the level. -/
theorem invokeCounting_eq :
    ∀ (steps level active : Nat) (v : Visit), level < steps → active + level = r.env.maxDepth →
      r.invokeCounting steps v active = some (r.invokeAt level v, active) := by
  intro steps
  induction steps with
  | zero =>
    intro level active v hlevel
    exact absurd hlevel (Nat.not_lt_zero level)
  | succ steps ih =>
    intro level active v hlevel hactive
    cases level with
    | zero => exact guarded_of_le (by omega)
    | succ level =>
      -- The program itself is active while those that it nests are run.
      have hbelow : ∀ w, r.invokeCounting steps w (active + 1) =
          some (r.invokeAt level w, active + 1) :=
        fun w => ih level (active + 1) w (by omega) (by omega)
      have places := r.places_counting (by omega) hbelow v
      have hbody := (countingComparison (active + 1)).rel_program (fun _ => trivial) places v.spec
        v.program
      refine guarded_of_lt (by omega) ?_
      exact (countingComparison (active + 1)).rel_nested (u := v) rfl fun _ => hbody

/-- A program is refused where as many are active as may be. -/
theorem invokeCounting_of_le {active : Nat} (h : r.env.maxDepth ≤ active) (steps : Nat)
    (v : Visit) :
    r.invokeCounting (steps + 1) v active =
      some (.failRuntime (.depthExceeded r.env.maxDepth), active) :=
  guarded_of_le h

/-- The piece of an instruction where programs are counted. -/
theorem piece_counting {steps level active : Nat} (hlevel : level < steps)
    (hactive : active + level = r.env.maxDepth) (v : Visit) (i : Instruction) :
    (r.countingPlace (r.invokeCounting steps) active v).piece i active =
      some ((r.placeAt level v).piece i, active) := by
  have places := r.places_counting hactive
    (fun w => r.invokeCounting_eq steps level active w hlevel hactive) v
  exact places.rel_piece (Instruction.counterpart_self fun _ _ => rfl) fun _ _ => trivial

end Renderer

/-! ## Renderings that are counted -/

/-- A sink gathers the same where programs are counted, and the count is left as it was. -/
theorem gatherCounting_eq {ι σ : Type} (sink : Sink σ) (strict : Bool) {piece : ι → Counting Append}
    {piece' : ι → Run Append} {active : Nat} {is : List ι}
    (h : ∀ i ∈ is, piece i active = some (piece' i, active)) (state : σ) :
    gatherCounting sink strict piece is state active = some
      (gather sink strict piece' is state, active) := by
  induction is generalizing state with
  | nil => rfl
  | cons i rest ih =>
    have hrest := ih fun j hj => h j (List.mem_cons_of_mem i hj)
    have htaken : (Carrier.recover strict (do
          let a ← piece i
          Carrier.ofRun (.ofRuntime (sink.take state a))) : Counting (Option σ)) active =
        some (Run.recover strict (do
          let a ← piece' i
          Run.ofRuntime (sink.take state a)), active) :=
      (countingComparison active).rel_recover strict
        ((countingComparison active).rel_bind (h i List.mem_cons_self) fun _ => rfl)
    rw [gatherCounting, gather]
    dsimp only
    rw [htaken]
    generalize Run.recover strict _ = taken
    obtain ⟨trace, result⟩ := taken
    cases result with
    | error e => rfl
    | ok next =>
      dsimp only
      rw [hrest]
      rfl

namespace Renderer

/-- A rendering that counts gives what one gives that does not, and counts no programs in the
end. -/
theorem countingInto_eq (r : Renderer) {σ : Type} (sink : Sink σ) (state : σ) (spec : Spec)
    (context : Value) (values : List Value) {steps : Nat} (hsteps : r.env.maxDepth ≤ steps) :
    r.countingInto steps sink state spec context values =
      some (r.renderInto sink state spec context values, 0) := by
  unfold countingInto renderInto
  cases hcheck : spec.check with
  | error e => rfl
  | ok _ =>
    dsimp only
    cases hdepth : r.env.maxDepth with
    | zero => exact guarded_of_le (Nat.le_refl 0)
    | succ level =>
      refine guarded_of_lt (Nat.succ_pos level) ?_
      cases hchunk : chunk spec spec.main with
      | error e => rfl
      | ok c =>
        have hpiece :=
          fun i => r.piece_counting (by omega : level < steps) (by omega : 0 + 1 + level = _)
            (r.rootVisit spec context values) i
        have hgather :=
          gatherCounting_eq sink spec.options.strict (fun i (_ : i ∈ c.instructions) =>
          hpiece i) state
        show (gatherCounting sink spec.options.strict _ c.instructions state (0 + 1)).map _ = _
        exact congrArg (Option.map _) hgather

end Renderer

/-! ## Every rendering ends, within the limit -/

/-- With a step of nesting for each level and one more, and any number of steps to spare, every
rendering comes to an end, whichever programs and partials refer to each other. A program, a partial
or the body of a partial block that begins while so many programs are active has an answer and
leaves the count as it was, whether it succeeds or fails. It is refused if as many are active as may
be, and otherwise no more programs are active in it at one time than the limit leaves. A whole
rendering counts no programs in the end, into whichever sink it goes, and none of its programs is
ever one more than the limit. -/
theorem rendering_within_limit (env : Environment) (template : Spec) (spare : Nat) :
    let r := Renderer.cached env template.options
    let limit := env.maxDepth
    let steps := limit + 1 + spare
    (∀ (v : Visit) (active : Nat), ∃ run, r.invokeCounting steps v active = some (run, active) ∧
      (limit ≤ active → run = Run.failRuntime (.depthExceeded limit)) ∧
      (active ≤ limit → Within (limit - active) run.trace)) ∧
    (∀ {σ : Type} (sink : Sink σ) (state : σ) (context : Value) (values : List Value),
      r.countingInto steps sink state template context values =
          some (r.renderInto sink state template context values, 0) ∧
        Within limit (r.renderInto sink state template context values).trace) ∧
    (∀ context values, Within limit (render env template context values).trace) := by
  intro r limit steps
  have silent : r.Silent := Renderer.silent_cached env template.options
  refine ⟨fun v active => ?_, fun sink state context values => ⟨?_, ?_⟩, fun context values => ?_⟩
  · by_cases hactive : active < limit
    · -- Room is left for at least this program.
      have hlevel : active + (limit - active) = limit := by omega
      refine ⟨r.invokeAt (limit - active) v, ?_, ?_, fun _ => Renderer.within_invokeAt silent _ v⟩
      · exact r.invokeCounting_eq steps (limit - active) active v (by omega) hlevel
      · intro hfull
        omega
    · -- As many are active as may be, so the program is refused at once.
      refine ⟨.failRuntime (.depthExceeded limit), ?_, fun _ => rfl, fun _ => within_nil _⟩
      have hsteps : steps = (limit + spare) + 1 := by omega
      rw [hsteps]
      exact r.invokeCounting_of_le (Nat.le_of_not_lt hactive) (limit + spare) v
  · have hsteps : limit ≤ steps := by omega
    exact r.countingInto_eq sink state template context values hsteps
  · exact Renderer.within_renderInto silent sink state template context values
  · unfold render Renderer.render
    cases template.buffer with
    | string => exact Renderer.within_renderInto silent Sink.string "" template context values
    | fragments => exact Renderer.within_renderInto silent Sink.fragments [] template context values

/-- A template whose only block has the main program itself for its body. -/
example :
    let block : BlockCall := ⟨.section (.literal (.boolean true)), "", some 0, none, none⟩
    let template : Spec :=
      { stamp := {}, main := 0, programs := [⟨[.block block], 0⟩], options := {} }
    (render { maxDepth := 3 } template .null []).result =
      .error (.ofRuntime (.depthExceeded 3)) := by
  rfl

end Stencil.Render
