import Mathlib.Data.List.Infix
import Stencil.Proofs.Render.Simulation

/-!
# Activity

How many programs are active at one time, told from the trace of a run: those that have begun and
are not left yet. A trace that stays within a number of levels (`Within`) never has more of them
active, and has none active in the end. So does a run at any level of nesting with that level as the
number (`Renderer.within_invokeAt`), by induction on the level: the programs that one program nests
are within one level less.
-/

set_option autoImplicit false

namespace Stencil.Render

open Stencil.Code (Spec Options Instruction)

/-! ## Programs that have begun and ended -/

/-- The event is the beginning of a program. -/
def Event.isEntered : Event → Bool
  | .entered _ => true
  | _ => false

/-- The event is the end of a program. -/
def Event.isLeft : Event → Bool
  | .left => true
  | _ => false

/-- How many programs begin in a trace. -/
def begun (trace : List Event) : Nat := trace.countP Event.isEntered

/-- How many programs end in a trace. -/
def ended (trace : List Event) : Nat := trace.countP Event.isLeft

@[simp] theorem begun_nil : begun [] = 0 := rfl

@[simp] theorem ended_nil : ended [] = 0 := rfl

@[simp] theorem begun_append (t u : List Event) : begun (t ++ u) = begun t + begun u :=
  List.countP_append

@[simp] theorem ended_append (t u : List Event) : ended (t ++ u) = ended t + ended u :=
  List.countP_append

@[simp] theorem begun_entered (v : Visit) (t : List Event) :
    begun (.entered v :: t) = begun t + 1 :=
  List.countP_cons_of_pos rfl

@[simp] theorem ended_entered (v : Visit) (t : List Event) : ended (.entered v :: t) = ended t :=
  List.countP_cons_of_neg Bool.false_ne_true

@[simp] theorem begun_left (t : List Event) : begun (.left :: t) = begun t :=
  List.countP_cons_of_neg Bool.false_ne_true

@[simp] theorem ended_left (t : List Event) : ended (.left :: t) = ended t + 1 :=
  List.countP_cons_of_pos rfl

/-- What a trace that goes on after another begins with. -/
theorem prefix_append_cases {t u p : List Event} (h : p <+: t ++ u) :
    p <+: t ∨ ∃ q, p = t ++ q ∧ q <+: u := by
  rcases List.prefix_or_prefix_of_prefix h (List.prefix_append t u) with hp | ⟨q, rfl⟩
  · exact .inl hp
  · exact .inr ⟨q, rfl, (List.prefix_append_right_inj t).1 h⟩

/-! ## Traces within a number of levels -/

/-- Along a trace no more programs are active at one time than a number, and every program that has
begun is left in the end. -/
structure Within (levels : Nat) (trace : List Event) : Prop where
  along : ∀ t, t <+: trace → ended t ≤ begun t ∧ begun t ≤ ended t + levels
  settled : begun trace = ended trace

theorem within_nil (levels : Nat) : Within levels [] where
  along t ht := by
    obtain rfl := List.prefix_nil.1 ht
    simp
  settled := rfl

/-- An event that is neither the beginning nor the end of a program. -/
theorem within_other {e : Event} (entered : e.isEntered = false) (left : e.isLeft = false)
    (levels : Nat) : Within levels [e] := by
  have hbegun : begun [e] = 0 := by simp [begun, entered]
  have hended : ended [e] = 0 := by simp [ended, left]
  constructor
  · intro t ht
    rcases List.prefix_cons_iff.1 ht with rfl | ⟨u, rfl, hu⟩
    · simp
    · obtain rfl := List.prefix_nil.1 hu
      omega
  · rw [hbegun, hended]

theorem Within.append {levels : Nat} {t u : List Event} (ht : Within levels t)
    (hu : Within levels u) : Within levels (t ++ u) := by
  have settled := ht.settled
  constructor
  · intro p hp
    rcases prefix_append_cases hp with hp | ⟨q, rfl, hq⟩
    · exact ht.along p hp
    · -- The first trace is settled, so what is active is what the second has active.
      have hactive := hu.along q hq
      rw [begun_append, ended_append]
      omega
  · rw [begun_append, ended_append, ht.settled, hu.settled]

/-- A program takes one level more than what goes on inside it. -/
theorem Within.program {levels : Nat} {t : List Event} (h : Within levels t) (v : Visit) :
    Within (levels + 1) (.entered v :: (t ++ [.left])) := by
  have settled := h.settled
  constructor
  · intro p hp
    rcases List.prefix_cons_iff.1 hp with rfl | ⟨q, rfl, hq⟩
    · simp
    rw [begun_entered, ended_entered]
    rcases prefix_append_cases hq with hq | ⟨last, rfl, hlast⟩
    · have hactive := h.along q hq
      omega
    · -- All of the program's own events have come, and perhaps its end.
      rw [begun_append, ended_append]
      rcases List.prefix_cons_iff.1 hlast with rfl | ⟨rest, rfl, hrest⟩
      · rw [begun_nil, ended_nil]
        omega
      · obtain rfl := List.prefix_nil.1 hrest
        rw [begun_left, ended_left, begun_nil, ended_nil]
        omega
  · rw [begun_entered, ended_entered, begun_append, ended_append, begun_left, ended_left, begun_nil,
      ended_nil]
    omega

/-! ## Runs within a number of levels -/

/-- Nothing is asked of errors, and no program may begin but at the level below. -/
def levelAgreement : Agreement where
  visits := fun _ _ => False
  seen := fun _ => True
  errors := fun _ => True

theorem Within.bind {levels : Nat} {α β : Type} {r : Run α} {next : α → Run β}
    (h : Within levels r.trace) (hnext : ∀ a, Within levels (next a).trace) :
    Within levels (r >>= next).trace := by
  obtain ⟨trace, result⟩ := r
  cases result with
  | error e => exact h
  | ok a => exact h.append (hnext a)

/-- That a run is within a number of levels is kept by every way to go on in the same program. -/
def withinComparison (levels : Nat) : Comparison levelAgreement Run Run where
  Rel r _ := Within levels r.trace
  rel_pure _ := within_nil levels
  rel_ofExcept _ := within_nil levels
  rel_log _ _ := within_other rfl rfl levels
  rel_bind h next := Within.bind h next
  rel_attempt_bind {_ _ r _ _ _} h next :=
    Within.bind (r := Run.attempt r) h fun x => next x fun _ _ => trivial
  rel_recover := by
    intro α strict r s h
    obtain ⟨trace, result⟩ := r
    cases result with
    | ok x => exact h
    | error e =>
      show Within levels (Run.recover strict ⟨trace, .error e⟩).trace
      by_cases hrecovers : (!strict && e.isRecoverable) = true
      · -- What was replaced leaves an event of its own.
        have hreplaced : Within levels [.replaced e] := within_other rfl rfl levels
        simp only [Run.recover, if_pos hrecovers]
        exact Within.append h hreplaced
      · simp only [Run.recover, if_neg hrecovers]
        exact h
  rel_nested h _ := h.elim

namespace Renderer

variable {r : Renderer}

/-- Looking for a partial leaves no events. -/
def Silent (r : Renderer) : Prop := ∀ options name, (r.partialSpec options name).trace = []

theorem silent_cached (env : Environment) (options : Options) : (cached env options).Silent :=
  fun _ _ => rfl

/-- Where every nested program is within a number of levels, so is what goes on in one program. -/
theorem places_within (silent : r.Silent) {level : Nat}
    (hbelow : ∀ v, Within level (r.invokeAt level v).trace) (v : Visit) :
    (withinComparison level).Places Eq (fun _ => True) (r.placeAt level v) (r.placeAt level v) := by
  have hfound : ∀ options name, Within level (r.partialSpec options name).trace := by
    intro options name
    rw [silent]
    exact within_nil level
  exact (withinComparison level).places_of_below (fun _ => trivial) hfound hbelow _

/-- A run at a level of nesting is within that level. -/
theorem within_invokeAt (silent : r.Silent) :
    ∀ (level : Nat) (v : Visit), Within level (r.invokeAt level v).trace := by
  intro level
  induction level with
  | zero =>
    intro v
    exact within_nil 0
  | succ level ih =>
    intro v
    have places := places_within silent ih v
    have hbody := (withinComparison level).rel_program (fun _ => trivial) places v.spec v.program
    exact Within.program hbody v

/-- A rendering into a sink is within the limit of nesting. -/
theorem within_renderInto (silent : r.Silent) {σ : Type} (sink : Sink σ) (state : σ) (spec : Spec)
    (context : Value) (values : List Value) :
    Within r.env.maxDepth (r.renderInto sink state spec context values).trace := by
  show Within _ ((r.renderInto sink state spec context values).run id).trace
  rw [run_renderInto_eq]
  refine Within.bind (within_nil _) fun _ => ?_
  cases r.env.maxDepth with
  | zero => exact within_nil 0
  | succ level =>
    let v := r.rootVisit spec context values
    have places := places_within silent (within_invokeAt silent level) v
    have hpieces : ∀ i, Within level ((r.placeAt level v).piece i).trace := fun i =>
      places.rel_piece (Instruction.counterpart_self fun _ _ => rfl) fun _ _ => trivial
    refine Within.program (Within.bind (within_nil level) fun c => ?_) v
    let body := collect sink spec.options.strict (r.placeAt level v).piece c.instructions state
    have hbody : (withinComparison level).Rel body body :=
      (withinComparison level).rel_collect _ (fun _ _ => within_nil level) state fun i _ =>
        hpieces i
    rw [id_map]
    exact hbody

end Renderer

end Stencil.Render
