import Stencil.Proofs.Render.Agreement

/-!
# Comparison of carriers

Evaluation is the same whatever carries it, so it can be compared with itself across two carriers:
runs with runs, or runs that keep something from one step to the next with runs that do not. A
`Comparison` relates what the one carries to what the other does, and is kept by every way in which
the evaluator puts its steps together. That runs match is one (`Agreement.comparison`).
-/

set_option autoImplicit false

namespace Stencil.Render

open Stencil.Code (Spec)

/-- A relation between what two carriers carry, by which they end in the same way, that is kept by
every way to go on. -/
structure Comparison (a : Agreement) (m m' : Type → Type) [Monad m] [Carrier m] [Monad m']
    [Carrier m']
    where
  Rel : {α : Type} → m α → m' α → Prop
  rel_pure : ∀ {α : Type} (x : α), Rel (pure x) (pure x)
  rel_ofExcept : ∀ {α : Type} {x : Except TemplateError α}, (∀ e, x = .error e → a.errors e) →
    Rel (Carrier.ofRun (.ofExcept x)) (Carrier.ofRun (.ofExcept x))
  rel_log : ∀ level message,
    Rel (Carrier.ofRun (Run.emit (.logged level message)))
      (Carrier.ofRun (Run.emit (.logged level message)))
  rel_bind : ∀ {α β : Type} {r : m α} {s : m' α} {f : α → m β} {g : α → m' β}, Rel r s →
    (∀ x, Rel (f x) (g x)) → Rel (r >>= f) (s >>= g)
  /-- What follows an attempt is given a value or an error that may be. -/
  rel_attempt_bind : ∀ {α β : Type} {r : m α} {s : m' α} {f : Except TemplateError α → m β}
    {g : Except TemplateError α → m' β}, Rel r s →
    (∀ x, (∀ e, x = .error e → a.errors e) → Rel (f x) (g x)) →
      Rel (Carrier.attempt r >>= f) (Carrier.attempt s >>= g)
  rel_recover : ∀ {α : Type} (strict : Bool) {r : m α} {s : m' α}, Rel r s →
    Rel (Carrier.recover strict r) (Carrier.recover strict s)
  /-- A program begins with corresponding visits, and may count on its own visit being seen. -/
  rel_nested : ∀ {α : Type} {u v : Visit} {r : m α} {s : m' α}, a.visits u v →
    (a.seen u → Rel r s) → Rel (Carrier.nested u r) (Carrier.nested v s)

/-- Runs are compared by whether they match. -/
def Agreement.comparison (a : Agreement) : Comparison a Run Run where
  Rel := a.Runs
  rel_pure := Agreement.runs_pure
  rel_ofExcept := Agreement.runs_ofExcept
  rel_log _ _ := Agreement.runs_emit
  rel_bind := Agreement.runs_bind
  rel_attempt_bind := Agreement.runs_attempt_bind
  rel_recover := Agreement.runs_recover
  rel_nested := Agreement.runs_nested

namespace Comparison

variable {a : Agreement} {m m' : Type → Type} [Monad m] [Carrier m] [Monad m'] [Carrier m']
  (c : Comparison a m m')

theorem rel_fail {α : Type} {e : TemplateError} (h : a.errors e) :
    c.Rel (Carrier.ofRun (Run.fail e : Run α)) (Carrier.ofRun (Run.fail e)) := by
  refine c.rel_ofExcept fun e' he => ?_
  cases he
  exact h

theorem rel_ofRuntime {α : Type} {x : Except RuntimeError α}
    (h : ∀ e, x = .error e → a.errors (.ofRuntime e)) :
    c.Rel (Carrier.ofRun (.ofRuntime x)) (Carrier.ofRun (.ofRuntime x)) := by
  refine c.rel_ofExcept fun e he => ?_
  cases x with
  | ok x => cases he
  | error e' =>
    cases he
    exact h e' rfl

/-- Carrying out a plan whose errors may be, given how parts are rendered and functions called. -/
theorem rel_plan {render : Part → Value → BlockArgs → m String}
    {render' : Part → Value → BlockArgs → m' String} {callFirst : List Value → m Value}
    {callFirst' : List Value → m' Value} {plan : Plan} (raises : plan.RaisesOnly a.errors)
    (hrender : ∀ part context args, c.Rel (render part context args) (render' part context args))
    (hcall : ∀ params, c.Rel (callFirst params) (callFirst' params)) :
    c.Rel (plan.run render callFirst) (plan.run render' callFirst') := by
  induction raises with
  | give value => exact c.rel_pure value
  | fail h => exact c.rel_fail h
  | @render part context args next _ ih =>
    exact c.rel_attempt_bind (hrender part context args) ih
  | log _ ih => exact c.rel_bind (c.rel_log _ _) fun _ => ih
  | handOver params => exact hcall params

/-- The two look for the code of a partial and find none, or the one what corresponds to what the
other finds: so much may what follows count on. -/
def Finds (S : Spec → Spec → Prop) (r : m (Option Spec)) (s : m' (Option Spec)) : Prop :=
  ∀ {α : Type} {f : Option Spec → m α} {g : Option Spec → m' α},
    (∀ x y, Option.Rel S x y → c.Rel (f x) (g y)) → c.Rel (r >>= f) (s >>= g)

/-- The two look for the code of a partial and find the same. -/
theorem finds_ofExcept [LawfulCarrier m] [LawfulCarrier m'] {S : Spec → Spec → Prop}
    {x : Except TemplateError (Option Spec)} (herror : ∀ e, x = .error e → a.errors e)
    (hfound : ∀ s, x = .ok (some s) → S s s) :
    c.Finds S (Carrier.ofRun (.ofExcept x)) (Carrier.ofRun (.ofExcept x)) := by
  intro α f g next
  cases x with
  | error e =>
    show c.Rel (Carrier.ofRun (.fail e) >>= f) (Carrier.ofRun (.fail e) >>= g)
    rw [LawfulCarrier.ofRun_fail_bind, LawfulCarrier.ofRun_fail_bind]
    exact c.rel_fail (herror e rfl)
  | ok found =>
    show c.Rel (Carrier.ofRun (pure found) >>= f) (Carrier.ofRun (pure found) >>= g)
    rw [LawfulCarrier.ofRun_pure, LawfulCarrier.ofRun_pure, pure_bind, pure_bind]
    refine next found found ?_
    cases found with
    | none => exact .none
    | some s => exact .some (hfound s rfl)

theorem rel_map [LawfulMonad m] [LawfulMonad m'] {α β : Type} {r : m α} {s : m' α} (h : c.Rel r s)
    (f : α → β) : c.Rel (f <$> r) (f <$> s) := by
  rw [map_eq_pure_bind, map_eq_pure_bind]
  exact c.rel_bind h fun x => c.rel_pure (f x)

end Comparison

end Stencil.Render
