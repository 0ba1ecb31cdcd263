import Stencil.Error
import Stencil.Render.Scope

/-!
# Runs

What carrying out a part of a template gives: a result or an error, and a trace of
what happened on the way. Runs are composed one after the other: the trace of
the first comes first, and an error ends the run.

Evaluation is written for whatever can do what runs do (`Carrier`): for runs
themselves, and for runs that keep something from one step to the next.
-/

set_option autoImplicit false

namespace Stencil.Render

/-- The levels of messages. -/
inductive LogLevel where
  | debug | info | warn | error
deriving DecidableEq

/-- What a run lets others see. -/
inductive Event where
  /-- A message of the template. -/
  | logged (level : LogLevel) (message : String)
  /-- An error in whose place nothing was rendered. -/
  | replaced (error : TemplateError)
  /-- A program begins: the main one of a template or partial, or one that is nested. -/
  | entered (visit : Visit)
  /-- A program is done, with or without an error. -/
  | left

/-- The trace and the result of carrying something out. -/
structure Run (α : Type) where
  trace : List Event
  result : Except TemplateError α

namespace Run

variable {α β : Type}

/-- The run that does nothing but give a value. -/
protected def pure (a : α) : Run α := ⟨[], .ok a⟩

/-- One run after another. -/
protected def bind (r : Run α) (next : α → Run β) : Run β :=
  match r with
  | ⟨trace, .error e⟩ => ⟨trace, .error e⟩
  | ⟨trace, .ok a⟩ => ⟨trace ++ (next a).trace, (next a).result⟩

instance : Monad Run where
  pure := Run.pure
  bind := Run.bind

/-- The run that fails. -/
def fail (e : TemplateError) : Run α := ⟨[], .error e⟩

/-- The run that fails with an error of rendering. -/
def failRuntime (e : RuntimeError) : Run α := fail (.ofRuntime e)

/-- The run of a value or an error. -/
def ofExcept (r : Except TemplateError α) : Run α := ⟨[], r⟩

/-- The run of a value or an error of rendering. -/
def ofRuntime (r : Except RuntimeError α) : Run α := ⟨[], r.mapError .ofRuntime⟩

/-- The run that only leaves an event. -/
def emit (e : Event) : Run Unit := ⟨[e], .ok ()⟩

/-- The run of a program, which begins and ends with an event. -/
def nested (visit : Visit) (r : Run α) : Run α := ⟨.entered visit :: (r.trace ++ [.left]), r.result⟩

/-- The run that gives how another one ended and does not fail itself. -/
def attempt (r : Run α) : Run (Except TemplateError α) := ⟨r.trace, .ok r.result⟩

/-- The run where, unless `strict`, a recoverable error gives nothing. -/
def recover (strict : Bool) (r : Run α) : Run (Option α) :=
  match r with
  | ⟨trace, .ok a⟩ => ⟨trace, .ok (some a)⟩
  | ⟨trace, .error e⟩ =>
    if !strict && e.isRecoverable then ⟨trace ++ [.replaced e], .ok none⟩
    else ⟨trace, .error e⟩

end Run

/-! ## Carriers -/

/-- What evaluation is carried by: it can take a run as a step, and treat what is
carried out as a run is treated. -/
class Carrier (m : Type → Type) where
  /-- A run as a step. -/
  ofRun : {α : Type} → Run α → m α
  /-- Gives how something ended and does not fail itself. -/
  attempt : {α : Type} → m α → m (Except TemplateError α)
  /-- Unless `strict`, a recoverable error gives nothing. -/
  recover : {α : Type} → (strict : Bool) → m α → m (Option α)
  /-- The run of a program. -/
  nested : {α : Type} → Visit → m α → m α

instance : Carrier Run where
  ofRun r := r
  attempt := Run.attempt
  recover := Run.recover
  nested := Run.nested

/-! ## Laws -/

namespace Run

variable {α β : Type}

@[ext] theorem ext {r s : Run α} (ht : r.trace = s.trace) (hr : r.result = s.result) : r = s := by
  cases r; cases s; simp_all

@[simp] theorem pure_bind (a : α) (next : α → Run β) : (pure a >>= next) = next a := by
  simp [Bind.bind, Pure.pure, Run.bind, Run.pure]

@[simp] theorem bind_pure (r : Run α) : (r >>= pure) = r := by
  obtain ⟨trace, result⟩ := r
  cases result <;> simp [Bind.bind, Pure.pure, Run.bind, Run.pure]

theorem bind_assoc {γ : Type} (r : Run α) (f : α → Run β) (g : β → Run γ) :
    (r >>= f >>= g) = (r >>= fun a => f a >>= g) := by
  obtain ⟨trace, result⟩ := r
  cases result with
  | error e => simp [Bind.bind, Run.bind]
  | ok a =>
    cases h : f a with
    | mk t res => cases res <;> simp [Bind.bind, Run.bind, h]

instance : LawfulMonad Run :=
  LawfulMonad.mk' Run (fun r => bind_pure r) (fun a next => pure_bind a next)
    (fun r f g => bind_assoc r f g)

/-- A run that succeeds is made of two that do. -/
theorem bind_result_eq_ok {r : Run α} {next : α → Run β} {b : β} :
    (r >>= next).result = .ok b ↔ ∃ a, r.result = .ok a ∧ (next a).result = .ok b := by
  obtain ⟨trace, result⟩ := r
  cases result <;> simp [Bind.bind, Run.bind]

end Run

end Stencil.Render
