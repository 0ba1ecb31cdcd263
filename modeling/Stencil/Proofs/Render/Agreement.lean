import Stencil.Proofs.Render.Output

/-!
# Agreement of runs

When two runs agree: their traces correspond event by event, they end in the same way, and an error
that ends them is one that may. An `Agreement` says which visits correspond and which errors may end
a run; it may take for granted that every visit of the first run is among those `seen`, which lets a
later visit be described by an earlier one of the same run.

The laws of this module take runs apart as the evaluator puts them together. An invariant of a
single run is an agreement of the run with itself.
-/

set_option autoImplicit false

namespace Stencil.Render

/-- By what two renderings are compared. -/
structure Agreement where
  /-- Which visits correspond. -/
  visits : Visit → Visit → Prop
  /-- Which visits the first rendering makes. -/
  seen : Visit → Prop
  /-- Which errors may end a run. -/
  errors : TemplateError → Prop

/-- The helper fails with errors of some kind only, as long as rendering the parts of its block does
so. -/
inductive Plan.RaisesOnly (errors : TemplateError → Prop) : Plan → Prop
  | give (value : Value) : RaisesOnly errors (.give value)
  | fail {error : TemplateError} (h : errors error) : RaisesOnly errors (.fail error)
  | render {part : Part} {context : Value} {args : BlockArgs}
    {next : Except TemplateError String → Plan}
    (h : ∀ rendered, (∀ e, rendered = .error e → errors e) → RaisesOnly errors (next rendered)) :
    RaisesOnly errors (.render part context args next)
  | log {level : LogLevel} {message : String} {next : Plan} (h : RaisesOnly errors next) :
    RaisesOnly errors (.log level message next)
  | handOver (params : List Value) : RaisesOnly errors (.handOver params)

/-- The helper fails with errors of some kind only, whatever it is called with. -/
def Helper.RaisesOnly (errors : TemplateError → Prop) (h : Helper) : Prop :=
  ∀ call, (h call).RaisesOnly errors

/-- Where every error is of the kind, every plan fails with those errors only. -/
theorem Plan.raisesOnly_of_all {errors : TemplateError → Prop} (h : ∀ e, errors e) :
    ∀ plan : Plan, plan.RaisesOnly errors
  | .give value => .give value
  | .fail e => .fail (h e)
  | .render _ _ _ next => .render fun rendered _ => Plan.raisesOnly_of_all h (next rendered)
  | .log _ _ next => .log (Plan.raisesOnly_of_all h next)
  | .handOver params => .handOver params

namespace Agreement

variable (a : Agreement) {α β : Type}

/-- Which events correspond: messages and replaced errors to themselves, and beginnings of programs
where their visits do. -/
inductive Events : Event → Event → Prop
  | logged (level : LogLevel) (message : String) :
    Events (.logged level message) (.logged level message)
  | replaced (error : TemplateError) : Events (.replaced error) (.replaced error)
  | entered {u v : Visit} (h : a.visits u v) : Events (.entered u) (.entered v)
  | left : Events .left .left

/-- Two runs with corresponding traces and one result, whose error may be. -/
structure Matches (r s : Run α) : Prop where
  trace : List.Forall₂ a.Events r.trace s.trace
  result : r.result = s.result
  error : ∀ e, r.result = .error e → a.errors e

/-- The two runs match, provided that the visits of the first one are all seen. -/
def Runs (r s : Run α) : Prop := (∀ v, .entered v ∈ r.trace → a.seen v) → a.Matches r s

variable {a}

/-! ## Laws -/

theorem runs_pure (x : α) : a.Runs (pure x) (pure x) := fun _ => ⟨.nil, rfl, fun _ h => nomatch h⟩

theorem runs_ofExcept {x : Except TemplateError α} (h : ∀ e, x = .error e → a.errors e) :
    a.Runs (Run.ofExcept x) (Run.ofExcept x) :=
  fun _ => ⟨.nil, rfl, h⟩

theorem runs_emit {level : LogLevel} {message : String} :
    a.Runs (Run.emit (.logged level message)) (Run.emit (.logged level message)) :=
  fun _ => ⟨.cons (.logged level message) .nil, rfl, fun _ h => nomatch h⟩

/-- One run and what follows it. What follows may count on the error being one that may be. -/
theorem runs_bind_result {r s : Run α} {f g : α → Run β} (h : a.Runs r s)
    (next : ∀ x, r.result = .ok x → a.Runs (f x) (g x)) : a.Runs (r >>= f) (s >>= g) := by
  obtain ⟨rTrace, rResult⟩ := r
  obtain ⟨sTrace, sResult⟩ := s
  intro seen
  cases rResult with
  | error e =>
    -- Both runs end here.
    obtain ⟨htrace, hresult, herror⟩ := h seen
    obtain rfl : Except.error e = sResult := hresult
    refine ⟨htrace, rfl, fun e' he => ?_⟩
    cases he
    exact herror e rfl
  | ok x =>
    -- The visits of a part of the run are visits of the run, so they are seen.
    obtain ⟨htrace, hresult, -⟩ := h fun v hv => seen v (List.mem_append_left _ hv)
    obtain rfl : Except.ok x = sResult := hresult
    obtain ⟨hmore, hend, herror⟩ := next x rfl fun v hv => seen v (List.mem_append_right _ hv)
    exact ⟨List.rel_append htrace hmore, hend, herror⟩

theorem runs_bind {r s : Run α} {f g : α → Run β} (h : a.Runs r s)
    (next : ∀ x, a.Runs (f x) (g x)) : a.Runs (r >>= f) (s >>= g) :=
  runs_bind_result h fun x _ => next x

/-- What follows an attempt is given a value or an error that may be. -/
theorem runs_attempt_bind {r s : Run α} {f g : Except TemplateError α → Run β} (h : a.Runs r s)
    (next : ∀ x, (∀ e, x = .error e → a.errors e) → a.Runs (f x) (g x)) :
    a.Runs (Run.attempt r >>= f) (Run.attempt s >>= g) := by
  obtain ⟨rTrace, rResult⟩ := r
  obtain ⟨sTrace, sResult⟩ := s
  intro seen
  obtain ⟨htrace, hresult, herror⟩ := h fun v hv => seen v (List.mem_append_left _ hv)
  obtain rfl : rResult = sResult := hresult
  obtain ⟨hmore, hend, hlast⟩ :=
    next rResult herror fun v hv => seen v (List.mem_append_right _ hv)
  exact ⟨List.rel_append htrace hmore, hend, hlast⟩

theorem runs_recover (strict : Bool) {r s : Run α} (h : a.Runs r s) :
    a.Runs (Run.recover strict r) (Run.recover strict s) := by
  obtain ⟨rTrace, rResult⟩ := r
  obtain ⟨sTrace, sResult⟩ := s
  intro seen
  cases rResult with
  | ok x =>
    obtain ⟨htrace, hresult, -⟩ := h seen
    obtain rfl : Except.ok x = sResult := hresult
    exact ⟨htrace, rfl, fun _ h => nomatch h⟩
  | error e =>
    -- A recovered error leaves an event that tells nothing of visits.
    by_cases hrecovers : (!strict && e.isRecoverable) = true
    · simp only [Run.recover, if_pos hrecovers] at seen
      obtain ⟨htrace, hresult, -⟩ := h fun v hv => seen v (List.mem_append_left _ hv)
      obtain rfl : Except.error e = sResult := hresult
      simp only [Run.recover, if_pos hrecovers]
      exact ⟨List.rel_append htrace (.cons (.replaced e) .nil), rfl, fun _ h => nomatch h⟩
    · simp only [Run.recover, if_neg hrecovers] at seen
      obtain ⟨htrace, hresult, herror⟩ := h seen
      obtain rfl : Except.error e = sResult := hresult
      simp only [Run.recover, if_neg hrecovers]
      refine ⟨htrace, rfl, fun e' he => ?_⟩
      cases he
      exact herror e rfl

/-- A program begins with corresponding visits, and its run may count on its own visit being
seen. -/
theorem runs_nested {u v : Visit} {r s : Run α} (hvisits : a.visits u v)
    (h : a.seen u → a.Runs r s) : a.Runs (Run.nested u r) (Run.nested v s) := by
  intro seen
  obtain ⟨htrace, hresult, herror⟩ := h (seen u List.mem_cons_self) fun w hw =>
    seen w (List.mem_cons_of_mem _ (List.mem_append_left _ hw))
  exact ⟨.cons (.entered hvisits) (List.rel_append htrace (.cons .left .nil)), hresult, herror⟩

/-- The first run of two that agree visits only what corresponds to a visit of the other. -/
theorem Matches.exists_of_entered {r s : Run α} (h : a.Matches r s) {u : Visit}
    (hu : .entered u ∈ r.trace) : ∃ v, .entered v ∈ s.trace ∧ a.visits u v := by
  obtain ⟨i, hi, hget⟩ := List.mem_iff_getElem.1 hu
  have hlt : i < s.trace.length := h.trace.length_eq ▸ hi
  have hevents := h.trace.get hi hlt
  rw [List.get_eq_getElem, List.get_eq_getElem, hget] at hevents
  generalize hs : s.trace[i] = event at hevents
  cases hevents with
  | @entered _ v hvisits => exact ⟨v, hs ▸ List.getElem_mem hlt, hvisits⟩

end Agreement

end Stencil.Render
