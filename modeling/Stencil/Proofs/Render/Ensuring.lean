import Stencil.Proofs.Render.Output
import Stencil.Proofs.Text.Escaping

/-!
# Runs that give what is expected

`Run.Ensures post r` says that what the run `r` gives, if it gives anything, has the property
`post`, and `Run.Obeys errors post r` in addition that an error which ends it has the property
`errors`. Both are kept by every way in which the evaluator puts runs together, whatever events they
leave. The texts of instructions that give texts of some kind are of the kind again, and only such
an error ends them as is not recovered from (`obeys_textOf`).
-/

set_option autoImplicit false

namespace Stencil.Render

/-! ## Runs -/

namespace Run

variable {α β : Type} {mid : β → Prop} {post : α → Prop} {errors : TemplateError → Prop}

/-- What the run gives, if it gives anything, has the property. -/
def Ensures (post : α → Prop) (r : Run α) : Prop := ∀ a, r.result = .ok a → post a

/-- The text that the run gives, if it gives one, is escaped. -/
def Escapes (r : Run String) : Prop := r.Ensures fun text => Text.Escaped text.toList

/-- What the run gives has the one property, and an error that ends it the other. -/
structure Obeys (errors : TemplateError → Prop) (post : α → Prop) (r : Run α) : Prop where
  ensures : r.Ensures post
  error : ∀ e, r.result = .error e → errors e

theorem ensures_pure {a : α} (h : post a) : Ensures post (pure a) := by
  rintro b ⟨⟩
  exact h

theorem ensures_ofExcept {x : Except TemplateError α} (h : ∀ a, x = .ok a → post a) :
    Ensures post (Run.ofExcept x) := h

theorem ensures_failRuntime (e : RuntimeError) : Ensures post (Run.failRuntime e) := nofun

theorem ensures_true (r : Run α) : r.Ensures fun _ => True := fun _ _ => trivial

theorem ensures_bind {r : Run β} {next : β → Run α} (h : r.Ensures mid)
    (hnext : ∀ b, mid b → (next b).Ensures post) : (r >>= next).Ensures post := by
  intro a ha
  obtain ⟨b, hb, hnextb⟩ := Run.bind_result_eq_ok.1 ha
  exact hnext b (h b hb) a hnextb

theorem Ensures.nested {r : Run α} (h : r.Ensures post) (visit : Visit) :
    (Run.nested visit r).Ensures post := h

/-- Where every error may end a run, nothing is asked of errors. -/
theorem Ensures.obeys {r : Run α} (h : r.Ensures post) : r.Obeys (fun _ => True) post :=
  ⟨h, fun _ _ => trivial⟩

theorem obeys_pure {a : α} (h : post a) : Obeys errors post (pure a) :=
  ⟨ensures_pure h, nofun⟩

theorem obeys_fail {e : TemplateError} (h : errors e) : Obeys errors post (Run.fail e) := by
  refine ⟨nofun, ?_⟩
  rintro e' ⟨⟩
  exact h

theorem obeys_ofRuntime {x : Except RuntimeError α} (h : ∀ a, x = .ok a → post a)
    (herror : ∀ e, x = .error e → errors (.ofRuntime e)) : Obeys errors post (Run.ofRuntime x) := by
  cases x with
  | error e => exact obeys_fail (herror e rfl)
  | ok a => exact obeys_pure (h a rfl)

theorem Obeys.imp {errors' : TemplateError → Prop} {post' : α → Prop} {r : Run α}
    (h : r.Obeys errors post) (herrors : ∀ e, errors e → errors' e)
    (hpost : ∀ a, post a → post' a) :
    r.Obeys errors' post' :=
  ⟨fun a ha => hpost a (h.ensures a ha), fun e he => herrors e (h.error e he)⟩

/-- What follows a run that obeys may count on what it gives. -/
theorem obeys_bind {r : Run β} {next : β → Run α} (h : r.Obeys errors mid)
    (hnext : ∀ b, mid b → (next b).Obeys errors post) : (r >>= next).Obeys errors post := by
  refine ⟨ensures_bind h.ensures fun b hb => (hnext b hb).ensures, ?_⟩
  obtain ⟨trace, result⟩ := r
  cases result with
  | error e =>
    rintro e' ⟨⟩
    exact h.error e rfl
  | ok b => exact (hnext b (h.ensures b rfl)).error

theorem Obeys.nested {r : Run α} (h : r.Obeys errors post) (visit : Visit) :
    (Run.nested visit r).Obeys errors post := ⟨h.ensures, h.error⟩

theorem Obeys.attempt {r : Run α} (h : r.Obeys errors post) :
    (Run.attempt r).Obeys errors fun x =>
      (∀ a, x = .ok a → post a) ∧ ∀ e, x = .error e → errors e := by
  refine ⟨?_, nofun⟩
  rintro x ⟨⟩
  exact ⟨h.ensures, h.error⟩

/-- Where an error is recovered from, nothing is given. -/
theorem Obeys.recover {r : Run α} (h : r.Obeys errors post) (strict : Bool) :
    (Run.recover strict r).Obeys (fun e => errors e ∧ (!strict && e.isRecoverable) = false)
      fun x => ∀ a ∈ x, post a := by
  obtain ⟨trace, result⟩ := r
  cases result with
  | ok a =>
    refine ⟨?_, nofun⟩
    rintro x ⟨⟩ b ⟨⟩
    exact h.ensures a rfl
  | error e =>
    cases hrecovers : !strict && e.isRecoverable with
    | true =>
      simp only [Run.recover, if_pos hrecovers]
      refine ⟨?_, nofun⟩
      rintro x ⟨⟩
      exact nofun
    | false =>
      simp only [Run.recover, hrecovers]
      refine ⟨nofun, ?_⟩
      rintro e' ⟨⟩
      exact ⟨h.error e rfl, hrecovers⟩

end Run

/-! ## Texts -/

/-- A kind of texts to which the empty text belongs, and with two texts the one after the other. -/
structure TextKind (T : String → Prop) : Prop where
  empty : T ""
  append : ∀ {s t}, T s → T t → T (s ++ t)

theorem textKind_escaped : TextKind fun text => Text.Escaped text.toList :=
  ⟨Text.escaped_nil, Text.Escaped.toList_append⟩

/-- The texts of pieces that are of a kind are of the kind one after the other, and an error that
ends them is none that is recovered from. -/
theorem obeys_textOf {T : String → Prop} (kind : TextKind T) {errors errors' : TemplateError → Prop}
    {strict : Bool} (ends : ∀ e, errors e → (!strict && e.isRecoverable) = false → errors' e)
    {ι : Type} {piece : ι → Run Append} :
    ∀ {is : List ι}, (∀ i ∈ is, (piece i).Obeys errors fun a => T a.text) →
      (textOf strict piece is).Obeys errors' T
  | [], _ => Run.obeys_pure kind.empty
  | i :: rest, h => by
    obtain ⟨hfirst, hrest⟩ := List.forall_mem_cons.1 h
    have hrecovered := (hfirst.recover strict).imp (fun e he => ends e he.1 he.2) fun _ hx => hx
    refine Run.obeys_bind hrecovered fun first hfirst => ?_
    refine Run.obeys_bind (obeys_textOf kind ends hrest) fun more hmore => Run.obeys_pure ?_
    cases first with
    | none => exact kind.append kind.empty hmore
    | some a => exact kind.append (hfirst a rfl) hmore

/-- The texts of pieces that are escaped are escaped one after the other. -/
theorem escapes_textOf {ι : Type} (strict : Bool) {piece : ι → Run Append} {is : List ι}
    (h : ∀ i ∈ is, (piece i).Ensures fun a => Text.Escaped a.text.toList) :
    (textOf strict piece is).Escapes :=
  (obeys_textOf textKind_escaped (fun _ _ _ => trivial) fun i hi => (h i hi).obeys).ensures

end Stencil.Render
