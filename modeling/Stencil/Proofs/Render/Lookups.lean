import Stencil.Proofs.Code.Addresses
import Stencil.Render.Rendering

/-!
# Lookups

On what a lookup depends: the names in scope, of which it asks for one data variable at most, what
the options say of missing properties, and the one helper that its accessor asks for, if it asks for
one (`resolve_congr_data`, `resolve_congr`). Two lookups that agree in these give the same value, or
the same error, which can only be that a property is missing.
-/

set_option autoImplicit false

namespace Stencil.Render

open Stencil.Code (Options Lookup Accessor)

/-! ## Scopes -/

namespace Scope

/-- The scope without the body of a partial block, which no lookup asks for. -/
def names (s : Scope) : Scope := { s with partialBlock := none }

variable (s : Scope) (context : Value) (values : List Value) (frame : Table Value)

theorem names_enter : (s.enter context values).names = s.names.enter context values := rfl

theorem names_withData : (s.withData frame).names = s.names.withData frame := by
  unfold withData
  split <;> rfl

theorem partialBlock_withData : (s.withData frame).partialBlock = s.partialBlock := by
  unfold withData
  split <;> rfl

theorem contexts_withData : (s.withData frame).contexts = s.contexts := by
  unfold withData
  split <;> rfl

theorem blockParams_withData : (s.withData frame).blockParams = s.blockParams := by
  unfold withData
  split <;> rfl

end Scope

/-! ## Lookups -/

theorem memberOf_error {options : Options} {path : Lookup} {terminal : Bool} {parent : Value}
    {name : String} {e : RuntimeError}
    (h : memberOf options path terminal parent name = .error e) :
    e = .missingProperty name path.spelling path.loc := by
  unfold memberOf missingProperty at h
  split at h
  · split at h
    · cases h
      rfl
    · cases h
  · split at h
    · cases h
      rfl
    · cases h

/-- What an accessor gives depends on the contexts and block parameters in scope, on what the
options say of missing properties, and on the data variable or the helper that it asks for, if it
asks for one. -/
theorem resolve_congr_data {env env' : Environment} {options options' : Options}
    {scope scope' : Scope} (alike : options.alike options' = true)
    (contexts : scope.contexts = scope'.contexts)
    (blockParams : scope.blockParams = scope'.blockParams) (path : Lookup) (terminal : Bool)
    (accessor : Accessor) (data : ∀ depth name, accessor.dataVariable? = some (depth, name) →
      scope.data? depth name = scope'.data? depth name)
    (helper : ∀ name, accessor.helper? = some name →
      env.helpers.get? name = env'.helpers.get? name) :
    resolve env options scope path terminal accessor =
      resolve env' options' scope' path terminal accessor := by
  obtain ⟨known, rfl, -⟩ := Options.alike_iff.1 alike
  induction accessor generalizing terminal with
  | member base name kind ih =>
    cases base with
    | helpers => simp only [resolve, helper name rfl]
    | data depth => simp only [resolve, data depth name rfl]
    | member base' name' kind' => simp only [resolve, memberOf, ih false data helper]
    | context depth => simp only [resolve, memberOf, contexts]
    | blockParam depth index => simp only [resolve, memberOf, Scope.blockParam, blockParams]
    | anyContext name => simp only [resolve, memberOf, contexts]
    | partials => rfl
  | context depth => simp only [resolve, contexts]
  | blockParam depth index => simp only [resolve, Scope.blockParam, blockParams]
  | anyContext name => simp only [resolve, contexts]
  | _ => rfl

/-- So it depends on the names in scope. -/
theorem resolve_congr {env env' : Environment} {options options' : Options} {scope scope' : Scope}
    (alike : options.alike options' = true) (names : scope.names = scope'.names) (path : Lookup)
    (terminal : Bool) (accessor : Accessor)
    (helper : ∀ name, accessor.helper? = some name →
      env.helpers.get? name = env'.helpers.get? name) :
    resolve env options scope path terminal accessor =
      resolve env' options' scope' path terminal accessor := by
  have data : ∀ depth name, scope.data? depth name = scope'.data? depth name := by
    intro depth name
    show scope.names.data? depth name = scope'.names.data? depth name
    rw [names]
  have contexts : scope.contexts = scope'.contexts := by
    show scope.names.contexts = scope'.names.contexts
    rw [names]
  have blockParams : scope.blockParams = scope'.blockParams := by
    show scope.names.blockParams = scope'.names.blockParams
    rw [names]
  exact resolve_congr_data alike contexts blockParams path terminal accessor
    (fun _ _ _ => data _ _) helper

/-- The only error of a lookup is that a property is missing. -/
theorem resolve_error {env : Environment} {options : Options} {scope : Scope} {path : Lookup}
    {terminal : Bool} {accessor : Accessor} {e : RuntimeError}
    (h : resolve env options scope path terminal accessor = .error e) :
    ∃ name, e = .missingProperty name path.spelling path.loc := by
  fun_induction resolve env options scope path terminal accessor with
  | case12 terminal base name kind hhelpers hpartials hdata parent hparent ih =>
    exact ⟨name, memberOf_error h⟩
  | case13 terminal base name kind hhelpers hpartials hdata e he ih =>
    cases h
    exact ih he
  | case10 _ _ name _ =>
    cases h
    exact ⟨name, rfl⟩
  | _ => cases h

theorem lookup_error {env : Environment} {options : Options} {scope : Scope} {path : Lookup}
    {e : RuntimeError} (h : lookup env options scope path = .error e) :
    ∃ name path loc, e = .missingProperty name path loc := by
  obtain ⟨name, he⟩ := resolve_error h
  exact ⟨name, _, _, he⟩

/-- What goes wrong in finding out what a name stands for goes wrong in looking for a helper or for
the value of a path. -/
theorem callee_error_lookup {env : Environment} {options : Options} {scope : Scope}
    {helper : Option Accessor} {value : Option Lookup} {e : RuntimeError}
    (h : callee env options scope helper value = .error e) :
    (∃ accessor ∈ helper, lookupBare env options scope accessor = .error e) ∨
      ∃ path ∈ value, lookup env options scope path = .error e := by
  -- Where no helper is found, an error is that of the path.
  have ofValue : callee env options scope none value = .error e →
      ∃ path ∈ value, lookup env options scope path = .error e := by
    intro h
    cases value with
    | none => cases h
    | some path =>
      cases hpath : lookup env options scope path with
      | error e' =>
        simp only [callee, hpath] at h
        cases h
        exact ⟨path, rfl, hpath⟩
      | ok v =>
        simp only [callee, hpath] at h
        cases v <;> cases h
  cases helper with
  | none => exact .inr (ofValue h)
  | some accessor =>
    cases hfound : lookupBare env options scope accessor with
    | error e' =>
      simp only [callee, hfound] at h
      cases h
      exact .inl ⟨accessor, rfl, hfound⟩
    | ok v =>
      simp only [callee, hfound] at h
      cases v with
      | function f => cases h
      | _ => exact .inr (ofValue h)

/-- The only error of finding out what a name stands for is that a property is missing. -/
theorem callee_error {env : Environment} {options : Options} {scope : Scope}
    {helper : Option Accessor} {value : Option Lookup} {e : RuntimeError}
    (h : callee env options scope helper value = .error e) :
    ∃ name path loc, e = .missingProperty name path loc := by
  rcases callee_error_lookup h with ⟨accessor, -, haccessor⟩ | ⟨path, -, hpath⟩
  · exact lookup_error haccessor
  · exact lookup_error hpath

/-- What a name stands for depends on where its helper and its value are found only. -/
theorem callee_congr {env env' : Environment} {options options' : Options} {scope scope' : Scope}
    {helper : Option Accessor} {value : Option Lookup}
    (hhelper : ∀ a ∈ helper, lookupBare env options scope a = lookupBare env' options' scope' a)
    (hvalue : ∀ l ∈ value, lookup env options scope l = lookup env' options' scope' l) :
    callee env options scope helper value = callee env' options' scope' helper value := by
  have ofValue : callee env options scope none value = callee env' options' scope' none value := by
    cases value with
    | none => rfl
    | some l => simp only [callee, hvalue l rfl]
  cases helper with
  | none => exact ofValue
  | some a =>
    have same := hhelper a rfl
    cases hbare : lookupBare env' options' scope' a with
    | error e =>
      rw [hbare] at same
      simp only [callee, same, hbare]
      rfl
    | ok v =>
      rw [hbare] at same
      simp only [callee, same, hbare]
      cases v with
      | function f => rfl
      | _ => exact ofValue

end Stencil.Render
