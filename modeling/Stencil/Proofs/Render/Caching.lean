import Stencil.Proofs.Render.Visits
import Stencil.Render.Caching

/-!
# Caching

Keeping the code of partials changes nothing. Whatever partials were looked for before, and with
whatever options, what is kept under a name is what would be found under that name for the options
of the kept code (`Cache.Sound`). A step of the cache keeps that up and answers as if nothing were
kept (`Environment.resolvePartial_sound`), up to the order of the known helpers in the options of
the code. So does any sequence of steps, and a rendering that keeps code ends as one that compiles a
text anew each time (`caching_transparent`).
-/

set_option autoImplicit false

namespace Stencil.Render

open Stencil.Code (Spec Options Chunk Compiler)

/-! ## Answers -/

/-- Two answers to the question for the code of a partial: one error, no code, or code that differs
at most in the order of known helpers. -/
inductive SameAnswer :
    Except TemplateError (Option Spec) → Except TemplateError (Option Spec) → Prop
  | error (e : TemplateError) : SameAnswer (.error e) (.error e)
  | found {x y : Option Spec} (h : Option.Rel Spec.Same x y) : SameAnswer (.ok x) (.ok y)

theorem SameAnswer.refl : ∀ x, SameAnswer x x
  | .error e => .error e
  | .ok none => .found .none
  | .ok (some s) => .found (.some (.refl s))

theorem SameAnswer.trans {x y z : Except TemplateError (Option Spec)} (hxy : SameAnswer x y)
    (hyz : SameAnswer y z) : SameAnswer x z := by
  cases hxy with
  | error e => exact hyz
  | found h =>
    cases hyz with
    | found h' =>
      cases h with
      | none => exact .found h'
      | some hst =>
        cases h' with
        | some htu => exact .found (.some (hst.trans htu))

/-- A text compiles to the same code, or fails with one error, under alike options. -/
theorem ofText_same {o p : Options} (alike : o.alike p = true) (name : Option String)
    (text : String) :
    SameAnswer ((({ options := o } : Compiler).ofText name text).map some)
      ((({ options := p } : Compiler).ofText name text).map some) := by
  have hread : o.readOptions name = p.readOptions name := by
    obtain ⟨known, rfl, -⟩ := Options.alike_iff.1 alike
    rfl
  unfold Compiler.ofText
  rw [hread]
  cases Template.read (p.readOptions name) text with
  | error e => exact .error _
  | ok tree =>
    show SameAnswer ((({ options := o } : Compiler).ofTree tree).map some)
      ((({ options := p } : Compiler).ofTree tree).map some)
    unfold Compiler.ofTree
    rcases Compiler.compile_same alike tree with ⟨e, ho, hp⟩ | ⟨s, t, ho, hp, same⟩
    · rw [ho, hp]
      exact .error _
    · rw [ho, hp]
      exact .found (.some same)

/-- What an environment answers does not depend on the order of known helpers. -/
theorem Environment.partialSpec_same (env : Environment) {o p : Options} (alike : o.alike p = true)
    (name : String) : SameAnswer (env.partialSpec o name) (env.partialSpec p name) := by
  unfold Environment.partialSpec
  cases env.partials.get? name with
  | none => exact .refl _
  | some found =>
    cases found with
    | compiled s => exact .refl _
    | source text => exact ofText_same alike _ _

/-- Code that is found for its own options answers for all options alike. -/
theorem Environment.sameAnswer_of_alike {env : Environment} {s : Spec} {options : Options}
    {name : String} (own : env.partialSpec s.options name = .ok (some s))
    (alike : s.options.alike options = true) :
    SameAnswer (.ok (some s)) (env.partialSpec options name) := by
  rw [← own]
  exact env.partialSpec_same alike name

theorem options_of_ofText {options : Options} {name : Option String} {text : String} {s : Spec}
    (h : ({ options } : Compiler).ofText name text = .ok s) : s.options = options := by
  obtain ⟨tree, -, compiled⟩ := exists_tree_of_ofText h
  exact (Compiler.main_of_compile compiled).2

/-! ## What is kept -/

/-- Whatever is kept under a name is what the environment has under that name for the options of the
kept code. -/
def Cache.Sound (env : Environment) (cache : Cache) : Prop :=
  ∀ name, ∀ s ∈ cache.variants name, env.partialSpec s.options name = .ok (some s)

theorem Cache.sound_empty (env : Environment) : Cache.Sound env [] :=
  fun _ _ h => absurd h List.not_mem_nil

theorem Cache.Sound.keep {env : Environment} {cache : Cache} (sound : cache.Sound env)
    {name : String} {s : Spec} (own : env.partialSpec s.options name = .ok (some s)) :
    (cache.keep name s).Sound env := by
  intro other t ht
  unfold Cache.variants Cache.keep at ht
  by_cases hname : name = other
  · obtain rfl := hname
    rw [Table.get?_insert_self, Option.getD_some] at ht
    rcases List.mem_append.1 ht with ht | ht
    · exact sound name t ht
    · obtain rfl := List.mem_singleton.1 ht
      exact own
  · rw [Table.get?_insert_of_ne _ _ hname] at ht
    exact sound other t ht

/-- One step of a sound cache gives the answer that would be given if nothing were kept, and leaves
the cache sound. -/
theorem Environment.resolvePartial_sound {env : Environment} {cache : Cache}
    (sound : cache.Sound env) (options : Options) (name : String) :
    SameAnswer (env.resolvePartial options name cache).1 (env.partialSpec options name) ∧
      (env.resolvePartial options name cache).2.Sound env := by
  unfold Environment.resolvePartial
  cases hpartial : env.partials.get? name with
  | none =>
    have hspec : env.partialSpec options name = .ok none := by
      rw [Environment.partialSpec, hpartial]
    rw [hspec]
    exact ⟨.refl _, sound⟩
  | some found =>
    cases found with
    | compiled s =>
      have hspec : env.partialSpec options name = (s.check.mapError .ofRuntime).map fun _ =>
          some s := by
        rw [Environment.partialSpec, hpartial]
      rw [hspec]
      exact ⟨.refl _, sound⟩
    | source text =>
      have hspec : ∀ o, env.partialSpec o name =
          (({ options := o } : Compiler).ofText (some name) text).map some := by
        intro o
        rw [Environment.partialSpec, hpartial]
      dsimp only
      -- The code is in the cache under options like these, or it is compiled and kept.
      split
      next s hs =>
        have hmem := List.mem_of_find?_eq_some hs
        have halike := List.find?_some hs
        exact ⟨Environment.sameAnswer_of_alike (sound name s hmem) halike, sound⟩
      next =>
        rw [hspec]
        split
        next e he =>
          rw [he]
          exact ⟨.error e, sound⟩
        next s hs =>
          have own : env.partialSpec s.options name = .ok (some s) := by
            rw [options_of_ofText hs, hspec, hs]
            rfl
          rw [hs]
          exact ⟨.found (.some (.refl s)), sound.keep own⟩

/-- The answers to a sequence of questions, each a name and the options of who asks, where code is
kept. -/
def Environment.resolveAll (env : Environment) :
    List (Options × String) → Cache → List (Except TemplateError (Option Spec))
  | [], _ => []
  | (options, name) :: rest, cache =>
    let found := env.resolvePartial options name cache
    found.1 :: resolveAll env rest found.2

theorem Environment.resolveAll_same (env : Environment) :
    ∀ (questions : List (Options × String)) {cache : Cache}, cache.Sound env →
      List.Forall₂ SameAnswer (env.resolveAll questions cache)
        (questions.map fun q => env.partialSpec q.1 q.2)
  | [], _, _ => .nil
  | (options, name) :: rest, _, sound => by
    obtain ⟨hanswer, hkept⟩ := Environment.resolvePartial_sound sound options name
    exact .cons hanswer (resolveAll_same env rest hkept)

/-! ## Runs that keep code -/

namespace Caching

variable {α β : Type}

theorem fst_bind (r : Caching α) (next : α → Caching β) (cache : Cache) :
    ((r >>= next) cache).1 = ((r cache).1 >>= fun a => (next a (r cache).2).1) := by
  show (Caching.bind r next cache).1 = Run.bind _ _
  unfold Caching.bind Run.bind
  split
  next h => rw [h]
  next h => rw [h]

theorem snd_bind (r : Caching α) (next : α → Caching β) (cache : Cache) :
    ((r >>= next) cache).2 =
      match (r cache).1.result with
      | .error _ => (r cache).2
      | .ok a => (next a (r cache).2).2 := by
  show (Caching.bind r next cache).2 = _
  unfold Caching.bind
  split
  next h => rw [h]
  next h => rw [h]

theorem bind_pure (r : Caching α) : (r >>= pure) = r := by
  funext cache
  refine Prod.ext ((fst_bind r pure cache).trans (Run.bind_pure _))
    ((snd_bind r pure cache).trans ?_)
  cases (r cache).1.result with
  | error e => rfl
  | ok a => rfl

theorem pure_bind (a : α) (next : α → Caching β) : (pure a >>= next) = next a := by
  funext cache
  refine Prod.ext ((fst_bind _ next cache).trans ?_) (snd_bind _ next cache)
  exact Run.pure_bind a fun a => (next a cache).1

theorem bind_assoc {γ : Type} (r : Caching α) (f : α → Caching β) (g : β → Caching γ) :
    (r >>= f >>= g) = (r >>= fun a => f a >>= g) := by
  funext cache
  rcases hr : r cache with ⟨⟨trace, result⟩, kept⟩
  cases result with
  | error e => simp [Bind.bind, Caching.bind, hr]
  | ok a =>
    rcases hf : f a kept with ⟨⟨trace', result'⟩, kept'⟩
    cases result' with
    | error e => simp [Bind.bind, Caching.bind, hr, hf]
    | ok b => simp [Bind.bind, Caching.bind, hr, hf]

instance : LawfulMonad Caching :=
  LawfulMonad.mk' Caching (fun r => bind_pure r) (fun a next => pure_bind a next)
    (fun r f g => bind_assoc r f g)

theorem map_eq (f : α → β) (r : Caching α) :
    f <$> r = fun cache => (f <$> (r cache).1, (r cache).2) := by
  funext cache
  rw [map_eq_pure_bind, map_eq_pure_bind]
  refine Prod.ext (fst_bind r _ cache) ((snd_bind r _ cache).trans ?_)
  cases (r cache).1.result with
  | error e => rfl
  | ok a => rfl

instance : LawfulCarrier Caching where
  ofRun_pure _ := rfl
  ofRun_fail_bind _ _ := rfl
  recover_pure _ _ := rfl
  recover_map strict f r := by
    rw [map_eq, map_eq]
    funext cache
    exact Prod.ext (LawfulCarrier.recover_map strict f (r cache).1) rfl

end Caching

/-! ## Renderings that keep code -/

/-- Programs of one number in specs that differ at most in the order of known helpers. -/
def SamePrograms (s : Spec) (i : Nat) (t : Spec) (j : Nat) : Prop := s.Same t ∧ i = j

theorem SamePrograms.of_found {x y : Option Spec} (h : Option.Rel Spec.Same x y) :
    Option.Rel (fun s t => SamePrograms s s.main t t.main) x y := by
  cases h with
  | none => exact .none
  | some same => exact .some ⟨same, same.main⟩

/-- Runs that go on alike from the same answers match. -/
theorem SameAnswer.runs_bind {α : Type} {answer answer' : Except TemplateError (Option Spec)}
    (same : SameAnswer answer answer') {f g : Option Spec → Run α}
    (next : ∀ x y, Option.Rel (fun s t => SamePrograms s s.main t t.main) x y →
      (likeAgreement SamePrograms).Runs (f x) (g y)) :
    (likeAgreement SamePrograms).Runs (.ofExcept answer >>= f) (.ofExcept answer' >>= g) := by
  cases same with
  | error e => exact (likeAgreement SamePrograms).comparison.rel_fail trivial
  | @found x y h =>
    show (likeAgreement SamePrograms).Runs (pure x >>= f) (pure y >>= g)
    rw [Run.pure_bind, Run.pure_bind]
    exact next x y (SamePrograms.of_found h)

/-- Runs from sound caches are compared with runs where nothing is kept: they match, and leave sound
caches. -/
def cachingComparison (env : Environment) :
    Comparison (likeAgreement SamePrograms) Caching Run where
  Rel r s := ∀ cache : Cache, cache.Sound env →
    (likeAgreement SamePrograms).Runs (r cache).1 s ∧ (r cache).2.Sound env
  rel_pure x _ sound := ⟨Agreement.runs_pure x, sound⟩
  rel_ofExcept h _ sound := ⟨Agreement.runs_ofExcept h, sound⟩
  rel_log _ _ _ sound := ⟨Agreement.runs_emit, sound⟩
  rel_bind := by
    intro α β r s f g h next cache sound
    obtain ⟨hruns, hkept⟩ := h cache sound
    rw [Caching.fst_bind, Caching.snd_bind]
    refine ⟨Agreement.runs_bind hruns fun x => (next x _ hkept).1, ?_⟩
    cases (r cache).1.result with
    | error e => exact hkept
    | ok x => exact (next x _ hkept).2
  rel_attempt_bind := by
    intro α β r s f g h next cache sound
    obtain ⟨hruns, hkept⟩ := h cache sound
    rw [Caching.fst_bind, Caching.snd_bind]
    refine ⟨Agreement.runs_attempt_bind hruns fun x hx => (next x hx _ hkept).1, ?_⟩
    exact (next _ (fun _ _ => trivial) _ hkept).2
  rel_recover := by
    intro α strict r s h cache sound
    obtain ⟨hruns, hkept⟩ := h cache sound
    exact ⟨Agreement.runs_recover strict hruns, hkept⟩
  rel_nested := by
    intro α u v r s hvisits h cache sound
    obtain ⟨hruns, hkept⟩ := h trivial cache sound
    exact ⟨Agreement.runs_nested hvisits fun _ => hruns, hkept⟩

/-- Where code is kept, the same partials are found as where it is not. -/
theorem finds_caching (env : Environment) {o p : Options} (alike : o.alike p = true)
    (name : String) :
    (cachingComparison env).Finds (fun s t => SamePrograms s s.main t t.main)
      ((Renderer.caching env).partialSpec o name) ((Renderer.uncached env).partialSpec p name) := by
  intro α f g next cache sound
  obtain ⟨hanswer, hkept⟩ := Environment.resolvePartial_sound sound o name
  replace hanswer := hanswer.trans (env.partialSpec_same alike name)
  have hstep : (Renderer.caching env).partialSpec o name cache =
      (.ofExcept (env.resolvePartial o name cache).1, (env.resolvePartial o name cache).2) := rfl
  have hplain : (Renderer.uncached env).partialSpec p name = .ofExcept (env.partialSpec p name) :=
    rfl
  rw [Caching.fst_bind, Caching.snd_bind, hstep, hplain]
  generalize env.resolvePartial o name cache = found,
    env.partialSpec p name = answer at hanswer hkept
  obtain ⟨answer', kept⟩ := found
  refine ⟨hanswer.runs_bind fun x y hxy => (next x y hxy kept hkept).1, ?_⟩
  cases hanswer with
  | error e => exact hkept
  | @found x y h => exact (next x y (SamePrograms.of_found h) kept hkept).2

/-- Renderings correspond whose partials are looked for with the same answers. -/
theorem corresponds_same {m : Type → Type} [Monad m] [Carrier m] (env : Environment)
    {r : Renderer m} (henv : r.env = env) {c : Comparison (likeAgreement SamePrograms) m Run}
    (finds : ∀ {o p : Options}, o.alike p = true → ∀ name,
      c.Finds (fun s t => SamePrograms s s.main t t.main) (r.partialSpec o name)
        ((Renderer.uncached env).partialSpec p name)) :
    r.Corresponds (Renderer.uncached env) c where
  maxDepth := congrArg Environment.maxDepth henv
  functions _ := henv ▸ rfl
  options h := h.1.options
  chunk := by
    rintro s i t j ⟨same, rfl⟩
    unfold Spec.program?
    rw [same.programs]
    cases t.programs[i]? with
    | none => exact .none
    | some chunk => exact .some ((Chunk.Alike.refl chunk).counterpart fun id _ => ⟨same, rfl⟩)
  missing h _ := h.2
  helpers _ _ _ _ _ _ _ := henv ▸ rfl
  registered h name := finds h.1.options name

/-! ## Code that is made ready beforehand -/

/-- A library gives the answer that would be given if it had no entries. -/
theorem Library.partialSpec_same (env : Environment) (options caller : Options) (name : String) :
    SameAnswer ((Library.ofEnvironment env options).partialSpec caller name)
      (env.partialSpec caller name) := by
  unfold Library.partialSpec
  split
  next e he =>
    obtain ⟨text, htext, hspec⟩ := Library.spec_of_mem (List.mem_of_find?_eq_some he)
    have hwanted := List.find?_some he
    simp only [Bool.and_eq_true, beq_iff_eq] at hwanted
    obtain ⟨rfl, halike⟩ := hwanted
    have hplain : env.partialSpec caller e.name =
        (({ options := caller } : Compiler).ofText (some e.name) text).map some := by
      rw [Environment.partialSpec, htext]
    rw [hspec, hplain]
    exact ofText_same halike _ _
  next => exact .refl _

/-- From a library the same partials are found as without one. -/
theorem finds_cached (env : Environment) (options : Options) {o p : Options}
    (alike : o.alike p = true) (name : String) :
    (likeAgreement SamePrograms).comparison.Finds (fun s t => SamePrograms s s.main t t.main)
      ((Renderer.cached env options).partialSpec o name)
      ((Renderer.uncached env).partialSpec p name) := by
  intro α f g next
  have hanswer :=
    (Library.partialSpec_same env options o name).trans (env.partialSpec_same alike name)
  have hkept : (Renderer.cached env options).partialSpec o name =
      .ofExcept ((Library.ofEnvironment env options).partialSpec o name) := rfl
  have hplain : (Renderer.uncached env).partialSpec p name = .ofExcept (env.partialSpec p name) :=
    rfl
  rw [hkept, hplain]
  generalize (Library.ofEnvironment env options).partialSpec o name = answer,
    env.partialSpec p name = answer' at hanswer
  exact hanswer.runs_bind next

/-! ## Renderings -/

/-- Keeping the code of partials never shows. Any sequence of questions for partials, each for the
options of its caller, is answered as if every text were compiled anew; so a rendering that keeps
code from one call to the next leaves the same messages and ends with the same output or error as
one that compiles a text each time it is called, and so does one that finds its code in a library.
-/
theorem caching_transparent (env : Environment) :
    (∀ questions : List (Options × String),
      List.Forall₂ SameAnswer (env.resolveAll questions [])
        (questions.map fun q => env.partialSpec q.1 q.2)) ∧
    ∀ (spec : Spec) (context : Value) (values : List Value),
      let anew := (Renderer.uncached env).render spec context values
      let kept := renderCaching env spec context values
      let library := render env spec context values
      (kept.result = anew.result ∧
        List.Forall₂ (likeAgreement SamePrograms).Events kept.trace anew.trace) ∧
      library.result = anew.result ∧
        List.Forall₂ (likeAgreement SamePrograms).Events library.trace anew.trace := by
  refine ⟨fun questions => env.resolveAll_same questions (Cache.sound_empty env), ?_⟩
  intro spec context values anew kept library
  have main : SamePrograms spec spec.main spec spec.main := ⟨.refl spec, rfl⟩
  have hkept : (likeAgreement SamePrograms).Matches kept anew := by
    have hcorr := corresponds_same env rfl (finds_caching env)
    obtain ⟨hruns, -⟩ := hcorr.rel_text main rfl rfl context values [] (Cache.sound_empty env)
    unfold anew
    rw [Renderer.render_eq_text]
    exact hruns fun _ _ => trivial
  have hlibrary : (likeAgreement SamePrograms).Matches library anew := by
    have hcorr := corresponds_same env rfl (finds_cached env spec.options)
    have hruns := hcorr.rel_text main rfl rfl context values
    unfold anew library render
    rw [Renderer.render_eq_text, Renderer.render_eq_text]
    exact hruns fun _ _ => trivial
  exact ⟨⟨hkept.result, hkept.trace⟩, hlibrary.result, hlibrary.trace⟩

end Stencil.Render
