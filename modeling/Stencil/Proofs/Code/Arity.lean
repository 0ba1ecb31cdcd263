import Stencil.Proofs.Code.Operands

/-!
# Numbers of parameters

Code calls a known helper with as many parameters as the helper takes, at every depth of an
expression, because the compiler refuses any other call under its name (`Compiler.admits_of_call`)
and what might be a value is no known helper. And a lookup insists on an existing property in strict
code only. Both are properties of the calls and the lookups that the compiler makes
(`Compiler.makes_fitting`).
-/

set_option autoImplicit false

namespace Stencil.Code

open Stencil.Text (Location)
open Stencil.Tree (Expr Path)
open Compiling (Gives gives_pure gives_bind not_gives_fail)

/-- The helper takes so many parameters. -/
def Arity.Admits : Arity → Nat → Prop
  | .any, _ => True
  | .exactly expected, count => count = expected

/-- The lookup insists on an existing property in strict code only. -/
def Lookup.StrictOnly (options : Options) (l : Lookup) : Prop :=
  l.requireTerminal = true → options.strict = true

/-- If the call is under the name of a known helper, it has as many parameters as the helper
takes. -/
def Call.Fits (options : Options) (c : Call) : Prop :=
  ∀ name, c.helper = some (.member .helpers name .helper) →
    ∀ arity ∈ options.knownHelpers.get? name, arity.Admits c.params.length

namespace Compiler

variable {compiler : Compiler} {frames : Frames}

theorem requireTerminal_of_lookup {p : Path (Option Location)} {terminal : Bool} {l : Lookup}
    (h : Gives (compiler.lookup frames p terminal) l) (hl : l.requireTerminal = true) :
    terminal = true := by
  unfold Compiler.lookup at h
  obtain ⟨⟨base, steps, kind⟩, -, h⟩ := gives_bind (Compiling.gives_guard h)
  obtain rfl := gives_pure.1 h
  exact (Bool.and_eq_true_iff.1 hl).1

/-- There are as many operands as there are expressions. -/
theorem length_of_operands {es : List (Expr (Option Location))} {os : List Operand}
    (h : Gives (compiler.operands frames es) os) : os.length = es.length := by
  induction es generalizing os with
  | nil =>
    obtain rfl := gives_pure.1 h
    rfl
  | cons e es ih =>
    obtain ⟨o, -, h⟩ := gives_bind h
    obtain ⟨rest, hrest, h⟩ := gives_bind h
    obtain rfl := gives_pure.1 h
    exact congrArg (· + 1) (ih hrest)

/-- A call under the name of a known helper is refused unless it has as many parameters as the
helper takes. -/
theorem admits_of_call {f : Form} {arguments : Compiling (List Operand × Table Operand)} {c : Call}
    (h : Gives (compiler.call frames f arguments) c) (hsimple : f.path.isSimple = true)
    {arity : Arity} (hknown : compiler.options.knownHelpers.get? f.head = some arity) :
    arity.Admits f.params.length := by
  cases arity with
  | any => trivial
  | exactly expected =>
    by_contra hother
    have hdiffers : (expected != f.params.length) = true := bne_iff_ne.2 fun heq => hother heq.symm
    rw [Compiler.call] at h
    simp only [hsimple, hknown, if_true, if_pos hdiffers] at h
    obtain ⟨_, hfail, -⟩ := gives_bind h
    exact not_gives_fail hfail

/-- The compiler calls known helpers with as many parameters as they take, and insists on existing
properties in strict code only. -/
theorem makes_fitting {options : Options} :
    ({ options } : Compiler).Makes (Lookup.StrictOnly options) (Call.Fits options) where
  lookup h hterminal hl := hterminal (requireTerminal_of_lookup h hl)
  call {frames f c} h := by
    obtain ⟨harguments, -, -, -, -, hhelper, -⟩ := gives_call h
    obtain ⟨params, hparams, hrest⟩ := gives_bind harguments
    obtain ⟨hash, -, hrest⟩ := gives_bind hrest
    obtain ⟨rfl, rfl⟩ := Prod.mk.inj (gives_pure.1 hrest)
    intro name hname arity harity
    rw [hhelper] at hname
    split at hname
    next hsimple =>
      cases hname
      -- The parameters that were counted are those that became operands.
      rw [length_of_operands hparams]
      exact admits_of_call h hsimple harity
    next => cases hname
  ambiguousCall {frames f c} hkind h := by
    obtain ⟨l, -, rfl⟩ := gives_ambiguousCall h
    obtain ⟨-, hunknown, -⟩ := Form.of_kind_ambiguous hkind
    intro name hname arity harity
    cases hname
    -- The name of a known helper is certainly a call.
    rw [Table.contains, Option.isSome_eq_false_iff, Option.isNone_iff_eq_none] at hunknown
    rw [hunknown] at harity
    cases harity

end Compiler

end Stencil.Code
