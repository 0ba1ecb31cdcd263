import Stencil.Proofs.Code.Legible
import Stencil.Proofs.Code.Storing
import Stencil.Proofs.Render.Output
import Stencil.Proofs.Tree.RoundTrip

/-!
# Storing code and loading it

The code of a tree, whatever options, stamp and buffer it is compiled with, is read back from its
form, and from its text exactly if the form nests no deeper than a text may (`Spec.survives_iff`).
The limit is one of reading only: code that exceeds it is written, and what was written is refused.
A path of sixty-four parts is enough for that (`Spec.not_survives_longPath`).
-/

set_option autoImplicit false

namespace Stencil.Code

open Stencil.Json (ReadsBack)
open Stencil.Render (Environment Value render)
open Stencil.Tree (Located Path)

/-- Code that is stored as a text is read back from it; and where its stamp is supported, what is
loaded renders as the code does, in every environment. -/
def Spec.Survives (s : Spec) : Prop :=
  Spec.ofText? s.text = some s ∧
    (s.check = .ok () → ∃ loaded, Spec.load s.text = .ok loaded ∧
      ∀ (env : Environment) (context : Value) (values : List Value),
        render env loaded context values = render env s context values)

/-- The compiler with the given options, and with a stamp and a buffer of its own. -/
def Compiler.stamped (options : Options) (stamp : Stamp) (buffer : BufferKind) : Compiler :=
  { options, backend := { Backend.standard with stamp, buffer } }

variable {options : Options} {stamp : Stamp} {tree : Located} {spec : Spec}

/-- What the compiler makes of a tree that can be stored can be stored, whatever its stamp and its
buffer. -/
theorem Spec.storable_of_stamped {buffer : BufferKind} (hoptions : options.Storable)
    (hstamp : stamp.Storable) (htree : tree.Storable ReadsBack) (hfits : tree.Fits)
    (compiled : (Compiler.stamped options stamp buffer).compile tree = .ok spec) :
    spec.Storable ReadsBack := by
  have keeps : (Compiler.stamped options stamp buffer).backend.KeepsTags :=
    Backend.keepsTags_standard
  have words : (Compiler.stamped options stamp buffer).backend.KeepsWords :=
    Backend.keepsWords_standard hstamp buffer
  exact Compiler.storable_of_compile keeps words hoptions htree hfits compiled

/-- Code survives being stored exactly if its form nests no deeper than a text may. As a value
the form is read back in any case, and a text that nests deeper is refused. -/
theorem Spec.survives_iff (buffer : BufferKind) (hoptions : options.Storable)
    (hstamp : stamp.Storable) (htree : tree.Storable ReadsBack) (hfits : tree.Fits)
    (compiled : (Compiler.stamped options stamp buffer).compile tree = .ok spec) :
    Spec.ofJson? spec.toJson = some spec ∧
      (spec.Survives ↔ spec.toJson.depth ≤ Json.maxDepth) ∧
      (¬ spec.Survives → Spec.ofText? spec.text = none ∧
        Spec.load spec.text = .error .invalidSpec) := by
  have hstored := Spec.storable_of_stamped hoptions hstamp htree hfits compiled
  have hread := Spec.ofText?_text hstored
  have hiff : spec.Survives ↔ spec.toJson.depth ≤ Json.maxDepth := by
    constructor
    · rintro ⟨h, -⟩
      by_contra hdeep
      rw [hread, if_neg hdeep] at h
      cases h
    · intro hdepth
      rw [if_pos hdepth] at hread
      refine ⟨hread, fun hcheck => ⟨spec, ?_, fun _ _ _ => rfl⟩⟩
      rw [Spec.load, hread]
      dsimp only
      rw [hcheck]
      rfl
  refine ⟨Spec.ofJson?_toJson hstored, hiff, fun hlost => ?_⟩
  rw [hiff] at hlost
  rw [if_neg hlost] at hread
  refine ⟨hread, ?_⟩
  rw [Spec.load, hread]

theorem Options.storable_default : ({} : Options).Storable := by
  simp [Options.Storable, KnownHelpers.standard, Arity.Storable, Table.names, UInt64.size]

theorem Stamp.storable_default : ({} : Stamp).Storable := (by decide : Code.revision < UInt32.size)

/-- The code of the list of items survives being stored. -/
theorem Spec.survives_itemList :
    Tree.itemList.Storable ReadsBack ∧
      ∃ spec, (Compiler.stamped {} {} .fragments).compile Tree.itemList = .ok spec ∧
        spec.Survives := by
  have hfits : Tree.itemList.Fits := by decide +kernel
  have hcompiles :
      (((Compiler.stamped {} {} .fragments).compile Tree.itemList).toOption.any fun spec =>
      decide (spec.toJson.depth ≤ Json.maxDepth)) = true := by decide +kernel
  obtain ⟨spec, compiled, hdepth⟩ := Render.exists_ok_of_any hcompiles
  obtain ⟨-, hiff, -⟩ := Spec.survives_iff .fragments Options.storable_default
    Stamp.storable_default (Tree.storable_itemList ReadsBack) hfits compiled
  exact ⟨Tree.storable_itemList ReadsBack, spec, compiled, hiff.2 (of_decide_eq_true hdepth)⟩

/-- A value at the end of a path of sixty-four parts. -/
def longPath : Located :=
  { body :=
      [.mustache
        { expr := .path (Path.ofParts (List.replicate 64 "a") none), escaped := true,
          mark := none }]
    blockParams := []
    chained := false
    mark := none }

/-- The code of a long path is stored, and refused when it is loaded. -/
theorem Spec.not_survives_longPath :
    longPath.Storable ReadsBack ∧
      ∃ spec, (Compiler.stamped {} {} .string).compile longPath = .ok spec ∧ spec.check = .ok () ∧
        ¬ spec.Survives ∧ Spec.load spec.text = .error .invalidSpec := by
  have hstorable : longPath.Storable ReadsBack := by
    simp [longPath, Tree.Program.Storable, Tree.Statement.AllStorable, Tree.Statement.Storable,
      Tree.Mustache.Storable, Tree.Expr.Storable, Tree.Path.Storable, Path.ofParts,
      Tree.Mark.Storable]
  have hfits : longPath.Fits := by decide +kernel
  have hcompiles : ((Compiler.stamped {} {} .string).compile longPath).toOption.any (fun spec =>
      spec.check.toBool && !decide (spec.toJson.depth ≤ Json.maxDepth)) = true := by decide +kernel
  obtain ⟨spec, compiled, htests⟩ := Render.exists_ok_of_any hcompiles
  obtain ⟨hcheck, hdepth⟩ := Bool.and_eq_true_iff.1 htests
  have hdeep : ¬ spec.toJson.depth ≤ Json.maxDepth := by simpa using hdepth
  have hread : Spec.ofText? spec.text = none := by
    rw [Spec.ofText?_text (Spec.storable_of_stamped Options.storable_default Stamp.storable_default
      hstorable hfits compiled), if_neg hdeep]
  refine ⟨hstorable, spec, compiled, ?_, ?_, ?_⟩
  · cases hresult : spec.check with
    | error e => rw [hresult] at hcheck; cases hcheck
    | ok u => rfl
  · rintro ⟨hback, -⟩
    rw [hread] at hback
    cases hback
  · rw [Spec.load, hread]

end Stencil.Code
