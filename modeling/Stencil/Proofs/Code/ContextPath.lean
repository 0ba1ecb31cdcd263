import Stencil.Proofs.Code.Addresses
import Stencil.Proofs.Code.Erasure
import Stencil.Proofs.Code.SelfContained

/-!
# The path of the context

Where the paths of arguments are noted, a helper may let the body of a block know the path of its
context, as the data variable `contextPath`. A template whose paths name any data variable but this
one (`Statement.AvoidsContextPath`) compiles to code that does not read it
(`Compiler.compile_readsVia`).
-/

set_option autoImplicit false

namespace Stencil.Tree

variable {ℓ : Type}

/-- If the path names a data variable, it is not the path of the context. -/
def Path.AvoidsContextPath (p : Path ℓ) : Prop := p.data = true → p.head? ≠ some "contextPath"

/-- The path of the context is none of the data variables that the statement names. -/
def Statement.AvoidsContextPath (s : Statement ℓ) : Prop := ∀ p ∈ s.paths, p.AvoidsContextPath

instance : DecidablePred (Statement.AvoidsContextPath (ℓ := ℓ)) := fun s =>
  inferInstanceAs (Decidable (∀ p ∈ s.paths, p.data = true → p.head? ≠ some "contextPath"))

end Stencil.Tree

namespace Stencil.Code

open Stencil.Text (Location)
open Stencil.Tree (Path Statement)
open Compiling (Gives gives_pure gives_bind gives_guard)

variable {n : Erasure}

/-- Members of what is no frame of data read what that reads. -/
theorem Erasure.readsVia_foldl (kind : LookupKind) :
    ∀ (steps : List String) {base : Accessor}, (∀ depth, base ≠ .data depth) → n.ReadsVia base →
      n.ReadsVia (steps.foldl (fun a name => Accessor.member a name kind) base)
  | [], _, _, h => h
  | name :: rest, base, hbase, h => by
    refine readsVia_foldl kind rest (fun _ => nofun) ?_
    cases base with
    | data depth => exact absurd rfl (hbase depth)
    | _ => exact h

/-- The lookup of a path reads no data variable that holds something of what is erased, if the path
names none. -/
theorem Compiler.lookup_readsVia {options : Options} {frames : Frames} {p : Path (Option Location)}
    (avoids : n.ids = true → p.AvoidsContextPath) {terminal : Bool} {l : Lookup}
    (h : Gives (({ options } : Compiler).lookup frames p terminal) l) : n.ReadsVia l.accessor := by
  unfold Compiler.lookup at h
  obtain ⟨⟨base, steps, kind⟩, hstart, h⟩ := gives_bind (gives_guard h)
  obtain rfl := gives_pure.1 h
  show n.ReadsVia (steps.foldl (fun a name => Accessor.member a name kind) base)
  unfold Compiler.start at hstart
  replace hstart := gives_guard hstart
  -- A lookup starts at a block parameter, a data variable, a search of all contexts or a context.
  split at hstart
  · obtain ⟨_, -, hstart⟩ := gives_bind hstart
    cases gives_pure.1 hstart
    exact Erasure.readsVia_foldl _ _ (fun _ => nofun) trivial
  · split at hstart
    next hdata =>
      obtain ⟨_, -, hstart⟩ := gives_bind hstart
      cases gives_pure.1 hstart
      cases hparts : p.parts with
      | nil => trivial
      | cons name rest =>
        refine Erasure.readsVia_foldl _ rest (fun _ => nofun) fun hids heq => avoids hids hdata ?_
        rw [Path.head?, hparts, heq, List.head?_cons]
    next =>
      split at hstart
      · split at hstart
        · obtain ⟨_, -, hstart⟩ := gives_bind hstart
          cases gives_pure.1 hstart
          exact Erasure.readsVia_foldl _ _ (fun _ => nofun) trivial
        · cases gives_pure.1 hstart
          exact Erasure.readsVia_foldl _ _ (fun _ => nofun) trivial
      · cases gives_pure.1 hstart
        trivial

/-- The code of a tree whose paths name no data variable that holds erased notes reads none. -/
theorem Compiler.compile_readsVia {options : Options} {tree : Tree.Located} {spec : Spec}
    (compiled : ({ options } : Compiler).compile tree = .ok spec)
    (avoids : n.ids = true → tree.Every Statement.AvoidsContextPath) {id : Nat} {c : Chunk}
    (hc : spec.program? id = some c) : ∀ l ∈ c.lookups, n.ReadsVia l.accessor := by
  intro l hl
  obtain ⟨here, outer, -, hn, hcompiles⟩ :=
    Compiler.exists_nesting Backend.keepsTags_standard compiled hc
  cases hcompiles.asks Backend.keepsTags_standard l hl with
  | helper _ _ _ => trivial
  | partialName name => trivial
  | this => trivial
  | path hp hgives =>
    refine Compiler.lookup_readsVia (fun hids => ?_) hgives
    obtain ⟨t, ht, hp⟩ := List.mem_flatMap.1 hp
    exact (avoids hids).of_tags (List.mem_of_getElem? hn) ht _ hp

end Stencil.Code
