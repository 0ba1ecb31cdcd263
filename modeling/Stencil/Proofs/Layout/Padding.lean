import Stencil.Proofs.Tree.Every
import Stencil.Tree.Layout

/-!
# Indentation is padding

The layout takes the indentation of a partial from the padding before its tag and changes nothing
else about partials, so a tree in which all indentation is padding stays one
(`Program.Every.padded_layout`).
-/

set_option autoImplicit false

namespace Stencil.Tree

open Stencil.Text

variable {ℓ μ : Type}

/-- The indentation of the statement, if it is a partial, is padding. -/
def Statement.Padded : Statement ℓ → Prop
  | .partialCall p => p.indent.toList.all isPad = true
  | .mustache _ | .block _ | .partialBlock _ | .content _ | .comment _ => True

/-- Indentation is no matter of marks. -/
theorem Statement.Padded.mapMark (f : ℓ → μ) : ∀ s : Statement ℓ, s.Padded → (s.mapMark f).Padded
  | .partialCall _, h => h
  | .mustache _, _ | .block _, _ | .partialBlock _, _ | .content _, _ | .comment _, _ => trivial

/-- What is applied under a condition keeps what it keeps where it is applied. -/
theorem applyIf_of {α : Type} {P : α → Prop} {f : α → α} (hf : ∀ x, P x → P (f x))
    (condition : Bool) {x : α} (hx : P x) : P (applyIf condition f x) := by
  cases condition with
  | false => exact hx
  | true => exact hf x hx

/-! ## Bodies -/

/-- The change of a body leaves all indentation padding. -/
def KeepsPadded (f : List (Statement ℓ) → List (Statement ℓ)) : Prop :=
  ∀ body, Statement.AllEvery Statement.Padded body → Statement.AllEvery Statement.Padded (f body)

/-- A cut in a content leaves all partials as they are. -/
theorem keepsPadded_cutFirst (all : Bool) : KeepsPadded (@cutFirst ℓ all)
  | [], h => h
  | .content _ :: _, h => ⟨trivial, h.2⟩
  | .mustache _ :: _, h | .block _ :: _, h | .partialCall _ :: _, h | .partialBlock _ :: _, h
  | .comment _ :: _, h => h

theorem keepsPadded_cutNearest (all : Bool) : KeepsPadded (@cutNearest ℓ all)
  | [], h => h
  | .content _ :: _, h => ⟨trivial, h.2⟩
  | .mustache _ :: _, h | .block _ :: _, h | .partialCall _ :: _, h | .partialBlock _ :: _, h
  | .comment _ :: _, h => h

theorem Statement.AllEvery.reverse {P : Statement ℓ → Prop} {body : List (Statement ℓ)}
    (h : Statement.AllEvery P body) : Statement.AllEvery P body.reverse :=
  Statement.allEvery_iff.2 fun s hs => Statement.allEvery_iff.1 h s (List.mem_reverse.1 hs)

/-- The order of the statements does not matter to a property of each. -/
theorem keepsPadded_cutLast (all : Bool) : KeepsPadded (@cutLast ℓ all) :=
  fun _ h => (keepsPadded_cutNearest all _ h.reverse).reverse

variable {f : List (Statement ℓ) → List (Statement ℓ)}

theorem KeepsPadded.mapBody (hf : KeepsPadded f) :
    ∀ p : Program ℓ, p.Every Statement.Padded → (p.mapBody f).Every Statement.Padded
  | ⟨body, _, _, _⟩, h => hf body h

theorem KeepsPadded.mapBodyOpt (hf : KeepsPadded f) :
    ∀ {p : Option (Program ℓ)}, Program.EveryOpt Statement.Padded p →
      Program.EveryOpt Statement.Padded (p.map (Program.mapBody f))
  | none, _ => trivial
  | some p, h => hf.mapBody p h

/-! ## Sections of a block -/

/-- The first section is changed in its body only. -/
theorem KeepsPadded.mapFirstSection (hf : KeepsPadded f) (p : Program ℓ)
    (h : p.Every Statement.Padded) : (p.mapFirstSection f).Every Statement.Padded := by
  unfold Program.mapFirstSection
  split
  · split
    next b rest hbody =>
      have hall := Program.every_iff.1 h
      rw [hbody, List.forall_mem_cons] at hall
      obtain ⟨⟨-, hb⟩, hrest⟩ := hall
      obtain ⟨hprogram, hinverse⟩ := Block.every_iff.1 hb
      refine Program.every_iff.2 (List.forall_mem_cons.2 ⟨⟨trivial, ?_⟩, hrest⟩)
      exact Block.every_iff.2 ⟨hf.mapBodyOpt hprogram, hinverse⟩
    next => exact h
  · exact hf.mapBody p h

mutual

/-- By recursion along the walk to the last section. -/
theorem KeepsPadded.mapLastSection (hf : KeepsPadded f) :
    ∀ p : Program ℓ, p.Every Statement.Padded → (p.mapLastSection f).Every Statement.Padded
  | ⟨body, _, chained, _⟩, h => by
    rw [Program.mapLastSection]
    split
    · exact KeepsPadded.mapLastStatement hf body h
    · exact hf body h

theorem KeepsPadded.mapLastStatement (hf : KeepsPadded f) :
    ∀ body : List (Statement ℓ), Statement.AllEvery Statement.Padded body →
      Statement.AllEvery Statement.Padded (mapLastStatement f body)
  | [], h => h
  | [s], h => ⟨KeepsPadded.mapLastSectionStatement hf s h.1, trivial⟩
  | _ :: t :: rest, h => ⟨h.1, KeepsPadded.mapLastStatement hf (t :: rest) h.2⟩

theorem KeepsPadded.mapLastSectionStatement (hf : KeepsPadded f) :
    ∀ s : Statement ℓ, s.Every Statement.Padded →
      (Statement.mapLastSection f s).Every Statement.Padded
  | .block b, h => ⟨trivial, KeepsPadded.mapLastSectionBlock hf b h.2⟩
  | .mustache _, h | .partialCall _, h | .partialBlock _, h | .content _, h | .comment _, h => h

theorem KeepsPadded.mapLastSectionBlock (hf : KeepsPadded f) :
    ∀ b : Block ℓ, b.Every Statement.Padded → (Block.mapLastSection f b).Every Statement.Padded
  | ⟨_, program, _, _, _, _, _, _⟩, h => ⟨KeepsPadded.mapLastSectionOpt hf program h.1, h.2⟩

theorem KeepsPadded.mapLastSectionOpt (hf : KeepsPadded f) :
    ∀ p : Option (Program ℓ), Program.EveryOpt Statement.Padded p →
      Program.EveryOpt Statement.Padded (Program.mapLastSectionOpt f p)
  | none, _ => trivial
  | some p, h => KeepsPadded.mapLastSection hf p h

end

theorem Block.Every.padded_stripOnly (b : Block ℓ) {p : Program ℓ} (h : p.Every Statement.Padded) :
    (b.stripOnly p).Every Statement.Padded :=
  applyIf_of (keepsPadded_cutLast true).mapBody _
    (applyIf_of (keepsPadded_cutFirst true).mapBody _ h)

/-- Six cuts, each of which is made in a body. -/
theorem Block.Every.padded_stripInside (ignoreStandalone : Bool) :
    ∀ {b : Block ℓ}, b.Every Statement.Padded →
      (b.stripInside ignoreStandalone).Every Statement.Padded
  | ⟨_, some program, some inverse, _, _, _, _, _⟩, h => by
    refine ⟨applyIf_of (keepsPadded_cutLast false).mapBody _ ?_,
      applyIf_of (keepsPadded_cutFirst false).mapFirstSection _ ?_⟩
    · exact applyIf_of (keepsPadded_cutLast true).mapBody _
        (applyIf_of (keepsPadded_cutFirst true).mapBody _ h.1)
    · exact applyIf_of (keepsPadded_cutLast true).mapLastSection _
        (applyIf_of (keepsPadded_cutFirst true).mapFirstSection _ h.2)
  | ⟨_, some program, none, _, _, _, _, _⟩, h => ⟨Block.Every.padded_stripOnly _ h.1, trivial⟩
  | ⟨_, none, some inverse, _, _, _, _, _⟩, h => ⟨trivial, Block.Every.padded_stripOnly _ h.2⟩
  | ⟨_, none, none, _, _, _, _, _⟩, h => h

theorem PartialBlock.Every.padded_stripInside :
    ∀ {p : PartialBlock ℓ}, p.Every Statement.Padded → p.stripInside.Every Statement.Padded
  | ⟨_, _, _, _, _, _, _⟩, h =>
    applyIf_of (keepsPadded_cutLast true).mapBody _
      (applyIf_of (keepsPadded_cutFirst true).mapBody _ h)

/-! ## Statements in a row -/

/-- The cut is made in one section, and the other stays. -/
theorem Statement.Every.padded_cutAfterOpening :
    ∀ s : Statement ℓ, s.Every Statement.Padded → s.cutAfterOpening.Every Statement.Padded
  | .block ⟨_, some program, _, _, _, _, _, _⟩, h =>
    ⟨trivial, (keepsPadded_cutFirst false).mapBody program h.2.1, h.2.2⟩
  | .block ⟨_, none, _, _, _, _, _, _⟩, h =>
    ⟨trivial, trivial, (keepsPadded_cutFirst false).mapBodyOpt h.2.2⟩
  | .partialBlock ⟨_, _, _, program, _, _, _⟩, h =>
    ⟨trivial, (keepsPadded_cutFirst false).mapBody program h.2⟩
  | .mustache _, h | .partialCall _, h | .content _, h | .comment _, h => h

theorem Statement.Every.padded_cutBeforeClosing :
    ∀ s : Statement ℓ, s.Every Statement.Padded → s.cutBeforeClosing.Every Statement.Padded
  | .block ⟨_, _, some inverse, _, _, _, _, _⟩, h =>
    ⟨trivial, h.2.1, (keepsPadded_cutLast false).mapBody inverse h.2.2⟩
  | .block ⟨_, _, none, _, _, _, _, _⟩, h =>
    ⟨trivial, (keepsPadded_cutLast false).mapBodyOpt h.2.1, trivial⟩
  | .partialBlock ⟨_, _, _, program, _, _, _⟩, h =>
    ⟨trivial, (keepsPadded_cutLast false).mapBody program h.2⟩
  | .mustache _, h | .partialCall _, h | .content _, h | .comment _, h => h

/-- What stands before a place ends with padding. -/
theorem all_isPad_paddingBefore (done : List (Statement ℓ)) :
    (paddingBefore done).toList.all isPad = true := by
  unfold paddingBefore
  split
  · rw [String.toList_ofList]
    exact all_takeEndWhile isPad _
  · rfl

/-- A partial is given padding, if what it is given is padding. -/
theorem Statement.Every.padded_indented {indent : String}
    (hindent : indent.toList.all isPad = true) :
    ∀ s : Statement ℓ, s.Every Statement.Padded → (s.indented indent).Every Statement.Padded
  | .partialCall _, _ => hindent
  | .mustache _, h | .block _, h | .partialBlock _, h | .content _, h | .comment _, h => h

/-- Laying out statements from left to right keeps those that are done and those that follow. -/
theorem Statement.AllEvery.padded_settle (ignoreStandalone root : Bool) :
    ∀ (body done : List (Statement ℓ)) (cuts : List Bool),
      Statement.AllEvery Statement.Padded body → Statement.AllEvery Statement.Padded done →
        Statement.AllEvery Statement.Padded (settle ignoreStandalone root done cuts body)
  | [], _, _, _, hdone => hdone.reverse
  | s :: rest, done, cuts, h, hdone => by
    have keepsNearest : ∀ all, KeepsPadded (@cutNearest ℓ all) := keepsPadded_cutNearest
    unfold settle
    split
    · refine Statement.AllEvery.padded_settle _ _ rest _ _ h.2 ⟨?_, hdone⟩
      split
      · trivial
      · exact h.1
    · refine Statement.AllEvery.padded_settle _ _ rest _ _ h.2 ⟨?_, ?_⟩
      · exact applyIf_of Statement.Every.padded_cutBeforeClosing _
          (applyIf_of Statement.Every.padded_cutAfterOpening _
            (applyIf_of (Statement.Every.padded_indented (all_isPad_paddingBefore _)) _ h.1))
      · exact applyIf_of (keepsNearest false) _
          (applyIf_of (keepsNearest false) _ (applyIf_of (keepsNearest true) _ hdone))

/-! ## Trees -/

mutual

/-- Indentation that is padding is so after the layout. -/
theorem Program.Every.padded_layout (ignoreStandalone root : Bool) :
    ∀ {p : Program ℓ}, p.Every Statement.Padded →
      (p.layout ignoreStandalone root).Every Statement.Padded
  | ⟨_, _, _, _⟩, h =>
    Statement.AllEvery.padded_settle _ _ _ _ _
      (Statement.AllEvery.padded_layouts ignoreStandalone h) trivial

theorem Statement.AllEvery.padded_layouts (ignoreStandalone : Bool) :
    ∀ {body : List (Statement ℓ)}, Statement.AllEvery Statement.Padded body →
      Statement.AllEvery Statement.Padded (Statement.layouts ignoreStandalone body)
  | [], _ => trivial
  | _ :: _, h =>
    ⟨Statement.Every.padded_layout ignoreStandalone h.1,
      Statement.AllEvery.padded_layouts ignoreStandalone h.2⟩

theorem Statement.Every.padded_layout (ignoreStandalone : Bool) :
    ∀ {s : Statement ℓ}, s.Every Statement.Padded →
      (s.layout ignoreStandalone).Every Statement.Padded
  | .block _, h => ⟨trivial, Block.Every.padded_layout ignoreStandalone h.2⟩
  | .partialBlock _, h => ⟨trivial, PartialBlock.Every.padded_layout ignoreStandalone h.2⟩
  | .mustache _, h | .partialCall _, h | .content _, h | .comment _, h => h

/-- Its sections are laid out, then cut. -/
theorem Block.Every.padded_layout (ignoreStandalone : Bool) :
    ∀ {b : Block ℓ}, b.Every Statement.Padded → (b.layout ignoreStandalone).Every Statement.Padded
  | ⟨_, _, _, _, _, _, _, _⟩, h =>
    Block.Every.padded_stripInside ignoreStandalone
      ⟨Program.EveryOpt.padded_layoutOpt ignoreStandalone h.1,
        Program.EveryOpt.padded_layoutOpt ignoreStandalone h.2⟩

theorem PartialBlock.Every.padded_layout (ignoreStandalone : Bool) :
    ∀ {p : PartialBlock ℓ}, p.Every Statement.Padded →
      (p.layout ignoreStandalone).Every Statement.Padded
  | ⟨_, _, _, program, _, _, _⟩, h =>
    PartialBlock.Every.padded_stripInside
      (PartialBlock.every_iff.2
        (Program.Every.padded_layout (p := program) ignoreStandalone false h))

theorem Program.EveryOpt.padded_layoutOpt (ignoreStandalone : Bool) :
    ∀ {p : Option (Program ℓ)}, Program.EveryOpt Statement.Padded p →
      Program.EveryOpt Statement.Padded (Program.layoutOpt ignoreStandalone p)
  | none, _ => trivial
  | some _, h => Program.Every.padded_layout ignoreStandalone false h

end

end Stencil.Tree
