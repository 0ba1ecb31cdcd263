import Stencil.Proofs.Code.Sequencing
import Stencil.Proofs.Render.Backends
import Stencil.Proofs.Render.BlockParams

/-!
# Sequencing

Statements one after the other render to what they render to apart, one text after the other. A
rendering of the whole comes to the programs of both parts under other numbers (`Moved`), but where
they stand does not show (`corresponds_moved`), so the text of the whole is that of the first part
and then that of the second, and an error is that of the first part that has one (`render_append`).
-/

set_option autoImplicit false

/-! ## Instructions with other numbers -/

namespace Stencil.Code

/-- With the numbers of programs further on an instruction does the same, if the programs do. -/
theorem Instruction.counterpart_shift {R : Nat → Nat → Prop} {k : Nat} {i : Instruction}
    (h : ∀ id ∈ i.references, R (id + k) id) : (i.shift k).Counterpart R i := by
  have shifted : ∀ {program : Option Nat}, (∀ id ∈ program, R (id + k) id) →
      Option.Rel R (program.map (· + k)) program := by
    intro program hprogram
    cases program with
    | none => exact .none
    | some id => exact .some (hprogram id rfl)
  cases i with
  | content text => exact .content text
  | append value escape => exact .append value escape
  | block b =>
    refine .block (shifted fun id hid => h id ?_) (shifted fun id hid => h id ?_)
    · exact List.mem_append_left _ (Option.mem_toList.2 hid)
    · exact List.mem_append_right _ (Option.mem_toList.2 hid)
  | partialCall p => exact .partialCall (shifted fun id hid => h id (Option.mem_toList.2 hid))

theorem strokes_shift {R : Nat → Nat → Prop} {k : Nat} :
    ∀ {is : List Instruction}, (∀ i ∈ is, ∀ id ∈ i.references, R (id + k) id) →
      List.Forall₂ (Sum.LiftRel Eq (Instruction.Counterpart R))
        (strokes (is.map (Instruction.shift k))) (strokes is)
  | [], _ => .nil
  | i :: rest, h => by
    have hrest := strokes_shift fun j (hj : j ∈ rest) => h j (List.mem_cons_of_mem i hj)
    have hfirst := Instruction.counterpart_shift (h i List.mem_cons_self)
    refine List.rel_append ?_ hrest
    cases i with
    | content text =>
      refine List.forall₂_same.2 fun stroke hstroke => ?_
      obtain ⟨letter, -, rfl⟩ := List.mem_map.1 hstroke
      exact .inl rfl
    | append value escape => exact .cons (.inr hfirst) .nil
    | block b => exact .cons (.inr hfirst) .nil
    | partialCall p => exact .cons (.inr hfirst) .nil

theorem Chunk.counterpart_shift {R : Nat → Nat → Prop} {k : Nat} {c : Chunk}
    (h : ∀ id ∈ c.references, R (id + k) id) : (c.shift k).Counterpart R c :=
  ⟨rfl, strokes_shift fun _ hi id hid => h id (List.mem_flatMap.2 ⟨_, hi, hid⟩)⟩

/-! ## Programs of the whole -/

/-- Each chunk refers to programs further on that there are. -/
def Spec.Ordered (s : Spec) : Prop :=
  ∀ id c, s.program? id = some c → ∀ r ∈ c.references, id < r ∧ r < s.programs.length

theorem Compiler.ordered_of_compile {compiler : Compiler} {tree : Tree.Located} {s : Spec}
    (h : compiler.plain.compile tree = .ok s) : s.Ordered :=
  fun _ _ hc _ hr => compile_references_bounds
    (fun out i _ => Instruction.tags_append out [i]) h hc hr

/-- The standard compiler and the plain one agree on every tree, but for the cut of texts. -/
theorem Compiler.alike_plain (options : Options) (tree : Tree.Located) :
    (∃ e, ({ options } : Compiler).compile tree = .error e ∧
        ({ options } : Compiler).plain.compile tree = .error e) ∨
      ∃ s t, ({ options } : Compiler).compile tree = .ok s ∧
        ({ options } : Compiler).plain.compile tree = .ok t ∧ s.Alike t :=
  have same : ({ options } : Compiler).plain = ({ options } : Compiler).plain.plain := rfl
  compile_alike same keepsStrokes_joining keepsStrokes_plain tree

theorem Compiler.exists_plain {options : Options} {tree : Tree.Located} {s : Spec}
    (h : ({ options } : Compiler).compile tree = .ok s) :
    ∃ t, ({ options } : Compiler).plain.compile tree = .ok t ∧ s.Alike t := by
  rcases alike_plain options tree with ⟨e, he, -⟩ | ⟨s', t, hs, ht, alike⟩
  · rw [h] at he
    cases he
  · obtain rfl := Except.ok.inj (h.symm.trans hs)
    exact ⟨t, ht, alike⟩

theorem Compiler.exists_of_plain {options : Options} {tree : Tree.Located} {t : Spec}
    (h : ({ options } : Compiler).plain.compile tree = .ok t) :
    ∃ s, ({ options } : Compiler).compile tree = .ok s ∧ s.Alike t := by
  rcases alike_plain options tree with ⟨e, -, he⟩ | ⟨s, t', hs, ht, alike⟩
  · rw [h] at he
    cases he
  · obtain rfl := Except.ok.inj (h.symm.trans ht)
    exact ⟨s, hs, alike⟩

namespace Spec.Sequence

variable {whole first second : Spec} (h : whole.Sequence first second)

include h

theorem program?_first {i : Nat} (hpos : 0 < i) (hlt : i < first.programs.length) :
    whole.program? i = first.program? i := by
  obtain ⟨blockParams, out, more, nested, others, hfirst, -, hwhole⟩ := h.programs
  obtain ⟨j, rfl⟩ : ∃ j, i = j + 1 := ⟨i - 1, by omega⟩
  rw [hfirst, List.length_cons, Nat.add_lt_add_iff_right] at hlt
  rw [program?, program?, hwhole, hfirst, List.getElem?_cons_succ, List.getElem?_cons_succ,
    List.getElem?_append_left hlt]

theorem program?_second {i : Nat} (hpos : 0 < i) :
    whole.program? (i + (first.programs.length - 1)) =
      (second.program? i).map (Chunk.shift (first.programs.length - 1)) := by
  obtain ⟨blockParams, out, more, nested, others, hfirst, hsecond, hwhole⟩ := h.programs
  obtain ⟨j, rfl⟩ : ∃ j, i = j + 1 := ⟨i - 1, by omega⟩
  rw [program?, program?, hwhole, hfirst, hsecond, List.length_cons, Nat.add_sub_cancel,
    Nat.add_right_comm, List.getElem?_cons_succ, List.getElem?_cons_succ,
    List.getElem?_append_right (Nat.le_add_left _ _), Nat.add_sub_cancel, List.getElem?_map]

end Spec.Sequence

end Stencil.Code

namespace Stencil.Render

open Stencil.Code (Spec Options Compiler Chunk Instruction strokes)

/-- Which programs of a whole are which of its parts. Programs of other code are the same. -/
inductive Moved (whole first second : Spec) : Spec → Nat → Spec → Nat → Prop
  | other (s : Spec) (i : Nat) : Moved whole first second s i s i
  | first {i : Nat} (hpos : 0 < i) (hlt : i < first.programs.length) :
    Moved whole first second whole i first i
  | second {i : Nat} (hpos : 0 < i) (hlt : i < second.programs.length) :
    Moved whole first second whole (i + (first.programs.length - 1)) second i

section

variable {whole first second : Spec} (h : whole.Sequence first second)

include h

omit h in
/-- A partial that is found is not moved. -/
theorem found_moved (found : Except TemplateError (Option Spec)) :
    (likeAgreement (Moved whole first second)).comparison.Finds
      (fun s t => Moved whole first second s s.main t t.main) (.ofExcept found) (.ofExcept found) :=
  Comparison.finds_ofExcept _ (fun _ _ => trivial) fun s _ => .other s s.main

/-- Programs that were moved do the same and hold such programs. -/
theorem corresponds_moved (hfirst : first.Ordered) (hsecond : second.Ordered) (env : Environment)
    (options : Options) :
    (Renderer.cached env options).Corresponds (Renderer.cached env options)
      (likeAgreement (Moved whole first second)).comparison where
  maxDepth := rfl
  functions _ := rfl
  options := by
    intro s i t j moved
    cases moved with
    | other => exact s.options.alike_refl
    | first => rw [h.options.1]; exact whole.options.alike_refl
    | second => rw [h.options.2]; exact whole.options.alike_refl
  chunk := by
    intro s i t j moved
    cases moved with
    | other =>
      cases s.program? i with
      | none => exact .none
      | some c => exact .some ((Chunk.Alike.refl c).counterpart fun id _ => .other s id)
    -- In the first part every program refers to later ones of the same part, which keep their
    -- number.
    | first hpos hlt =>
      rw [h.program?_first hpos hlt]
      cases hc : first.program? i with
      | none => exact .none
      | some c =>
        refine .some ((Chunk.Alike.refl c).counterpart fun id hid => ?_)
        obtain ⟨hfurther, hbound⟩ := hfirst i c hc id hid
        exact .first (Nat.zero_lt_of_lt hfurther) hbound
    -- In the second part they are all moved by as much.
    | second hpos hlt =>
      rw [h.program?_second hpos]
      cases hc : second.program? j with
      | none => exact .none
      | some c =>
        refine .some (Chunk.counterpart_shift fun id hid => ?_)
        obtain ⟨hfurther, hbound⟩ := hsecond j c hc id hid
        exact .second (Nat.zero_lt_of_lt hfurther) hbound
  missing := by
    intro s i t j moved hnone
    cases moved with
    | other => rfl
    | first => rfl
    | second hpos hlt =>
      rw [h.program?_second hpos, Option.map_eq_none_iff] at hnone
      exact absurd hlt (Nat.not_lt.2 (List.getElem?_eq_none_iff.1 hnone))
  helpers _ _ _ _ _ _ _ := rfl
  registered := by
    intro s i t j moved name
    have hoptions : s.options = t.options := by
      cases moved with
      | other => rfl
      | first => exact h.options.1.symm
      | second => exact h.options.2.symm
    rw [hoptions]
    exact @found_moved whole first second _

end

/-! ## The main program of the whole -/

/-- How a run of a step and what follows it ends. -/
theorem Run.result_bind {α β : Type} (r : Run α) (next : α → Run β) :
    (r >>= next).result = (do
      let a ← r.result
      (next a).result) := by
  obtain ⟨trace, result⟩ := r
  cases result <;> rfl

/-- How a rendering ends: with the texts of its main program, if there is a level for it. -/
theorem result_text {r : Renderer} {s : Spec} (check : s.check = .ok ()) {c : Chunk}
    (hmain : s.program? s.main = some c) (context : Value) (values : List Value) :
    (r.text s context values).result =
      match r.env.maxDepth with
      | 0 => .error (.ofRuntime (.depthExceeded r.env.maxDepth))
      | level + 1 =>
        (textOf s.options.strict (r.placeAt level (r.rootVisit s context values)).piece
          c.instructions).result := by
  rw [r.text_eq_invokeAt check]
  cases hdepth : r.env.maxDepth with
  | zero =>
    unfold Renderer.invokeAt Renderer.tooDeep
    rw [hdepth]
    rfl
  | succ level =>
    rw [r.invokeAt_of_program? level hmain]
    rfl

/-- Instructions that do the same, in main programs of templates with the same options. -/
theorem matches_textOf {P : Spec → Nat → Spec → Nat → Prop} {r : Renderer}
    (h : r.Corresponds r (likeAgreement P).comparison) {s t : Spec}
    (hoptions : s.options = t.options)
    (registered : ∀ name, (likeAgreement P).comparison.Finds (fun s t => P s s.main t t.main)
      (r.partialSpec s.options name) (r.partialSpec t.options name)) {is js : List Instruction}
    (same : List.Forall₂ (Sum.LiftRel Eq (Instruction.Counterpart fun i j => P s i t j))
      (strokes is)
      (strokes js)) (strict : Bool) (level : Nat) (context : Value) (values : List Value) :
    (likeAgreement P).Matches
      (textOf strict (r.placeAt level (r.rootVisit s context values)).piece is)
      (textOf strict (r.placeAt level (r.rootVisit t context values)).piece js) := by
  have alike : s.options.alike t.options = true := hoptions ▸ s.options.alike_refl
  have like : ∀ level, Place.Like P (r.placeAt level (r.rootVisit s context values))
      (r.placeAt level (r.rootVisit t context values)) := fun level => ⟨rfl, .none⟩
  have keeps : r.KeepsFrom r (likeAgreement P).comparison (fun i j => P s i t j)
      (r.rootVisit s context values) (r.rootVisit t context values) :=
    h.keepsFrom (u := r.rootVisit s context values) (v := r.rootVisit t context values) alike like
      registered
  have places : (likeAgreement P).comparison.Places (fun i j => P s i t j) (fun _ => True)
      (r.placeAt level (r.rootVisit s context values))
      (r.placeAt level (r.rootVisit t context values)) :=
    keeps.places (Agreement.allows_of_all (fun _ => trivial) _) h.functions
      (h.keeps.rel_invokeAt level) fun _ _ _ _ => rfl
  have runs := (likeAgreement P).comparison.rel_textOf places strict same fun _ _ _ _ => trivial
  exact runs fun _ _ => trivial

/-- A whole renders to what its parts render to, one text after the other. -/
theorem result_sequence {whole first second : Spec} (h : whole.Sequence first second)
    (hfirst : first.Ordered) (hsecond : second.Ordered)
    (checks : whole.check = .ok () ∧ first.check = .ok () ∧ second.check = .ok ())
    (env : Environment) (context : Value) (values : List Value) :
    (render env whole context values).result = (do
      let text ← (render env first context values).result
      let more ← (render env second context values).result
      pure (text ++ more)) := by
  obtain ⟨hmain, hmain₁, hmain₂⟩ := h.main
  obtain ⟨hoptions₁, hoptions₂⟩ := h.options
  obtain ⟨check, check₁, check₂⟩ := checks
  obtain ⟨blockParams, out, more, nested, others, hout, hmore, hwhole⟩ := h.programs
  have corresponds := corresponds_moved h hfirst hsecond env whole.options
  have registered : ∀ {part : Spec}, part.options = whole.options → ∀ name,
      (likeAgreement (Moved whole first second)).comparison.Finds
        (fun s t => Moved whole first second s s.main t t.main)
        ((Renderer.cached env whole.options).partialSpec whole.options name)
        ((Renderer.cached env whole.options).partialSpec part.options name) := by
    intro part hoptions name
    rw [hoptions]
    exact @found_moved whole first second _
  have hprogram : whole.program? whole.main =
      some ⟨out ++ more.map (Instruction.shift nested.length), blockParams⟩ := by
    rw [hmain, Spec.program?, hwhole]
    rfl
  have hprogram₁ : first.program? 0 = some ⟨out, blockParams⟩ := by rw [Spec.program?, hout]; rfl
  have hprogram₂ : second.program? 0 = some ⟨more, blockParams⟩ := by rw [Spec.program?, hmore]; rfl
  have hcount : first.programs.length - 1 = nested.length := by
    rw [hout, List.length_cons, Nat.add_sub_cancel]
  -- The main program of the whole begins as that of the first part and goes on as that of the
  -- second.
  have hbegins : List.Forall₂
      (Sum.LiftRel Eq (Instruction.Counterpart fun i j => Moved whole first second whole i first j))
      (strokes out) (strokes out) := by
    refine ((Chunk.Alike.refl ⟨out, blockParams⟩).counterpart fun id hid => ?_).strokes
    exact .first (hfirst 0 _ hprogram₁ id hid).1 (hfirst 0 _ hprogram₁ id hid).2
  have hgoesOn : List.Forall₂
      (Sum.LiftRel Eq (Instruction.Counterpart fun i j =>
        Moved whole first second whole i second j))
      (strokes (more.map (Instruction.shift nested.length))) (strokes more) := by
    rw [← hcount]
    refine (Chunk.counterpart_shift (c := ⟨more, blockParams⟩) fun id hid => ?_).strokes
    exact .second (hsecond 0 _ hprogram₂ id hid).1 (hsecond 0 _ hprogram₂ id hid).2
  rw [← hmain₁] at hprogram₁
  rw [← hmain₂] at hprogram₂
  unfold render
  rw [hoptions₁, hoptions₂]
  simp only [Renderer.render_eq_text]
  rw [result_text check hprogram, result_text check₁ hprogram₁, result_text check₂ hprogram₂]
  generalize Renderer.cached env whole.options = r at corresponds registered
  cases r.env.maxDepth with
  | zero => rfl
  | succ level =>
    have begins := matches_textOf corresponds hoptions₁.symm (registered hoptions₁) hbegins
      whole.options.strict level context values
    have goesOn := matches_textOf corresponds hoptions₂.symm (registered hoptions₂) hgoesOn
      whole.options.strict level context values
    dsimp only
    rw [textOf_append, Run.result_bind, begins.result, hoptions₁, hoptions₂]
    refine congrArg _ (funext fun text => ?_)
    rw [Run.result_bind, goesOn.result]
    rfl

/-- Statements that compile compile one after the other. Their rendering gives the text of the first
part and then that of the second, or fails with the error of the first part that fails. -/
theorem render_append {options : Options} {tree : Tree.Located}
    {body rest : List (Tree.Statement (Option Text.Location))} {first second : Spec}
    (hfirst : ({ options } : Compiler).compile { tree with body := body } = .ok first)
    (hsecond : ({ options } : Compiler).compile { tree with body := rest } = .ok second) :
    ∃ whole, ({ options } : Compiler).compile { tree with body := body ++ rest } = .ok whole ∧
      ∀ (env : Environment) (context : Value) (values : List Value),
        (render env whole context values).result = (do
          let text ← (render env first context values).result
          let more ← (render env second context values).result
          pure (text ++ more)) := by
  obtain ⟨plainFirst, hplain₁, alike₁⟩ := Compiler.exists_plain hfirst
  obtain ⟨plainSecond, hplain₂, alike₂⟩ := Compiler.exists_plain hsecond
  obtain ⟨plainWhole, hplain, sequence⟩ := Compiler.compile_append tree hplain₁ hplain₂
  obtain ⟨whole, hwhole, alike⟩ := Compiler.exists_of_plain hplain
  refine ⟨whole, hwhole, fun env context values => ?_⟩
  rw [(render_alike env alike context values).result,
    (render_alike env alike₁ context values).result,
    (render_alike env alike₂ context values).result]
  exact result_sequence sequence (Compiler.ordered_of_compile hplain₁)
    (Compiler.ordered_of_compile hplain₂)
    ⟨Compiler.check_of_compile rfl hplain, Compiler.check_of_compile rfl hplain₁,
      Compiler.check_of_compile rfl hplain₂⟩ env context values

/-- Two sections one after the other. -/
theorem render_append_sections :
    ∃ whole, ({} : Compiler).compile
        { sectionTree with body := sectionTree.body ++ sectionTree.body } = .ok whole ∧
      (render {} sectionSpec sectionContext [.string "a"]).result = .ok "a" ∧
      (render {} whole sectionContext [.string "a"]).result = .ok "aa" := by
  have compiled : ({} : Compiler).compile { sectionTree with body := sectionTree.body } =
      .ok sectionSpec := rfl
  obtain ⟨whole, hwhole, hresult⟩ := @render_append {} sectionTree _ _ _ _ compiled compiled
  refine ⟨whole, hwhole, rfl, ?_⟩
  rw [hresult]
  rfl

end Stencil.Render
