import Stencil.Proofs.Layout.Cut
import Stencil.Proofs.Tree.Every

/-!
# What the layout changes

Two trees with the same nodes may differ in three ways that the layout is responsible for: a content
has lost blanks at its ends and has other notes of cuts, and a partial is indented by the padding
that was written right before it (`Program.TrimmedTo`). Each of its steps changes a tree in these
ways only, so the layout of any tree does (`Program.layout_trims`), and where no tag has a marker
and tags that stand alone keep their lines it changes nothing.
-/

set_option autoImplicit false

namespace Stencil.Text

/-! ## Texts without blanks at their ends -/

/-- A text is another one less some blanks at its two ends. -/
def TrimsTo (cs ds : List Char) : Prop :=
  ∃ lead trail, cs = lead ++ ds ++ trail ∧ (∀ c ∈ lead, isBlank c = true) ∧
    ∀ c ∈ trail, isBlank c = true

namespace TrimsTo

variable {cs ds es : List Char}

/-- A text is itself less no blanks. -/
theorem refl (cs : List Char) : TrimsTo cs cs :=
  ⟨[], [], (List.append_nil _).symm, List.forall_mem_nil _, List.forall_mem_nil _⟩

/-- The blanks of the first trim stand outside those of the second, at both ends. -/
theorem trans (h : TrimsTo cs ds) (h' : TrimsTo ds es) : TrimsTo cs es := by
  obtain ⟨lead, trail, rfl, hlead, htrail⟩ := h
  obtain ⟨lead', trail', rfl, hlead', htrail'⟩ := h'
  refine ⟨lead ++ lead', trail' ++ trail, by simp only [List.append_assoc], ?_, ?_⟩
  · exact List.forall_mem_append.2 ⟨hlead, hlead'⟩
  · exact List.forall_mem_append.2 ⟨htrail', htrail⟩

/-- What is dropped from the front are blanks, if all that is dropped there are. -/
theorem dropWhile {p : Char → Bool} (hp : ∀ c, p c = true → isBlank c = true) (cs : List Char) :
    TrimsTo cs (cs.dropWhile p) := by
  refine ⟨cs.takeWhile p, [], ?_, fun c hc => hp c (List.mem_takeWhile_imp hc),
    List.forall_mem_nil _⟩
  rw [List.append_nil, List.takeWhile_append_dropWhile]

/-- The same at the end. -/
theorem dropEndWhile {p : Char → Bool} (hp : ∀ c, p c = true → isBlank c = true) (cs : List Char) :
    TrimsTo cs (Text.dropEndWhile p cs) := by
  refine ⟨[], takeEndWhile p cs, ?_, List.forall_mem_nil _, fun c hc => ?_⟩
  · rw [List.nil_append, dropEndWhile_append_takeEndWhile]
  · exact hp c (List.all_eq_true.1 (all_takeEndWhile p cs) c hc)

/-- A blank is dropped if it stands first. -/
theorem dropLeading {x : Char} (hx : isBlank x = true) (cs : List Char) :
    TrimsTo cs (Tree.dropLeading x cs) := by
  cases cs with
  | nil => exact refl []
  | cons c cs =>
    rw [Tree.dropLeading]
    split
    next hc =>
      refine ⟨[c], [], (List.append_nil _).symm, List.forall_mem_singleton.2 ?_,
        List.forall_mem_nil _⟩
      rw [hc]
      exact hx
    next => exact refl _

/-- Padding and a line break are blanks. -/
theorem dropLineBreak (cs : List Char) : TrimsTo cs (Tree.dropLineBreak cs) := by
  rw [Tree.dropLineBreak_eq]
  have hpad : TrimsTo cs (cs.dropWhile isPad) := dropWhile (fun _ => isBlank_of_isPad) cs
  exact (hpad.trans (dropLeading (by decide) _)).trans (dropLeading (by decide) _)

end TrimsTo

end Stencil.Text

namespace Stencil.Tree

open Stencil.Text

variable {ℓ : Type}

/-! ## Trimmed trees -/

/-- The content renders as before less some blanks at its two ends. It was written as before. -/
structure Content.TrimmedTo (c d : Content ℓ) : Prop where
  value : TrimsTo c.value.toList d.value.toList
  written : d.written = c.written
  mark : d.mark = c.mark

/-- The padding at the end of what was written, if the statement is content. -/
def Statement.padding? : Statement ℓ → Option String
  | .content c => some (String.ofList (takeEndWhile isPad c.written.toList))
  | _ => none

mutual

/-- The second program has the nodes of the first, in their order, up to trimmed contents and
indented partials. -/
inductive Program.TrimmedTo : Program ℓ → Program ℓ → Prop where
  | mk {body body' : List (Statement ℓ)} (blockParams : List String) (chained : Bool) (mark : ℓ) :
    Statement.AllTrimmedTo none body body' →
      Program.TrimmedTo ⟨body, blockParams, chained, mark⟩ ⟨body', blockParams, chained, mark⟩

/-- Statements in a row are trimmed one by one. Before the first of them stands what has the
padding. -/
inductive Statement.AllTrimmedTo :
    Option String → List (Statement ℓ) → List (Statement ℓ) → Prop where
  | nil (padding? : Option String) : Statement.AllTrimmedTo padding? [] []
  | cons {padding? : Option String} {s t : Statement ℓ} {rest rest' : List (Statement ℓ)} :
    Statement.TrimmedTo padding? s t → Statement.AllTrimmedTo s.padding? rest rest' →
      Statement.AllTrimmedTo padding? (s :: rest) (t :: rest')

/-- The statement is trimmed. A partial keeps its indentation or has the padding before it. -/
inductive Statement.TrimmedTo : Option String → Statement ℓ → Statement ℓ → Prop where
  | mustache {padding? : Option String} (m : Mustache ℓ) :
    Statement.TrimmedTo padding? (.mustache m) (.mustache m)
  | comment {padding? : Option String} (c : Comment ℓ) :
    Statement.TrimmedTo padding? (.comment c) (.comment c)
  | content {padding? : Option String} {c d : Content ℓ} :
    c.TrimmedTo d → Statement.TrimmedTo padding? (.content c) (.content d)
  | partialCall {padding? : Option String} (p : PartialCall ℓ) {indent : String} :
    indent = p.indent ∨ padding? = some indent →
      Statement.TrimmedTo padding? (.partialCall p) (.partialCall { p with indent })
  | block {padding? : Option String} {b b' : Block ℓ} :
    Block.TrimmedTo b b' → Statement.TrimmedTo padding? (.block b) (.block b')
  | partialBlock {padding? : Option String} {p p' : PartialBlock ℓ} :
    PartialBlock.TrimmedTo p p' → Statement.TrimmedTo padding? (.partialBlock p) (.partialBlock p')

/-- The sections of the block are trimmed. -/
inductive Block.TrimmedTo : Block ℓ → Block ℓ → Prop where
  | mk {program program' inverse inverse' : Option (Program ℓ)} (expr : Expr ℓ)
    (openStrip inverseStrip closeStrip : Strip) (close : Option (Path ℓ)) (mark : ℓ) :
    Program.OptTrimmedTo program program' → Program.OptTrimmedTo inverse inverse' →
      Block.TrimmedTo ⟨expr, program, inverse, openStrip, inverseStrip, closeStrip, close, mark⟩
        ⟨expr, program', inverse', openStrip, inverseStrip, closeStrip, close, mark⟩

/-- The body of the partial block is trimmed. -/
inductive PartialBlock.TrimmedTo : PartialBlock ℓ → PartialBlock ℓ → Prop where
  | mk {program program' : Program ℓ} (name : Expr ℓ) (params : List (Expr ℓ))
    (hash : Option (Hash ℓ)) (openStrip closeStrip : Strip) (mark : ℓ) :
    Program.TrimmedTo program program' →
      PartialBlock.TrimmedTo ⟨name, params, hash, program, openStrip, closeStrip, mark⟩
        ⟨name, params, hash, program', openStrip, closeStrip, mark⟩

/-- The section is trimmed, if it is there. -/
inductive Program.OptTrimmedTo : Option (Program ℓ) → Option (Program ℓ) → Prop where
  | none : Program.OptTrimmedTo none none
  | some {p p' : Program ℓ} : Program.TrimmedTo p p' → Program.OptTrimmedTo (some p) (some p')

end

/-! ## Any number of steps -/

theorem Content.TrimmedTo.refl (c : Content ℓ) : c.TrimmedTo c := ⟨.refl _, rfl, rfl⟩

theorem Content.TrimmedTo.trans {c d e : Content ℓ} (h : c.TrimmedTo d) (h' : d.TrimmedTo e) :
    c.TrimmedTo e where
  value := h.value.trans h'.value
  written := h'.written.trans h.written
  mark := h'.mark.trans h.mark

/-- What was written before a place is written there after any trimming. -/
theorem Statement.TrimmedTo.padding?_eq {padding? : Option String} {s t : Statement ℓ}
    (h : s.TrimmedTo padding? t) : t.padding? = s.padding? := by
  cases h with
  | content h => rw [Statement.padding?, Statement.padding?, h.written]
  | _ => rfl

mutual

/-- By recursion over the tree, every node is trimmed to itself. -/
theorem Program.TrimmedTo.refl : ∀ p : Program ℓ, p.TrimmedTo p
  | ⟨body, blockParams, chained, mark⟩ =>
    .mk blockParams chained mark (Statement.AllTrimmedTo.refl none body)

/-- Each statement is trimmed to itself, whatever padding stands before it. -/
theorem Statement.AllTrimmedTo.refl (padding? : Option String) :
    ∀ body : List (Statement ℓ), Statement.AllTrimmedTo padding? body body
  | [] => .nil padding?
  | s :: rest =>
    .cons (Statement.TrimmedTo.refl padding? s) (Statement.AllTrimmedTo.refl s.padding? rest)

theorem Statement.TrimmedTo.refl (padding? : Option String) :
    ∀ s : Statement ℓ, s.TrimmedTo padding? s
  | .mustache m => .mustache m
  | .block b => .block (Block.TrimmedTo.refl b)
  | .partialCall p => .partialCall p (.inl rfl)
  | .partialBlock p => .partialBlock (PartialBlock.TrimmedTo.refl p)
  | .content c => .content (.refl c)
  | .comment c => .comment c

theorem Block.TrimmedTo.refl : ∀ b : Block ℓ, b.TrimmedTo b
  | ⟨expr, program, inverse, openStrip, inverseStrip, closeStrip, close, mark⟩ =>
    .mk expr openStrip inverseStrip closeStrip close mark (Program.OptTrimmedTo.refl program)
      (Program.OptTrimmedTo.refl inverse)

theorem PartialBlock.TrimmedTo.refl : ∀ p : PartialBlock ℓ, p.TrimmedTo p
  | ⟨name, params, hash, program, openStrip, closeStrip, mark⟩ =>
    .mk name params hash openStrip closeStrip mark (Program.TrimmedTo.refl program)

theorem Program.OptTrimmedTo.refl : ∀ p : Option (Program ℓ), Program.OptTrimmedTo p p
  | none => .none
  | some p => .some (Program.TrimmedTo.refl p)

end

mutual

/-- Trims of a tree may follow one another, node by node. -/
theorem Program.TrimmedTo.trans {p q r : Program ℓ} : p.TrimmedTo q → q.TrimmedTo r → p.TrimmedTo r
  | .mk blockParams chained mark h, .mk _ _ _ h' =>
    .mk blockParams chained mark (Statement.AllTrimmedTo.trans h h')
termination_by structural h => h

/-- What stands before a statement has the same padding after the first trim, since a trim keeps
what was written. -/
theorem Statement.AllTrimmedTo.trans {padding? : Option String} {as bs cs : List (Statement ℓ)} :
    Statement.AllTrimmedTo padding? as bs → Statement.AllTrimmedTo padding? bs cs →
      Statement.AllTrimmedTo padding? as cs
  | .nil _, .nil _ => .nil _
  | .cons h hrest, .cons h' hrest' =>
    .cons (Statement.TrimmedTo.trans h h')
      (Statement.AllTrimmedTo.trans hrest (h.padding?_eq ▸ hrest'))
termination_by structural h => h

/-- A partial that was indented by the padding before it may be indented by the same padding
again. -/
theorem Statement.TrimmedTo.trans {padding? : Option String} {s t u : Statement ℓ} :
    s.TrimmedTo padding? t → t.TrimmedTo padding? u → s.TrimmedTo padding? u
  | .mustache m, .mustache _ => .mustache m
  | .comment c, .comment _ => .comment c
  | .content h, .content h' => .content (h.trans h')
  | .partialCall p h, .partialCall _ h' => .partialCall p (h'.elim (fun heq => heq ▸ h) .inr)
  | .block h, .block h' => .block (Block.TrimmedTo.trans h h')
  | .partialBlock h, .partialBlock h' => .partialBlock (PartialBlock.TrimmedTo.trans h h')
termination_by structural h => h

theorem Block.TrimmedTo.trans {b c d : Block ℓ} : b.TrimmedTo c → c.TrimmedTo d → b.TrimmedTo d
  | .mk expr openStrip inverseStrip closeStrip close mark h g, .mk _ _ _ _ _ _ h' g' =>
    .mk expr openStrip inverseStrip closeStrip close mark (Program.OptTrimmedTo.trans h h')
      (Program.OptTrimmedTo.trans g g')
termination_by structural h => h

theorem PartialBlock.TrimmedTo.trans {p q r : PartialBlock ℓ} :
    p.TrimmedTo q → q.TrimmedTo r → p.TrimmedTo r
  | .mk name params hash openStrip closeStrip mark h, .mk _ _ _ _ _ _ h' =>
    .mk name params hash openStrip closeStrip mark (Program.TrimmedTo.trans h h')
termination_by structural h => h

theorem Program.OptTrimmedTo.trans {p q r : Option (Program ℓ)} :
    Program.OptTrimmedTo p q → Program.OptTrimmedTo q r → Program.OptTrimmedTo p r
  | .none, .none => .none
  | .some h, .some h' => .some (Program.TrimmedTo.trans h h')
termination_by structural h => h

end

/-! ## Cuts -/

/-- The cut takes all blanks at the start, or those up to the end of the line. -/
theorem Content.trimmedTo_cutStart (all : Bool) (c : Content ℓ) : c.TrimmedTo (c.cutStart all) := by
  unfold Content.cutStart
  split
  · exact .refl c
  · refine ⟨?_, rfl, rfl⟩
    rw [String.toList_ofList]
    cases all with
    | true => exact TrimsTo.dropWhile (fun _ h => h) _
    | false => exact TrimsTo.dropLineBreak _

/-- The cut takes all blanks at the end, or the padding there. -/
theorem Content.trimmedTo_cutEnd (all : Bool) (c : Content ℓ) : c.TrimmedTo (c.cutEnd all) := by
  unfold Content.cutEnd
  split
  · exact .refl c
  · refine ⟨?_, rfl, rfl⟩
    rw [String.toList_ofList]
    cases all with
    | true => exact TrimsTo.dropEndWhile (fun _ h => h) _
    | false => exact TrimsTo.dropEndWhile (fun _ => isBlank_of_isPad) _

/-- Cuts at the start are trims that follow one another. -/
theorem Content.trimmedTo_cutStarts (cuts : List Bool) (c : Content ℓ) :
    c.TrimmedTo (c.cutStarts cuts) := by
  unfold Content.cutStarts
  induction cuts generalizing c with
  | nil => exact .refl c
  | cons all rest ih => exact (c.trimmedTo_cutStart all).trans (ih (c.cutStart all))

/-! ## Bodies -/

/-- The padding that the last of the statements leaves before what follows. Where there is none, the
padding is what it was before them. -/
def Statement.paddingAfter (padding? : Option String) (body : List (Statement ℓ)) : Option String :=
  body.foldl (fun _ s => s.padding?) padding?

/-- Statements in a row are trimmed where their beginning is and the rest is. -/
theorem Statement.AllTrimmedTo.append {padding? : Option String}
    {as as' bs bs' : List (Statement ℓ)} (h : Statement.AllTrimmedTo padding? as as')
    (h' : Statement.AllTrimmedTo (Statement.paddingAfter padding? as) bs bs') :
    Statement.AllTrimmedTo padding? (as ++ bs) (as' ++ bs') := by
  induction as generalizing padding? as' with
  | nil =>
    cases h
    exact h'
  | cons s rest ih =>
    cases h with
    | cons hs hrest => exact .cons hs (ih hrest h')

/-- The change of a body trims it, whatever stands before it. -/
def Trims (f : List (Statement ℓ) → List (Statement ℓ)) : Prop :=
  ∀ padding? body, Statement.AllTrimmedTo padding? body (f body)

/-- The first statement is trimmed, if it is content, and the others stay. -/
theorem trims_cutFirst (all : Bool) : Trims (@cutFirst ℓ all)
  | _, .content c :: rest =>
    .cons (.content (c.trimmedTo_cutStart all)) (Statement.AllTrimmedTo.refl _ rest)
  | _, [] | _, .mustache _ :: _ | _, .block _ :: _ | _, .partialCall _ :: _
    | _, .partialBlock _ :: _
  | _, .comment _ :: _ => Statement.AllTrimmedTo.refl _ _

/-- The nearest one of the statements before a place is the last one of them. -/
theorem Statement.allTrimmedTo_cutNearest (all : Bool) (padding? : Option String) :
    ∀ done : List (Statement ℓ), Statement.AllTrimmedTo padding? done.reverse
      (cutNearest all done).reverse
  | .content c :: more => by
    rw [cutNearest, List.reverse_cons, List.reverse_cons]
    exact (Statement.AllTrimmedTo.refl _ _).append
      (.cons (.content (c.trimmedTo_cutEnd all)) (.nil _))
  | [] | .mustache _ :: _ | .block _ :: _ | .partialCall _ :: _ | .partialBlock _ :: _
    | .comment _ :: _ =>
    Statement.AllTrimmedTo.refl _ _

/-- Seen from the end, the last statement is the nearest one. -/
theorem trims_cutLast (all : Bool) : Trims (@cutLast ℓ all) := by
  intro padding? body
  have h := Statement.allTrimmedTo_cutNearest all padding? body.reverse
  rwa [List.reverse_reverse] at h

/-- What is applied under a condition is related to what it is applied to where it is so without
one. -/
theorem applyIf_related {α : Type} {R : α → α → Prop} (hrefl : ∀ x, R x x) {f : α → α}
    (hf : ∀ x, R x (f x)) (condition : Bool) (x : α) : R x (applyIf condition f x) := by
  cases condition with
  | false => exact hrefl x
  | true => exact hf x

variable {f : List (Statement ℓ) → List (Statement ℓ)}

/-- A trim of a body is one of its program. -/
theorem Trims.mapBody (hf : Trims f) : ∀ p : Program ℓ, p.TrimmedTo (p.mapBody f)
  | ⟨body, blockParams, chained, mark⟩ => .mk blockParams chained mark (hf none body)

theorem Trims.mapBodyOpt (hf : Trims f) :
    ∀ p : Option (Program ℓ), Program.OptTrimmedTo p (p.map (Program.mapBody f))
  | none => .none
  | some p => .some (hf.mapBody p)

/-! ## Sections of a block -/

/-- A block is trimmed where its two sections are. -/
theorem Block.TrimmedTo.sections {b : Block ℓ} {program inverse : Option (Program ℓ)}
    (hprogram : Program.OptTrimmedTo b.program program)
    (hinverse : Program.OptTrimmedTo b.inverse inverse) :
    b.TrimmedTo { b with program, inverse } := by
  cases b
  exact .mk _ _ _ _ _ _ hprogram hinverse

/-- The first section is the program or stands in the block that a chained program holds, so the
trim is of the body or of one in its first statement. -/
theorem Trims.mapFirstSection (hf : Trims f) (p : Program ℓ) :
    p.TrimmedTo (p.mapFirstSection f) := by
  obtain ⟨body, blockParams, chained, mark⟩ := p
  unfold Program.mapFirstSection
  split
  · split
    next b rest hbody =>
      obtain rfl : body = .block b :: rest := hbody
      have hblock := Block.TrimmedTo.sections (hf.mapBodyOpt b.program) (.refl b.inverse)
      exact .mk blockParams chained mark
        (.cons (.block hblock) (Statement.AllTrimmedTo.refl _ rest))
    next => exact .refl _
  · exact hf.mapBody _

mutual

/-- By recursion along the walk to the last section, which passes through chained programs and the
last block of each. -/
theorem Trims.mapLastSection (hf : Trims f) : ∀ p : Program ℓ, p.TrimmedTo (p.mapLastSection f)
  | ⟨body, blockParams, chained, mark⟩ => by
    rw [Program.mapLastSection]
    split
    · exact .mk blockParams chained mark (Trims.mapLastStatement hf none body)
    · exact .mk blockParams chained mark (hf none body)

/-- The statements before the last one stay. -/
theorem Trims.mapLastStatement (hf : Trims f) (padding? : Option String) :
    ∀ body : List (Statement ℓ), Statement.AllTrimmedTo padding? body (mapLastStatement f body)
  | [] => .nil padding?
  | [s] => .cons (Trims.mapLastSectionStatement hf padding? s) (.nil _)
  | s :: t :: rest => .cons (.refl padding? s) (Trims.mapLastStatement hf s.padding? (t :: rest))

theorem Trims.mapLastSectionStatement (hf : Trims f) (padding? : Option String) :
    ∀ s : Statement ℓ, s.TrimmedTo padding? (Statement.mapLastSection f s)
  | .block b => .block (Trims.mapLastSectionBlock hf b)
  | .mustache _ | .partialCall _ | .partialBlock _ | .content _ | .comment _ => .refl padding? _

/-- The walk goes on in the main program of a block. -/
theorem Trims.mapLastSectionBlock (hf : Trims f) :
    ∀ b : Block ℓ, b.TrimmedTo (Block.mapLastSection f b)
  | ⟨expr, program, inverse, openStrip, inverseStrip, closeStrip, close, mark⟩ =>
    .mk expr openStrip inverseStrip closeStrip close mark (Trims.mapLastSectionOpt hf program)
      (.refl inverse)

theorem Trims.mapLastSectionOpt (hf : Trims f) :
    ∀ p : Option (Program ℓ), Program.OptTrimmedTo p (Program.mapLastSectionOpt f p)
  | none => .none
  | some p => .some (Trims.mapLastSection hf p)

end

variable {p q : Program ℓ}

/-- Trimming goes on under a condition. -/
theorem Program.TrimmedTo.thenIf (h : p.TrimmedTo q) {g : Program ℓ → Program ℓ}
    (hg : ∀ p : Program ℓ, p.TrimmedTo (g p)) (condition : Bool) :
    p.TrimmedTo (applyIf condition g q) :=
  h.trans (applyIf_related .refl hg condition q)

/-- Two cuts of one body, at its start and at its end. -/
theorem Block.trimmedTo_stripOnly (b : Block ℓ) (p : Program ℓ) : p.TrimmedTo (b.stripOnly p) :=
  ((Program.TrimmedTo.refl p).thenIf (trims_cutFirst true).mapBody _).thenIf
    (trims_cutLast true).mapBody _

/-- Each of the cuts in a block with two sections is a trim of one of the sections, and they follow
one another. -/
theorem Block.trimmedTo_stripInside (ignoreStandalone : Bool) :
    ∀ b : Block ℓ, b.TrimmedTo (b.stripInside ignoreStandalone)
  | ⟨expr, some program, some inverse, openStrip, inverseStrip, closeStrip, close, mark⟩ => by
    refine .mk expr openStrip inverseStrip closeStrip close mark (.some ?_) (.some ?_)
    · exact (((Program.TrimmedTo.refl program).thenIf (trims_cutFirst true).mapBody _).thenIf
        (trims_cutLast true).mapBody _).thenIf (trims_cutLast false).mapBody _
    · exact (((Program.TrimmedTo.refl inverse).thenIf
        (trims_cutFirst true).mapFirstSection _).thenIf
        (trims_cutLast true).mapLastSection _).thenIf (trims_cutFirst false).mapFirstSection _
  | ⟨expr, some program, none, openStrip, inverseStrip, closeStrip, close, mark⟩ =>
    .mk expr openStrip inverseStrip closeStrip close mark
      (.some (Block.trimmedTo_stripOnly _ program)) .none
  | ⟨expr, none, some inverse, openStrip, inverseStrip, closeStrip, close, mark⟩ =>
    .mk expr openStrip inverseStrip closeStrip close mark .none
      (.some (Block.trimmedTo_stripOnly _ inverse))
  | ⟨_, none, none, _, _, _, _, _⟩ => .refl _

/-- Two cuts of the body, each under its condition. -/
theorem PartialBlock.trimmedTo_stripInside : ∀ p : PartialBlock ℓ, p.TrimmedTo p.stripInside
  | ⟨name, params, hash, program, openStrip, closeStrip, mark⟩ =>
    .mk name params hash openStrip closeStrip mark
      (((Program.TrimmedTo.refl program).thenIf (trims_cutFirst true).mapBody _).thenIf
        (trims_cutLast true).mapBody _)

/-! ## Statements in a row -/

/-- Where a section is, its body is trimmed on its own. -/
theorem Statement.trimmedTo_cutAfterOpening (padding? : Option String) :
    ∀ s : Statement ℓ, s.TrimmedTo padding? s.cutAfterOpening
  | .block ⟨expr, some program, inverse, openStrip, inverseStrip, closeStrip, close, mark⟩ =>
    .block (.mk expr openStrip inverseStrip closeStrip close mark
      (.some ((trims_cutFirst false).mapBody program))
      (.refl inverse))
  | .block ⟨expr, none, inverse, openStrip, inverseStrip, closeStrip, close, mark⟩ =>
    .block (.mk expr openStrip inverseStrip closeStrip close mark .none
      ((trims_cutFirst false).mapBodyOpt inverse))
  | .partialBlock ⟨name, params, hash, program, openStrip, closeStrip, mark⟩ =>
    .partialBlock
      (.mk name params hash openStrip closeStrip mark ((trims_cutFirst false).mapBody program))
  | .mustache _ | .partialCall _ | .content _ | .comment _ => .refl padding? _

/-- The cut is made in the last section that there is. -/
theorem Statement.trimmedTo_cutBeforeClosing (padding? : Option String) :
    ∀ s : Statement ℓ, s.TrimmedTo padding? s.cutBeforeClosing
  | .block ⟨expr, program, some inverse, openStrip, inverseStrip, closeStrip, close, mark⟩ =>
    .block (.mk expr openStrip inverseStrip closeStrip close mark (.refl program)
      (.some ((trims_cutLast false).mapBody inverse)))
  | .block ⟨expr, program, none, openStrip, inverseStrip, closeStrip, close, mark⟩ =>
    .block (.mk expr openStrip inverseStrip closeStrip close mark
      ((trims_cutLast false).mapBodyOpt program) .none)
  | .partialBlock ⟨name, params, hash, program, openStrip, closeStrip, mark⟩ =>
    .partialBlock
      (.mk name params hash openStrip closeStrip mark ((trims_cutLast false).mapBody program))
  | .mustache _ | .partialCall _ | .content _ | .comment _ => .refl padding? _

/-- A partial has the given indentation as its own, which is that of the padding before it. -/
theorem Statement.trimmedTo_indented (indent : String) :
    ∀ s : Statement ℓ, s.TrimmedTo (some indent) (s.indented indent)
  | .partialCall p => .partialCall p (.inr rfl)
  | .mustache _ | .block _ | .partialBlock _ | .content _ | .comment _ => .refl _ _

/-- Trimming leaves what was written at the end of statements, so the padding after them stays. -/
theorem Statement.AllTrimmedTo.paddingAfter_eq {padding? : Option String}
    {as bs : List (Statement ℓ)} (h : Statement.AllTrimmedTo padding? as bs) :
    Statement.paddingAfter padding? bs = Statement.paddingAfter padding? as := by
  induction as generalizing padding? bs with
  | nil =>
    cases h
    rfl
  | cons s rest ih =>
    cases h with
    | cons hs hrest =>
      rw [Statement.paddingAfter, List.foldl_cons, hs.padding?_eq]
      exact ih hrest

/-- Padding is cut off content only, and then it is the padding of what was written there. -/
theorem paddingAfter_of_cutsPadding {done : List (Statement ℓ)} (h : cutsPadding done = true) :
    Statement.paddingAfter none done.reverse = some (paddingBefore done) := by
  match done, h with
  | .content c :: more, _ =>
    rw [Statement.paddingAfter, List.foldl_reverse]
    rfl

variable {done done' : List (Statement ℓ)}

/-- Of what stands in reverse the nearest statement is cut under a condition. -/
theorem Statement.AllTrimmedTo.cutNearestIf {padding? : Option String}
    (h : Statement.AllTrimmedTo padding? done.reverse done'.reverse) (all condition : Bool) :
    Statement.AllTrimmedTo padding? done.reverse
      (applyIf condition (cutNearest all) done').reverse := by
  cases condition with
  | false => exact h
  | true => exact h.trans (Statement.allTrimmedTo_cutNearest all padding? done')

/-- A further trim under a condition. -/
theorem Statement.TrimmedTo.thenIf {padding? : Option String} {s t : Statement ℓ}
    (h : s.TrimmedTo padding? t) {g : Statement ℓ → Statement ℓ}
    (hg : ∀ s : Statement ℓ, s.TrimmedTo padding? (g s)) (condition : Bool) :
    s.TrimmedTo padding? (applyIf condition g t) :=
  h.trans (applyIf_related (.refl padding?) hg condition t)

/-- A partial takes its indentation from a text that the cuts of markers leave as it was written. -/
theorem Statement.trimmedTo_indentedIf (h : Statement.AllTrimmedTo none done.reverse done'.reverse)
    (inline : Bool) (s : Statement ℓ) :
    s.TrimmedTo (Statement.paddingAfter none done.reverse)
      (applyIf (inline && cutsPadding done') (Statement.indented (paddingBefore done')) s) := by
  by_cases hcuts : cutsPadding done' = true
  · rw [← h.paddingAfter_eq, paddingAfter_of_cutsPadding hcuts]
    exact applyIf_related (.refl _) (Statement.trimmedTo_indented _) _ s
  · rw [eq_false_of_ne_true hcuts, Bool.and_false]
    exact .refl _ s

/-- Statements in a row are trimmed as they are laid out from left to right. -/
theorem Statement.allTrimmedTo_settle (ignoreStandalone root : Bool) :
    ∀ (body done : List (Statement ℓ)) (cuts : List Bool),
      Statement.AllTrimmedTo none (done.reverse ++ body)
        (settle ignoreStandalone root done cuts body)
  | [], done, _ => by
    rw [settle, List.append_nil]
    exact .refl none done.reverse
  | s :: rest, done, cuts => by
    -- What is done stands in reverse, so this statement goes before it.
    have hdone : ∀ {done' : List (Statement ℓ)} {s' : Statement ℓ},
        Statement.AllTrimmedTo none done.reverse done'.reverse →
          s.TrimmedTo (Statement.paddingAfter none done.reverse) s' →
            Statement.AllTrimmedTo none (done.reverse ++ s :: rest)
              ((s' :: done').reverse ++ rest) := by
      intro done' s' hdone' hs'
      rw [List.reverse_cons, List.append_assoc]
      exact hdone'.append (.cons hs' (.refl _ rest))
    unfold settle
    split
    · refine (hdone (.refl none _) ?_).trans (Statement.allTrimmedTo_settle _ _ rest _ _)
      split
      next c _ => exact .content (c.trimmedTo_cutStarts cuts)
      next => exact .refl _ _
    next d _ =>
      have hstripped := (Statement.AllTrimmedTo.refl none done.reverse).cutNearestIf true d.before
      refine (hdone ?_ ?_).trans (Statement.allTrimmedTo_settle _ _ rest _ _)
      · exact (hstripped.cutNearestIf false _).cutNearestIf false _
      · exact ((Statement.trimmedTo_indentedIf hstripped _ s).thenIf
          (Statement.trimmedTo_cutAfterOpening _) _).thenIf
          (Statement.trimmedTo_cutBeforeClosing _) _

/-! ## Trees -/

mutual

/-- A program is laid out inside first and then in a row, so it is trimmed twice. -/
theorem Program.trimmedTo_layout (ignoreStandalone root : Bool) :
    ∀ p : Program ℓ, p.TrimmedTo (p.layout ignoreStandalone root)
  | ⟨body, blockParams, chained, mark⟩ =>
    .mk blockParams chained mark ((Statement.allTrimmedTo_layouts ignoreStandalone none body).trans
      (Statement.allTrimmedTo_settle ignoreStandalone root
        (Statement.layouts ignoreStandalone body) [] []))

/-- Inside, the statements are laid out one by one, and no padding is asked for. -/
theorem Statement.allTrimmedTo_layouts (ignoreStandalone : Bool) (padding? : Option String) :
    ∀ body : List (Statement ℓ), Statement.AllTrimmedTo padding? body
      (Statement.layouts ignoreStandalone body)
  | [] => .nil padding?
  | s :: rest =>
    .cons (Statement.trimmedTo_layout ignoreStandalone padding? s)
      (Statement.allTrimmedTo_layouts ignoreStandalone s.padding? rest)

theorem Statement.trimmedTo_layout (ignoreStandalone : Bool) (padding? : Option String) :
    ∀ s : Statement ℓ, s.TrimmedTo padding? (s.layout ignoreStandalone)
  | .block b => .block (Block.trimmedTo_layout ignoreStandalone b)
  | .partialBlock p => .partialBlock (PartialBlock.trimmedTo_layout ignoreStandalone p)
  | .mustache _ | .partialCall _ | .content _ | .comment _ => .refl padding? _

/-- The sections are laid out first, then the markers are applied to them. -/
theorem Block.trimmedTo_layout (ignoreStandalone : Bool) :
    ∀ b : Block ℓ, b.TrimmedTo (b.layout ignoreStandalone)
  | ⟨expr, program, inverse, openStrip, inverseStrip, closeStrip, close, mark⟩ =>
    (Block.TrimmedTo.mk expr openStrip inverseStrip closeStrip close mark
      (Program.optTrimmedTo_layoutOpt ignoreStandalone program)
      (Program.optTrimmedTo_layoutOpt ignoreStandalone inverse)).trans
        (Block.trimmedTo_stripInside ignoreStandalone _)

theorem PartialBlock.trimmedTo_layout (ignoreStandalone : Bool) :
    ∀ p : PartialBlock ℓ, p.TrimmedTo (p.layout ignoreStandalone)
  | ⟨name, params, hash, program, openStrip, closeStrip, mark⟩ =>
    (PartialBlock.TrimmedTo.mk name params hash openStrip closeStrip mark
      (Program.trimmedTo_layout ignoreStandalone false program)).trans
        (PartialBlock.trimmedTo_stripInside _)

theorem Program.optTrimmedTo_layoutOpt (ignoreStandalone : Bool) :
    ∀ p : Option (Program ℓ), Program.OptTrimmedTo p (Program.layoutOpt ignoreStandalone p)
  | none => .none
  | some p => .some (Program.trimmedTo_layout ignoreStandalone false p)

end

/-! ## Trees without markers -/

/-- No tag of the statement has a marker. Its bodies may hold any statements. -/
def Statement.NoMarkers : Statement ℓ → Prop
  | .mustache m => m.strip = {}
  | .block b => b.openStrip = {} ∧ b.inverseStrip = {} ∧ b.closeStrip = {}
  | .partialCall p => p.strip = {}
  | .partialBlock p => p.openStrip = {} ∧ p.closeStrip = {}
  | .content _ => True
  | .comment c => c.strip = {}

instance : DecidablePred (@Statement.NoMarkers ℓ)
  | .mustache m => inferInstanceAs (Decidable (m.strip = {}))
  | .block b =>
    inferInstanceAs (Decidable (b.openStrip = {} ∧ b.inverseStrip = {} ∧ b.closeStrip = {}))
  | .partialCall p => inferInstanceAs (Decidable (p.strip = {}))
  | .partialBlock p => inferInstanceAs (Decidable (p.openStrip = {} ∧ p.closeStrip = {}))
  | .content _ => .isTrue trivial
  | .comment c => inferInstanceAs (Decidable (c.strip = {}))

/-- A statement without markers asks for no cut of all blanks around it. -/
theorem Statement.NoMarkers.demand {d : Demand} :
    ∀ {s : Statement ℓ}, s.NoMarkers → s.demand? = some d →
    d.before = false ∧ d.after = false
  | .mustache ⟨_, _, _, _⟩, rfl, rfl => ⟨rfl, rfl⟩
  | .partialCall ⟨_, _, _, _, _, _⟩, rfl, rfl => ⟨rfl, rfl⟩
  | .comment ⟨_, _, _⟩, rfl, rfl => ⟨rfl, rfl⟩
  | .partialBlock ⟨_, _, _, _, _, _, _⟩, ⟨rfl, rfl⟩, rfl => ⟨rfl, rfl⟩
  | .block ⟨_, program, inverse, _, _, _, _, _⟩, ⟨rfl, rfl, rfl⟩, hd => by
    cases program <;> cases inverse <;> cases hd <;> exact ⟨rfl, rfl⟩

/-- Tags that keep their lines and have no markers ask for nothing. -/
theorem settle_of_noMarkers (root : Bool) :
    ∀ {body : List (Statement ℓ)} (done : List (Statement ℓ)), (∀ s ∈ body, s.NoMarkers) →
      settle true root done [] body = done.reverse ++ body
  | [], done, _ => by rw [settle, List.append_nil]
  | s :: rest, done, h => by
    obtain ⟨hs, hrest⟩ := List.forall_mem_cons.1 h
    have hstep : settle true root done [] (s :: rest) = settle true root (s :: done) [] rest := by
      conv_lhs => unfold settle
      split
      · cases s <;> rfl
      next d hd =>
        obtain ⟨hbefore, hafter⟩ := hs.demand hd
        simp only [hbefore, hafter, Bool.not_true, Bool.false_and, applyIf,
          Bool.false_eq_true, if_false, List.append_nil]
    rw [hstep, settle_of_noMarkers root (s :: done) hrest, List.reverse_cons, List.append_assoc]
    rfl

/-- Without markers, and where tags keep their lines, none of the conditions for a cut holds. -/
theorem Block.stripInside_of_noMarkers :
    ∀ {b : Block ℓ}, (Statement.block b).NoMarkers → b.stripInside true = b
  | ⟨_, program, inverse, _, _, _, _, _⟩, ⟨rfl, rfl, rfl⟩ => by
    cases program <;> cases inverse <;> rfl

theorem PartialBlock.stripInside_of_noMarkers :
    ∀ {p : PartialBlock ℓ}, (Statement.partialBlock p).NoMarkers → p.stripInside = p
  | ⟨_, _, _, _, _, _, _⟩, ⟨rfl, rfl⟩ => rfl

mutual

/-- By recursion over the tree: nothing changes inside, and nothing in the row of statements. -/
theorem Program.layout_of_noMarkers (root : Bool) :
    ∀ {p : Program ℓ}, p.Every Statement.NoMarkers → p.layout true root = p
  | ⟨body, _, _, _⟩, h => by
    have hbody : ∀ s ∈ body, s.NoMarkers := fun s hs => (Statement.allEvery_iff.1 h s hs).self
    rw [Program.layout, Statement.layouts_of_noMarkers h, settle_of_noMarkers root [] hbody]
    rfl

theorem Statement.layouts_of_noMarkers :
    ∀ {body : List (Statement ℓ)}, Statement.AllEvery Statement.NoMarkers body →
      Statement.layouts true body = body
  | [], _ => rfl
  | _ :: _, h =>
    congrArg₂ List.cons (Statement.layout_of_noMarkers h.1) (Statement.layouts_of_noMarkers h.2)

theorem Statement.layout_of_noMarkers :
    ∀ {s : Statement ℓ}, s.Every Statement.NoMarkers → s.layout true = s
  | .block _, h => congrArg Statement.block (Block.layout_of_noMarkers h.1 h.2)
  | .partialBlock _, h => congrArg Statement.partialBlock (PartialBlock.layout_of_noMarkers h.1 h.2)
  | .mustache _, _ | .partialCall _, _ | .content _, _ | .comment _, _ => rfl

/-- Its sections stay as they are, and the block has no marker to apply to them. -/
theorem Block.layout_of_noMarkers :
    ∀ {b : Block ℓ}, (Statement.block b).NoMarkers → b.Every Statement.NoMarkers → b.layout true = b
  | ⟨_, _, _, _, _, _, _, _⟩, hself, h => by
    rw [Block.layout, Program.layoutOpt_of_noMarkers h.1, Program.layoutOpt_of_noMarkers h.2,
      Block.stripInside_of_noMarkers hself]

theorem PartialBlock.layout_of_noMarkers : ∀ {p : PartialBlock ℓ},
    (Statement.partialBlock p).NoMarkers → p.Every Statement.NoMarkers → p.layout true = p
  | ⟨_, _, _, _, _, _, _⟩, hself, h => by
    rw [PartialBlock.layout, Program.layout_of_noMarkers false h,
      PartialBlock.stripInside_of_noMarkers hself]

theorem Program.layoutOpt_of_noMarkers :
    ∀ {p : Option (Program ℓ)}, Program.EveryOpt Statement.NoMarkers p →
      Program.layoutOpt true p = p
  | none, _ => rfl
  | some _, h => congrArg some (Program.layout_of_noMarkers false h)

end

/-- The layout of any tree trims contents and indents partials, and changes nothing else. Where tags
keep their lines and have no markers it changes nothing at all. -/
theorem Program.layout_trims (ignoreStandalone root : Bool) (p : Program ℓ) :
    p.TrimmedTo (p.layout ignoreStandalone root) ∧
      (ignoreStandalone = true → p.Every Statement.NoMarkers →
        p.layout ignoreStandalone root = p) := by
  refine ⟨Program.trimmedTo_layout ignoreStandalone root p, ?_⟩
  rintro rfl h
  exact Program.layout_of_noMarkers root h

/-- A partial alone on its line, then a block alone on its lines whose `else` goes on with another
block. -/
def standingAlone : Program Unit :=
  let holding (text : String) : Program Unit := ⟨[.content (.ofText text ())], [], false, ()⟩
  let chain : Block Unit := ⟨.null (), some (holding "\ny\n"), none, {}, {}, {}, none, ()⟩
  let block : Block Unit :=
    ⟨.null (), some (holding "\nx\n"), some ⟨[.block chain], [], true, ()⟩, {}, {}, {}, none, ()⟩
  ⟨[.content (.ofText "  " ()), .partialCall { name := .null (), mark := () },
    .content (.ofText "\n" ()), .block block], [], false, ()⟩

/-- The layout cuts texts of this tree, but not where tags keep their lines. -/
theorem Program.layout_trims_standingAlone :
    standingAlone.TrimmedTo (standingAlone.layout true true) ∧
      standingAlone.layout true true = standingAlone ∧
      (standingAlone.layout false true).body.filterMap Statement.content? =
        [⟨"", "  ", true, false, ()⟩, ⟨"", "\n", false, true, ()⟩] := by
  obtain ⟨htrims, hsame⟩ := Program.layout_trims true true standingAlone
  exact ⟨htrims, hsame rfl (by decide +kernel), by decide +kernel⟩

end Stencil.Tree
