import Stencil.Proofs.Render.Sequencing
import Stencil.Proofs.Render.Tracking

/-!
# Partials that give nothing

What is left of the tag of a partial that is missing, or that renders to the empty text. An
indentation that is applied to the lines of the partial meets no line then, and where the tag is
told to indent once its indentation is text of the template like the text around it. So the code of
a program with such a tag and without it is the same letter by letter but for the call
(`Compiler.exists_around_partialCall`), and the call adds nothing (`Place.GivesNothing.recover`):
the program renders as the one without the tag, with the indentation in its place where the tag is
told to indent once (`emptyPartial_leaves`).
-/

set_option autoImplicit false

namespace Stencil.Code

open Stencil.Text (Location)
open Stencil.Tree (Content Nesting Opened Statement)
open Compiling (Gives gives_pure gives_bind gives_guard gives_map gathers_bind gathers_map)

/-! ## Code around the tag of a partial -/

theorem Instruction.shift_zero : Instruction.shift 0 = id := by
  funext i
  cases i with
  | content text => rfl
  | append value escape => rfl
  | block b =>
    obtain ⟨kind, name, program, inverse, loc⟩ := b
    cases program <;> cases inverse <;> rfl
  | partialCall p =>
    obtain ⟨name, context, hash, indent, program, loc⟩ := p
    cases program <;> rfl

/-- The text that stands for a tag which is told to indent its partial once: its indentation. -/
def residue (options : Options) (p : Tree.PartialCall (Option Location)) :
    List (Statement (Option Location)) :=
  if options.preventIndent then [.content (Content.ofText p.indent none)] else []

/-- The letters of that text. -/
def residueLetters (options : Options) (p : Tree.PartialCall (Option Location)) :
    List (Char ⊕ Instruction) :=
  if options.preventIndent then p.indent.toList.map .inl else []

namespace Compiler

variable {compiler : Compiler} {frames : Frames} {next : Nat}

/-- Statements in three parts, each numbered on from those before it. -/
theorem statements_between (before between after : List (Statement (Option Location))) :
    compiler.plain.statements frames next (before ++ (between ++ after)) {} =
      (do
        let first ← compiler.plain.statements frames next before {}
        let here ← compiler.plain.statements frames (next + first.nested.length) between {}
        (first.after here).after <$>
          compiler.plain.statements frames (next + (first.nested.length + here.nested.length))
            after {}) := by
  rw [statements_append]
  refine congrArg _ (funext fun first => ?_)
  rw [statements_append, statements_after rfl between next first, bind_map_left]
  refine congrArg _ (funext fun here => ?_)
  rw [statements_after rfl after next (first.after here), Progress.after, List.length_append]

theorem statements_singleton (s : Statement (Option Location)) (done : Progress) :
    compiler.statements frames next [s] done = compiler.statement frames next s done := by
  rw [Compiler.statements]
  exact bind_pure _

/-- The tag of a partial leaves its indentation, where it is told to indent once, and its call. -/
theorem gives_partialCall {p : Tree.PartialCall (Option Location)} {done : Progress}
    (h : Gives (compiler.plain.statements frames next [.partialCall p] {}) done) :
    done.nested = [] ∧ ∃ i, (∀ next, compiler.Emits frames next (.partialCall p) (.partialCall i)) ∧
      strokes done.out = residueLetters compiler.options p ++ [.inr (.partialCall i)] := by
  rw [statements_singleton] at h
  obtain ⟨out, hout, h⟩ := gives_bind h
  obtain rfl := gives_pure.1 h
  refine ⟨rfl, ?_⟩
  rw [Compiler.partialInvocation] at hout
  obtain ⟨_, -, hout⟩ := gives_bind (gives_guard hout)
  obtain ⟨name, hname, hout⟩ := gives_bind hout
  obtain ⟨context, hcontext, hout⟩ := gives_bind hout
  obtain ⟨hash, hhash, hout⟩ := gives_bind hout
  obtain rfl := gives_pure.1 hout
  have same : compiler.KnowsAs compiler.options.knownHelpers := fun _ => rfl
  rw [plain, partialName_plainWith same] at hname
  rw [plain, partialContext_plainWith same] at hcontext
  rw [plain, hashOperands_plainWith same] at hhash
  -- Told to indent once, the tag sets its indentation aside as a text of its own.
  let aside := compiler.options.preventIndent && !p.indent.isEmpty
  let i : PartialInvocation :=
    { name, context, hash, indent := if aside then "" else p.indent, program := none,
      loc := p.mark }
  refine ⟨i, fun _ => .partialCall hname hcontext hhash rfl, ?_⟩
  show strokes (appendPlain (if aside then appendPlain [] (.content p.indent) false else [])
    (.partialCall i) true) = _
  rw [keepsStrokes_plain, residueLetters]
  refine congrArg (· ++ _) ?_
  cases hprevent : compiler.options.preventIndent with
  | false => simp only [aside, hprevent]; rfl
  | true =>
    cases hempty : p.indent.isEmpty with
    | true => simp only [aside, hempty]; rw [String.isEmpty_iff.1 hempty]; simp; rfl
    | false =>
      simp only [aside, hempty, hprevent];
      exact (keepsStrokes_plain [] _ false).trans (List.nil_append _)

/-- What stands for such a tag leaves the indentation alone. -/
theorem gives_residue (compiler : Compiler) (frames : Frames) (next : Nat)
    (p : Tree.PartialCall (Option Location)) :
    ∃ done, Gives (compiler.plain.statements frames next (residue compiler.options p) {}) done ∧
      done.nested = [] ∧ strokes done.out = residueLetters compiler.options p := by
  rw [residue, residueLetters]
  cases hprevent : compiler.options.preventIndent with
  | false => exact ⟨_, gives_pure.2 rfl, rfl, rfl⟩
  | true =>
    cases hempty : p.indent.isEmpty with
    | true =>
      obtain hindent := String.isEmpty_iff.1 hempty
      rw [hindent]
      exact ⟨_, gives_pure.2 rfl, rfl, rfl⟩
    | false =>
      refine ⟨⟨[.content p.indent], []⟩, ?_, rfl, List.append_nil _⟩
      rw [if_pos rfl, statements_singleton]
      refine gives_pure.2 (if_neg ?_)
      rw [Bool.not_eq_true]
      exact hempty

/-- Appending once more keeps the letters and the other instructions of what is done. -/
theorem strokes_remake (keeps : KeepsStrokes compiler.backend.append) (done : Progress) :
    strokes (done.remake compiler.backend.append 0).out = strokes done.out := by
  rw [Progress.remake, strokes_refold keeps, Instruction.shift_zero, List.map_id]

/-- The statements of a program are those of the plain compiler, appended once more. -/
theorem statements_eq_plain (compiler : Compiler) (frames : Frames) (next : Nat)
    (body : List (Statement (Option Location))) :
    compiler.statements frames next body {} =
      Progress.remake compiler.backend.append 0 <$> compiler.plain.statements frames next body {} :=
  statements_eq_remake (fun _ => rfl) 0 frames next body {}

/-- The code of a program with the tag of a partial, and that of the program with what stands for
the tag, are the same letters and instructions around the call. -/
theorem exists_around_partialCall (keeps : KeepsStrokes compiler.backend.append)
    {here : Opened (Option Location)} {outer : Nesting (Option Location)} {c : Chunk}
    (h : compiler.Compiles (here :: outer) c) {before after : List (Statement (Option Location))}
    {p : Tree.PartialCall (Option Location)}
    (hbody : here.program.body = before ++ .partialCall p :: after) :
    ∃ i without,
      (∀ next, compiler.Emits (Nesting.frames (here :: outer)) next (.partialCall p)
        (.partialCall i)) ∧
      compiler.Compiles ({ here with
        program :=
          { here.program with body := before ++ (residue compiler.options p ++ after) } } :: outer)
        without ∧
      ∃ as bs, strokes c.instructions = as ++ .inr (.partialCall i) :: bs ∧
        strokes without.instructions = as ++ bs := by
  cases h with
  | intro body =>
    rw [hbody, statements_eq_plain] at body
    obtain ⟨done, hdone, rfl⟩ := gives_map body
    rw [show before ++ .partialCall p :: after = before ++ ([.partialCall p] ++ after) from rfl,
      statements_between] at hdone
    obtain ⟨first, hfirst, hdone⟩ := gives_bind hdone
    obtain ⟨tag, htag, hdone⟩ := gives_bind hdone
    obtain ⟨more, hmore, rfl⟩ := gives_map hdone
    obtain ⟨hnested, i, hemits, hout⟩ := gives_partialCall htag
    obtain ⟨left, hleft, hnone, hletters⟩ := gives_residue compiler (Nesting.frames (here :: outer))
      (here.id + 1 + first.nested.length) p
    -- The tag holds no program, so what follows is numbered as before.
    have hcount : tag.nested.length = left.nested.length := by rw [hnested, hnone]
    rw [hcount] at hmore
    have hwithout : Gives (compiler.statements (Nesting.frames (here :: outer)) (here.id + 1)
        (before ++ (residue compiler.options p ++ after)) {})
        (((first.after left).after more).remake compiler.backend.append 0) := by
      rw [statements_eq_plain, statements_between]
      refine Gives.map (hfirst.bind (gathers_bind (statements_gather _ _ _ _ _) fun _ => ?_) ?_) _
      · exact gathers_map (statements_gather _ _ _ _ _) _
      · exact hleft.bind (gathers_map (statements_gather _ _ _ _ _) _) (hmore.map _)
    refine ⟨i, _, hemits, .intro hwithout, strokes first.out ++ residueLetters compiler.options p,
      strokes more.out, ?_, ?_⟩
    · rw [strokes_remake keeps, Progress.after, strokes_append, Progress.after,
        strokes_append, hout, ← List.append_assoc, List.append_assoc]
      rfl
    · rw [strokes_remake keeps, Progress.after, strokes_append, Progress.after,
        strokes_append, hletters]

end Compiler

end Stencil.Code

namespace Stencil.Render

open Stencil.Code (Compiler Compiling Instruction Options PartialInvocation Spec residue strokes)
open Stencil.Text (Location)
open Stencil.Tree (Nesting Opened Statement)

/-! ## Calls that give nothing -/

/-- An instruction that gives nothing may as well not be there. -/
theorem strokeText_skip {strict : Bool} {piece : Instruction → Run Append} {i : Instruction}
    {given : Option Append} (h : (Run.recover strict (piece i)).result = .ok given)
    (nothing : given.elim "" Append.text = "") (bs : List (Char ⊕ Instruction)) :
    ∀ as : List (Char ⊕ Instruction),
      (strokeText strict piece (as ++ .inr i :: bs)).result =
        (strokeText strict piece (as ++ bs)).result
  | [] => by
    rw [List.nil_append, List.nil_append, strokeText]
    show (Run.recover strict (piece i) >>= _).result = _
    rw [Run.result_bind, h]
    show (strokeText strict piece bs >>= _).result = _
    simp only [nothing, String.empty_append, Run.bind_pure]
  | .inl c :: as => by
    rw [List.cons_append, List.cons_append, strokeText, strokeText, map_eq_pure_bind,
      map_eq_pure_bind, Run.result_bind, Run.result_bind, strokeText_skip h nothing bs as]
  | .inr j :: as => by
    rw [List.cons_append, List.cons_append, strokeText, strokeText, Run.result_bind,
      Run.result_bind]
    simp only [Run.result_bind, strokeText_skip h nothing bs as]

namespace Run

variable {α : Type} {r : Run α}

theorem recover_of_ok {strict : Bool} {a : α} (h : r.result = .ok a) :
    (recover strict r).result = .ok (some a) := by
  obtain ⟨trace, result⟩ := r
  cases h
  rfl

theorem recover_of_recoverable {e : TemplateError} (h : r.result = .error e)
    (recoverable : e.isRecoverable = true) :
    (recover false r).result = .ok none := by
  obtain ⟨trace, result⟩ := r
  cases h
  rw [recover, recoverable]
  rfl

end Run

/-- The empty text has no line to indent. -/
theorem indentLines_empty (indent : String) : Text.indentLines indent "" = "" := by
  unfold Text.indentLines
  split <;> rfl

namespace Place

variable (at_ : Place) (i : PartialInvocation)

/-- The operands of a call evaluate: to a name, and to the context that the partial is given. -/
def Calls (name : String) (context : Value) : Prop :=
  ∃ base hash, (at_.partialName i.name).result = .ok name ∧
    (at_.operand [1] i.context).result = .ok base ∧
    (at_.hashValues [2] 0 i.hash).result = .ok hash ∧ context = at_.partialContext base hash

/-- There is no partial of that name: no block whose body the name stands for, or none that is
registered. -/
def Misses (name : String) : Prop :=
  if name = partialBlockName then at_.scope.partialBlock = none
  else at_.frame.env.partials.get? name = none

/-- The call is of a partial that is missing, or of one that renders to the empty text. -/
def GivesNothing : Prop :=
  ∃ name context, at_.Calls i name context ∧
    (at_.Misses name ∨ (at_.partialText name i.program context).result = .ok "")

variable {at_ i}

/-- A call ends as the text of its partial does, which is indented. -/
theorem Calls.result_partialInvocation {name : String} {context : Value}
    (h : at_.Calls i name context) :
    (at_.partialInvocation i).result =
      (at_.partialText name i.program context).result.map (Text.indentLines i.indent) := by
  obtain ⟨base, hash, hname, hbase, hhash, rfl⟩ := h
  rw [partialInvocation, Run.result_bind, hname]
  show (at_.operand [1] i.context >>= _).result = _
  rw [Run.result_bind, hbase]
  show (at_.hashValues [2] 0 i.hash >>= _).result = _
  rw [Run.result_bind, hhash]
  exact Run.result_bind _ _

/-- A call without a body of its own fails where the partial is missing. -/
theorem Misses.result_partialText {name : String} (h : at_.Misses name) (body : i.program = none)
    (finds : ∀ options, at_.frame.env.partials.get? name = none →
      (at_.frame.partialSpec options name).result = .ok none) (context : Value) :
    (at_.partialText name i.program context).result = .error
      (.ofRuntime (.missingPartial name)) := by
  unfold Misses at h
  unfold partialText
  split at h
  next hname =>
    rw [if_pos hname, h]
    rfl
  next hname =>
    rw [if_neg hname]
    show (at_.frame.partialSpec at_.spec.options name >>= _).result = _
    rw [Run.result_bind, finds _ h, body]
    rfl

/-- A call that gives nothing leaves no text, in code that is not strict. -/
theorem GivesNothing.recover (h : at_.GivesNothing i) (body : i.program = none)
    (finds : ∀ options name, at_.frame.env.partials.get? name = none →
      (at_.frame.partialSpec options name).result = .ok none) :
    ∃ given, (Run.recover false (at_.piece (.partialCall i))).result = .ok given ∧
      given.elim "" Append.text = "" := by
  obtain ⟨name, context, calls, missing | empty⟩ := h
  · -- The failure to find the partial is recovered from.
    have hinvocation := calls.result_partialInvocation
    rw [missing.result_partialText body (fun options => finds options name)] at hinvocation
    refine ⟨none, Run.recover_of_recoverable (e := .ofRuntime (.missingPartial name)) ?_ rfl, rfl⟩
    rw [piece, Run.result_bind, hinvocation]
    rfl
  · -- An empty text has no line that would be indented.
    have hinvocation := calls.result_partialInvocation
    rw [empty] at hinvocation
    refine ⟨some ⟨"", true⟩, Run.recover_of_ok ?_, rfl⟩
    rw [piece, Run.result_bind, hinvocation]
    exact congrArg (fun text => Except.ok (Append.mk text true)) (indentLines_empty i.indent)

end Place

/-- Nothing is found under a name under which nothing is registered. -/
theorem Library.partialSpec_of_get?_eq_none {env : Environment} {options caller : Options}
    {name : String} (h : env.partials.get? name = none) :
    (Library.ofEnvironment env options).partialSpec caller name = .ok none := by
  rcases Library.partialSpec_cases env options caller name with ⟨s, hs, -⟩ |
      ⟨o, text, -, htext, -⟩ | hnone
  · rw [h] at hs
    cases hs
  · rw [h] at htext
    cases htext
  · exact hnone

/-- A program of a template that is not strict with the tag of a partial at any place in it, and the
same program with that tag replaced by nothing, or, where the tag is told to indent its partial
once, by a text that is its indentation. Wherever the program is run, if the partial is missing or
renders to the empty text there, the output of the program, or its error, is that of the program
without the tag. -/
theorem emptyPartial_leaves {o : Options} (lenient : o.strict = false) {tree : Tree.Located}
    {spec : Spec} (compiled : ({ options := o } : Compiler).compile tree = .ok spec) {id : Nat}
    {here : Opened (Option Location)} {outer : Nesting (Option Location)}
    (hid : (tree.nestings [] 0)[id]? = some (here :: outer))
    {before after : List (Statement (Option Location))} {p : Tree.PartialCall (Option Location)}
    (hbody : here.program.body = before ++ .partialCall p :: after) :
    ∃ i without,
      (∀ next, ({ options := o } : Compiler).Emits (Nesting.frames (here :: outer))
        next (.partialCall p)
        (.partialCall i)) ∧
      ({ options := o } : Compiler).Compiles ({ here with
        program :=
          { here.program with body := before ++ (residue o p ++ after) } } :: outer) without ∧
      ∀ (env : Environment) (options : Options) (level : Nat) (scope : Scope),
        let r := Renderer.cached env options
        let at_ := r.placeAt level ⟨spec, id, scope⟩
        at_.GivesNothing i →
          (r.invokeAt (level + 1) ⟨spec, id, scope⟩).result =
            (textOf false at_.piece without.instructions).result := by
  obtain ⟨c, hc, hcompiles⟩ := Compiler.exists_chunk Code.Backend.keepsTags_standard compiled hid
  obtain ⟨i, without, hemits, hwithout, as, bs, hwith, hletters⟩ :=
    Compiler.exists_around_partialCall Code.keepsStrokes_joining hcompiles hbody
  refine ⟨i, without, hemits, hwithout, ?_⟩
  intro env options level scope r at_ nothing
  have body : i.program = none := by
    cases hemits 0 with
    | partialCall _ _ _ body => exact body
  have hstrict : spec.options.strict = false := by
    rw [(Compiler.main_of_compile compiled).2, lenient]
  -- Both codes come to the same letters and instructions, but for the call.
  obtain ⟨given, hgiven, hempty⟩ := nothing.recover body fun caller name hnone =>
    show (Library.ofEnvironment env options).partialSpec caller name = .ok none from
      Library.partialSpec_of_get?_eq_none hnone
  rw [r.invokeAt_of_program? level hc, textOf_eq_strokeText false (fun _ => rfl), hletters]
  show (textOf spec.options.strict at_.piece c.instructions).result = _
  rw [hstrict, textOf_eq_strokeText false (fun _ => rfl), hwith]
  exact strokeText_skip hgiven hempty bs as

/-! ### A partial that is not there -/

/-- A partial that is called on a line of its own, two characters in. -/
def absentCall : Tree.PartialCall (Option Location) :=
  { name := .path { parts := ["nope"], spelling := "nope", mark := none }, indent := "  ",
    mark := none }

/-- That call between two lines. -/
def absentTree : Tree.Located :=
  { body := [.content (.ofText "a\n" none), .partialCall absentCall, .content (.ofText "b" none)]
    blockParams := [], chained := false, mark := none }

/-- Where the tag is told to indent once, its indentation stays, and the program renders as the one
that has the indentation for the tag. -/
theorem emptyPartial_leaves_indentation :
    ∃ spec without,
      ({ options := { preventIndent := true } } : Compiler).compile absentTree = .ok spec ∧
        ({ options := { preventIndent := true } } : Compiler).Compiles
          [⟨0, { absentTree with
            body := [.content (.ofText "a\n" none), .content (.ofText "  " none),
              .content (.ofText "b" none)] }⟩] without ∧
        let r := Renderer.cached .builtins {}
        let v : Visit := ⟨spec, 0, Scope.root .undefined [] []⟩
        (r.invokeAt 1 v).result =
          (textOf false (r.placeAt 0 v).piece without.instructions).result := by
  obtain ⟨spec, compiled, -⟩ :=
    exists_ok_of_any (x := ({ options := { preventIndent := true } } : Compiler).compile absentTree)
      (p := fun _ => true) (by decide +kernel)
  have hmain : (absentTree.nestings [] 0)[0]? = some [⟨0, absentTree⟩] := rfl
  have hbody : absentTree.body =
      [.content (.ofText "a\n" none)] ++ .partialCall absentCall :: [.content (.ofText "b" none)] :=
        rfl
  obtain ⟨i, without, hemits, hwithout, hrenders⟩ := emptyPartial_leaves rfl compiled hmain hbody
  refine ⟨spec, without, compiled, hwithout, ?_⟩
  intro r v
  refine hrenders .builtins {} 0 v.scope ?_
  -- The tag asks for nothing but the name, and no partial is registered under it.
  cases hemits 0 with
  | partialCall name context hash body =>
    have hname := Compiling.gives_pure.1 name
    have hcontext := Compiling.gives_pure.1 context
    have hhash := Compiling.gives_pure.1 hash
    refine ⟨"nope", .undefined, ⟨.undefined, [], ?_, ?_, ?_, rfl⟩, .inl ?_⟩
    · rw [← hname]
      rfl
    · rw [← hcontext]
      rfl
    · rw [← hhash]
      rfl
    · exact (if_neg (by decide)).mpr rfl

/-- Where the tag is told to indent once, a partial that is missing or empty leaves the
indentation. -/
theorem not_emptyPartial_empty :
    let missing := "a\n  \x7b\x7b> nope\x7d\x7d\nb"
    let once : Options := { preventIndent := true }
    let void := { Environment.builtins with partials := [("nope", .source "")] }
    (renderSource {} .builtins none missing .undefined []).result = .ok "a\nb" ∧
      (renderSource {} void none missing .undefined []).result = .ok "a\nb" ∧
      (renderSource once .builtins none missing .undefined []).result = .ok "a\n  b" ∧
      (renderSource once void none missing .undefined []).result = .ok "a\n  b" := by
  refine ⟨?_, ?_, ?_, ?_⟩
  all_goals decide +kernel

end Stencil.Render
