import Stencil.Proofs.Code.Emission

/-!
# Joining

What the choice of a buffer changes in compiled code. A backend that appends in its own way gives
the code of a backend that only ever puts the next instruction at the end (`Compiler.plain`), with
the instructions of every chunk appended once more in that way. So two backends that differ in
nothing else compile the same trees, and where the one fails the other fails with the same error.
The order of the known helpers in the options changes nothing either (`Compiler.plainWith`), and
where numbering begins changes nothing but the numbers (`Compiler.program_eq_remake`).

Where neighbouring texts are joined, code is the same letter by letter: `strokes` takes every text
apart into its letters, and joining does not change it. Two specs are `Spec.Alike` when they differ
only in how they are cut into texts and how their output is gathered (`Compiler.compile_alike`).
-/

set_option autoImplicit false

namespace Stencil.Code

open Stencil.Text (Location)
open Stencil.Tree (Expr Hash Pair Program Statement Block PartialBlock)

/-! ## Appending once more -/

/-- The instructions appended one by one, in the given way. -/
def refold (append : List Instruction → Instruction → Bool → List Instruction)
    (instructions : List Instruction) : List Instruction :=
  instructions.foldl (fun out i => append out i (!i.isText)) []

/-- The last instruction is appended to what was made of those before it. -/
theorem refold_concat (append : List Instruction → Instruction → Bool → List Instruction)
    (out : List Instruction) (i : Instruction) :
    refold append (out ++ [i]) = append (refold append out) i (!i.isText) := by
  rw [refold, List.foldl_append]
  rfl

/-- Put at the end one by one, instructions are what they were. -/
theorem refold_plain (instructions : List Instruction) :
    refold appendPlain instructions = instructions := by
  have after : ∀ (rest out : List Instruction),
      rest.foldl (fun out i => appendPlain out i (!i.isText)) out = out ++ rest := by
    intro rest
    induction rest with
    | nil => intro out; exact (List.append_nil _).symm
    | cons i rest ih => intro out; rw [List.foldl_cons, ih, appendPlain, List.append_assoc]; rfl
  exact after instructions []

/-- The instruction with the numbers of programs so many further on. -/
def Instruction.shift (k : Nat) : Instruction → Instruction
  | .content text => .content text
  | .append value escape => .append value escape
  | .block b =>
    .block { b with program := b.program.map (· + k), inverse := b.inverse.map (· + k) }
  | .partialCall p => .partialCall { p with program := p.program.map (· + k) }

@[simp] theorem Instruction.isText_shift (k : Nat) (i : Instruction) :
    (i.shift k).isText = i.isText := by
  cases i <;> rfl

/-- The chunk with its instructions appended once more, the numbers of programs so many further
on. -/
def Chunk.remake (append : List Instruction → Instruction → Bool → List Instruction) (k : Nat)
    (c : Chunk) : Chunk :=
  { c with instructions := refold append (c.instructions.map (Instruction.shift k)) }

namespace Compiler

/-- What is done, with all instructions appended once more, the numbers of programs so many further
on. -/
def Progress.remake (append : List Instruction → Instruction → Bool → List Instruction) (k : Nat)
    (done : Progress) : Progress :=
  ⟨refold append (done.out.map (Instruction.shift k)), done.nested.map (Chunk.remake append k)⟩

@[simp] theorem Progress.length_nested_remake
    (append : List Instruction → Instruction → Bool → List Instruction) (k : Nat)
    (done : Progress) :
    (done.remake append k).nested.length = done.nested.length :=
  List.length_map _

/-- The compiler that puts each instruction at the end and gathers one text, with known helpers from
a given table. -/
def plainWith (compiler : Compiler) (known : KnownHelpers) : Compiler :=
  { options := { compiler.options with knownHelpers := known }
    backend := { compiler.backend with append := appendPlain, buffer := .string } }

/-- The compiler that puts each instruction at the end and gathers one text. -/
def plain (compiler : Compiler) : Compiler := compiler.plainWith compiler.options.knownHelpers

/-- The table has the known helpers of a compiler, in any order. -/
def KnowsAs (compiler : Compiler) (known : KnownHelpers) : Prop :=
  ∀ name, known.get? name = compiler.options.knownHelpers.get? name

variable {compiler : Compiler} {known : KnownHelpers}

/-! ## Operands do not depend on how instructions are appended

Nor on the order of the known helpers. -/

/-- The kind of a form asks the known helpers for one name only. -/
theorem kind_plainWith (same : compiler.KnowsAs known) (frames : Frames) (f : Form) :
    f.kind (compiler.plainWith known).options frames = f.kind compiler.options frames := by
  have hcontains : (compiler.plainWith known).options.knownHelpers.contains f.head =
      compiler.options.knownHelpers.contains f.head := congrArg Option.isSome (same f.head)
  unfold Form.kind
  rw [hcontains]
  rfl

/-- So does a call, for its arity. -/
theorem call_plainWith (same : compiler.KnowsAs known) (frames : Frames) (f : Form)
    (arguments : Compiling (List Operand × Table Operand)) :
    (compiler.plainWith known).call frames f arguments = compiler.call frames f arguments := by
  have hget : (compiler.plainWith known).options.knownHelpers.get? f.head =
      compiler.options.knownHelpers.get? f.head := same f.head
  rw [Compiler.call, Compiler.call, hget]
  rfl

mutual

/-- By recursion over the expression: no step of an operand appends an instruction. -/
theorem operand_plainWith (same : compiler.KnowsAs known) (frames : Frames) :
    ∀ e : Expr (Option Location),
      (compiler.plainWith known).operand frames e = compiler.operand frames e
  | .string _ _ _ | .number _ _ _ | .boolean _ _ _ | .undefined _ | .null _ | .path _ => rfl
  | .call ⟨_, params, hash, _, _⟩ => by
    rw [Compiler.operand, Compiler.operand, operands_plainWith same frames params,
      hashOperands_plainWith same frames hash]
    simp only [kind_plainWith same, call_plainWith same]
    rfl

theorem operands_plainWith (same : compiler.KnowsAs known) (frames : Frames) :
    ∀ es : List (Expr (Option Location)),
      (compiler.plainWith known).operands frames es = compiler.operands frames es
  | [] => rfl
  | e :: es => by
    rw [Compiler.operands, Compiler.operands, operand_plainWith same frames e,
      operands_plainWith same frames es]

theorem hashOperands_plainWith (same : compiler.KnowsAs known) (frames : Frames) :
    ∀ hash : Option (Hash (Option Location)),
      (compiler.plainWith known).hashOperands frames hash = compiler.hashOperands frames hash
  | none => rfl
  | some ⟨pairs, _⟩ => pairOperands_plainWith same frames pairs []

theorem pairOperands_plainWith (same : compiler.KnowsAs known) (frames : Frames) :
    ∀ (pairs : List (Pair (Option Location))) (table : Table Operand),
      (compiler.plainWith known).pairOperands frames table pairs =
        compiler.pairOperands frames table pairs
  | [], table => rfl
  | ⟨key, value, mark⟩ :: rest, table => by
    rw [Compiler.pairOperands, Compiler.pairOperands, operand_plainWith same frames value]
    exact congrArg _ (funext fun o => pairOperands_plainWith same frames rest _)

end

theorem arguments_plainWith (same : compiler.KnowsAs known) (frames : Frames) (f : Form) :
    (compiler.plainWith known).arguments frames f = compiler.arguments frames f := by
  rw [Compiler.arguments, operands_plainWith same, hashOperands_plainWith same]
  rfl

/-- What a tag shows is compiled in ways that do not depend on it, and of its kind. -/
theorem shown_plainWith (same : compiler.KnowsAs known) (frames : Frames)
    (e : Expr (Option Location)) :
    (compiler.plainWith known).shown frames e = compiler.shown frames e := by
  rw [Compiler.shown, Compiler.shown, arguments_plainWith same, kind_plainWith same,
    call_plainWith same]
  rfl

theorem blockKind_plainWith (same : compiler.KnowsAs known) (frames : Frames)
    (e : Expr (Option Location)) :
    (compiler.plainWith known).blockKind frames e = compiler.blockKind frames e := by
  rw [Compiler.blockKind, Compiler.blockKind, arguments_plainWith same, kind_plainWith same,
    call_plainWith same]
  rfl

theorem partialName_plainWith (same : compiler.KnowsAs known) (frames : Frames)
    (e : Expr (Option Location)) :
    (compiler.plainWith known).partialName frames e = compiler.partialName frames e := by
  cases e with
  | call c => rw [Compiler.partialName, operand_plainWith same]; rfl
  | _ => rfl

theorem partialContext_plainWith (same : compiler.KnowsAs known) (frames : Frames)
    (params : List (Expr (Option Location))) :
    (compiler.plainWith known).partialContext frames params =
      compiler.partialContext frames params := by
  cases params with
  | nil => rfl
  | cons param _ => exact operand_plainWith same frames param

/-! ## Statements -/

/-- Appending once more what the plain compiler puts at the end. -/
@[simp] theorem remake_plain_append (k : Nat) (out : List Instruction) (i : Instruction)
    (explicit : Bool) :
    refold compiler.backend.append
        (((compiler.plainWith known).backend.append out i explicit).map (Instruction.shift k)) =
      compiler.backend.append (refold compiler.backend.append (out.map (Instruction.shift k)))
        (i.shift k) (!i.isText) := by
  have hmap : ((compiler.plainWith known).backend.append out i explicit).map (Instruction.shift k) =
      out.map (Instruction.shift k) ++ [i.shift k] := List.map_append ..
  rw [hmap, refold_concat, Instruction.isText_shift]

/-- What a partial appends is its indentation, if that stands aside, and the call. Each is appended
to what was done before. -/
theorem partialInvocation_eq_remake (same : compiler.KnowsAs known) (k : Nat) (frames : Frames)
    (name : Expr (Option Location)) (params : List (Expr (Option Location)))
    (hash : Option (Hash (Option Location))) (indent : String) (program : Option Nat)
    (loc : Option Location) (out : List Instruction) :
    compiler.partialInvocation frames name params hash indent (program.map (· + k)) loc
        (refold compiler.backend.append (out.map (Instruction.shift k))) =
      (fun out => refold compiler.backend.append (out.map (Instruction.shift k))) <$>
        (compiler.plainWith known).partialInvocation frames name params hash indent
          program loc out := by
  have aside :
      (if (compiler.options.preventIndent && !indent.isEmpty) = true then
        compiler.backend.append (refold compiler.backend.append (out.map (Instruction.shift k)))
          (.content indent) false
      else refold compiler.backend.append (out.map (Instruction.shift k))) =
        refold compiler.backend.append
          ((if (compiler.options.preventIndent && !indent.isEmpty) = true then
            (compiler.plainWith known).backend.append out (.content indent) false
          else out).map (Instruction.shift k)) := by
    split
    · rw [remake_plain_append]
      rfl
    · rfl
  rw [Compiler.partialInvocation, Compiler.partialInvocation, partialName_plainWith same,
    partialContext_plainWith same, hashOperands_plainWith same]
  split <;> simp only [map_bind, map_pure, remake_plain_append, aside] <;> rfl

mutual

/-- A program compiles as it does plainly, with the instructions of every chunk appended once more,
and with the numbers of programs as much further on as its own. -/
theorem program_eq_remake (same : compiler.KnowsAs known) (k : Nat) (frames : Frames) (id : Nat) :
    ∀ p : Program (Option Location),
      compiler.program frames (id + k) p =
        List.map (Chunk.remake compiler.backend.append k) <$>
          (compiler.plainWith known).program frames id p
  | ⟨body, blockParams, chained, mark⟩ => by
    -- Where nothing is done yet, there is nothing to append once more.
    have hbody : compiler.statements (blockParams :: frames) (id + 1 + k) body {} = _ :=
      statements_eq_remake same k (blockParams :: frames) (id + 1) body {}
    rw [Compiler.program, Compiler.program, Nat.add_right_comm id k 1]
    split <;> simp only [map_bind, map_pure, bind_map_left, hbody] <;> rfl

/-- The progress is handed on from statement to statement, made once more each time. -/
theorem statements_eq_remake (same : compiler.KnowsAs known) (k : Nat) (frames : Frames)
    (next : Nat) :
    ∀ (body : List (Statement (Option Location))) (done : Progress),
      compiler.statements frames (next + k) body (done.remake compiler.backend.append k) =
        Progress.remake compiler.backend.append k <$>
          (compiler.plainWith known).statements frames next body done
  | [], done => rfl
  | s :: rest, done => by
    rw [Compiler.statements, Compiler.statements,
      statement_eq_remake same k frames next s, map_bind, bind_map_left]
    exact congrArg _ (funext fun done => statements_eq_remake same k frames next rest done)

/-- A text that is empty adds nothing in either way, any other instruction is appended last. -/
theorem statement_eq_remake (same : compiler.KnowsAs known) (k : Nat) (frames : Frames)
    (next : Nat) :
    ∀ (s : Statement (Option Location)) (done : Progress),
      compiler.statement frames (next + k) s (done.remake compiler.backend.append k) =
        Progress.remake compiler.backend.append k <$>
          (compiler.plainWith known).statement frames next s done
  | .content c, done => by
    rw [Compiler.statement, Compiler.statement, map_pure]
    refine congrArg _ ?_
    split
    · rfl
    · simp only [Progress.remake, remake_plain_append]
      rfl
  | .comment _, done => rfl
  | .mustache m, done => by
    rw [Compiler.statement, Compiler.statement, shown_plainWith same, map_bind]
    refine congrArg _ (funext fun value => ?_)
    simp only [map_pure, Progress.remake, remake_plain_append]
    rfl
  | .block b, done => block_eq_remake same k frames next b done
  | .partialCall p, done => by
    have hout := partialInvocation_eq_remake same k frames p.name p.params p.hash p.indent
      none p.mark done.out
    rw [Compiler.statement, Compiler.statement, map_bind]
    simp only [Progress.remake, map_pure]
    rw [Option.map_none] at hout
    rw [hout, bind_map_left]
  | .partialBlock p, done => partialBlock_eq_remake same k frames next p done

/-- The numbers of the sections are further on by what was added to the start, and their chunks are
made once more. -/
theorem block_eq_remake (same : compiler.KnowsAs known) (k : Nat) (frames : Frames) (next : Nat) :
    ∀ (b : Block (Option Location)) (done : Progress),
      compiler.block frames (next + k) b (done.remake compiler.backend.append k) =
        Progress.remake compiler.backend.append k <$>
          (compiler.plainWith known).block frames next b done
  | ⟨expr, body, inverse, openStrip, inverseStrip, closeStrip, close, loc⟩, done => by
    rw [Compiler.block, Compiler.block, blockKind_plainWith same]
    -- Programs are numbered by how many chunks there are, which is the same on both sides.
    simp only [Progress.length_nested_remake, Nat.add_right_comm _ k, map_bind, map_pure,
      programs_eq_remake same k _ _ body, programs_eq_remake same k _ _ inverse, bind_map_left,
      List.length_map]
    simp only [Progress.remake, remake_plain_append, List.map_append, Instruction.shift,
      Option.map_map]
    rfl

/-- The body takes the next number, as in the code that is made once more. -/
theorem partialBlock_eq_remake (same : compiler.KnowsAs known) (k : Nat) (frames : Frames)
    (next : Nat) :
    ∀ (p : PartialBlock (Option Location)) (done : Progress),
      compiler.partialBlock frames (next + k) p (done.remake compiler.backend.append k) =
        Progress.remake compiler.backend.append k <$>
          (compiler.plainWith known).partialBlock frames next p done
  | ⟨name, params, hash, body, openStrip, closeStrip, loc⟩, done => by
    have hout := partialInvocation_eq_remake same k frames name params hash ""
      (some (next + done.nested.length)) loc done.out
    rw [Option.map_some] at hout
    rw [Compiler.partialBlock, Compiler.partialBlock]
    simp only [Progress.length_nested_remake, Nat.add_right_comm _ k, map_bind, map_pure,
      program_eq_remake same k _ _ body, bind_map_left]
    simp only [Progress.remake, hout, bind_map_left, List.map_append]

theorem programs_eq_remake (same : compiler.KnowsAs known) (k : Nat) (frames : Frames) (id : Nat) :
    ∀ p : Option (Program (Option Location)),
      compiler.programs frames (id + k) p =
        List.map (Chunk.remake compiler.backend.append k) <$>
          (compiler.plainWith known).programs frames id p
  | none => rfl
  | some p => program_eq_remake same k frames id p

end

end Compiler

/-! ## Letter by letter -/

/-- An instruction with its text, if it is one, taken apart into letters. -/
def Instruction.strokes : Instruction → List (Char ⊕ Instruction)
  | .content text => text.toList.map .inl
  | .append value escape => [.inr (.append value escape)]
  | .block b => [.inr (.block b)]
  | .partialCall p => [.inr (.partialCall p)]

/-- Instructions with every text taken apart into letters. -/
def strokes (instructions : List Instruction) : List (Char ⊕ Instruction) :=
  instructions.flatMap Instruction.strokes

/-- Letters of instructions in a row are those of each. -/
theorem strokes_append (out more : List Instruction) :
    strokes (out ++ more) = strokes out ++ strokes more :=
  List.flatMap_append

/-- The way to append keeps every letter and every other instruction. -/
def KeepsStrokes (append : List Instruction → Instruction → Bool → List Instruction) : Prop :=
  ∀ out i explicit, strokes (append out i explicit) = strokes out ++ i.strokes

/-- At the end, an instruction adds its own letters. -/
theorem keepsStrokes_plain : KeepsStrokes appendPlain := by
  intro out i explicit
  rw [appendPlain, strokes_append]
  exact congrArg _ (List.append_nil _)

/-- Joined to the text before it, a text adds its letters to those of that text. -/
theorem keepsStrokes_joining : KeepsStrokes appendJoining := by
  intro out i explicit
  unfold appendJoining
  split
  next text before hlast =>
    have hout : out = out.dropLast ++ [.content before] :=
      (List.dropLast_append_getLast? _ hlast).symm
    conv_rhs => rw [hout]
    rw [strokes_append, strokes_append, List.append_assoc]
    refine congrArg _ ?_
    simp [strokes, Instruction.strokes]
  next => exact keepsStrokes_plain out _ true

/-- Appending instructions once more keeps their letters. -/
theorem strokes_refold {append : List Instruction → Instruction → Bool → List Instruction}
    (keeps : KeepsStrokes append) (instructions : List Instruction) :
    strokes (refold append instructions) = strokes instructions := by
  have after : ∀ (rest out : List Instruction),
      strokes (rest.foldl (fun out i => append out i (!i.isText)) out) =
        strokes out ++ strokes rest := by
    intro rest
    induction rest with
    | nil => intro out; exact (List.append_nil _).symm
    | cons i rest ih =>
      intro out
      rw [List.foldl_cons, ih, keeps, List.append_assoc]
      rfl
  exact after instructions []

/-- Two chunks with the same letters and other instructions, in the same order. -/
structure Chunk.Alike (c d : Chunk) : Prop where
  blockParams : c.blockParams = d.blockParams
  strokes : strokes c.instructions = strokes d.instructions

/-- Two specs that differ only in how their texts are cut and their output is gathered. -/
structure Spec.Alike (s t : Spec) : Prop where
  stamp : s.stamp = t.stamp
  main : s.main = t.main
  options : s.options = t.options
  programs : List.Forall₂ Chunk.Alike s.programs t.programs

theorem Chunk.Alike.refl (c : Chunk) : c.Alike c := ⟨rfl, rfl⟩

theorem Spec.Alike.refl (s : Spec) : s.Alike s :=
  ⟨rfl, rfl, rfl, List.forall₂_same.2 fun c _ => .refl c⟩

/-- Alike specs have alike programs under the same numbers. -/
theorem Spec.Alike.program? {s t : Spec} (h : s.Alike t) (id : Nat) :
    Option.Rel Chunk.Alike (s.program? id) (t.program? id) :=
  rel_getElem? h.programs id

/-- The spec as a compiler would have put it together. -/
def Spec.refold (compiler : Compiler) (s : Spec) : Spec :=
  { s with
    programs := s.programs.map (Chunk.remake compiler.backend.append 0)
    options := compiler.options
    buffer := compiler.backend.buffer }

/-- Two backends that keep the letters make code that is alike from the same instructions. -/
theorem Spec.alike_refold {b c : Compiler} (hoptions : b.options = c.options)
    (hb : KeepsStrokes b.backend.append) (hc : KeepsStrokes c.backend.append) (s : Spec) :
    (s.refold b).Alike (s.refold c) := by
  refine ⟨rfl, rfl, hoptions, ?_⟩
  show List.Forall₂ Chunk.Alike (s.programs.map _) (s.programs.map _)
  rw [List.forall₂_map_left_iff, List.forall₂_map_right_iff]
  refine List.forall₂_same.2 fun chunk _ => ⟨rfl, ?_⟩
  exact (strokes_refold hb _).trans (strokes_refold hc _).symm

namespace Compiler

/-- Compiled in its own way, a tree gives the plain code appended once more, or the same error. -/
theorem compile_eq_refold {compiler : Compiler} {known : KnownHelpers}
    (same : compiler.KnowsAs known) (tree : Tree.Located) :
    compiler.compile tree =
      ((compiler.plainWith known).compile tree).map (Spec.refold compiler) := by
  unfold Compiler.compile
  rw [program_eq_remake same 0 [] 0, StateT.run_map]
  cases ((compiler.plainWith known).program [] 0 tree).run Features.none <;> rfl

theorem compile_eq_refold_plain (compiler : Compiler) (tree : Tree.Located) :
    compiler.compile tree = (compiler.plain.compile tree).map (Spec.refold compiler) :=
  compile_eq_refold (fun _ => rfl) tree

/-- Two compilers that differ in how they append and gather, where both ways to append keep what is
appended, agree on every tree: on the error, or on the code but for the cut of its texts. -/
theorem compile_alike {compiler other : Compiler} (same : compiler.plain = other.plain)
    (hc : KeepsStrokes compiler.backend.append) (ho : KeepsStrokes other.backend.append)
    (tree : Tree.Located) :
    (∃ e, compiler.compile tree = .error e ∧ other.compile tree = .error e) ∨
      ∃ s t, compiler.compile tree = .ok s ∧ other.compile tree = .ok t ∧ s.Alike t := by
  have hplain : compiler.plain.options = other.plain.options := congrArg Compiler.options same
  have hoptions : compiler.options = other.options := hplain
  rw [compile_eq_refold_plain compiler, compile_eq_refold_plain other, same]
  cases other.plain.compile tree with
  | error e => exact .inl ⟨e, rfl, rfl⟩
  | ok s => exact .inr ⟨_, _, rfl, rfl, Spec.alike_refold hoptions hc ho s⟩

end Compiler

/-! ## The order of known helpers -/

/-- Two specs that differ at most in the order of the known helpers in their options. -/
structure Spec.Same (s t : Spec) : Prop where
  stamp : s.stamp = t.stamp
  main : s.main = t.main
  programs : s.programs = t.programs
  options : s.options.alike t.options = true
  buffer : s.buffer = t.buffer

theorem Spec.Same.refl (s : Spec) : s.Same s := ⟨rfl, rfl, rfl, s.options.alike_refl, rfl⟩

theorem Spec.Same.trans {s t u : Spec} (hst : s.Same t) (htu : t.Same u) : s.Same u :=
  ⟨hst.stamp.trans htu.stamp, hst.main.trans htu.main, hst.programs.trans htu.programs,
    Options.alike_trans hst.options htu.options, hst.buffer.trans htu.buffer⟩

/-- Under alike options a tree compiles to the same code, or fails with one error. -/
theorem Compiler.compile_same {o p : Options} (alike : o.alike p = true) (tree : Tree.Located) :
    (∃ e, ({ options := o } : Compiler).compile tree = .error e ∧
        ({ options := p } : Compiler).compile tree = .error e) ∨
      ∃ s t, ({ options := o } : Compiler).compile tree = .ok s ∧
        ({ options := p } : Compiler).compile tree = .ok t ∧ s.Same t := by
  obtain ⟨known, rfl, same⟩ := Options.alike_iff.1 alike
  -- Both are put together from what the plain compiler with the second table gives.
  have knows : ({ options := o } : Compiler).KnowsAs known := same
  have first := compile_eq_refold knows tree
  have second := compile_eq_refold_plain { options := { o with knownHelpers := known } } tree
  rw [first, second]
  show (∃ e, _ ∧ Except.map _ ((({ options := o } : Compiler).plainWith known).compile tree) = _) ∨
    ∃ s t, _ ∧ Except.map _ ((({ options := o } : Compiler).plainWith known).compile tree) = _ ∧ _
  cases (({ options := o } : Compiler).plainWith known).compile tree with
  | error e => exact .inl ⟨e, rfl, rfl⟩
  | ok s => exact .inr ⟨_, _, rfl, rfl, rfl, rfl, rfl, alike, rfl⟩

end Stencil.Code
