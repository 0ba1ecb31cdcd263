import Stencil.Code.Compile
import Stencil.Proofs.Tree.Nesting

/-!
# Emission

What compilation emits, read off a compilation that went well. `Compiling.Gives c a` says that `c`
gives `a` from some features on; it is taken apart step by step, so later modules need not know in
which order the compiler does things.

* `Compiler.Compiles n c`: the chunk `c` is what the innermost program of the nesting `n`
  compiles to.
* `Compiler.Emits frames next s i`: the instruction `i` is what the tag `s` compiles to, where
  `next` is the number of the first program in it.

A compiled tree has one chunk for every nesting of the tree, in order (`Compiler.compile_compiles`).
The instructions of a chunk that are no texts are those emitted for the tags of the program, in
order, whatever becomes of the texts between them (`Compiler.Compiles.emits`).
-/

set_option autoImplicit false

namespace Stencil.Code

open Stencil.Text (Location)
open Stencil.Tree (Program Statement Block PartialBlock Nesting Opened)

/-! ## Compilations that go well -/

namespace Compiling

variable {α β : Type}

/-- From some features on, compiling gives a value. -/
def Gives (c : Compiling α) (a : α) : Prop :=
  ∃ before after : Features, c.run before = .ok (a, after)

theorem gives_pure {a b : α} : Gives (pure a) b ↔ a = b := by
  constructor
  · rintro ⟨before, after, h⟩
    cases h
    rfl
  · rintro rfl
    exact ⟨Features.none, Features.none, rfl⟩

theorem not_gives_fail {cause : CompileCause} {loc : Option Location} {a : α} :
    ¬ Gives (Compiling.fail cause loc) a := by
  rintro ⟨before, after, h⟩
  cases h

/-- One step and what follows it. -/
theorem gives_bind {c : Compiling α} {next : α → Compiling β} {b : β} (h : Gives (c >>= next) b) :
    ∃ a, Gives c a ∧ Gives (next a) b := by
  obtain ⟨before, after, h⟩ := h
  rw [StateT.run_bind] at h
  cases hc : c.run before with
  | error e => rw [hc] at h; cases h
  | ok r =>
    rw [hc] at h
    exact ⟨r.1, ⟨before, r.2, hc⟩, ⟨r.2, after, h⟩⟩

theorem gives_map {c : Compiling α} {f : α → β} {b : β} (h : Gives (f <$> c) b) :
    ∃ a, Gives c a ∧ f a = b := by
  rw [map_eq_pure_bind] at h
  obtain ⟨a, ha, hb⟩ := gives_bind h
  exact ⟨a, ha, gives_pure.1 hb⟩

/-- What follows a check, or a step that is taken only under a condition. -/
theorem gives_guard {p : Prop} [Decidable p] {step : Compiling Unit} {next : Unit → Compiling β}
    {b : β} (h : Gives (if p then step >>= next else next ()) b) : Gives (next ()) b := by
  split at h
  · obtain ⟨_, -, h⟩ := gives_bind h
    exact h
  · exact h

end Compiling

open Compiling (Gives gives_pure gives_bind gives_map gives_guard)

/-- Lists whose members correspond have corresponding members at every place. -/
theorem rel_getElem? {α β : Type} {R : α → β → Prop} {as : List α} {bs : List β}
    (h : List.Forall₂ R as bs) (i : Nat) : Option.Rel R as[i]? bs[i]? := by
  rcases Nat.lt_or_ge i as.length with ha | ha
  · have hb : i < bs.length := h.length_eq ▸ ha
    rw [List.getElem?_eq_getElem ha, List.getElem?_eq_getElem hb]
    exact .some (h.get ha hb)
  · have hb : bs.length ≤ i := h.length_eq ▸ ha
    rw [List.getElem?_eq_none ha, List.getElem?_eq_none hb]
    exact .none

/-! ## Texts and tags -/

/-- Whether an instruction appends text of the template. -/
def Instruction.isText : Instruction → Bool
  | .content _ => true
  | .append _ _ | .block _ | .partialCall _ => false

/-- The instructions that are no texts. -/
def Instruction.tags (instructions : List Instruction) : List Instruction :=
  instructions.filter fun i => !i.isText

/-- Whatever a backend does to texts, it keeps every other instruction. -/
def Backend.KeepsTags (b : Backend) : Prop :=
  ∀ out i explicit,
    Instruction.tags (b.append out i explicit) = Instruction.tags out ++ Instruction.tags [i]

theorem Instruction.tags_append (out more : List Instruction) :
    Instruction.tags (out ++ more) = Instruction.tags out ++ Instruction.tags more :=
  List.filter_append out more

/-- Joining neighbouring texts keeps every other instruction. -/
theorem Backend.keepsTags_standard : Backend.standard.KeepsTags := by
  intro out i explicit
  show Instruction.tags (appendJoining out i explicit) = _
  unfold appendJoining
  split
  next text before hlast =>
    -- The text before is the last instruction, so only texts are exchanged.
    have hout : out = out.dropLast ++ [.content before] :=
      (List.dropLast_append_getLast? _ hlast).symm
    conv_rhs => rw [hout]
    rw [Instruction.tags_append, Instruction.tags_append, List.append_assoc]
    rfl
  next => exact Instruction.tags_append out _

namespace Compiler

variable (compiler : Compiler)

/-! ## What is emitted -/

/-- The chunk is what the innermost program of a nesting compiles to. -/
inductive Compiles : Nesting (Option Location) → Chunk → Prop
  | intro {here : Opened (Option Location)} {outer : Nesting (Option Location)} {done : Progress}
    (body : Gives
      (compiler.statements (Nesting.frames (here :: outer)) (here.id + 1) here.program.body {})
        done) :
    Compiles (here :: outer) ⟨done.out, here.program.blockParams.length⟩

/-- The instruction is what a tag compiles to among block parameters of the given names. The
programs of the tag are numbered from `next` on. -/
inductive Emits (frames : Frames) (next : Nat) : Statement (Option Location) → Instruction → Prop
  | mustache {m : Tree.Mustache (Option Location)} {value : Operand}
    (shown : Gives (compiler.shown frames m.expr) value) :
    Emits frames next (.mustache m) (.append value (m.escaped && !compiler.options.noEscape))
  | block {b : Block (Option Location)} {kind : BlockKind}
    (opens : Gives (compiler.blockKind frames b.expr) kind) :
    Emits frames next (.block b)
      (.block
        { kind
          name := (Form.ofExpr b.expr).path.spelling
          program := b.program.map fun _ => next
          inverse := b.inverse.map fun _ => next + Program.countOpt b.program
          loc := b.mark })
  | partialCall {p : Tree.PartialCall (Option Location)} {i : PartialInvocation}
    (name : Gives (compiler.partialName frames p.name) i.name)
    (context : Gives (compiler.partialContext frames p.params) i.context)
    (hash : Gives (compiler.hashOperands frames p.hash) i.hash) (body : i.program = none) :
    Emits frames next (.partialCall p) (.partialCall i)
  | partialBlock {p : PartialBlock (Option Location)} {i : PartialInvocation}
    (name : Gives (compiler.partialName frames p.name) i.name)
    (context : Gives (compiler.partialContext frames p.params) i.context)
    (hash : Gives (compiler.hashOperands frames p.hash) i.hash) (body : i.program = some next) :
    Emits frames next (.partialBlock p) (.partialCall i)

/-! ## Taking compilation apart -/

variable {compiler} {frames : Frames} {next : Nat}

theorem gives_program {id : Nat} {p : Program (Option Location)} {chunks : List Chunk}
    (h : Gives (compiler.program frames id p) chunks) :
    ∃ done, Gives (compiler.statements (p.blockParams :: frames) (id + 1) p.body {}) done ∧
      chunks = ⟨done.out, p.blockParams.length⟩ :: done.nested := by
  obtain ⟨body, blockParams, chained, mark⟩ := p
  rw [Compiler.program] at h
  obtain ⟨done, hdone, h⟩ := gives_bind (gives_guard h)
  exact ⟨done, hdone, (gives_pure.1 h).symm⟩

theorem gives_block {b : Block (Option Location)} {done done' : Progress}
    (h : Gives (compiler.block frames next b done) done') :
    ∃ kind bodyChunks inverseChunks,
      Gives (compiler.blockKind frames b.expr) kind ∧
      Gives (compiler.programs frames (next + done.nested.length) b.program) bodyChunks ∧
      Gives
        (compiler.programs frames (next + done.nested.length + bodyChunks.length) b.inverse)
        inverseChunks ∧
      done' =
        { out := compiler.backend.append done.out
            (.block
              { kind
                name := (Form.ofExpr b.expr).path.spelling
                program := b.program.map fun _ => next + done.nested.length
                inverse := b.inverse.map fun _ =>
                  next + done.nested.length + bodyChunks.length
                loc := b.mark }) true
          nested := done.nested ++ bodyChunks ++ inverseChunks } := by
  obtain ⟨expr, body, inverse, openStrip, inverseStrip, closeStrip, close, loc⟩ := b
  rw [Compiler.block] at h
  obtain ⟨_, -, h⟩ := gives_bind h
  obtain ⟨kind, hkind, h⟩ := gives_bind h
  obtain ⟨bodyChunks, hbody, h⟩ := gives_bind h
  obtain ⟨inverseChunks, hinverse, h⟩ := gives_bind h
  exact ⟨kind, bodyChunks, inverseChunks, hkind, hbody, hinverse, (gives_pure.1 h).symm⟩

/-- A partial leaves one instruction that is no text; its indentation may become a text. -/
theorem gives_partialInvocation (keeps : compiler.backend.KeepsTags)
    {name : Tree.Expr (Option Location)} {params : List (Tree.Expr (Option Location))}
    {hash : Option (Tree.Hash (Option Location))} {indent : String} {program : Option Nat}
    {loc : Option Location} {out out' : List Instruction}
    (h : Gives
      (compiler.partialInvocation frames name params hash indent program loc out) out') :
    ∃ i : PartialInvocation,
      Gives (compiler.partialName frames name) i.name ∧
      Gives (compiler.partialContext frames params) i.context ∧
      Gives (compiler.hashOperands frames hash) i.hash ∧ i.program = program ∧
      Instruction.tags out' = Instruction.tags out ++ [.partialCall i] := by
  rw [Compiler.partialInvocation] at h
  obtain ⟨_, -, h⟩ := gives_bind (gives_guard h)
  obtain ⟨n, hname, h⟩ := gives_bind h
  obtain ⟨context, hcontext, h⟩ := gives_bind h
  obtain ⟨table, hhash, h⟩ := gives_bind h
  obtain rfl := gives_pure.1 h
  refine ⟨_, hname, hcontext, hhash, rfl, (keeps _ _ _).trans (congrArg (· ++ _) ?_)⟩
  split
  · exact (keeps _ _ _).trans (List.append_nil _)
  · rfl

theorem gives_partialBlock (keeps : compiler.backend.KeepsTags)
    {p : PartialBlock (Option Location)} {done done' : Progress}
    (h : Gives (compiler.partialBlock frames next p done) done') :
    ∃ bodyChunks,
      Gives (compiler.program frames (next + done.nested.length) p.program) bodyChunks ∧
      done'.nested = done.nested ++ bodyChunks ∧
      ∃ i : PartialInvocation,
        Gives (compiler.partialName frames p.name) i.name ∧
        Gives (compiler.partialContext frames p.params) i.context ∧
        Gives (compiler.hashOperands frames p.hash) i.hash ∧
        i.program = some (next + done.nested.length) ∧
        Instruction.tags done'.out = Instruction.tags done.out ++ [.partialCall i] := by
  obtain ⟨name, params, hash, body, openStrip, closeStrip, loc⟩ := p
  rw [Compiler.partialBlock] at h
  obtain ⟨bodyChunks, hbody, h⟩ := gives_bind h
  obtain ⟨out, hout, h⟩ := gives_bind h
  obtain rfl := gives_pure.1 h
  exact ⟨bodyChunks, hbody, rfl, gives_partialInvocation keeps hout⟩

/-! ## Nested programs -/

mutual

/-- A program compiles to one chunk for each of the programs in it, in the order of their
numbers. -/
theorem program_compiles (keeps : compiler.backend.KeepsTags) (outer : Nesting (Option Location))
    (id : Nat) :
    ∀ (p : Program (Option Location)) {chunks : List Chunk},
      Gives (compiler.program (Nesting.frames outer) id p) chunks →
        List.Forall₂ compiler.Compiles (p.nestings outer id) chunks
  | ⟨body, blockParams, chained, mark⟩, chunks, h => by
    obtain ⟨done, hdone, rfl⟩ := gives_program h
    obtain ⟨new, hnew, hcompiles⟩ := statements_compile keeps
      (⟨id, ⟨body, blockParams, chained, mark⟩⟩ :: outer) (id + 1) body hdone
    rw [hnew]
    exact .cons (.intro hdone) hcompiles

theorem statements_compile (keeps : compiler.backend.KeepsTags)
    (outer : Nesting (Option Location)) (next : Nat) :
    ∀ (body : List (Statement (Option Location))) {done done' : Progress},
      Gives (compiler.statements (Nesting.frames outer) next body done) done' →
        ∃ new, done'.nested = done.nested ++ new ∧
          List.Forall₂ compiler.Compiles
            (Statement.nestingsAll outer (next + done.nested.length) body) new
  | [], done, done', h => by
    obtain rfl := gives_pure.1 h
    exact ⟨[], (List.append_nil _).symm, .nil⟩
  | s :: rest, done, done', h => by
    obtain ⟨mid, hmid, hdone⟩ := gives_bind h
    obtain ⟨first, hfirst, hcompiles⟩ := statement_compiles keeps outer next s hmid
    obtain ⟨more, hmore, hrest⟩ := statements_compile keeps outer next rest hdone
    -- The chunks of the first statement are as many as its programs, so the rest starts after them.
    have hlength : first.length = s.count := by
      rw [← hcompiles.length_eq, Statement.length_nestings]
    refine ⟨first ++ more, by rw [hmore, hfirst, List.append_assoc], ?_⟩
    rw [hfirst, List.length_append, hlength, ← Nat.add_assoc] at hrest
    exact List.rel_append hcompiles hrest

theorem statement_compiles (keeps : compiler.backend.KeepsTags)
    (outer : Nesting (Option Location)) (next : Nat) :
    ∀ (s : Statement (Option Location)) {done done' : Progress},
      Gives (compiler.statement (Nesting.frames outer) next s done) done' →
        ∃ new, done'.nested = done.nested ++ new ∧
          List.Forall₂ compiler.Compiles (s.nestings outer (next + done.nested.length)) new
  | .content c, done, done', h => by
    obtain rfl := gives_pure.1 h
    refine ⟨[], ?_, .nil⟩
    split
    · exact (List.append_nil _).symm
    · exact (List.append_nil _).symm
  | .comment _, done, done', h => by
    obtain rfl := gives_pure.1 h
    exact ⟨[], (List.append_nil _).symm, .nil⟩
  | .mustache m, done, done', h => by
    obtain ⟨value, -, h⟩ := gives_bind h
    obtain rfl := gives_pure.1 h
    exact ⟨[], (List.append_nil _).symm, .nil⟩
  | .block b, done, done', h => block_compiles keeps outer next b h
  | .partialCall p, done, done', h => by
    obtain ⟨out, -, h⟩ := gives_bind h
    obtain rfl := gives_pure.1 h
    exact ⟨[], (List.append_nil _).symm, .nil⟩
  | .partialBlock p, done, done', h => partialBlock_compiles keeps outer next p h

theorem block_compiles (keeps : compiler.backend.KeepsTags)
    (outer : Nesting (Option Location)) (next : Nat) :
    ∀ (b : Block (Option Location)) {done done' : Progress},
      Gives (compiler.block (Nesting.frames outer) next b done) done' →
        ∃ new, done'.nested = done.nested ++ new ∧
          List.Forall₂ compiler.Compiles (b.nestings outer (next + done.nested.length)) new
  | ⟨expr, body, inverse, openStrip, inverseStrip, closeStrip, close, loc⟩, done, done', h => by
    obtain ⟨kind, bodyChunks, inverseChunks, -, hbody, hinverse, rfl⟩ := gives_block h
    have hfirst := programs_compile keeps outer _ body hbody
    have hlength : bodyChunks.length = Program.countOpt body := by
      rw [← hfirst.length_eq, Program.length_nestingsOpt]
    -- The inverse is numbered after the programs in the body.
    rw [hlength] at hinverse
    have hsecond := programs_compile keeps outer _ inverse hinverse
    exact ⟨bodyChunks ++ inverseChunks, List.append_assoc _ _ _, List.rel_append hfirst hsecond⟩

theorem partialBlock_compiles (keeps : compiler.backend.KeepsTags)
    (outer : Nesting (Option Location)) (next : Nat) :
    ∀ (p : PartialBlock (Option Location)) {done done' : Progress},
      Gives (compiler.partialBlock (Nesting.frames outer) next p done) done' →
        ∃ new, done'.nested = done.nested ++ new ∧
          List.Forall₂ compiler.Compiles (p.nestings outer (next + done.nested.length)) new
  | ⟨name, params, hash, body, openStrip, closeStrip, loc⟩, done, done', h => by
    obtain ⟨bodyChunks, hbody, hnested, -⟩ := gives_partialBlock keeps h
    exact ⟨bodyChunks, hnested, program_compiles keeps outer _ body hbody⟩

theorem programs_compile (keeps : compiler.backend.KeepsTags) (outer : Nesting (Option Location))
    (id : Nat) :
    ∀ (p : Option (Program (Option Location))) {chunks : List Chunk},
      Gives (compiler.programs (Nesting.frames outer) id p) chunks →
        List.Forall₂ compiler.Compiles (Program.nestingsOpt outer id p) chunks
  | none, chunks, h => by
    obtain rfl := gives_pure.1 h
    exact .nil
  | some p, chunks, h => program_compiles keeps outer id p h

end

/-! ## Tags -/

/-- One statement: the instruction of a tag comes last, and nothing but texts otherwise. -/
theorem statement_emits (keeps : compiler.backend.KeepsTags) (outer : Nesting (Option Location))
    {s : Statement (Option Location)} {done done' : Progress}
    (h : Gives (compiler.statement (Nesting.frames outer) next s done) done') :
    ∃ is, Instruction.tags done'.out = Instruction.tags done.out ++ is ∧
      List.Forall₂ (fun t i => compiler.Emits (Nesting.frames outer) t.1 t.2 i)
        (Statement.tagsFrom (next + done.nested.length) [s]) is := by
  cases s with
  | content c =>
    obtain rfl := gives_pure.1 h
    refine ⟨[], ?_, .nil⟩
    split
    · exact (List.append_nil _).symm
    · exact keeps _ _ _
  | comment c =>
    obtain rfl := gives_pure.1 h
    exact ⟨[], (List.append_nil _).symm, .nil⟩
  | mustache m =>
    obtain ⟨value, hshown, h⟩ := gives_bind h
    obtain rfl := gives_pure.1 h
    exact ⟨_, keeps _ _ _, .cons (.mustache hshown) .nil⟩
  | block b =>
    obtain ⟨kind, bodyChunks, inverseChunks, hkind, hbody, -, rfl⟩ := gives_block h
    -- The inverse is numbered from behind the programs of the first section.
    have hlength : bodyChunks.length = Program.countOpt b.program := by
      rw [← (programs_compile keeps outer _ b.program hbody).length_eq,
        Program.length_nestingsOpt]
    rw [hlength]
    exact ⟨_, keeps _ _ _, .cons (.block hkind) .nil⟩
  | partialCall p =>
    obtain ⟨out, hout, h⟩ := gives_bind h
    obtain rfl := gives_pure.1 h
    obtain ⟨i, hname, hcontext, hhash, hprogram, htags⟩ := gives_partialInvocation keeps hout
    exact ⟨_, htags, .cons (.partialCall hname hcontext hhash hprogram) .nil⟩
  | partialBlock p =>
    obtain ⟨-, -, -, i, hname, hcontext, hhash, hprogram, htags⟩ := gives_partialBlock keeps h
    exact ⟨_, htags, .cons (.partialBlock hname hcontext hhash hprogram) .nil⟩

theorem statements_emit (keeps : compiler.backend.KeepsTags) (outer : Nesting (Option Location)) :
    ∀ {body : List (Statement (Option Location))} {done done' : Progress},
      Gives (compiler.statements (Nesting.frames outer) next body done) done' →
        ∃ is, Instruction.tags done'.out = Instruction.tags done.out ++ is ∧
          List.Forall₂ (fun t i => compiler.Emits (Nesting.frames outer) t.1 t.2 i)
            (Statement.tagsFrom (next + done.nested.length) body) is
  | [], done, done', h => by
    obtain rfl := gives_pure.1 h
    exact ⟨[], (List.append_nil _).symm, .nil⟩
  | s :: rest, done, done', h => by
    obtain ⟨mid, hmid, hdone⟩ := gives_bind h
    obtain ⟨first, hfirst, hemits⟩ := statement_emits keeps outer hmid
    obtain ⟨more, hmore, hrest⟩ := statements_emit keeps outer hdone
    obtain ⟨new, hnew, hcompiles⟩ := statement_compiles keeps outer next s hmid
    -- The tags that follow are numbered after the programs in the first statement.
    have hlength : new.length = s.count := by
      rw [← hcompiles.length_eq, Statement.length_nestings]
    rw [hnew, List.length_append, hlength, ← Nat.add_assoc] at hrest
    refine ⟨first ++ more, by rw [hmore, hfirst, List.append_assoc], ?_⟩
    rw [Statement.tagsFrom_cons]
    exact List.rel_append hemits hrest

/-- The instructions of a chunk that are no texts are those of the tags of its program. -/
theorem Compiles.emits (keeps : compiler.backend.KeepsTags) {n : Nesting (Option Location)}
    {c : Chunk} (h : compiler.Compiles n c) :
    List.Forall₂ (fun t i => compiler.Emits (Nesting.frames n) t.1 t.2 i)
      (Nesting.tags n) (Instruction.tags c.instructions) := by
  cases h with
  | intro body =>
    obtain ⟨is, htags, hemits⟩ := statements_emit keeps _ body
    rw [htags]
    exact hemits

/-- An instruction that is no text is that of some tag. -/
theorem Compiles.exists_tag (keeps : compiler.backend.KeepsTags) {n : Nesting (Option Location)}
    {c : Chunk} (h : compiler.Compiles n c) {i : Instruction} (hi : i ∈ c.instructions)
    (htag : i.isText = false) :
    ∃ t ∈ Nesting.tags n, compiler.Emits (Nesting.frames n) t.1 t.2 i := by
  have hmem : i ∈ Instruction.tags c.instructions := List.mem_filter.2 ⟨hi, by rw [htag]; rfl⟩
  have hemits := h.emits keeps
  obtain ⟨k, hk, rfl⟩ := List.mem_iff_getElem.1 hmem
  have hlt : k < (Nesting.tags n).length := hemits.length_eq ▸ hk
  exact ⟨_, List.getElem_mem hlt, hemits.get hlt hk⟩

/-- The programs of a compiled tree are what its main program gives. -/
theorem gives_of_compile {tree : Tree.Located} {spec : Spec}
    (h : compiler.compile tree = .ok spec) :
    Gives (compiler.program [] 0 tree) spec.programs := by
  unfold Compiler.compile at h
  cases hrun : (compiler.program [] 0 tree).run Features.none with
  | error e => rw [hrun] at h; cases h
  | ok r =>
    rw [hrun] at h
    cases h
    exact ⟨Features.none, r.2, hrun⟩

/-- A tree compiles to one chunk for each of its programs, in the order of their numbers. -/
theorem compile_compiles (keeps : compiler.backend.KeepsTags) {tree : Tree.Located} {spec : Spec}
    (h : compiler.compile tree = .ok spec) :
    List.Forall₂ compiler.Compiles (tree.nestings [] 0) spec.programs :=
  program_compiles keeps [] 0 tree (gives_of_compile h)

theorem main_of_compile {tree : Tree.Located} {spec : Spec} (h : compiler.compile tree = .ok spec) :
    spec.main = 0 ∧ spec.options = compiler.options := by
  unfold Compiler.compile at h
  cases hrun : (compiler.program [] 0 tree).run Features.none with
  | error e => rw [hrun] at h; cases h
  | ok r =>
    rw [hrun] at h
    cases h
    exact ⟨rfl, rfl⟩

end Compiler

end Stencil.Code
