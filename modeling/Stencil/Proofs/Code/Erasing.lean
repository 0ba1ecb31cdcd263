import Stencil.Code.Source
import Stencil.Proofs.Code.Erasure
import Stencil.Proofs.Layout.Marking
import Stencil.Proofs.Tree.Marks
import Stencil.Proofs.Tree.Shape

/-!
# Compilation and notes

Compilation copies notes and decides nothing by them. So the code of a text under options by which
fewer notes are taken is the code of the text with these notes erased, and an error is the same up
to them (`Compiler.ofText_erased`). The proof follows compilation step by step (`Compiling.Erases`):
the steps of the one compilation give what the steps of the other give, with notes erased.
-/

set_option autoImplicit false

namespace Stencil.Code

open Stencil.Text (Location)
open Stencil.Tree (Expr Hash Pair Path Program Statement Block PartialBlock)

/-! ## Steps -/

namespace Compiling

variable (n : Erasure) {α β γ δ : Type}

/-- The one step gives what the other gives, changed by a function, and needs the same features; or
they fail with the same error up to notes. -/
def Erases (f : α → β) (c : Compiling α) (c' : Compiling β) : Prop :=
  ∀ features, c'.run features = ((c.run features).map fun r => (f r.1, r.2)).mapError n.compileError

variable {n} {f : α → β} {g : γ → δ}

theorem Erases.pure {a : α} {b : β} (h : f a = b) : Erases n f (pure a) (pure b) := by
  obtain rfl := h
  intro features
  rfl

/-- A failure is at the erased location. -/
theorem Erases.fail {cause : CompileCause} {loc : Option Location} :
    Erases n f (Compiling.fail cause loc) (Compiling.fail cause (n.loc loc)) :=
  fun _ => rfl

theorem Erases.fail_orElse {cause : CompileCause} {loc mark : Option Location} :
    Erases n f (Compiling.fail cause (loc.orElse fun _ => mark))
      (Compiling.fail cause ((n.loc loc).orElse fun _ => n.loc mark)) := by
  rw [n.loc_orElse]
  exact .fail

theorem Erases.require {feature : Features} :
    Erases n id (Compiling.require feature) (Compiling.require feature) :=
  fun _ => rfl

/-- The second step of the erased compilation starts with the erased result of the first. -/
theorem Erases.bind {c : Compiling α} {c' : Compiling β} {next : α → Compiling γ}
    {next' : β → Compiling δ} (h : Erases n f c c')
    (hnext : ∀ a, Erases n g (next a) (next' (f a))) :
    Erases n g (c >>= next) (c' >>= next') := by
  intro features
  rw [StateT.run_bind, StateT.run_bind, h features]
  cases c.run features with
  | error e => rfl
  | ok r => exact hnext r.1 r.2

/-- What is made of an erased result is the erasure of what is made of the result. -/
theorem Erases.map {c : Compiling α} {c' : Compiling β} (h : Erases n f c c') {k : α → γ}
    {k' : β → δ} (hk : ∀ a, k' (f a) = g (k a)) : Erases n g (k <$> c) (k' <$> c') := by
  rw [map_eq_pure_bind, map_eq_pure_bind]
  exact h.bind fun a => .pure (hk a).symm

/-- A check, or a step that is taken only under a condition, and what follows it. -/
theorem Erases.guard {p : Prop} [Decidable p] {step step' : Compiling Unit}
    {next : Unit → Compiling γ} {next' : Unit → Compiling δ} (h : Erases n id step step')
    (hnext : Erases n g (next ()) (next' ())) :
    Erases n g (if p then step >>= next else next ())
      (if p then step' >>= next' else next' ()) := by
  split
  · exact h.bind fun _ => hnext
  · exact hnext

end Compiling

open Compiling (Erases)

/-- The compiler that takes fewer notes. -/
def Erasure.compiler (n : Erasure) (c : Compiler) : Compiler :=
  { c with options := n.options c.options }

/-- The form with notes erased. -/
def Erasure.form (n : Erasure) (f : Form) : Form where
  path := f.path.mapMark n.loc
  params := Expr.mapMarks n.loc f.params
  hash := Hash.mapMarkOpt n.loc f.hash
  parenthesised := f.parenthesised
  loc := n.loc f.loc

namespace Form

variable (n : Erasure)

/-- The form of an expression with erased marks is the erased form. -/
theorem ofExpr_mapMark (e : Expr (Option Location)) :
    ofExpr (e.mapMark n.loc) = n.form (ofExpr e) := by
  cases e with
  | call c => cases c; rfl
  | _ => rfl

theorem isEmpty_mapMarks (es : List (Expr (Option Location))) :
    (Expr.mapMarks n.loc es).isEmpty = es.isEmpty := by
  cases es <;> rfl

/-- What a form is does not depend on notes. -/
theorem kind_erased (options : Options) (frames : Frames) (f : Form) :
    (n.form f).kind (n.options options) frames = f.kind options frames := by
  obtain ⟨path, params, hash, parenthesised, loc⟩ := f
  have hpairs : ((Hash.mapMarkOpt n.loc hash).any fun h => !h.pairs.isEmpty) =
      hash.any fun h => !h.pairs.isEmpty := by
    rcases hash with _ | ⟨_ | ⟨pair, pairs⟩, mark⟩ <;> rfl
  have harguments : (n.form ⟨path, params, hash, parenthesised, loc⟩).hasArguments =
      (⟨path, params, hash, parenthesised, loc⟩ : Form).hasArguments := by
    simp only [hasArguments, Erasure.form, isEmpty_mapMarks, hpairs]
  simp only [kind, harguments]
  rfl

/-- The path that an argument notes is a spelling, which is not erased with the marks. -/
theorem argumentPath?_mapMark (e : Expr (Option Location)) :
    argumentPath? (e.mapMark n.loc) = argumentPath? e := by
  cases e <;> rfl

/-- The paths of arguments do not depend on locations. -/
theorem ids_erased (f : Form) : (n.form f).ids = f.ids := by
  obtain ⟨path, params, hash, parenthesised, loc⟩ := f
  have hparams : ∀ es : List (Expr (Option Location)),
      (Expr.mapMarks n.loc es).map argumentPath? = es.map argumentPath? := by
    intro es
    induction es with
    | nil => rfl
    | cons e es ih => rw [Expr.mapMarks, List.map_cons, argumentPath?_mapMark, ih, List.map_cons]
  have hpairs : ∀ ps : List (Pair (Option Location)),
      ((Pair.mapMarks n.loc ps).map fun p => (p.key, argumentPath? p.value)) =
        ps.map fun p => (p.key, argumentPath? p.value) := by
    intro ps
    induction ps with
    | nil => rfl
    | cons p ps ih =>
      obtain ⟨key, value, mark⟩ := p
      rw [Pair.mapMarks, List.map_cons, ih, List.map_cons, Pair.mapMark, argumentPath?_mapMark]
  rcases hash with _ | ⟨pairs, mark⟩
  · simp only [ids, Erasure.form, hparams, Hash.mapMarkOpt]
  · simp only [ids, Erasure.form, hparams, Hash.mapMarkOpt, Hash.mapMark, hpairs]

end Form

/-- The check of a block finds the same fault, if any. -/
theorem Compiling.checkBlock_erased (n : Erasure) (b : Block (Option Location)) :
    Erases n id (Compiling.checkBlock b) (Compiling.checkBlock (b.mapMark n.loc)) := by
  obtain ⟨expr, program, inverse, openStrip, inverseStrip, closeStrip, close, mark⟩ := b
  have hprogram : (Program.mapMarkOpt n.loc program).isNone = program.isNone := by
    cases program <;> rfl
  have hinverse : (Program.mapMarkOpt n.loc inverse).isNone = inverse.isNone := by
    cases inverse <;> rfl
  -- Without a closing path only the shapes of the sections are checked.
  have hbodies : Erases n id
      (Compiling.checkBlock ⟨expr, program, inverse, openStrip, inverseStrip, closeStrip,
        none, mark⟩)
      (Compiling.checkBlock (Block.mapMark n.loc
        ⟨expr, program, inverse, openStrip, inverseStrip, closeStrip, none, mark⟩)) := by
    unfold Compiling.checkBlock
    simp only [Block.mapMark, Expr.spelling_mapMark, hprogram, hinverse]
    refine .guard .fail ?_
    rcases inverse with _ | ⟨body, blockParams, chained, mark'⟩
    · exact .pure rfl
    · cases chained with
      | false => exact .pure rfl
      | true =>
        rcases body with _ | ⟨s, _ | ⟨t, rest⟩⟩
        · exact .fail_orElse
        · cases s with
          | block b => exact .pure rfl
          | _ => exact .fail_orElse
        · cases s <;> exact .fail_orElse
  -- The closing path is compared by its spelling, which is no note.
  cases close with
  | none => exact hbodies
  | some close =>
    unfold Compiling.checkBlock at hbodies ⊢
    simp only [Block.mapMark, Expr.spelling_mapMark] at hbodies ⊢
    exact .guard .fail_orElse hbodies

namespace Compiler

variable (n : Erasure) (c : Compiler) (frames : Frames)

/-! ### Paths and calls -/

/-- Where a path starts does not depend on notes, and finding out does not fail. -/
theorem start_erased (p : Path (Option Location)) :
    Erases n id (c.start frames p) ((n.compiler c).start frames (p.mapMark n.loc)) := by
  show Erases n id (c.start frames p) (c.start frames p)
  unfold start
  refine .guard .require ?_
  split
  · exact .bind .require fun _ => .pure rfl
  · split
    · exact .bind .require fun _ => .pure rfl
    · split
      · split
        · exact .bind .require fun _ => .pure rfl
        · exact .pure rfl
      · exact .pure rfl

/-- Of a lookup only the location is erased. -/
theorem lookup_erased (p : Path (Option Location)) (terminal : Bool) :
    Erases n n.lookup (c.lookup frames p terminal)
      ((n.compiler c).lookup frames (p.mapMark n.loc) terminal) := by
  unfold lookup
  refine .guard .fail ?_
  exact .bind (start_erased n c frames p) fun _ => .pure rfl

/-- Of a call the location is erased and what it notes of the paths of its arguments, as far as the
erasure goes. -/
theorem call_erased (f : Form) {arguments arguments' : Compiling (List Operand × Table Operand)}
    (harguments : Erases n (fun r => (n.operands r.1, n.named r.2)) arguments arguments') :
    Erases n n.call (c.call frames f arguments)
      ((n.compiler c).call frames (n.form f) arguments') := by
  have hids : ∀ taken : Bool, (if taken && !n.ids then some (n.form f).ids else none) =
      n.callIds (if taken then some f.ids else none) := by
    intro taken
    rw [Form.ids_erased]
    unfold Erasure.callIds
    cases taken <;> cases n.ids <;> rfl
  have hlength : (n.form f).params.length = f.params.length := Expr.length_mapMarks n.loc f.params
  have hsimple : (n.form f).path.isSimple = f.path.isSimple := rfl
  have hhead : (n.form f).head = f.head := rfl
  have hhelpers : (n.compiler c).options.knownHelpers = c.options.knownHelpers := rfl
  -- Whatever is called, the arguments are compiled next and the call is put together from them.
  have harguments' : ∀ (helper : Option Accessor) (value : Option Lookup), Erases n n.call
      (do
        let r ← arguments
        pure ⟨f.path.spelling, helper, value, r.1, r.2,
          if c.options.trackIds then some f.ids else none, f.loc⟩)
      (do
        let r ← arguments'
        pure ⟨f.path.spelling, helper, value.map n.lookup, r.1, r.2,
          if c.options.trackIds && !n.ids then some (n.form f).ids else none, n.loc f.loc⟩) := by
    intro helper value
    refine .bind harguments fun r => .pure ?_
    rw [hids]
    rfl
  unfold call
  simp only [hlength, hsimple, hhead, hhelpers]
  generalize (if f.path.isSimple then c.options.knownHelpers.get? f.head else none) = known
  -- A known helper leaves out the lookup of a value, and may refuse the number of its parameters.
  cases known with
  | none =>
    have hvalue : Erases n (Option.map n.lookup) (some <$> c.lookup frames f.path false)
        (some <$> (n.compiler c).lookup frames (n.form f).path false) :=
      .map (lookup_erased n c frames f.path false) fun _ => rfl
    exact .guard .fail (.bind hvalue fun _ => harguments' _ _)
  | some arity =>
    cases arity with
    | any => exact .bind (f := Option.map n.lookup) (.pure rfl) fun _ => harguments' _ _
    | exactly expected =>
      exact .guard .fail (.bind (f := Option.map n.lookup) (.pure rfl) fun _ => harguments' _ _)

theorem ambiguousCall_erased (f : Form) :
    Erases n n.call (c.ambiguousCall frames f)
      ((n.compiler c).ambiguousCall frames (n.form f)) := by
  refine .bind (lookup_erased n c frames f.path c.options.strict) fun value => .pure ?_
  rw [Erasure.call, n.callIds_none]
  rfl

/-! ### Expressions -/

mutual

/-- By recursion over the expression, as it is compiled. -/
theorem operand_erased : ∀ e : Expr (Option Location),
    Erases n n.operand (c.operand frames e) ((n.compiler c).operand frames (e.mapMark n.loc))
  | .string _ _ _ | .number _ _ _ | .boolean _ _ _ | .undefined _ | .null _ => .pure rfl
  | .path p => .map (lookup_erased n c frames p false) fun _ => rfl
  | .call ⟨path, params, hash, parenthesised, mark⟩ => by
    have hkind : (Form.ofCall ⟨path.mapMark n.loc, Expr.mapMarks n.loc params,
          Hash.mapMarkOpt n.loc hash, parenthesised,
          n.loc mark⟩).kind (n.compiler c).options frames =
        (Form.ofCall ⟨path, params, hash, parenthesised, mark⟩).kind c.options frames :=
      Form.kind_erased n c.options frames (Form.ofCall ⟨path, params, hash, parenthesised, mark⟩)
    have harguments : Erases n (fun r => (n.operands r.1, n.named r.2))
        (do
          let params ← c.operands frames params
          let hash ← c.hashOperands frames hash
          pure (params, hash))
        (do
          let params ← (n.compiler c).operands frames (Expr.mapMarks n.loc params)
          let hash ← (n.compiler c).hashOperands frames (Hash.mapMarkOpt n.loc hash)
          pure (params, hash)) := by
      refine .bind (operands_erased params) fun params => ?_
      exact .bind (hashOperands_erased hash) fun hash => .pure rfl
    rw [Expr.mapMark, Tree.Call.mapMark, operand, operand, hkind]
    split
    · exact .map (call_erased n c frames _ harguments) fun _ => rfl
    · exact .map (ambiguousCall_erased n c frames _) fun _ => rfl
    · exact .map (lookup_erased n c frames path false) fun _ => rfl

theorem operands_erased : ∀ es : List (Expr (Option Location)),
    Erases n n.operands (c.operands frames es)
      ((n.compiler c).operands frames (Expr.mapMarks n.loc es))
  | [] => .pure rfl
  | e :: es => by
    refine .bind (operand_erased e) fun o => ?_
    exact .bind (operands_erased es) fun os => .pure rfl

/-- Named operands are erased under their names. -/
theorem hashOperands_erased : ∀ hash : Option (Hash (Option Location)),
    Erases n n.named (c.hashOperands frames hash)
      ((n.compiler c).hashOperands frames (Hash.mapMarkOpt n.loc hash))
  | none => .pure rfl
  | some ⟨pairs, _⟩ => pairOperands_erased pairs []

/-- Named arguments are entered into the table with notes erased. -/
theorem pairOperands_erased : ∀ (pairs : List (Pair (Option Location))) (table : Table Operand),
    Erases n n.named (c.pairOperands frames table pairs)
      ((n.compiler c).pairOperands frames (n.named table) (Pair.mapMarks n.loc pairs))
  | [], _ => .pure rfl
  | ⟨key, value, _⟩ :: rest, table => by
    refine .bind (operand_erased value) fun o => ?_
    rw [← n.named_insert]
    exact pairOperands_erased rest (table.insert key o)

end

theorem arguments_erased (f : Form) :
    Erases n (fun r => (n.operands r.1, n.named r.2)) (c.arguments frames f)
      ((n.compiler c).arguments frames (n.form f)) := by
  refine .bind (operands_erased n c frames f.params) fun params => ?_
  exact .bind (hashOperands_erased n c frames f.hash) fun hash => .pure rfl

/-! ### Tags -/

/-- The kind of a form does not depend on what is erased, so both sides take the same way. -/
theorem shown_erased (e : Expr (Option Location)) :
    Erases n n.operand (c.shown frames e) ((n.compiler c).shown frames (e.mapMark n.loc)) := by
  unfold shown
  rw [Form.ofExpr_mapMark]
  have hkind : (n.form (Form.ofExpr e)).kind (n.compiler c).options frames =
      (Form.ofExpr e).kind c.options frames :=
    Form.kind_erased n c.options frames (Form.ofExpr e)
  dsimp only
  rw [hkind]
  split
  · exact .map (call_erased n c frames _ (arguments_erased n c frames _)) fun _ => rfl
  · exact .map (ambiguousCall_erased n c frames _) fun _ => rfl
  · exact .map (lookup_erased n c frames _ _) fun _ => rfl

/-- The same for what opens a block. -/
theorem blockKind_erased (e : Expr (Option Location)) :
    Erases n n.blockKind (c.blockKind frames e)
      ((n.compiler c).blockKind frames (e.mapMark n.loc)) := by
  unfold blockKind
  rw [Form.ofExpr_mapMark]
  have hkind : (n.form (Form.ofExpr e)).kind (n.compiler c).options frames =
      (Form.ofExpr e).kind c.options frames :=
    Form.kind_erased n c.options frames (Form.ofExpr e)
  dsimp only
  rw [hkind]
  split
  · exact .map (call_erased n c frames _ (arguments_erased n c frames _)) fun _ => rfl
  · exact .map (ambiguousCall_erased n c frames _) fun _ => rfl
  · exact .map (lookup_erased n c frames _ _) fun _ => rfl

theorem partialName_erased (e : Expr (Option Location)) :
    Erases n n.partialName (c.partialName frames e)
      ((n.compiler c).partialName frames (e.mapMark n.loc)) := by
  cases e with
  | call call => exact .map (operand_erased n c frames (.call call)) fun _ => rfl
  | _ => exact .pure rfl

theorem partialContext_erased (params : List (Expr (Option Location))) :
    Erases n n.operand (c.partialContext frames params)
      ((n.compiler c).partialContext frames (Expr.mapMarks n.loc params)) := by
  have hthis : n.lookup { accessor := .context 0, spelling := "this" } =
      { accessor := .context 0, spelling := "this" } := n.lookup_of_loc rfl
  cases params with
  | cons param rest => exact operand_erased n c frames param
  | nil =>
    show Erases n n.operand (if c.options.explicitPartialContext then _ else _)
      (if c.options.explicitPartialContext then _ else _)
    split
    · exact .pure rfl
    · exact .pure (congrArg Operand.lookup hthis)

/-- Whether the indentation stands aside is decided by an option and the text itself, neither of
which is erased. -/
theorem partialInvocation_erased (happend : c.backend.ReadsNoNotes n)
    (name : Expr (Option Location)) (params : List (Expr (Option Location)))
    (hash : Option (Hash (Option Location))) (indent : String) (program : Option Nat)
    (loc : Option Location) (out : List Instruction) :
    Erases n (List.map n.instruction)
      (c.partialInvocation frames name params hash indent program loc out)
      ((n.compiler c).partialInvocation frames (name.mapMark n.loc) (Expr.mapMarks n.loc params)
        (Hash.mapMarkOpt n.loc hash) indent program (n.loc loc) (out.map n.instruction)) := by
  unfold partialInvocation
  rw [Expr.length_mapMarks]
  refine .guard .fail (.bind .require fun _ => ?_)
  refine .bind (partialName_erased n c frames name) fun name => ?_
  refine .bind (partialContext_erased n c frames params) fun context => ?_
  refine .bind (hashOperands_erased n c frames hash) fun hash => .pure ?_
  -- The indentation that is written once is a text, which bears no notes.
  have hout : ∀ aside : Bool,
      (if aside then c.backend.append (out.map n.instruction) (.content indent) false
        else out.map n.instruction) =
        (if aside then c.backend.append out (.content indent) false else out).map
          n.instruction := by
    intro aside
    cases aside with
    | false => rfl
    | true => exact happend out (.content indent) false
  rw [← happend]
  exact (congrArg (c.backend.append · _ true)
    (hout (c.options.preventIndent && !indent.isEmpty))).symm

/-! ### Programs -/

end Compiler

/-- Progress with notes erased. -/
def Erasure.progress (n : Erasure) (done : Compiler.Progress) : Compiler.Progress where
  out := done.out.map n.instruction
  nested := done.nested.map n.chunk

namespace Compiler

variable (n : Erasure) (c : Compiler)

theorem map_mapMarkOpt {ℓ μ α : Type} (f : ℓ → μ) (p : Option (Program ℓ)) (a : α) :
    (Program.mapMarkOpt f p).map (fun _ => a) = p.map fun _ => a := by
  cases p <;> rfl

mutual

/-- By recursion over the tree: the chunks of an erased tree are the erased chunks. -/
theorem program_erased (happend : c.backend.ReadsNoNotes n) (frames : Frames) (id : Nat) :
    ∀ p : Program (Option Location),
      Erases n (List.map n.chunk) (c.program frames id p)
        ((n.compiler c).program frames id (p.mapMark n.loc))
  | ⟨body, blockParams, chained, mark⟩ => by
    rw [Program.mapMark, program, program]
    refine .guard .require ?_
    exact .bind (statements_erased happend (blockParams :: frames) (id + 1) body {}) fun done =>
      .pure rfl

/-- The progress that is handed on is the erased one. -/
theorem statements_erased (happend : c.backend.ReadsNoNotes n) (frames : Frames) (next : Nat) :
    ∀ (body : List (Statement (Option Location))) (done : Progress),
      Erases n n.progress (c.statements frames next body done)
        ((n.compiler c).statements frames next (Statement.mapMarks n.loc body) (n.progress done))
  | [], _ => .pure rfl
  | s :: rest, done =>
    .bind (statement_erased happend frames next s done) fun done =>
      statements_erased happend frames next rest done

/-- Whether a text is empty does not depend on its marks. -/
theorem statement_erased (happend : c.backend.ReadsNoNotes n) (frames : Frames) (next : Nat) :
    ∀ (s : Statement (Option Location)) (done : Progress),
      Erases n n.progress (c.statement frames next s done)
        ((n.compiler c).statement frames next (s.mapMark n.loc) (n.progress done))
  | .content content, done => by
    refine .pure ?_
    show n.progress (if content.value.isEmpty then done else _) =
      if content.value.isEmpty then _ else _
    rw [apply_ite n.progress]
    exact congrArg (ite _ _) (congrArg (Progress.mk · _) (happend done.out _ false).symm)
  | .comment _, _ => .pure rfl
  | .mustache m, done => by
    refine .bind (shown_erased n c frames m.expr) fun value => .pure ?_
    exact congrArg (Progress.mk · _) (happend done.out _ true).symm
  | .block b, done => block_erased happend frames next b done
  | .partialCall p, done =>
    .bind (partialInvocation_erased n c frames happend p.name p.params p.hash p.indent none
      p.mark done.out)
      fun out => .pure rfl
  | .partialBlock p, done => partialBlock_erased happend frames next p done

/-- The checks of a block fail alike, at erased locations. -/
theorem block_erased (happend : c.backend.ReadsNoNotes n) (frames : Frames) (next : Nat) :
    ∀ (b : Block (Option Location)) (done : Progress),
      Erases n n.progress (c.block frames next b done)
        ((n.compiler c).block frames next (b.mapMark n.loc) (n.progress done))
  | ⟨expr, body, inverse, openStrip, inverseStrip, closeStrip, close, loc⟩, done => by
    have hcheck := Compiling.checkBlock_erased n
      ⟨expr, body, inverse, openStrip, inverseStrip, closeStrip, close, loc⟩
    have hlength : (n.progress done).nested.length = done.nested.length := List.length_map _
    rw [Block.mapMark] at hcheck ⊢
    rw [block, block]
    refine .bind hcheck fun _ => ?_
    refine .bind (blockKind_erased n c frames expr) fun kind => ?_
    dsimp only
    rw [hlength]
    refine .bind (programs_erased happend frames _ body) fun bodyChunks => ?_
    rw [List.length_map]
    refine .bind (programs_erased happend frames _ inverse) fun inverseChunks => .pure ?_
    rw [map_mapMarkOpt, map_mapMarkOpt, Form.ofExpr_mapMark, Erasure.progress, List.map_append,
      List.map_append]
    exact congrArg (Progress.mk · _) (happend done.out _ true).symm

theorem partialBlock_erased (happend : c.backend.ReadsNoNotes n) (frames : Frames) (next : Nat) :
    ∀ (p : PartialBlock (Option Location)) (done : Progress),
      Erases n n.progress (c.partialBlock frames next p done)
        ((n.compiler c).partialBlock frames next (p.mapMark n.loc) (n.progress done))
  | ⟨name, params, hash, body, _, _, loc⟩, done => by
    have hlength : (n.progress done).nested.length = done.nested.length := List.length_map _
    rw [PartialBlock.mapMark, partialBlock, partialBlock, hlength]
    refine .bind (program_erased happend frames _ body) fun bodyChunks => ?_
    refine .bind (partialInvocation_erased n c frames happend name params hash "" _ loc done.out)
      fun out => .pure ?_
    rw [Erasure.progress, List.map_append]
    rfl

theorem programs_erased (happend : c.backend.ReadsNoNotes n) (frames : Frames) (id : Nat) :
    ∀ p : Option (Program (Option Location)),
      Erases n (List.map n.chunk) (c.programs frames id p)
        ((n.compiler c).programs frames id (Program.mapMarkOpt n.loc p))
  | none => .pure rfl
  | some p => program_erased happend frames id p

end

/-! ### Trees and texts -/

/-- The code of a tree where fewer notes are taken and fewer places are known is the code of the
tree with the notes erased; and one fails where the other does, with the same error up to notes. -/
theorem compile_erased (happend : c.backend.ReadsNoNotes n) (tree : Tree.Located) :
    (n.compiler c).compile (tree.mapMark n.loc) =
      ((c.compile tree).map n.spec).mapError n.compileError := by
  unfold compile
  have hprogram := program_erased n c happend [] 0 tree Features.none
  rw [hprogram]
  cases (c.program [] 0 tree).run Features.none with
  | error e => rfl
  | ok r => rfl

/-- A tree with erased marks gives the erased code, or fails with the erased error. -/
theorem ofTree_erased (happend : c.backend.ReadsNoNotes n) (tree : Tree.Located) :
    (n.compiler c).ofTree (tree.mapMark n.loc) = ((c.ofTree tree).map n.spec).mapError n.error := by
  unfold ofTree
  rw [compile_erased n c happend]
  cases c.compile tree with
  | error e => rfl
  | ok s => rfl

end Compiler

/-- The options say whether the nodes of a tree know their places, and nothing else of how a text is
read. -/
theorem read_erased (n : Erasure) (o : Options) (name : Option String) (text : String) :
    Template.read ((n.options o).readOptions name) text =
      (Template.read (o.readOptions name) text).map (Program.mapMark n.loc) := by
  unfold Template.read Template.readAsWritten
  cases Syntax.read? text.toList with
  | error e => rfl
  | ok tree =>
    have hmark : ∀ span : Text.Span,
        (if o.trackLocations && !n.locs then
            some ((Text.LineIndex.ofChars text.toList).locate name span) else none) =
          n.loc (if o.trackLocations then
            some ((Text.LineIndex.ofChars text.toList).locate name span) else none) := by
      intro span
      unfold Erasure.loc
      cases o.trackLocations <;> cases n.locs <;> rfl
    have hmarks : (tree.mapMark fun span =>
        if o.trackLocations && !n.locs then
          some ((Text.LineIndex.ofChars text.toList).locate name span) else none) =
        (tree.mapMark fun span =>
          if o.trackLocations then some ((Text.LineIndex.ofChars text.toList).locate name span)
          else none).mapMark n.loc := by
      rw [Program.mapMark_mapMark]
      exact congrArg (Program.mapMark · tree) (funext hmark)
    show Except.ok (Program.layout o.ignoreStandalone true (tree.mapMark fun span => _)) =
      Except.ok (Program.mapMark n.loc
        (Program.layout o.ignoreStandalone true (tree.mapMark fun span => _)))
    rw [← Program.layout_mapMark]
    exact congrArg (fun tree => Except.ok (Program.layout o.ignoreStandalone true tree)) hmarks

/-- The code of a text under options by which fewer notes are taken is the code of the text with the
notes erased; and one fails where the other does, with the same error up to notes. -/
theorem Compiler.ofText_erased (n : Erasure) (c : Compiler) (happend : c.backend.ReadsNoNotes n)
    (name : Option String) (text : String) :
    (n.compiler c).ofText name text = ((c.ofText name text).map n.spec).mapError n.error := by
  unfold ofText
  have hread : Template.read ((n.compiler c).options.readOptions name) text =
      (Template.read (c.options.readOptions name) text).map (Program.mapMark n.loc) :=
    read_erased n c.options name text
  rw [hread]
  cases Template.read (c.options.readOptions name) text with
  | error e => rfl
  | ok tree => exact ofTree_erased n c happend tree

end Stencil.Code
