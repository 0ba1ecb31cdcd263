import Stencil.Proofs.Code.Operands
import Stencil.Proofs.Text.Escaping
import Stencil.Proofs.Tree.Every

/-!
# Harmless code

Code that shows values escaped and nothing else but clean text. A harmless statement has no text
with a character in need of an entity, shows its value escaped, and is no block of the helper
`lookup`, whose result would be shown as it is (`Tree.Statement.Harmless`). Harmless statements
compile to harmless instructions (`Compiler.Compiles.harmless`): in addition these look for helpers
under the name of a call only, so that no helper becomes a value.
-/

set_option autoImplicit false

/-! ## Harmless statements -/

namespace Stencil.Tree

variable {ℓ : Type}

/-- The expression is the given bare name, or a call under it. -/
def Expr.Names (name : String) : Expr ℓ → Prop
  | .path p => p.isSimple = true ∧ p.parts = [name]
  | .call c => c.path.isSimple = true ∧ c.path.parts = [name]
  | .string _ _ _ | .number _ _ _ | .boolean _ _ _ | .undefined _ | .null _ => False

instance (name : String) : (e : Expr ℓ) → Decidable (e.Names name)
  | .path p => inferInstanceAs (Decidable (p.isSimple = true ∧ p.parts = [name]))
  | .call c => inferInstanceAs (Decidable (c.path.isSimple = true ∧ c.path.parts = [name]))
  | .string _ _ _ | .number _ _ _ | .boolean _ _ _ | .undefined _ | .null _ => .isFalse id

/-- A text is clean, a value is shown escaped, and a block is none of the helper `lookup`. -/
def Statement.Harmless : Statement ℓ → Prop
  | .content c => Text.Clean c.value.toList
  | .mustache m => m.escaped = true
  | .block b => ¬ b.expr.Names "lookup"
  | .partialCall _ | .partialBlock _ | .comment _ => True

instance : (s : Statement ℓ) → Decidable s.Harmless
  | .content c => inferInstanceAs (Decidable (Text.Clean c.value.toList))
  | .mustache m => inferInstanceAs (Decidable (m.escaped = true))
  | .block b => inferInstanceAs (Decidable (¬ b.expr.Names "lookup"))
  | .partialCall _ | .partialBlock _ | .comment _ => .isTrue trivial

/-- The indentation of the statement, if it is a partial, is clean. -/
def Statement.IndentsClean : Statement ℓ → Prop
  | .partialCall p => Text.Clean p.indent.toList
  | .mustache _ | .block _ | .partialBlock _ | .content _ | .comment _ => True

end Stencil.Tree

namespace Stencil.Code

open Stencil.Text (Location Clean)
open Stencil.Tree (Expr Hash Path Statement Nesting)
open Compiling (Gives gives_pure gives_bind gives_guard)

/-! ## Harmless instructions -/

/-- No helper becomes a value: helpers are looked for under the name of a call only. -/
def Operand.KeepsApart (o : Operand) : Prop := o.Every Lookup.Apart Call.Apart

/-- Among named arguments no helper becomes a value. -/
def Operand.NamedKeepApart (hash : List (String × Operand)) : Prop :=
  Operand.NamedEvery Lookup.Apart Call.Apart hash

/-- Among what opens the block no helper becomes a value, and the block does not show the result of
the helper `lookup`, which without parameters gives nothing. -/
def BlockKind.Harmless (kind : BlockKind) : Prop :=
  kind.Every Lookup.Apart Call.Apart ∧
    ∀ c, kind = .helper c → c.helper = some (.member .helpers "lookup" .helper) → c.params = []

/-- A text and an indentation are clean, a value is shown escaped, and a block does not show the
result of the helper `lookup`. -/
def Instruction.Harmless : Instruction → Prop
  | .content text => Clean text.toList
  | .append o escape => escape = true ∧ o.KeepsApart
  | .block b => b.kind.Harmless
  | .partialCall p =>
    p.context.KeepsApart ∧ Operand.NamedKeepApart p.hash ∧ Clean p.indent.toList

/-- Every one of the instructions is harmless. -/
def AllHarmless (instructions : List Instruction) : Prop := ∀ i ∈ instructions, i.Harmless

theorem allHarmless_nil : AllHarmless [] := fun _ h => absurd h List.not_mem_nil

theorem AllHarmless.concat {out : List Instruction} (h : AllHarmless out) {next : Instruction}
    (hnext : next.Harmless) : AllHarmless (out ++ [next]) := by
  intro i hi
  rcases List.mem_append.1 hi with hi | hi
  · exact h i hi
  · obtain rfl := List.mem_singleton.1 hi
    exact hnext

theorem AllHarmless.append {out : List Instruction} (h : AllHarmless out) {next : Instruction}
    {explicit : Bool} (hnext : next.Harmless) :
    AllHarmless (Backend.standard.append out next explicit) := by
  show AllHarmless (appendJoining out next explicit)
  unfold appendJoining
  split
  next text before hlast =>
    -- The text that is joined is made of two that are clean.
    have hbefore : Clean before.toList := h _ (List.mem_of_getLast? hlast)
    refine AllHarmless.concat (fun i hi => h i ((List.dropLast_sublist out).subset hi)) ?_
    show Clean (before ++ text).toList
    rw [String.toList_append]
    exact hbefore.append hnext
  next => exact h.concat hnext

namespace Compiler

variable {options : Options} {frames : Frames}

/-! ## Operands -/

theorem partialContext_keepsApart {params : List (Expr (Option Location))} {o : Operand}
    (h : Gives (({ options } : Compiler).partialContext frames params) o) : o.KeepsApart := by
  unfold Compiler.partialContext at h
  split at h
  · exact makes_apart.operand _ h
  · split at h
    · obtain rfl := gives_pure.1 h
      trivial
    · obtain rfl := gives_pure.1 h
      exact nofun

/-! ## Blocks -/

/-- A bare name has one part. -/
theorem parts_of_isSimple {p : Path (Option Location)} (h : p.isSimple = true) {name : String}
    (hhead : p.head?.getD "" = name) : p.parts = [name] := by
  unfold Path.isSimple at h
  simp only [Bool.and_eq_true, beq_iff_eq] at h
  obtain ⟨part, hpart⟩ := List.length_eq_one_iff.1 h.1.1.1
  rw [Path.head?, hpart] at hhead
  rw [hpart, ← hhead]
  rfl

/-- An expression whose form is under a bare name is that name or a call under it, or a literal,
which has no arguments. -/
theorem names_of_parts {e : Expr (Option Location)} (hsimple : (Form.ofExpr e).path.isSimple = true)
    {name : String} (h : (Form.ofExpr e).path.parts = [name]) :
    e.Names name ∨ (Form.ofExpr e).params = [] := by
  cases e with
  | call c => exact .inl ⟨hsimple, h⟩
  | path p => exact .inl ⟨hsimple, h⟩
  | _ => exact .inr rfl

theorem blockKind_harmless {e : Expr (Option Location)} (hname : ¬ e.Names "lookup")
    {kind : BlockKind} (h : Gives (({ options } : Compiler).blockKind frames e) kind) :
    kind.Harmless := by
  refine ⟨makes_apart.blockKind h, fun c hkind hlookup => ?_⟩
  rcases gives_blockKind h with ⟨-, c, rfl, hc⟩ | ⟨-, c, rfl, hc⟩ | ⟨-, l, rfl, hl⟩
  · cases hkind
    obtain ⟨harguments, -, -, -, -, hhelper, -⟩ := gives_call hc
    rw [hlookup] at hhelper
    split at hhelper
    next hsimple =>
      -- The name is that of the helper `lookup`, so the block's expression is a literal.
      have hhead : (Form.ofExpr e).head = "lookup" := by
        injection hhelper with hhelper
        injection hhelper with _ hhelper
        exact hhelper.symm
      rcases names_of_parts hsimple (parts_of_isSimple hsimple hhead) with hnames | hparams
      · exact absurd hnames hname
      · unfold Compiler.arguments at harguments
        rw [hparams] at harguments
        obtain ⟨params, hnone, h⟩ := gives_bind harguments
        obtain ⟨hash, -, h⟩ := gives_bind h
        obtain rfl := gives_pure.1 hnone
        exact (congrArg Prod.fst (gives_pure.1 h)).symm
    next => cases hhelper
  · cases hkind
  · cases hkind

/-! ## Statements -/

theorem partialInvocation_harmless {name : Expr (Option Location)}
    {params : List (Expr (Option Location))} {hash : Option (Hash (Option Location))}
    {indent : String} (hindent : Clean indent.toList) {program : Option Nat} {loc : Option Location}
    {out out' : List Instruction} (hout : AllHarmless out)
    (h : Gives
      (({ options } : Compiler).partialInvocation frames name params hash indent program loc out)
      out') :
    AllHarmless out' := by
  rw [Compiler.partialInvocation] at h
  obtain ⟨_, -, h⟩ := gives_bind (gives_guard h)
  obtain ⟨n, -, h⟩ := gives_bind h
  obtain ⟨context, hcontext, h⟩ := gives_bind h
  obtain ⟨table, hhash, h⟩ := gives_bind h
  obtain rfl := gives_pure.1 h
  refine AllHarmless.append ?_
    ⟨partialContext_keepsApart hcontext, makes_apart.hashOperands _ hhash, ?_⟩
  · -- Where lines are not to be indented, the indentation is a text before the partial.
    split
    · exact hout.append hindent
    · exact hout
  · split
    · exact Text.clean_nil
    · exact hindent

theorem statement_harmless {next : Nat} {s : Statement (Option Location)}
    (escapes : options.noEscape = false) (hs : s.Harmless) (hindent : s.IndentsClean)
    {done done' : Progress}
    (h : Gives (({ options } : Compiler).statement frames next s done) done')
    (hdone : AllHarmless done.out) : AllHarmless done'.out := by
  cases s with
  | content c =>
    obtain rfl := gives_pure.1 h
    split
    · exact hdone
    · exact hdone.append hs
  | comment c =>
    obtain rfl := gives_pure.1 h
    exact hdone
  | mustache m =>
    obtain ⟨value, hshown, h⟩ := gives_bind h
    obtain rfl := gives_pure.1 h
    -- A value is shown escaped, by its tag and by the options.
    have hescaped : m.escaped = true := hs
    dsimp only
    refine hdone.append ⟨?_, makes_apart.shown hshown⟩
    rw [hescaped, escapes]
    rfl
  | block b =>
    obtain ⟨kind, bodyChunks, inverseChunks, hkind, -, -, rfl⟩ := gives_block h
    dsimp only
    exact hdone.append (blockKind_harmless hs hkind)
  | partialCall p =>
    obtain ⟨out, hout, h⟩ := gives_bind h
    obtain rfl := gives_pure.1 h
    exact partialInvocation_harmless hindent hdone hout
  | partialBlock p =>
    obtain ⟨name, params, hash, body, openStrip, closeStrip, loc⟩ := p
    rw [Compiler.statement, Compiler.partialBlock] at h
    obtain ⟨bodyChunks, -, h⟩ := gives_bind h
    obtain ⟨out, hout, h⟩ := gives_bind h
    obtain rfl := gives_pure.1 h
    -- The tag of a partial block has no indentation.
    have hnone : Clean "".toList := Text.clean_nil
    exact partialInvocation_harmless hnone hdone hout

theorem statements_harmless {next : Nat} (escapes : options.noEscape = false) :
    ∀ {body : List (Statement (Option Location))},
      (∀ s ∈ body, s.Harmless) → (∀ s ∈ body, s.IndentsClean) →
        ∀ {done done' : Progress},
          Gives (({ options } : Compiler).statements frames next body done) done' →
            AllHarmless done.out → AllHarmless done'.out
  | [], _, _, done, done', h, hdone => by
    obtain rfl := gives_pure.1 h
    exact hdone
  | s :: rest, hbody, hindents, done, done', h, hdone => by
    rw [List.forall_mem_cons] at hbody hindents
    obtain ⟨mid, hmid, h⟩ := gives_bind h
    exact statements_harmless escapes hbody.2 hindents.2 h
      (statement_harmless escapes hbody.1 hindents.1 hmid hdone)

/-- A program of harmless statements compiles to harmless instructions. -/
theorem Compiles.harmless (escapes : options.noEscape = false) {n : Nesting (Option Location)}
    {c : Chunk} (h : ({ options } : Compiler).Compiles n c)
    (hbody : ∀ here ∈ n.head?, ∀ s ∈ here.program.body, s.Harmless)
    (hindents : ∀ here ∈ n.head?, ∀ s ∈ here.program.body, s.IndentsClean) :
    AllHarmless c.instructions := by
  cases h with
  | @intro here outer done body =>
    exact statements_harmless escapes (hbody here rfl) (hindents here rfl) body
      allHarmless_nil

end Compiler

end Stencil.Code
