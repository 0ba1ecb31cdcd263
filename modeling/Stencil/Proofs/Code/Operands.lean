import Stencil.Proofs.Code.Addresses

/-!
# What there is in an operand

`Operand.Every L C` says of an operand that every lookup in it has the property `L` and every call
in it the property `C`, to which it is left where the helper of the call is looked for. What the
compiler makes of an expression is such an operand if the lookups that it makes of paths and the
calls that it makes of forms have the properties (`Compiler.Makes`): this is one induction over
expressions (`Compiler.Makes.operand`). What holds of all lookups of operands then holds of all
lookups of a chunk (`Compiler.Makes.compiled`).
-/

set_option autoImplicit false

namespace Stencil.Code

open Stencil.Text (Location)
open Stencil.Tree (Expr Hash Pair Statement Nesting)
open Compiling (Gives gives_pure gives_bind gives_map)

/-! ## Operands -/

section Every

variable (L : Lookup → Prop) (C : Call → Prop)

mutual

/-- Every lookup in the operand has the one property, and every call in it the other. -/
def Operand.Every : Operand → Prop
  | .literal _ => True
  | .lookup path | .lambda path => L path
  | .call c => c.Every
  | .ambiguous c => c.params = [] ∧ c.Every

/-- The call has the one property, and the lookup of its value and those in its arguments the
other. -/
def Call.Every : Call → Prop
  | ⟨name, helper, value, params, hash, ids, loc⟩ =>
    C ⟨name, helper, value, params, hash, ids, loc⟩ ∧ (∀ path ∈ value, L path) ∧
      Operand.AllEvery params ∧ Operand.NamedEvery hash

/-- The properties are those of everything in the parameters. -/
def Operand.AllEvery : List Operand → Prop
  | [] => True
  | o :: rest => o.Every ∧ Operand.AllEvery rest

/-- The properties are those of everything in the named arguments. -/
def Operand.NamedEvery : List (String × Operand) → Prop
  | [] => True
  | (_, o) :: rest => o.Every ∧ Operand.NamedEvery rest

end

/-- The properties are those of everything that opens a block. -/
def BlockKind.Every : BlockKind → Prop
  | .helper c => c.Every L C
  | .ambiguous c => c.params = [] ∧ c.Every L C
  | .section o => o.Every L C

end Every

variable {L : Lookup → Prop} {C : Call → Prop}

theorem Operand.NamedEvery.insert {name : String} {o : Operand} (ho : o.Every L C) :
    ∀ {table : Table Operand}, Operand.NamedEvery L C table →
      Operand.NamedEvery L C (table.insert name o)
  | [], _ => ⟨ho, trivial⟩
  | (key, old) :: rest, h => by
    rw [Table.insert]
    split
    · exact ⟨ho, h.2⟩
    · exact ⟨h.1, Operand.NamedEvery.insert ho h.2⟩

mutual

/-- What holds of the lookups in an operand, and of those of helpers, holds of all that it asks
for. -/
theorem Operand.Every.lookups (bare : ∀ accessor, L (.bare accessor)) :
    ∀ {o : Operand}, o.Every L C → ∀ l ∈ o.lookups, L l
  | .literal _, _, _, hl => absurd hl List.not_mem_nil
  | .lookup _, h, _, hl | .lambda _, h, _, hl => List.mem_singleton.1 hl ▸ h
  | .call _, h, l, hl => Call.Every.lookups bare h l hl
  | .ambiguous _, ⟨_, h⟩, l, hl => Call.Every.lookups bare h l hl

theorem Call.Every.lookups (bare : ∀ accessor, L (.bare accessor)) :
    ∀ {c : Call}, c.Every L C → ∀ l ∈ c.lookups, L l
  | ⟨name, helper, value, params, hash, ids, loc⟩, ⟨_, hvalue, hparams, hhash⟩, l, hl => by
    rcases List.mem_append.1 hl with hl | hl
    · rcases List.mem_append.1 hl with hl | hl
      · obtain ⟨accessor, -, rfl⟩ := List.mem_map.1 hl
        exact bare accessor
      · exact hvalue l (Option.mem_toList.1 hl)
    · rcases List.mem_append.1 hl with hl | hl
      · exact Operand.AllEvery.lookups bare hparams l hl
      · exact Operand.NamedEvery.lookups bare hhash l hl

theorem Operand.AllEvery.lookups (bare : ∀ accessor, L (.bare accessor)) :
    ∀ {os : List Operand}, Operand.AllEvery L C os → ∀ l ∈ Operand.lookupsAll os, L l
  | [], _, _, hl => absurd hl List.not_mem_nil
  | _ :: _, ⟨ho, hos⟩, l, hl => by
    rcases List.mem_append.1 hl with hl | hl
    · exact Operand.Every.lookups bare ho l hl
    · exact Operand.AllEvery.lookups bare hos l hl

theorem Operand.NamedEvery.lookups (bare : ∀ accessor, L (.bare accessor)) :
    ∀ {os : List (String × Operand)}, Operand.NamedEvery L C os →
      ∀ l ∈ Operand.lookupsNamed os, L l
  | [], _, _, hl => absurd hl List.not_mem_nil
  | _ :: _, ⟨ho, hos⟩, l, hl => by
    rcases List.mem_append.1 hl with hl | hl
    · exact Operand.Every.lookups bare ho l hl
    · exact Operand.NamedEvery.lookups bare hos l hl

end

theorem BlockKind.Every.lookups (bare : ∀ accessor, L (.bare accessor)) {kind : BlockKind}
    (h : kind.Every L C) : ∀ l ∈ kind.lookups, L l := by
  cases kind with
  | helper c => exact Call.Every.lookups bare h
  | ambiguous c => exact Call.Every.lookups bare h.2
  | «section» o => exact Operand.Every.lookups bare h

/-! ## Compiled operands -/

namespace Compiler

/-- The lookups and the calls that the compiler makes have the properties. A path is required to
lead to an existing property in strict code only. -/
structure Makes (compiler : Compiler) (L : Lookup → Prop) (C : Call → Prop) : Prop where
  lookup : ∀ {frames p terminal l}, Gives (compiler.lookup frames p terminal) l →
    (terminal = true → compiler.options.strict = true) → L l
  call : ∀ {frames f c}, Gives (compiler.call frames f (compiler.arguments frames f)) c → C c
  ambiguousCall : ∀ {frames f c}, f.kind compiler.options frames = .ambiguous →
    Gives (compiler.ambiguousCall frames f) c → C c

variable {compiler : Compiler} {frames : Frames}

namespace Makes

/-- What there is of one kind and of another is of both. -/
theorem and {L' : Lookup → Prop} {C' : Call → Prop} (makes : compiler.Makes L C)
    (makes' : compiler.Makes L' C') :
    compiler.Makes (fun l => L l ∧ L' l) fun c => C c ∧ C' c where
  lookup h hterminal := ⟨makes.lookup h hterminal, makes'.lookup h hterminal⟩
  call h := ⟨makes.call h, makes'.call h⟩
  ambiguousCall hkind h := ⟨makes.ambiguousCall hkind h, makes'.ambiguousCall hkind h⟩

theorem call_every (makes : compiler.Makes L C) {f : Form} {c : Call}
    (harguments : ∀ {r}, Gives (compiler.arguments frames f) r →
      Operand.AllEvery L C r.1 ∧ Operand.NamedEvery L C r.2)
    (h : Gives (compiler.call frames f (compiler.arguments frames f)) c) : c.Every L C := by
  have hc := makes.call h
  obtain ⟨hparams, -, -, -, -, -, hvalue⟩ := gives_call h
  obtain ⟨name, helper, value, params, hash, ids, loc⟩ := c
  refine ⟨hc, fun path hpath => ?_, harguments hparams⟩
  -- A call of a known helper looks for no value, any other for that of its path.
  split at hvalue
  · obtain rfl : value = none := hvalue
    cases hpath
  · obtain ⟨l, hl, hgives⟩ := hvalue
    obtain rfl : value = some l := hl
    cases hpath
    exact makes.lookup hgives nofun

theorem ambiguousCall_every (makes : compiler.Makes L C) {f : Form} {c : Call}
    (hkind : f.kind compiler.options frames = .ambiguous)
    (h : Gives (compiler.ambiguousCall frames f) c) : c.params = [] ∧ c.Every L C := by
  have hc := makes.ambiguousCall hkind h
  obtain ⟨l, hl, rfl⟩ := gives_ambiguousCall h
  refine ⟨rfl, hc, fun path hpath => ?_, trivial, trivial⟩
  cases hpath
  exact makes.lookup hl id

mutual

theorem operand (makes : compiler.Makes L C) :
    ∀ (e : Expr (Option Location)) {o : Operand}, Gives (compiler.operand frames e) o → o.Every L C
  | .string _ _ _, o, h | .number _ _ _, o, h | .boolean _ _ _, o, h | .undefined _, o, h
  | .null _, o, h => by
    obtain rfl := gives_pure.1 h
    trivial
  | .path p, o, h => by
    obtain ⟨l, hl, rfl⟩ := gives_map h
    exact makes.lookup hl nofun
  | .call ⟨path, params, hash, parenthesised, mark⟩, o, h => by
    rcases gives_operand_call h with ⟨-, c, rfl, hc⟩ | ⟨hkind, c, rfl, hc⟩ | ⟨-, l, rfl, hl⟩
    · refine makes.call_every ?_ hc
      intro r hr
      obtain ⟨os, hos, hr⟩ := gives_bind hr
      obtain ⟨table, htable, hr⟩ := gives_bind hr
      obtain rfl := gives_pure.1 hr
      exact ⟨makes.operands params hos, makes.hashOperands hash htable⟩
    · exact makes.ambiguousCall_every hkind hc
    · exact makes.lookup hl nofun

theorem operands (makes : compiler.Makes L C) :
    ∀ (es : List (Expr (Option Location))) {os : List Operand},
      Gives (compiler.operands frames es) os → Operand.AllEvery L C os
  | [], os, h => by
    obtain rfl := gives_pure.1 h
    trivial
  | e :: es, os, h => by
    obtain ⟨o, ho, h⟩ := gives_bind h
    obtain ⟨rest, hrest, h⟩ := gives_bind h
    obtain rfl := gives_pure.1 h
    exact ⟨makes.operand e ho, makes.operands es hrest⟩

theorem hashOperands (makes : compiler.Makes L C) :
    ∀ (hash : Option (Hash (Option Location))) {table : Table Operand},
      Gives (compiler.hashOperands frames hash) table → Operand.NamedEvery L C table
  | none, table, h => by
    obtain rfl := gives_pure.1 h
    trivial
  | some ⟨pairs, mark⟩, table, h => by
    have hnone : Operand.NamedEvery L C [] := trivial
    exact makes.pairOperands pairs hnone h

/-- What is entered into a table that has the properties. -/
theorem pairOperands (makes : compiler.Makes L C) :
    ∀ (pairs : List (Pair (Option Location))) {table table' : Table Operand},
      Operand.NamedEvery L C table → Gives (compiler.pairOperands frames table pairs) table' →
        Operand.NamedEvery L C table'
  | [], table, table', before, h => by
    obtain rfl := gives_pure.1 h
    exact before
  | ⟨key, value, mark⟩ :: rest, table, table', before, h => by
    obtain ⟨o, ho, h⟩ := gives_bind h
    exact makes.pairOperands rest (before.insert (makes.operand value ho)) h

end

variable (makes : compiler.Makes L C)

include makes

theorem arguments {f : Form} {r : List Operand × Table Operand}
    (h : Gives (compiler.arguments frames f) r) :
    Operand.AllEvery L C r.1 ∧ Operand.NamedEvery L C r.2 := by
  obtain ⟨params, hparams, h⟩ := gives_bind h
  obtain ⟨hash, hhash, h⟩ := gives_bind h
  obtain rfl := gives_pure.1 h
  exact ⟨makes.operands _ hparams, makes.hashOperands _ hhash⟩

theorem shown {e : Expr (Option Location)} {o : Operand} (h : Gives (compiler.shown frames e) o) :
    o.Every L C := by
  rcases gives_shown h with ⟨-, c, rfl, hc⟩ | ⟨hkind, c, rfl, hc⟩ | ⟨-, l, rfl, hl⟩
  · exact makes.call_every makes.arguments hc
  · exact makes.ambiguousCall_every hkind hc
  · exact makes.lookup hl id

theorem blockKind {e : Expr (Option Location)} {kind : BlockKind}
    (h : Gives (compiler.blockKind frames e) kind) : kind.Every L C := by
  rcases gives_blockKind h with ⟨-, c, rfl, hc⟩ | ⟨hkind, c, rfl, hc⟩ | ⟨-, l, rfl, hl⟩
  · exact makes.call_every makes.arguments hc
  · exact makes.ambiguousCall_every hkind hc
  · exact makes.lookup hl id

/-- What a tag shows that is compiled to showing a value. -/
theorem append {next : Nat} {s : Statement (Option Location)} {o : Operand} {escape : Bool}
    (h : compiler.Emits frames next s (.append o escape)) : o.Every L C := by
  cases h with
  | mustache shown => exact makes.shown shown

/-- What opens the block that a tag is compiled to. -/
theorem block {next : Nat} {s : Statement (Option Location)} {b : BlockCall}
    (h : compiler.Emits frames next s (.block b)) : b.kind.Every L C := by
  cases h with
  | block opens => exact makes.blockKind opens

section Lookups

variable (bare : ∀ accessor, L (.bare accessor))

include bare

theorem partialName_lookups {e : Expr (Option Location)} {name : PartialName}
    (h : Gives (compiler.partialName frames e) name) : ∀ l ∈ name.lookups, L l := by
  have fixed : ∀ written, ∀ l ∈ (compiler.fixedName written).lookups, L l := by
    intro written l hl
    obtain rfl := List.mem_singleton.1 hl
    exact bare _
  unfold Compiler.partialName at h
  split at h
  · obtain ⟨o, ho, rfl⟩ := gives_map h
    exact Operand.Every.lookups bare (makes.operand _ ho)
  all_goals
    obtain rfl := gives_pure.1 h
    exact fixed _

theorem partialContext_lookups (this : L { accessor := .context 0, spelling := "this" })
    {params : List (Expr (Option Location))} {o : Operand}
    (h : Gives (compiler.partialContext frames params) o) : ∀ l ∈ o.lookups, L l := by
  unfold Compiler.partialContext at h
  split at h
  · exact Operand.Every.lookups bare (makes.operand _ h)
  · split at h
    · obtain rfl := gives_pure.1 h
      exact nofun
    · obtain rfl := gives_pure.1 h
      intro l hl
      obtain rfl := List.mem_singleton.1 hl
      exact this

/-- What holds of the lookups that the compiler makes, of those of helpers and partials, and of that
of the current context, holds of all lookups of a chunk. -/
theorem compiled (this : L { accessor := .context 0, spelling := "this" })
    (keepsTags : compiler.backend.KeepsTags) {n : Nesting (Option Location)} {c : Chunk}
    (h : compiler.Compiles n c) : ∀ l ∈ c.lookups, L l := by
  intro l hl
  obtain ⟨i, hi, hl⟩ := List.mem_flatMap.1 hl
  -- A text asks for no lookups, so the instruction is that of a tag.
  have htag : i.isText = false := by
    cases i with
    | content text => exact absurd hl List.not_mem_nil
    | append value escape => rfl
    | block b => rfl
    | partialCall p => rfl
  obtain ⟨⟨_, tag⟩, -, hemits⟩ := h.exists_tag keepsTags hi htag
  simp only at hemits
  cases hemits with
  | mustache shown => exact Operand.Every.lookups bare (makes.shown shown) l hl
  | block opens => exact BlockKind.Every.lookups bare (makes.blockKind opens) l hl
  | partialCall name context hash _ | partialBlock name context hash _ =>
    rcases List.mem_append.1 hl with hl | hl
    · rcases List.mem_append.1 hl with hl | hl
      · exact makes.partialName_lookups bare name l hl
      · exact makes.partialContext_lookups bare this context l hl
    · exact Operand.NamedEvery.lookups bare (makes.hashOperands _ hash) l hl

end Lookups

end Makes

end Compiler

/-! ## Helpers that are no values -/

/-- The lookup does not start from the registered helpers. -/
def Lookup.Apart (l : Lookup) : Prop := l.accessor.root ≠ .helpers

/-- A helper is looked for under the name of the call, if at all. -/
def Call.Apart (c : Call) : Prop := ∀ a ∈ c.helper, ∃ name, a = .member .helpers name .helper

/-- The compiler looks for helpers under the names of calls only. -/
theorem Compiler.makes_apart {options : Options} :
    ({ options } : Compiler).Makes Lookup.Apart Call.Apart where
  lookup h _ := (Compiler.lookup_rooted Backend.keepsRoots_standard h).1.ne_helpers
  call h := by
    obtain ⟨-, -, -, -, -, hhelper, -⟩ := Compiler.gives_call h
    intro a ha
    rw [hhelper] at ha
    split at ha
    · cases ha
      exact ⟨_, rfl⟩
    · cases ha
  ambiguousCall _ h := by
    obtain ⟨l, -, rfl⟩ := Compiler.gives_ambiguousCall h
    rintro a ⟨⟩
    exact ⟨_, rfl⟩

end Stencil.Code
