import Stencil.Proofs.Code.Addresses
import Stencil.Proofs.Code.Numbering
import Stencil.Proofs.Code.Storable
import Stencil.Proofs.Tree.Every
import Stencil.Proofs.Tree.Height

/-!
# What compilation makes can be stored

A tree that can be stored compiles to code that can be stored (`Compiler.storable_of_compile`). A
depth of an accessor is that of a path, and an address of a block parameter is bounded by the number
of programs around it and by the number of names that one of them declares; so trees have to keep
within words of 64 bits (`Program.Fits`), as the numbers of the programs have to.
-/

set_option autoImplicit false

namespace Stencil

namespace Table

variable {α : Type} {name : String} {value : α}

/-- A name that is there keeps its place. -/
theorem names_insert_of_mem : ∀ {t : Table α}, name ∈ t.names →
    Table.names (t.insert name value) = t.names
  | (key, old) :: rest, h => by
    rw [Table.insert]
    split
    · rfl
    next hne =>
      rcases List.mem_cons.1 h with rfl | h
      · exact absurd rfl hne
      · exact congrArg (key :: ·) (names_insert_of_mem h)

/-- One that is not there is added at the end. -/
theorem names_insert_of_not_mem : ∀ {t : Table α}, name ∉ t.names →
    Table.names (t.insert name value) = t.names ++ [name]
  | [], _ => rfl
  | (key, old) :: rest, h => by
    obtain ⟨hne, hrest⟩ := not_or.1 (mt List.mem_cons.2 h)
    rw [Table.insert, if_neg (Ne.symm hne)]
    exact congrArg (key :: ·) (names_insert_of_not_mem hrest)

/-- Names that differ do so when one more is entered. -/
theorem nodup_insert {t : Table α} (h : t.names.Nodup) :
    (Table.names (t.insert name value)).Nodup := by
  by_cases hmem : name ∈ t.names
  · rwa [names_insert_of_mem hmem]
  · rw [names_insert_of_not_mem hmem, List.nodup_append]
    refine ⟨h, by simp, ?_⟩
    rintro key hkey _ hname rfl
    obtain rfl := List.mem_singleton.1 hname
    exact hmem hkey

/-- The names of a table that is made entry by entry differ. -/
theorem nodup_ofList (entries : List (String × α)) : (Table.ofList entries).names.Nodup := by
  have hfold : ∀ (entries : List (String × α)) (t : Table α), t.names.Nodup →
      (Table.names (entries.foldl (fun t e => Table.insert e.1 e.2 t) t)).Nodup := by
    intro entries
    induction entries with
    | nil => exact fun _ h => h
    | cons e rest ih => exact fun t h => ih _ (nodup_insert h)
  exact hfold entries [] List.nodup_nil

end Table

namespace Tree

variable {N : Float → Prop}

mutual

/-- What can be stored has statements that can be stored, at any nesting. -/
theorem Program.Storable.every : ∀ {p : Program Mark}, p.Storable N → p.Every (Statement.Storable N)
  | ⟨_, _, _, _⟩, h => Statement.AllStorable.every h.1

theorem Statement.AllStorable.every : ∀ {body : List (Statement Mark)},
    Statement.AllStorable N body → Statement.AllEvery (Statement.Storable N) body
  | [], _ => trivial
  | _ :: _, h => ⟨Statement.Storable.every h.1, Statement.AllStorable.every h.2⟩

/-- By recursion over the statement: what is said of it as a whole is said of every statement in
it. -/
theorem Statement.Storable.every : ∀ {s : Statement Mark}, s.Storable N →
    s.Every (Statement.Storable N)
  | .block _, h => ⟨h, Block.Storable.every h⟩
  | .partialBlock _, h => ⟨h, PartialBlock.Storable.every h⟩
  | .mustache _, h | .partialCall _, h | .content _, h | .comment _, h => h

theorem Block.Storable.every : ∀ {b : Block Mark}, b.Storable N → b.Every (Statement.Storable N)
  | ⟨_, _, _, _, _, _, _, _⟩, h =>
    ⟨Program.StorableOpt.every h.2.1, Program.StorableOpt.every h.2.2.1⟩

theorem PartialBlock.Storable.every : ∀ {p : PartialBlock Mark}, p.Storable N →
    p.Every (Statement.Storable N)
  | ⟨_, _, _, _, _, _, _⟩, h => Program.Storable.every h.2.2.2.1

theorem Program.StorableOpt.every : ∀ {p : Option (Program Mark)}, Program.StorableOpt N p →
    Program.EveryOpt (Statement.Storable N) p
  | none, _ => trivial
  | some _, h => Program.Storable.every h

end

/-- The tree holds no more programs, and none of them declares more block parameters, than a word of
64 bits counts. -/
def Program.Fits {ℓ : Type} (p : Program ℓ) : Prop :=
  p.count < UInt64.size ∧
    ∀ n ∈ p.nestings [] 0, ∀ names ∈ Nesting.frames n, names.length < UInt64.size

instance {ℓ : Type} (p : Program ℓ) : Decidable p.Fits :=
  inferInstanceAs (Decidable (p.count < UInt64.size ∧
    ∀ n ∈ p.nestings [] 0, ∀ names ∈ Nesting.frames n, names.length < UInt64.size))

/-- As many programs as are around a program of the tree are counted by a word of 64 bits. -/
theorem Program.Fits.length_frames {ℓ : Type} {p : Program ℓ} (h : p.Fits) {n : Nesting ℓ}
    (hn : n ∈ p.nestings [] 0) : (Nesting.frames n).length < UInt64.size := by
  have hlength := Program.length_nestings_le n hn
  have hheight := p.height_le_count
  have hcount := h.1
  rw [Nesting.frames, List.length_map]
  simp only [List.length_nil] at hlength
  omega

end Tree

namespace Code

open Stencil.Text (Location)
open Stencil.Tree (Expr Hash Pair Path Mark Statement Nesting Program)
open Compiling (Gives gives_pure gives_bind gives_map gives_guard)

/-! ## Addresses -/

/-- Depths and places of names are words of 64 bits. -/
def Frames.Fit (frames : Frames) : Prop :=
  frames.length < UInt64.size ∧ ∀ names ∈ frames, names.length < UInt64.size

/-- The depth of a block parameter is less than the number of frames, its index less than that of
the names in one of them. -/
theorem Frames.Fit.find? {frames : Frames} (h : frames.Fit) {name : String} {depth index : Nat}
    (hfind : frames.find? name = some (depth, index)) :
    depth < UInt64.size ∧ index < UInt64.size := by
  obtain ⟨⟨names, hnames, hindex⟩, -⟩ := Frames.find?_eq_some.1 hfind
  have hdepth := (List.getElem?_eq_some_iff.1 hnames).1
  obtain ⟨hplace, -, -⟩ := List.findIdx?_eq_some_iff_getElem.1 hindex
  exact ⟨Nat.lt_trans hdepth h.1, Nat.lt_trans hplace (h.2 names (List.mem_of_getElem? hnames))⟩

/-- One more named operand that can be stored. -/
theorem Operand.NamedStorable.insert {N : Float → Prop} {name : String} {o : Operand}
    (ho : o.Storable N) : ∀ {table : Table Operand}, Operand.NamedStorable N table →
      Operand.NamedStorable N (table.insert name o)
  | [], _ => ⟨ho, trivial⟩
  | (key, old) :: rest, h => by
    rw [Table.insert]
    split
    · exact ⟨ho, h.2⟩
    · exact ⟨h.1, Operand.NamedStorable.insert ho h.2⟩

/-- A backend that does not go beyond words: a member can be stored if its base can, and names that
are looked for in all contexts and the stamp can be stored. -/
structure Backend.KeepsWords (b : Backend) : Prop where
  member : ∀ {base : Accessor}, base.Storable → ∀ name kind, (b.member base name kind).Storable
  anyContext : ∀ name, (b.anyContext name).Storable
  stamp : b.stamp.Storable

/-- The standard backend keeps within words, with any stamp and buffer. -/
theorem Backend.keepsWords_standard {stamp : Stamp} (h : stamp.Storable) (buffer : BufferKind) :
    ({ Backend.standard with stamp, buffer } : Backend).KeepsWords :=
  ⟨fun h _ _ => h, fun _ => trivial, h⟩

namespace Compiler

variable {compiler : Compiler} {frames : Frames} {N : Float → Prop}

/-! ## Paths and calls -/

/-- Names add no numbers to an accessor. -/
theorem storable_foldl_member (words : compiler.backend.KeepsWords) (kind : LookupKind) :
    ∀ (steps : List String) {base : Accessor}, base.Storable →
      (steps.foldl (fun a name => compiler.backend.member a name kind) base).Storable
  | [], _, h => h
  | name :: rest, _, h => storable_foldl_member words kind rest (words.member h name kind)

/-- Each start has one number at most: the depth of the path, or the address of a block
parameter. -/
theorem storable_start (words : compiler.backend.KeepsWords) (fit : frames.Fit)
    {p : Path (Option Location)} (hp : p.Storable)
    {r : Accessor × List String × LookupKind} (h : Gives (compiler.start frames p) r) :
    r.1.Storable := by
  unfold Compiler.start at h
  replace h := gives_guard h
  split at h
  next depth index hfound =>
    obtain ⟨_, -, h⟩ := gives_bind h
    obtain rfl := gives_pure.1 h
    split at hfound
    · obtain ⟨name, -, hname⟩ := Option.bind_eq_some_iff.1 hfound
      exact fit.find? hname
    · cases hfound
  next =>
    split at h
    · obtain ⟨_, -, h⟩ := gives_bind h
      obtain rfl := gives_pure.1 h
      exact hp.1
    · split at h
      · split at h
        · obtain ⟨_, -, h⟩ := gives_bind h
          obtain rfl := gives_pure.1 h
          exact words.anyContext _
        · obtain rfl := gives_pure.1 h
          exact hp.1
      · obtain rfl := gives_pure.1 h
        exact hp.1

/-- A lookup has the numbers of its start and the location of its path. -/
theorem storable_lookup (words : compiler.backend.KeepsWords) (fit : frames.Fit)
    {p : Path (Option Location)} (hp : p.Storable)
    {terminal : Bool} {l : Lookup} (h : Gives (compiler.lookup frames p terminal) l) :
    l.Storable := by
  unfold Compiler.lookup at h
  obtain ⟨⟨base, steps, kind⟩, hstart, h⟩ := gives_bind (gives_guard h)
  obtain rfl := gives_pure.1 h
  exact ⟨storable_foldl_member words kind steps (storable_start words fit hp hstart), hp.2⟩

theorem storable_helper (words : compiler.backend.KeepsWords) (name : String) (kind : LookupKind) :
    (compiler.backend.member .helpers name kind).Storable := by
  have hroot : Accessor.helpers.Storable := trivial
  exact words.member hroot name kind

theorem storable_ids (f : Form) : f.ids.Storable := by
  unfold Form.ids CallIds.Storable
  cases f.hash with
  | none => exact List.nodup_nil
  | some h => exact Table.nodup_ofList _

theorem storable_nil : Operand.NamedStorable N [] ∧ (Table.names ([] : Table Operand)).Nodup :=
  ⟨trivial, List.nodup_nil⟩

/-- The parameters and the named arguments can be stored. -/
def StorableArguments (N : Float → Prop) (r : List Operand × Table Operand) : Prop :=
  Operand.AllStorable N r.1 ∧ Operand.NamedStorable N r.2 ∧ r.2.names.Nodup

/-- What a call is made of can be stored: its lookups, its arguments, its location. -/
theorem storable_call (words : compiler.backend.KeepsWords) (fit : frames.Fit) {f : Form}
    (hpath : f.path.Storable)
    (hloc : Mark.Storable f.loc) {arguments : Compiling (List Operand × Table Operand)}
    (harguments : ∀ {r}, Gives arguments r → StorableArguments N r) {c : Call}
    (h : Gives (compiler.call frames f arguments) c) : c.Storable N := by
  obtain ⟨hgiven, -, hplace, hids, -, hhelper, hvalue⟩ := gives_call h
  obtain ⟨name, helper, value, params, hash, ids, loc⟩ := c
  obtain ⟨hparams, hhash, hnames⟩ := harguments hgiven
  refine ⟨fun a ha => ?_, fun l hl => ?_, hparams, ⟨hhash, hnames⟩, fun i hi => ?_, ?_⟩
  · rw [show helper = _ from hhelper] at ha
    split at ha
    · cases ha
      exact storable_helper words f.head .helper
    · cases ha
  · split at hvalue
    · rw [show value = none from hvalue] at hl
      cases hl
    · obtain ⟨path, hpathValue, hgives⟩ := hvalue
      rw [show value = some path from hpathValue] at hl
      cases hl
      exact storable_lookup words fit hpath hgives
  · rw [show ids = _ from hids] at hi
    split at hi
    · cases hi
      exact storable_ids f
    · cases hi
  · rw [show loc = f.loc from hplace]
    exact hloc

/-- A name that may be a helper or a value has no arguments. -/
theorem storable_ambiguousCall (words : compiler.backend.KeepsWords) (fit : frames.Fit) {f : Form}
    (hpath : f.path.Storable)
    (hloc : Mark.Storable f.loc) {c : Call} (h : Gives (compiler.ambiguousCall frames f) c) :
    c.Storable N := by
  obtain ⟨l, hl, rfl⟩ := gives_ambiguousCall h
  refine ⟨?_, ?_, trivial, ⟨trivial, List.nodup_nil⟩, nofun, hloc⟩
  · rintro a ⟨⟩
    exact storable_helper words f.head .helper
  · rintro _ ⟨⟩
    exact storable_lookup words fit hpath hl

/-! ## Operands -/

mutual

/-- By recursion over the expression: a number literal is as the tree has it. -/
theorem storable_operand (words : compiler.backend.KeepsWords) (fit : frames.Fit) :
    ∀ {e : Expr (Option Location)}, e.Storable N → ∀ {o : Operand},
      Gives (compiler.operand frames e) o → o.Storable N
  | .string _ _ _, _, o, h | .boolean _ _ _, _, o, h | .undefined _, _, o, h
    | .null _, _, o, h => by
    obtain rfl := gives_pure.1 h
    trivial
  | .number _ _ _, he, o, h => by
    obtain rfl := gives_pure.1 h
    exact he.1
  | .path _, he, o, h => by
    obtain ⟨l, hl, rfl⟩ := gives_map h
    exact storable_lookup words fit he hl
  | .call ⟨path, params, hash, parenthesised, mark⟩, ⟨hpath, hparams, hhash, hmark⟩, o, h => by
    rcases gives_operand_call h with ⟨-, c, rfl, hc⟩ | ⟨-, c, rfl, hc⟩ | ⟨-, l, rfl, hl⟩
    · refine storable_call words fit hpath hmark ?_ hc
      intro r hr
      obtain ⟨os, hos, hr⟩ := gives_bind hr
      obtain ⟨table, htable, hr⟩ := gives_bind hr
      obtain rfl := gives_pure.1 hr
      exact ⟨storable_operands words fit hparams hos, storable_hashOperands words fit hhash htable⟩
    · exact storable_ambiguousCall words fit hpath hmark hc
    · exact storable_lookup words fit hpath hl

/-- Operands in a row can be stored one by one. -/
theorem storable_operands (words : compiler.backend.KeepsWords) (fit : frames.Fit) :
    ∀ {es : List (Expr (Option Location))}, Expr.AllStorable N es → ∀ {os : List Operand},
      Gives (compiler.operands frames es) os → Operand.AllStorable N os
  | [], _, os, h => by
    obtain rfl := gives_pure.1 h
    trivial
  | _ :: _, hes, os, h => by
    obtain ⟨o, ho, h⟩ := gives_bind h
    obtain ⟨rest, hrest, h⟩ := gives_bind h
    obtain rfl := gives_pure.1 h
    exact ⟨storable_operand words fit hes.1 ho, storable_operands words fit hes.2 hrest⟩

/-- Named operands are entered into a table, whose names differ however often one is given. -/
theorem storable_hashOperands (words : compiler.backend.KeepsWords) (fit : frames.Fit) :
    ∀ {hash : Option (Hash (Option Location))}, Hash.StorableOpt N hash → ∀ {table : Table Operand},
      Gives (compiler.hashOperands frames hash) table →
        Operand.NamedStorable N table ∧ table.names.Nodup
  | none, _, table, h => by
    obtain rfl := gives_pure.1 h
    exact storable_nil
  | some ⟨pairs, mark⟩, hhash, table, h =>
    storable_pairOperands words fit hhash.1 storable_nil h

/-- What is entered into a table that can be stored. -/
theorem storable_pairOperands (words : compiler.backend.KeepsWords) (fit : frames.Fit) :
    ∀ {pairs : List (Pair (Option Location))}, Pair.AllStorable N pairs →
      ∀ {table table' : Table Operand}, Operand.NamedStorable N table ∧ table.names.Nodup →
        Gives (compiler.pairOperands frames table pairs) table' →
          Operand.NamedStorable N table' ∧ table'.names.Nodup
  | [], _, table, table', before, h => by
    obtain rfl := gives_pure.1 h
    exact before
  | ⟨key, value, mark⟩ :: rest, hpairs, table, table', before, h => by
    obtain ⟨o, ho, h⟩ := gives_bind h
    have hvalue := storable_operand words fit hpairs.1.1 ho
    exact storable_pairOperands words fit hpairs.2
      ⟨Operand.NamedStorable.insert hvalue before.1, Table.nodup_insert before.2⟩ h

end

/-! ## Tags -/

/-- Arguments are operands in a row and operands under names. -/
theorem storable_arguments (words : compiler.backend.KeepsWords) (fit : frames.Fit) {f : Form}
    (hparams : Expr.AllStorable N f.params) (hhash : Hash.StorableOpt N f.hash)
    {r : List Operand × Table Operand} (h : Gives (compiler.arguments frames f) r) :
    StorableArguments N r := by
  obtain ⟨params, hp, h⟩ := gives_bind h
  obtain ⟨hash, hh, h⟩ := gives_bind h
  obtain rfl := gives_pure.1 h
  exact ⟨storable_operands words fit hparams hp, storable_hashOperands words fit hhash hh⟩

/-- The form of an expression that can be stored: its path, its arguments and its place can be. -/
theorem storable_ofExpr {e : Expr (Option Location)} (h : e.Storable N) :
    (Form.ofExpr e).path.Storable ∧ Expr.AllStorable N (Form.ofExpr e).params ∧
      Hash.StorableOpt N (Form.ofExpr e).hash ∧ Mark.Storable (Form.ofExpr e).loc := by
  have hzero : 0 < UInt32.size := by decide
  cases e with
  | call c =>
    obtain ⟨path, params, hash, parenthesised, mark⟩ := c
    exact h
  | path p => exact ⟨h, trivial, trivial, h.2⟩
  | number value spelling mark => exact ⟨⟨hzero, h.2⟩, trivial, trivial, h.2⟩
  | string | boolean | undefined | null => exact ⟨⟨hzero, h⟩, trivial, trivial, h⟩

/-- What a tag shows can be stored, whichever of the three it is. -/
theorem storable_shown (words : compiler.backend.KeepsWords) (fit : frames.Fit)
    {e : Expr (Option Location)} (he : e.Storable N) {o : Operand}
    (h : Gives (compiler.shown frames e) o) : o.Storable N := by
  obtain ⟨hpath, hparams, hhash, hloc⟩ := storable_ofExpr he
  rcases gives_shown h with ⟨-, c, rfl, hc⟩ | ⟨-, c, rfl, hc⟩ | ⟨-, l, rfl, hl⟩
  · exact storable_call words fit hpath hloc (storable_arguments words fit hparams hhash) hc
  · exact storable_ambiguousCall words fit hpath hloc hc
  · exact storable_lookup words fit hpath hl

theorem storable_blockKind (words : compiler.backend.KeepsWords) (fit : frames.Fit)
    {e : Expr (Option Location)} (he : e.Storable N) {kind : BlockKind}
    (h : Gives (compiler.blockKind frames e) kind) : kind.Storable N := by
  obtain ⟨hpath, hparams, hhash, hloc⟩ := storable_ofExpr he
  rcases gives_blockKind h with ⟨-, c, rfl, hc⟩ | ⟨-, c, rfl, hc⟩ | ⟨-, l, rfl, hl⟩
  · exact storable_call words fit hpath hloc (storable_arguments words fit hparams hhash) hc
  · exact storable_ambiguousCall words fit hpath hloc hc
  · exact storable_lookup words fit hpath hl

/-- A name that is computed is an operand. -/
theorem storable_partialName (words : compiler.backend.KeepsWords) (fit : frames.Fit)
    {e : Expr (Option Location)} (he : e.Storable N) {name : PartialName}
    (h : Gives (compiler.partialName frames e) name) : name.Storable N := by
  have hroot : Accessor.partials.Storable := trivial
  unfold Compiler.partialName at h
  split at h
  · obtain ⟨o, ho, rfl⟩ := gives_map h
    exact storable_operand words fit he ho
  all_goals
    obtain rfl := gives_pure.1 h
    exact words.member hroot _ _

theorem storable_partialContext (words : compiler.backend.KeepsWords) (fit : frames.Fit)
    {params : List (Expr (Option Location))} (hparams : Expr.AllStorable N params) {o : Operand}
    (h : Gives (compiler.partialContext frames params) o) : o.Storable N := by
  unfold Compiler.partialContext at h
  split at h
  · exact storable_operand words fit hparams.1 h
  · split at h
    · obtain rfl := gives_pure.1 h
      trivial
    · obtain rfl := gives_pure.1 h
      exact ⟨(by decide : 0 < UInt32.size), nofun⟩

/-! ## Instructions -/

end Compiler

/-- The instructions can be stored as far as the numbers of programs in them are words. -/
def StoredInstructions (N : Float → Prop) (out : List Instruction) : Prop :=
  ∀ i ∈ out, (∀ r ∈ i.references, r < UInt64.size) → i.Storable N

theorem storedInstructions_nil {N : Float → Prop} : StoredInstructions N [] :=
  fun _ h => absurd h List.not_mem_nil

/-- If only texts are joined, what has been stored stays so, and the new instruction is as it is
asked to be. -/
theorem StoredInstructions.append {N : Float → Prop} {b : Backend} (keeps : b.KeepsTags)
    {out : List Instruction} (h : StoredInstructions N out) {next : Instruction} {explicit : Bool}
    (hnext : (∀ r ∈ next.references, r < UInt64.size) → next.Storable N) :
    StoredInstructions N (b.append out next explicit) := by
  intro i hi hrefs
  cases htext : i.isText with
  | true =>
    cases i with
    | content text => trivial
    | append | block | partialCall => cases htext
  | false =>
    -- What is no text was there before or is the one that is appended.
    have hmem : i ∈ Instruction.tags (b.append out next explicit) :=
      List.mem_filter.2 ⟨hi, by rw [htext]; rfl⟩
    rw [keeps, Instruction.tags, Instruction.tags, List.mem_append] at hmem
    rcases hmem with hmem | hmem
    · exact h i (List.mem_filter.1 hmem).1 hrefs
    · obtain rfl := List.mem_singleton.1 (List.mem_filter.1 hmem).1
      exact hnext hrefs

namespace Compiler

variable {compiler : Compiler} {frames : Frames} {N : Float → Prop}

/-- The call of a partial refers to the program of its body only. -/
theorem stored_partialInvocation (keeps : compiler.backend.KeepsTags)
    (words : compiler.backend.KeepsWords) (fit : frames.Fit) {name : Expr (Option Location)}
    (hname : name.Storable N) {params : List (Expr (Option Location))}
    (hparams : Expr.AllStorable N params) {hash : Option (Hash (Option Location))}
    (hhash : Hash.StorableOpt N hash) {indent : String} {program : Option Nat}
    {loc : Option Location} (hloc : Mark.Storable loc) {out out' : List Instruction}
    (hout : StoredInstructions N out)
    (h : Gives (compiler.partialInvocation frames name params hash indent program loc out) out') :
    StoredInstructions N out' := by
  rw [Compiler.partialInvocation] at h
  obtain ⟨_, -, h⟩ := gives_bind (gives_guard h)
  obtain ⟨n, hn, h⟩ := gives_bind h
  obtain ⟨context, hcontext, h⟩ := gives_bind h
  obtain ⟨table, htable, h⟩ := gives_bind h
  obtain rfl := gives_pure.1 h
  refine StoredInstructions.append keeps ?_ fun hrefs => ?_
  · split
    · exact hout.append keeps fun _ => trivial
    · exact hout
  · refine ⟨storable_partialName words fit hname hn,
      storable_partialContext words fit hparams hcontext,
      storable_hashOperands words fit hhash htable, ?_, hloc⟩
    rintro id rfl
    exact hrefs id (List.mem_singleton_self id)

/-- A statement adds one instruction, which can be stored if the programs it refers to have numbers
that can. -/
theorem stored_statement (keeps : compiler.backend.KeepsTags) (words : compiler.backend.KeepsWords)
    (fit : frames.Fit) {next : Nat} {s : Statement (Option Location)} (hs : s.Storable N)
    {done done' : Progress} (hdone : StoredInstructions N done.out)
    (h : Gives (compiler.statement frames next s done) done') : StoredInstructions N done'.out := by
  cases s with
  | content c =>
    obtain rfl := gives_pure.1 h
    split
    · exact hdone
    · exact hdone.append keeps fun _ => trivial
  | comment c =>
    obtain rfl := gives_pure.1 h
    exact hdone
  | mustache m =>
    obtain ⟨value, hvalue, h⟩ := gives_bind h
    obtain rfl := gives_pure.1 h
    exact hdone.append keeps fun _ => storable_shown words fit hs.1 hvalue
  -- Only a block refers to programs itself; what they hold is stored with their own chunks.
  | block b =>
    obtain ⟨expr, body, inverse, openStrip, inverseStrip, closeStrip, close, loc⟩ := b
    obtain ⟨hexpr, -, -, -, hloc⟩ := hs
    obtain ⟨kind, bodyChunks, inverseChunks, hkind, -, -, rfl⟩ := gives_block h
    refine hdone.append keeps fun hrefs => ?_
    refine ⟨storable_blockKind words fit hexpr hkind, ?_, ?_, hloc⟩
    · intro id hid
      exact hrefs id (List.mem_append_left _ (Option.mem_toList.2 hid))
    · intro id hid
      exact hrefs id (List.mem_append_right _ (Option.mem_toList.2 hid))
  | partialCall p =>
    obtain ⟨hname, hparams, hhash, hloc⟩ := hs
    obtain ⟨out, hout, h⟩ := gives_bind h
    obtain rfl := gives_pure.1 h
    exact stored_partialInvocation keeps words fit hname hparams hhash hloc hdone hout
  | partialBlock p =>
    obtain ⟨name, params, hash, body, openStrip, closeStrip, loc⟩ := p
    obtain ⟨hname, hparams, hhash, -, hloc⟩ := hs
    rw [Compiler.statement, Compiler.partialBlock] at h
    obtain ⟨bodyChunks, -, h⟩ := gives_bind h
    obtain ⟨out, hout, h⟩ := gives_bind h
    obtain rfl := gives_pure.1 h
    exact stored_partialInvocation keeps words fit hname hparams hhash hloc hdone hout

/-- By recursion over the row. -/
theorem stored_statements (keeps : compiler.backend.KeepsTags) (words : compiler.backend.KeepsWords)
    (fit : frames.Fit) {next : Nat} : ∀ {body : List (Statement (Option Location))},
      (∀ s ∈ body, s.Storable N) → ∀ {done done' : Progress}, StoredInstructions N done.out →
        Gives (compiler.statements frames next body done) done' → StoredInstructions N done'.out
  | [], _, done, done', hdone, h => by
    obtain rfl := gives_pure.1 h
    exact hdone
  | s :: rest, hbody, done, done', hdone, h => by
    obtain ⟨hs, hrest⟩ := List.forall_mem_cons.1 hbody
    obtain ⟨mid, hmid, h⟩ := gives_bind h
    exact stored_statements keeps words fit hrest (stored_statement keeps words fit hs hdone hmid) h

/-! ## Specs -/

/-- The stamp is that of the backend but for the features that were gathered. -/
theorem stamp_of_compile {tree : Tree.Located} {spec : Spec}
    (h : compiler.compile tree = .ok spec) :
    spec.stamp.revision = compiler.backend.stamp.revision ∧
      spec.stamp.version = compiler.backend.stamp.version ∧
        spec.buffer = compiler.backend.buffer := by
  unfold Compiler.compile at h
  cases hrun : (compiler.program [] 0 tree).run Features.none with
  | error e => rw [hrun] at h; cases h
  | ok r =>
    rw [hrun] at h
    cases h
    exact ⟨rfl, rfl, rfl⟩

/-- A tree that can be stored compiles to code that can be stored. -/
theorem storable_of_compile (keeps : compiler.backend.KeepsTags)
    (words : compiler.backend.KeepsWords) (hoptions : compiler.options.Storable)
    {tree : Tree.Located} (htree : tree.Storable N) (hfits : tree.Fits) {spec : Spec}
    (compiled : compiler.compile tree = .ok spec) :
    spec.Storable N := by
  obtain ⟨hmain, hspecOptions⟩ := main_of_compile compiled
  refine ⟨?_, ?_, ?_, hspecOptions ▸ hoptions⟩
  · rw [Stamp.Storable, (stamp_of_compile compiled).1]
    exact words.stamp
  · rw [hmain]
    decide
  · intro c hc
    obtain ⟨id, hid⟩ := List.mem_iff_getElem?.1 hc
    obtain ⟨here, outer, -, hn, hcompiles⟩ := exists_nesting keeps compiled hid
    have hmem := List.mem_of_getElem? hn
    have fit : Frames.Fit (Nesting.frames (here :: outer)) :=
      ⟨hfits.length_frames hmem, hfits.2 _ hmem⟩
    have hbody : ∀ s ∈ here.program.body, s.Storable N :=
      htree.every.of_nestings [] 0 _ hmem here rfl
    cases hcompiles with
    | intro body =>
      refine ⟨fun i hi => ?_, fit.2 _ List.mem_cons_self⟩
      refine stored_statements keeps words fit hbody storedInstructions_nil body i hi fun r hr => ?_
      -- What an instruction refers to is a program, of which there are not too many.
      have hlt := (compile_references_bounds keeps compiled hid
        (List.mem_flatMap.2 ⟨i, hi, hr⟩)).2
      rw [length_programs keeps compiled] at hlt
      exact Nat.lt_trans hlt hfits.1

end Compiler

end Code

end Stencil
