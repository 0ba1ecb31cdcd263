import Stencil.Proofs.Code.Numbering

/-!
# Addresses

Where the lookups of compiled code start. A path is looked up from a block parameter, a context, a
data frame or all contexts (`Accessor.Rooted`); the registered helpers are reached only through the
head of a call, and only if that head is one bare name. A block parameter is addressed by how many
programs out it is declared and its place there, which is where the innermost program that declares
its name is (`Frames.find?_eq_some`).

Every lookup of a chunk is that of a path of the program, that of the helper under the bare name of
one, or that of a partial (`Compiles.asks`). One that starts from a block parameter has the spelling
and the mark of its path, and the address of the head of that path (`Compiles.addressed`). Where
only known helpers may be called, no lookup asks for another one (`Compiles.known`).
-/

set_option autoImplicit false

/-! ## Paths of a tree -/

namespace Stencil.Tree

variable {ℓ : Type}

mutual

/-- The paths in an expression. A literal may be read as a path. -/
def Expr.paths : Expr ℓ → List (Path ℓ)
  | .call ⟨path, params, hash, _, _⟩ => path :: (Expr.pathsAll params ++ Hash.pathsOpt hash)
  | .path p => [p]
  | .string value spelling mark => [(Expr.string value spelling mark).headPath]
  | .number value spelling mark => [(Expr.number value spelling mark).headPath]
  | .boolean value spelling mark => [(Expr.boolean value spelling mark).headPath]
  | .undefined mark => [(Expr.undefined mark).headPath]
  | .null mark => [(Expr.null mark).headPath]

/-- The paths in parameters. -/
def Expr.pathsAll : List (Expr ℓ) → List (Path ℓ)
  | [] => []
  | e :: es => e.paths ++ Expr.pathsAll es

/-- The paths in named arguments, if there are any. -/
def Hash.pathsOpt : Option (Hash ℓ) → List (Path ℓ)
  | none => []
  | some ⟨pairs, _⟩ => Pair.pathsAll pairs

/-- The paths in named arguments. -/
def Pair.pathsAll : List (Pair ℓ) → List (Path ℓ)
  | [] => []
  | ⟨_, value, _⟩ :: rest => value.paths ++ Pair.pathsAll rest

end

/-- The paths in a tag, those in the programs that it holds left out. -/
def Statement.paths : Statement ℓ → List (Path ℓ)
  | .mustache m => m.expr.paths
  | .block b => b.expr.paths
  | .partialCall p => p.name.paths ++ Expr.pathsAll p.params ++ Hash.pathsOpt p.hash
  | .partialBlock p => p.name.paths ++ Expr.pathsAll p.params ++ Hash.pathsOpt p.hash
  | .content _ | .comment _ => []

/-- The paths in the tags of the innermost program. -/
def Nesting.paths (n : Nesting ℓ) : List (Path ℓ) := (Nesting.tags n).flatMap fun t => t.2.paths

end Stencil.Tree

namespace Stencil.Code

open Stencil.Text (Location)
open Stencil.Tree (Expr Hash Pair Path Statement Nesting)
open Compiling (Gives gives_pure gives_bind gives_map gives_guard not_gives_fail)

/-! ## Names of block parameters -/

/-- The address of a name: the program so many out declares it at that place, and no program further
in declares it. -/
theorem Frames.find?_eq_some {name : String} :
    ∀ {frames : Frames} {depth index : Nat},
      frames.find? name = some (depth, index) ↔
        (∃ names, frames[depth]? = some names ∧ names.findIdx? (· == name) = some index) ∧
          ∀ names ∈ frames.take depth, name ∉ names
  | [], depth, index => by simp [Frames.find?]
  | names :: outer, depth, index => by
    rw [Frames.find?]
    cases hplace : names.findIdx? (· == name) with
    | some place =>
      have hmem : name ∈ names := by
        obtain ⟨h, hname, -⟩ := List.findIdx?_eq_some_iff_getElem.1 hplace
        rw [beq_iff_eq] at hname
        exact hname ▸ List.getElem_mem h
      -- The innermost program declares the name, so none further out is its address.
      cases depth with
      | zero => simp [hplace]
      | succ depth =>
        constructor
        · rintro ⟨⟩
        · rintro ⟨-, hnone⟩
          exact absurd hmem (hnone names (by simp))
    | none =>
      have hmem : name ∉ names := by
        intro h
        exact absurd (List.findIdx?_eq_none_iff.1 hplace name h) (by simp)
      -- The address is that among the outer programs, one further out.
      cases depth with
      | zero => simp [hplace]
      | succ depth => simp [Frames.find?_eq_some, hmem]

/-! ## Accessors -/

/-- What an accessor starts from. -/
def Accessor.root : Accessor → Accessor
  | .member base _ _ => base.root
  | .context depth => .context depth
  | .data depth => .data depth
  | .blockParam depth index => .blockParam depth index
  | .helpers => .helpers
  | .partials => .partials
  | .anyContext name => .anyContext name

/-- The registered helper that an accessor asks for. -/
def Accessor.helper? : Accessor → Option String
  | .member .helpers name _ => some name
  | .member base _ _ => base.helper?
  | _ => none

/-- The data variable that an accessor asks for, and how many frames up it is looked for. -/
def Accessor.dataVariable? : Accessor → Option (Nat × String)
  | .member (.data depth) name _ => some (depth, name)
  | .member base _ _ => base.dataVariable?
  | _ => none

/-- What starts from anything else asks for no helper. -/
theorem Accessor.helper?_eq_none {a : Accessor} (h : a.root ≠ .helpers) : a.helper? = none := by
  fun_induction Accessor.helper? a with
  | case1 => exact absurd rfl h
  | case2 base name kind hbase ih => exact ih h
  | case3 => rfl

/-- What the lookup of a path may start from: if from a block parameter, then from that which its
head names. -/
inductive Accessor.Rooted (frames : Frames) (p : Path (Option Location)) : Accessor → Prop
  | blockParam {name : String} {depth index : Nat} (head : p.head? = some name)
    (found : frames.find? name = some (depth, index)) : Rooted frames p (.blockParam depth index)
  | context (depth : Nat) : Rooted frames p (.context depth)
  | data (depth : Nat) : Rooted frames p (.data depth)
  | anyContext (name : String) : Rooted frames p (.anyContext name)

theorem Accessor.Rooted.ne_helpers {frames : Frames} {p : Path (Option Location)} {a : Accessor}
    (h : a.Rooted frames p) : a ≠ .helpers := by
  rintro rfl
  cases h

/-- A backend that goes on from where it is told to: a member starts where its base starts. -/
structure Backend.KeepsRoots (b : Backend) : Prop where
  member : ∀ base name kind, (b.member base name kind).root = base.root
  anyContext : ∀ name, (b.anyContext name).root = .anyContext name

theorem Backend.keepsRoots_standard : Backend.standard.KeepsRoots :=
  ⟨fun _ _ _ => rfl, fun _ => rfl⟩

/-! ## Lookups of code -/

/-- The lookup of an accessor that stands for itself. -/
def Lookup.bare (accessor : Accessor) : Lookup := { accessor, spelling := "" }

mutual

/-- The lookups that an operand asks for. -/
def Operand.lookups : Operand → List Lookup
  | .literal _ => []
  | .lookup path | .lambda path => [path]
  | .call c | .ambiguous c => c.lookups

/-- The lookups that a call asks for: where a helper is found, where a value is found, and those of
its arguments. -/
def Call.lookups : Call → List Lookup
  | ⟨_, helper, value, params, hash, _, _⟩ =>
    (helper.toList.map Lookup.bare ++ value.toList) ++
      (Operand.lookupsAll params ++ Operand.lookupsNamed hash)

/-- The lookups that parameters ask for. -/
def Operand.lookupsAll : List Operand → List Lookup
  | [] => []
  | o :: rest => o.lookups ++ Operand.lookupsAll rest

/-- The lookups that named arguments ask for. -/
def Operand.lookupsNamed : List (String × Operand) → List Lookup
  | [] => []
  | (_, o) :: rest => o.lookups ++ Operand.lookupsNamed rest

end

/-- The lookups that opening a block asks for. -/
def BlockKind.lookups : BlockKind → List Lookup
  | .helper c | .ambiguous c => c.lookups
  | .section o => o.lookups

/-- The lookups that the name of a partial asks for. -/
def PartialName.lookups : PartialName → List Lookup
  | .fixed _ accessor => [.bare accessor]
  | .computed o => o.lookups

/-- The lookups that an instruction asks for. -/
def Instruction.lookups : Instruction → List Lookup
  | .content _ => []
  | .append o _ => o.lookups
  | .block b => b.kind.lookups
  | .partialCall p => p.name.lookups ++ p.context.lookups ++ Operand.lookupsNamed p.hash

/-- The lookups that a chunk asks for. -/
def Chunk.lookups (c : Chunk) : List Lookup := c.instructions.flatMap Instruction.lookups

/-- Of two named arguments of one name only the later one counts. -/
theorem Operand.mem_lookupsNamed_insert {l : Lookup} {name : String} {o : Operand} :
    ∀ {table : Table Operand}, l ∈ Operand.lookupsNamed (table.insert name o) →
      l ∈ Operand.lookupsNamed table ∨ l ∈ o.lookups
  | [], h => by
    rw [Table.insert, Operand.lookupsNamed] at h
    rcases List.mem_append.1 h with h | h
    · exact .inr h
    · exact .inl h
  | (key, old) :: rest, h => by
    rw [Table.insert] at h
    split at h
    · rcases List.mem_append.1 h with h | h
      · exact .inr h
      · exact .inl (List.mem_append_right _ h)
    · rcases List.mem_append.1 h with h | h
      · exact .inl (List.mem_append_left _ h)
      · rcases Operand.mem_lookupsNamed_insert h with h | h
        · exact .inl (List.mem_append_right _ h)
        · exact .inr h

/-- A head that is ambiguous is a bare name, not that of a known helper, where helpers may be called
that are not known. -/
theorem Form.of_kind_ambiguous {options : Options} {frames : Frames} {f : Form}
    (h : f.kind options frames = .ambiguous) :
    f.path.isSimple = true ∧ options.knownHelpers.contains f.head = false ∧
      options.knownHelpersOnly = false := by
  unfold Form.kind at h
  dsimp only at h
  split at h
  · cases h
  split at h
  · cases h
  split at h
  · cases h
  next hsimple =>
    split at h
    · cases h
    next hknown =>
      split at h
      · cases h
      next honly =>
        rw [Bool.not_eq_true'] at hsimple
        exact ⟨by simpa using hsimple, by simpa using hknown, by simpa using honly⟩

namespace Compiler

variable {compiler : Compiler} {frames : Frames}

/-! ## Paths and calls -/

theorem root_foldl_member (keeps : compiler.backend.KeepsRoots) (kind : LookupKind) :
    ∀ (steps : List String) (base : Accessor),
      (steps.foldl (fun a name => compiler.backend.member a name kind) base).root = base.root
  | [], _ => rfl
  | name :: rest, base => by
    rw [List.foldl_cons, root_foldl_member keeps kind rest, keeps.member]

/-- Where the lookup of a path starts. -/
theorem start_rooted (keeps : compiler.backend.KeepsRoots) {p : Path (Option Location)}
    {r : Accessor × List String × LookupKind} (h : Gives (compiler.start frames p) r) :
    r.1.root.Rooted frames p := by
  unfold Compiler.start at h
  replace h := gives_guard h
  split at h
  next depth index hfound =>
    obtain ⟨_, -, h⟩ := gives_bind h
    obtain rfl := gives_pure.1 h
    -- Only the head of a path without steps up or data is looked for among the names.
    split at hfound
    · obtain ⟨name, hhead, hname⟩ := Option.bind_eq_some_iff.1 hfound
      exact .blockParam hhead hname
    · cases hfound
  next =>
    split at h
    · obtain ⟨_, -, h⟩ := gives_bind h
      obtain rfl := gives_pure.1 h
      exact .data _
    · split at h
      · split at h
        · obtain ⟨_, -, h⟩ := gives_bind h
          obtain rfl := gives_pure.1 h
          rw [keeps.anyContext]
          exact .anyContext _
        · obtain rfl := gives_pure.1 h
          exact .context _
      · obtain rfl := gives_pure.1 h
        exact .context _

/-- The lookup of a path has the spelling and the mark of the path. -/
theorem lookup_rooted (keeps : compiler.backend.KeepsRoots) {p : Path (Option Location)}
    {terminal : Bool} {l : Lookup} (h : Gives (compiler.lookup frames p terminal) l) :
    l.accessor.root.Rooted frames p ∧ l.spelling = p.spelling ∧ l.loc = p.mark := by
  unfold Compiler.lookup at h
  obtain ⟨⟨base, steps, kind⟩, hstart, h⟩ := gives_bind (gives_guard h)
  obtain rfl := gives_pure.1 h
  refine ⟨?_, rfl, rfl⟩
  show Accessor.Rooted frames p (Accessor.root (steps.foldl _ base))
  rw [root_foldl_member keeps]
  exact start_rooted keeps hstart

/-- What a call is compiled to: the helpers are asked for a bare name only, that of a known helper
if no others may be called, and the value of the path counts unless the name is that of a known
helper. -/
theorem gives_call {f : Form} {arguments : Compiling (List Operand × Table Operand)} {c : Call}
    (h : Gives (compiler.call frames f arguments) c) :
    Gives arguments (c.params, c.hash) ∧ c.name = f.path.spelling ∧ c.loc = f.loc ∧
      c.ids = (if compiler.options.trackIds then some f.ids else none) ∧
      (compiler.options.knownHelpersOnly = true →
        (f.path.isSimple && compiler.options.knownHelpers.contains f.head) = true) ∧
      c.helper =
        (if f.path.isSimple then some (compiler.backend.member .helpers f.head .helper) else none) ∧
      if f.path.isSimple && compiler.options.knownHelpers.contains f.head then c.value = none
      else ∃ l, c.value = some l ∧ Gives (compiler.lookup frames f.path false) l := by
  rw [Compiler.call] at h
  have hcontains : (f.path.isSimple && compiler.options.knownHelpers.contains f.head) =
      (if f.path.isSimple then compiler.options.knownHelpers.get? f.head else none).isSome := by
    cases f.path.isSimple <;> rfl
  rw [hcontains]
  generalize (if f.path.isSimple then compiler.options.knownHelpers.get? f.head else none) =
    known at h
  -- Each case passes its own check, and goes on in the same way.
  cases known with
  | none =>
    have honly : compiler.options.knownHelpersOnly = false := by
      by_contra honly
      rw [Bool.not_eq_false] at honly
      rw [if_pos honly] at h
      obtain ⟨_, hfail, -⟩ := gives_bind h
      exact not_gives_fail hfail
    obtain ⟨value, hvalue, h⟩ := gives_bind (gives_guard h)
    obtain ⟨l, hl, rfl⟩ := gives_map hvalue
    obtain ⟨⟨params, hash⟩, harguments, h⟩ := gives_bind h
    obtain rfl := gives_pure.1 h
    exact ⟨harguments, rfl, rfl, rfl, fun h => absurd (honly ▸ h) Bool.false_ne_true, rfl,
      l, rfl, hl⟩
  | some arity =>
    cases arity with
    | any =>
      obtain ⟨value, hvalue, h⟩ := gives_bind h
      obtain rfl := gives_pure.1 hvalue
      obtain ⟨⟨params, hash⟩, harguments, h⟩ := gives_bind h
      obtain rfl := gives_pure.1 h
      exact ⟨harguments, rfl, rfl, rfl, fun _ => rfl, rfl, rfl⟩
    | exactly expected =>
      obtain ⟨value, hvalue, h⟩ := gives_bind (gives_guard h)
      obtain rfl := gives_pure.1 hvalue
      obtain ⟨⟨params, hash⟩, harguments, h⟩ := gives_bind h
      obtain rfl := gives_pure.1 h
      exact ⟨harguments, rfl, rfl, rfl, fun _ => rfl, rfl, rfl⟩

/-- What a name is compiled to that is a helper or a value. -/
theorem gives_ambiguousCall {f : Form} {c : Call}
    (h : Gives (compiler.ambiguousCall frames f) c) :
    ∃ l, Gives (compiler.lookup frames f.path compiler.options.strict) l ∧
      c =
        { name := f.path.spelling
          helper := some (compiler.backend.member .helpers f.head .helper)
          value := some l, params := [], hash := [], ids := none, loc := f.loc } := by
  unfold Compiler.ambiguousCall at h
  obtain ⟨l, hl, h⟩ := gives_bind h
  exact ⟨l, hl, (gives_pure.1 h).symm⟩

/-- What a tag shows is a call, a name that is a helper or a value, or the value of a path. -/
theorem gives_shown {e : Expr (Option Location)} {o : Operand}
    (h : Gives (compiler.shown frames e) o) :
    ((Form.ofExpr e).kind compiler.options frames = .call ∧ ∃ c, o = .call c ∧
        Gives (compiler.call frames (Form.ofExpr e)
          (compiler.arguments frames (Form.ofExpr e))) c) ∨
      ((Form.ofExpr e).kind compiler.options frames = .ambiguous ∧ ∃ c, o = .ambiguous c ∧
        Gives (compiler.ambiguousCall frames (Form.ofExpr e)) c) ∨
      (Form.ofExpr e).kind compiler.options frames = .value ∧ ∃ l, o = .lambda l ∧
        Gives (compiler.lookup frames (Form.ofExpr e).path compiler.options.strict) l := by
  rw [Compiler.shown] at h
  split at h
  next hkind =>
    obtain ⟨c, hc, rfl⟩ := gives_map h
    exact .inl ⟨hkind, c, rfl, hc⟩
  next hkind =>
    obtain ⟨c, hc, rfl⟩ := gives_map h
    exact .inr (.inl ⟨hkind, c, rfl, hc⟩)
  next hkind =>
    obtain ⟨l, hl, rfl⟩ := gives_map h
    exact .inr (.inr ⟨hkind, l, rfl, hl⟩)

/-- What opens a block is a call, a name that is a helper or a value, or the value of a path. -/
theorem gives_blockKind {e : Expr (Option Location)} {kind : BlockKind}
    (h : Gives (compiler.blockKind frames e) kind) :
    ((Form.ofExpr e).kind compiler.options frames = .call ∧ ∃ c, kind = .helper c ∧
        Gives (compiler.call frames (Form.ofExpr e)
          (compiler.arguments frames (Form.ofExpr e))) c) ∨
      ((Form.ofExpr e).kind compiler.options frames = .ambiguous ∧ ∃ c, kind = .ambiguous c ∧
        Gives (compiler.ambiguousCall frames (Form.ofExpr e)) c) ∨
      (Form.ofExpr e).kind compiler.options frames = .value ∧
        ∃ l, kind = .section (.lambda l) ∧
          Gives (compiler.lookup frames (Form.ofExpr e).path compiler.options.strict) l := by
  rw [Compiler.blockKind] at h
  split at h
  next hkind =>
    obtain ⟨c, hc, rfl⟩ := gives_map h
    exact .inl ⟨hkind, c, rfl, hc⟩
  next hkind =>
    obtain ⟨c, hc, rfl⟩ := gives_map h
    exact .inr (.inl ⟨hkind, c, rfl, hc⟩)
  next hkind =>
    obtain ⟨l, hl, rfl⟩ := gives_map h
    exact .inr (.inr ⟨hkind, l, rfl, hl⟩)

/-- A call as an argument: like what a tag shows, but a value is taken as it is. -/
theorem gives_operand_call {written : Tree.Call (Option Location)} {o : Operand}
    (h : Gives (compiler.operand frames (.call written)) o) :
    ((Form.ofCall written).kind compiler.options frames = .call ∧ ∃ c, o = .call c ∧
        Gives (compiler.call frames (Form.ofCall written)
          (compiler.arguments frames (Form.ofCall written))) c) ∨
      ((Form.ofCall written).kind compiler.options frames = .ambiguous ∧ ∃ c, o = .ambiguous c ∧
        Gives (compiler.ambiguousCall frames (Form.ofCall written)) c) ∨
      (Form.ofCall written).kind compiler.options frames = .value ∧ ∃ l, o = .lookup l ∧
        Gives (compiler.lookup frames written.path false) l := by
  obtain ⟨path, params, hash, parenthesised, mark⟩ := written
  rw [Compiler.operand] at h
  split at h
  next hkind =>
    obtain ⟨c, hc, rfl⟩ := gives_map h
    exact .inl ⟨hkind, c, rfl, hc⟩
  next hkind =>
    obtain ⟨c, hc, rfl⟩ := gives_map h
    exact .inr (.inl ⟨hkind, c, rfl, hc⟩)
  next hkind =>
    obtain ⟨l, hl, rfl⟩ := gives_map h
    exact .inr (.inr ⟨hkind, l, rfl, hl⟩)

/-! ## Every lookup of a chunk -/

variable (compiler frames)

/-- A lookup that the code of some paths may ask for: that of one of the paths, that of the helper
under the bare name of one of them, which is known if no others may be called, that of a partial, or
that of the current context. -/
inductive Asks (paths : List (Path (Option Location))) : Lookup → Prop
  | path {p : Path (Option Location)} {terminal : Bool} {l : Lookup} (mem : p ∈ paths)
    (gives : Gives (compiler.lookup frames p terminal) l) : Asks paths l
  | helper {f : Form} (mem : f.path ∈ paths) (simple : f.path.isSimple = true)
    (known : compiler.options.knownHelpersOnly = true →
      compiler.options.knownHelpers.contains f.head = true) :
    Asks paths (.bare (compiler.backend.member .helpers f.head .helper))
  | partialName (name : String) :
    Asks paths (.bare (compiler.backend.member .partials name .partialName))
  | this : Asks paths { accessor := .context 0, spelling := "this" }

/-- Every lookup of the list is one that the code of some paths may ask for. -/
def AllAsk (paths : List (Path (Option Location))) (lookups : List Lookup) : Prop :=
  ∀ l ∈ lookups, compiler.Asks frames paths l

variable {compiler frames}

theorem Asks.mono {ps qs : List (Path (Option Location))} {l : Lookup}
    (hsub : ∀ p ∈ ps, p ∈ qs) (h : compiler.Asks frames ps l) : compiler.Asks frames qs l := by
  cases h with
  | path mem gives => exact .path (hsub _ mem) gives
  | helper mem simple known => exact .helper (hsub _ mem) simple known
  | partialName name => exact .partialName name
  | this => exact .this

/-- Lookups of two lists of paths. -/
theorem AllAsk.append {ps qs : List (Path (Option Location))} {ls ms : List Lookup}
    (hl : compiler.AllAsk frames ps ls) (hm : compiler.AllAsk frames qs ms) :
    compiler.AllAsk frames (ps ++ qs) (ls ++ ms) := by
  intro l h
  rcases List.mem_append.1 h with h | h
  · exact (hl l h).mono fun p hp => List.mem_append_left qs hp
  · exact (hm l h).mono fun p hp => List.mem_append_right ps hp

theorem allAsk_nil (paths : List (Path (Option Location))) : compiler.AllAsk frames paths [] :=
  fun _ h => absurd h List.not_mem_nil

theorem AllAsk.cons_path {ps : List (Path (Option Location))} {ls : List Lookup}
    {p : Path (Option Location)} (h : compiler.AllAsk frames [p] ls) :
    compiler.AllAsk frames (p :: ps) ls := by
  intro l hl
  refine (h l hl).mono fun q hq => ?_
  obtain rfl := List.mem_singleton.1 hq
  exact List.mem_cons_self

theorem lookup_asks {p : Path (Option Location)} {terminal : Bool} {l : Lookup}
    (h : Gives (compiler.lookup frames p terminal) l) : compiler.AllAsk frames [p] [l] := by
  intro m hm
  obtain rfl := List.mem_singleton.1 hm
  exact .path (List.mem_singleton_self p) h

theorem call_asks {f : Form} {arguments : Compiling (List Operand × Table Operand)} {c : Call}
    {paths : List (Path (Option Location))}
    (harguments : ∀ {r}, Gives arguments r →
      compiler.AllAsk frames paths (Operand.lookupsAll r.1 ++ Operand.lookupsNamed r.2))
    (h : Gives (compiler.call frames f arguments) c) :
    compiler.AllAsk frames (f.path :: paths) c.lookups := by
  obtain ⟨hparams, -, -, -, hknown, hhelper, hvalue⟩ := gives_call h
  obtain ⟨name, helper, value, params, hash, ids, loc⟩ := c
  obtain rfl : helper = _ := hhelper
  have hhead : compiler.AllAsk frames [f.path]
      ((if f.path.isSimple then some (compiler.backend.member .helpers f.head .helper)
        else none).toList.map Lookup.bare ++ value.toList) := by
    intro l hl
    rcases List.mem_append.1 hl with hl | hl
    · -- The helper, if one is asked for.
      obtain ⟨a, ha, rfl⟩ := List.mem_map.1 hl
      split at ha
      next hsimple =>
        obtain rfl := List.mem_singleton.1 ha
        refine .helper (List.mem_singleton_self _) hsimple fun honly => ?_
        exact (Bool.and_eq_true_iff.1 (hknown honly)).2
      next => exact absurd ha List.not_mem_nil
    · -- The value of the path.
      split at hvalue
      · obtain rfl : value = none := hvalue
        exact absurd hl List.not_mem_nil
      · obtain ⟨m, hm, hgives⟩ := hvalue
        obtain rfl : value = some m := hm
        exact lookup_asks hgives l hl
  rw [Call.lookups]
  exact hhead.append (harguments hparams)

theorem ambiguousCall_asks {f : Form} (hkind : f.kind compiler.options frames = .ambiguous)
    {c : Call} (h : Gives (compiler.ambiguousCall frames f) c) :
    compiler.AllAsk frames [f.path] c.lookups := by
  obtain ⟨l, hl, rfl⟩ := gives_ambiguousCall h
  obtain ⟨hsimple, -, honly⟩ := Form.of_kind_ambiguous hkind
  intro m hm
  rcases List.mem_cons.1 hm with rfl | hm
  · exact .helper (List.mem_singleton_self _) hsimple fun h => by rw [honly] at h; cases h
  · exact lookup_asks hl m hm

mutual

theorem operand_asks :
    ∀ (e : Expr (Option Location)) {o : Operand}, Gives (compiler.operand frames e) o →
      compiler.AllAsk frames e.paths o.lookups
  | .string _ _ _, o, h | .number _ _ _, o, h | .boolean _ _ _, o, h | .undefined _, o, h
  | .null _, o, h => by
    obtain rfl := gives_pure.1 h
    exact allAsk_nil _
  | .path p, o, h => by
    obtain ⟨l, hl, rfl⟩ := gives_map h
    exact lookup_asks hl
  | .call ⟨path, params, hash, parenthesised, mark⟩, o, h => by
    rcases gives_operand_call h with ⟨-, c, rfl, hc⟩ | ⟨hkind, c, rfl, hc⟩ | ⟨-, l, rfl, hl⟩
    · refine call_asks ?_ hc
      intro r hr
      obtain ⟨os, hos, hr⟩ := gives_bind hr
      obtain ⟨table, htable, hr⟩ := gives_bind hr
      obtain rfl := gives_pure.1 hr
      exact (operands_ask params hos).append (hashOperands_ask hash htable)
    · exact (ambiguousCall_asks hkind hc).cons_path
    · exact (lookup_asks hl).cons_path

theorem operands_ask :
    ∀ (es : List (Expr (Option Location))) {os : List Operand},
      Gives (compiler.operands frames es) os →
        compiler.AllAsk frames (Expr.pathsAll es) (Operand.lookupsAll os)
  | [], os, h => by
    obtain rfl := gives_pure.1 h
    exact allAsk_nil _
  | e :: es, os, h => by
    obtain ⟨o, ho, h⟩ := gives_bind h
    obtain ⟨rest, hrest, h⟩ := gives_bind h
    obtain rfl := gives_pure.1 h
    exact (operand_asks e ho).append (operands_ask es hrest)

theorem hashOperands_ask :
    ∀ (hash : Option (Hash (Option Location))) {table : Table Operand},
      Gives (compiler.hashOperands frames hash) table →
        compiler.AllAsk frames (Hash.pathsOpt hash) (Operand.lookupsNamed table)
  | none, table, h => by
    obtain rfl := gives_pure.1 h
    exact allAsk_nil _
  | some ⟨pairs, mark⟩, table, h => by
    intro l hl
    exact pairOperands_ask pairs (allAsk_nil []) h l hl

/-- What is entered beside a table whose lookups are those of other paths. -/
theorem pairOperands_ask :
    ∀ (pairs : List (Pair (Option Location))) {table table' : Table Operand}
      {paths : List (Path (Option Location))},
      compiler.AllAsk frames paths (Operand.lookupsNamed table) →
        Gives (compiler.pairOperands frames table pairs) table' →
          compiler.AllAsk frames (paths ++ Pair.pathsAll pairs) (Operand.lookupsNamed table')
  | [], table, table', paths, before, h => by
    obtain rfl := gives_pure.1 h
    rw [Pair.pathsAll, List.append_nil]
    exact before
  | ⟨key, value, mark⟩ :: rest, table, table', paths, before, h => by
    obtain ⟨o, ho, h⟩ := gives_bind h
    have hentered : compiler.AllAsk frames (paths ++ value.paths)
        (Operand.lookupsNamed (table.insert key o)) := by
      intro l hl
      rcases Operand.mem_lookupsNamed_insert hl with hl | hl
      · exact (before l hl).mono fun p hp => List.mem_append_left _ hp
      · exact (operand_asks value ho l hl).mono fun p hp => List.mem_append_right _ hp
    have hall := pairOperands_ask rest hentered h
    rw [List.append_assoc] at hall
    exact hall

end

theorem arguments_ask {f : Form} {r : List Operand × Table Operand}
    (h : Gives (compiler.arguments frames f) r) :
    compiler.AllAsk frames (Expr.pathsAll f.params ++ Hash.pathsOpt f.hash)
      (Operand.lookupsAll r.1 ++ Operand.lookupsNamed r.2) := by
  obtain ⟨params, hparams, h⟩ := gives_bind h
  obtain ⟨hash, hhash, h⟩ := gives_bind h
  obtain rfl := gives_pure.1 h
  exact (operands_ask _ hparams).append (hashOperands_ask _ hhash)

/-- The paths of the form of an expression are those of the expression. -/
theorem paths_ofExpr (e : Expr (Option Location)) :
    (Form.ofExpr e).path ::
      (Expr.pathsAll (Form.ofExpr e).params ++ Hash.pathsOpt (Form.ofExpr e).hash) = e.paths := by
  cases e with
  | call c =>
    obtain ⟨path, params, hash, parenthesised, mark⟩ := c
    rfl
  | _ => rfl

theorem shown_asks {e : Expr (Option Location)} {o : Operand}
    (h : Gives (compiler.shown frames e) o) : compiler.AllAsk frames e.paths o.lookups := by
  rw [← paths_ofExpr]
  rcases gives_shown h with ⟨-, c, rfl, hc⟩ | ⟨hkind, c, rfl, hc⟩ | ⟨-, l, rfl, hl⟩
  · exact call_asks arguments_ask hc
  · exact (ambiguousCall_asks hkind hc).cons_path
  · exact (lookup_asks hl).cons_path

theorem blockKind_asks {e : Expr (Option Location)} {kind : BlockKind}
    (h : Gives (compiler.blockKind frames e) kind) :
    compiler.AllAsk frames e.paths kind.lookups := by
  rw [← paths_ofExpr]
  rcases gives_blockKind h with ⟨-, c, rfl, hc⟩ | ⟨hkind, c, rfl, hc⟩ | ⟨-, l, rfl, hl⟩
  · exact call_asks arguments_ask hc
  · exact (ambiguousCall_asks hkind hc).cons_path
  · exact (lookup_asks hl).cons_path

theorem partialName_asks {e : Expr (Option Location)} {name : PartialName}
    (h : Gives (compiler.partialName frames e) name) :
    compiler.AllAsk frames e.paths name.lookups := by
  have fixed : ∀ written, compiler.AllAsk frames e.paths (compiler.fixedName written).lookups := by
    intro written l hl
    obtain rfl := List.mem_singleton.1 hl
    exact .partialName written
  unfold Compiler.partialName at h
  split at h
  · obtain ⟨o, ho, rfl⟩ := gives_map h
    exact operand_asks _ ho
  all_goals
    obtain rfl := gives_pure.1 h
    exact fixed _

theorem partialContext_asks {params : List (Expr (Option Location))} {o : Operand}
    (h : Gives (compiler.partialContext frames params) o) :
    compiler.AllAsk frames (Expr.pathsAll params) o.lookups := by
  unfold Compiler.partialContext at h
  split at h
  next param rest =>
    intro l hl
    exact (operand_asks _ h l hl).mono fun p hp => List.mem_append_left _ hp
  next =>
    split at h
    · obtain rfl := gives_pure.1 h
      exact allAsk_nil _
    · obtain rfl := gives_pure.1 h
      intro l hl
      obtain rfl := List.mem_singleton.1 hl
      exact .this

theorem Emits.asks {next : Nat} {s : Statement (Option Location)} {i : Instruction}
    (h : compiler.Emits frames next s i) : compiler.AllAsk frames s.paths i.lookups := by
  cases h with
  | mustache shown => exact shown_asks shown
  | block opens => exact blockKind_asks opens
  | partialCall name context hash _ =>
    exact ((partialName_asks name).append (partialContext_asks context)).append
      (hashOperands_ask _ hash)
  | partialBlock name context hash _ =>
    exact ((partialName_asks name).append (partialContext_asks context)).append
      (hashOperands_ask _ hash)

/-- Every lookup of a chunk is one that the code of the paths of its program may ask for. -/
theorem Compiles.asks (keepsTags : compiler.backend.KeepsTags) {n : Nesting (Option Location)}
    {c : Chunk} (h : compiler.Compiles n c) :
    compiler.AllAsk (Nesting.frames n) (Nesting.paths n) c.lookups := by
  intro l hl
  obtain ⟨i, hi, hl⟩ := List.mem_flatMap.1 hl
  -- A text asks for no lookups, so the instruction is that of a tag.
  have htag : i.isText = false := by
    cases i with
    | content text => exact absurd hl List.not_mem_nil
    | append value escape => rfl
    | block b => rfl
    | partialCall p => rfl
  obtain ⟨t, ht, hemits⟩ := h.exists_tag keepsTags hi htag
  refine (hemits.asks l hl).mono fun p hp => ?_
  exact List.mem_flatMap.2 ⟨t, ht, hp⟩

/-! ## Where lookups start -/

/-- A lookup that starts from a block parameter is that of one of the paths, and has the address of
the head of that path. -/
theorem Asks.addressed (keeps : compiler.backend.KeepsRoots) {paths : List (Path (Option Location))}
    {l : Lookup} (h : compiler.Asks frames paths l) {depth index : Nat}
    (hroot : l.accessor.root = .blockParam depth index) :
    ∃ p ∈ paths, p.spelling = l.spelling ∧ p.mark = l.loc ∧
      ∃ name, p.head? = some name ∧ frames.find? name = some (depth, index) := by
  cases h with
  | @path p _ _ mem gives =>
    obtain ⟨hrooted, hspelling, hmark⟩ := lookup_rooted keeps gives
    rw [hroot] at hrooted
    cases hrooted with
    | @blockParam name _ _ hhead hfound =>
      exact ⟨p, mem, hspelling.symm, hmark.symm, name, hhead, hfound⟩
  | helper =>
    rw [Lookup.bare, keeps.member] at hroot
    cases hroot
  | partialName =>
    rw [Lookup.bare, keeps.member] at hroot
    cases hroot
  | this => cases hroot

/-- Every lookup of a chunk that starts from a block parameter is that of a path of the program, and
has the address of the head of that path among the programs around it. -/
theorem Compiles.addressed (keepsTags : compiler.backend.KeepsTags)
    (keepsRoots : compiler.backend.KeepsRoots) {n : Nesting (Option Location)} {c : Chunk}
    (h : compiler.Compiles n c) {l : Lookup} (hl : l ∈ c.lookups) {depth index : Nat}
    (hroot : l.accessor.root = .blockParam depth index) :
    ∃ p ∈ Nesting.paths n, p.spelling = l.spelling ∧ p.mark = l.loc ∧
      ∃ name, p.head? = some name ∧
        Frames.find? (Nesting.frames n) name = some (depth, index) :=
  (h.asks keepsTags l hl).addressed keepsRoots hroot

/-! ## Helpers that are asked for -/

/-- Where only known helpers may be called, a lookup asks for no other ones. -/
theorem Asks.known {options : Options} (only : options.knownHelpersOnly = true)
    {paths : List (Path (Option Location))} {l : Lookup}
    (h : ({ options } : Compiler).Asks frames paths l) {name : String}
    (hname : l.accessor.helper? = some name) : options.knownHelpers.contains name = true := by
  cases h with
  | path mem gives =>
    -- The lookup of a path does not start from the helpers.
    have hroot := (lookup_rooted Backend.keepsRoots_standard gives).1.ne_helpers
    rw [Accessor.helper?_eq_none hroot] at hname
    cases hname
  | helper mem simple known =>
    obtain rfl := Option.some.inj hname
    exact known only
  | partialName => cases hname
  | this => cases hname

/-- Where only known helpers may be called, the lookups of a chunk ask for no other ones. -/
theorem Compiles.known {options : Options} (only : options.knownHelpersOnly = true)
    {n : Nesting (Option Location)} {c : Chunk} (h : ({ options } : Compiler).Compiles n c)
    {l : Lookup} (hl : l ∈ c.lookups) {name : String} (hname : l.accessor.helper? = some name) :
    options.knownHelpers.contains name = true :=
  (h.asks Backend.keepsTags_standard l hl).known only hname

end Compiler

end Stencil.Code
