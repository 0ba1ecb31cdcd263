import Stencil.Code.Accept
import Stencil.Proofs.Tree.Storable

/-!
# Code that can be stored

Compiled code can be stored when its numbers are those of the interchange form: words of 32 bits for
depths and places in a source, words of 64 bits for indices, and for the literals such numbers as a
given property `N` allows; and when the names in each of its tables differ. Code that can be stored
is read back from its form (`Spec.ofJson?_toJson`).

Accessors and operands hold accessors and operands. They are read to a depth that is given
beforehand, and the inductions keep to it: what stands in a form nests less deep than the form.
-/

set_option autoImplicit false

namespace Stencil.Json

variable {α β : Type}

/-- A variant with data is read back as its name and its data. -/
theorem variant?_variantObj (name : String) (data : Json) :
    (Code.variantObj name data).variant? = some (name, data) := rfl

theorem depth_lt_variantObj (name : String) (data : Json) :
    data.depth < (Code.variantObj name data).depth :=
  depth_lt_obj (List.mem_singleton.2 rfl : (name, data) ∈ [(name, data)])

/-- A value or null is read back, if null stands for no value. -/
theorem option?_orNull {read : Json → Option α} {write : α → Json} {o : Option α}
    (h : ∀ a, o = some a → read (write a) = some a ∧ write a ≠ .null) :
    option? read (Code.orNull write o) = some o := by
  cases o with
  | none => rfl
  | some a =>
    obtain ⟨hread, hnull⟩ := h a rfl
    rw [Code.orNull, option?_of_ne_null hnull, hread]
    rfl

end Stencil.Json

namespace Stencil.Code

open Stencil.Text (Location)
open Stencil.Tree (Mark)
open Stencil.Json (Record present?)

/-! ## Code that can be stored -/

/-- The numbers of an accessor are words: depths of 32 bits, and of 64 bits for block parameters. -/
def Accessor.Storable : Accessor → Prop
  | .context depth | .data depth => depth < UInt32.size
  | .blockParam depth index => depth < UInt64.size ∧ index < UInt64.size
  | .helpers | .partials | .anyContext _ => True
  | .member base _ _ => base.Storable

/-- The accessor and the location of a lookup can be stored. -/
def Lookup.Storable (l : Lookup) : Prop := l.accessor.Storable ∧ Mark.Storable l.loc

/-- The names of the paths of named arguments differ. -/
def CallIds.Storable (i : CallIds) : Prop := i.hash.names.Nodup

/-- The number of a program, if there is one, is a word of 64 bits. -/
def StorableId (id : Option Nat) : Prop := ∀ n, id = some n → n < UInt64.size

section Storable

variable (N : Float → Prop)

/-- The number of a literal has the property. -/
def Literal.Storable : Literal → Prop
  | .number x => N x
  | .string _ | .boolean _ | .undefined | .null => True

mutual

/-- The words of the operand can be stored, its numbers have the property, and the names of named
arguments differ. -/
def Operand.Storable : Operand → Prop
  | .literal v => v.Storable N
  | .lookup l | .lambda l => l.Storable
  | .call c | .ambiguous c => c.Storable

/-- All that a call holds can be stored. -/
def Call.Storable : Call → Prop
  | ⟨_, helper, value, params, hash, ids, loc⟩ =>
    (∀ a, helper = some a → a.Storable) ∧ (∀ l, value = some l → l.Storable) ∧
      Operand.AllStorable params ∧ (Operand.NamedStorable hash ∧ (Table.names hash).Nodup) ∧
        (∀ i, ids = some i → i.Storable) ∧ Mark.Storable loc

/-- Each of the operands can be stored. -/
def Operand.AllStorable : List Operand → Prop
  | [] => True
  | o :: rest => o.Storable ∧ Operand.AllStorable rest

/-- Each of the named operands can be stored. -/
def Operand.NamedStorable : List (String × Operand) → Prop
  | [] => True
  | (_, o) :: rest => o.Storable ∧ Operand.NamedStorable rest

end

/-- What opens the block can be stored. -/
def BlockKind.Storable : BlockKind → Prop
  | .helper c | .ambiguous c => c.Storable N
  | .section o => o.Storable N

/-- The block can be stored. -/
def BlockCall.Storable (b : BlockCall) : Prop :=
  b.kind.Storable N ∧ StorableId b.program ∧ StorableId b.inverse ∧ Mark.Storable b.loc

/-- The name of the partial can be stored. -/
def PartialName.Storable : PartialName → Prop
  | .fixed _ accessor => accessor.Storable
  | .computed o => o.Storable N

/-- The partial can be stored. -/
def PartialInvocation.Storable (p : PartialInvocation) : Prop :=
  p.name.Storable N ∧ p.context.Storable N ∧
    (Operand.NamedStorable N p.hash ∧ (Table.names p.hash).Nodup) ∧
      StorableId p.program ∧ Mark.Storable p.loc

/-- The instruction can be stored. -/
def Instruction.Storable : Instruction → Prop
  | .content _ => True
  | .append o _ => o.Storable N
  | .block b => b.Storable N
  | .partialCall p => p.Storable N

/-- The program can be stored. -/
def Chunk.Storable (c : Chunk) : Prop :=
  (∀ i ∈ c.instructions, i.Storable N) ∧ c.blockParams < UInt64.size

end Storable

/-- The revision of a stamp is a word of 32 bits. -/
def Stamp.Storable (s : Stamp) : Prop := s.revision < UInt32.size

/-- The number of parameters is a word of 64 bits. -/
def Arity.Storable : Arity → Prop
  | .any => True
  | .exactly count => count < UInt64.size

/-- The names of known helpers differ, and their numbers of parameters are words of 64 bits. -/
def Options.Storable (o : Options) : Prop :=
  o.knownHelpers.names.Nodup ∧ ∀ e ∈ o.knownHelpers, e.2.Storable

/-- The code can be stored, with number literals that have the property. -/
def Spec.Storable (N : Float → Prop) (s : Spec) : Prop :=
  s.stamp.Storable ∧ s.main < UInt64.size ∧ (∀ c ∈ s.programs, c.Storable N) ∧ s.options.Storable

/-! ## Accessors -/

@[simp] theorem LookupKind.ofJson?_name (kind : LookupKind) :
    LookupKind.ofJson? (.str kind.name) = some kind := by
  cases kind <;> rfl

theorem word32?_natJson {n : Nat} (h : n < UInt32.size) : Json.word32? (natJson n) = some n :=
  Json.word32?_int h

theorem word64?_natJson {n : Nat} (h : n < UInt64.size) : Json.word64? (natJson n) = some n :=
  Json.word64?_int h

/-- A depth is read back from the one member it is written as. -/
theorem depth?_obj {n : Nat} (h : n < UInt32.size) :
    depth? (.obj [("depth", natJson n)]) = some n := by
  rw [depth?, Json.record?_obj_bind]
  exact Record.required_eq (by simp) (word32?_natJson h)

/-- What an accessor starts from nests less deep than the accessor. -/
theorem Accessor.depth_base_lt (base : Accessor) (name : String) (kind : LookupKind) :
    base.toJson.depth < (Accessor.member base name kind).toJson.depth :=
  Nat.lt_trans (Json.depth_lt_obj (List.mem_cons_self : ("base", base.toJson) ∈ _))
    (Json.depth_lt_variantObj "member" _)

/-- An accessor is read back to any depth that it does not reach. -/
theorem Accessor.ofJsonWithin?_toJson : ∀ {fuel : Nat} {a : Accessor}, a.Storable →
    a.toJson.depth < fuel → Accessor.ofJsonWithin? fuel a.toJson = some a
  | fuel + 1, .context depth, h, _ => by
    rw [Accessor.toJson, Accessor.ofJsonWithin?, Json.variant?_variantObj]
    dsimp only
    rw [depth?_obj h]
    rfl
  | fuel + 1, .data depth, h, _ => by
    rw [Accessor.toJson, Accessor.ofJsonWithin?, Json.variant?_variantObj]
    dsimp only
    rw [depth?_obj h]
    rfl
  | fuel + 1, .blockParam depth index, h, _ => by
    rw [Accessor.toJson, Accessor.ofJsonWithin?, Json.variant?_variantObj]
    dsimp only
    rw [Json.record?_obj_bind, Record.required_bind (by simp) (word64?_natJson h.1),
      Record.required_bind (by simp) (word64?_natJson h.2)]
    rfl
  | fuel + 1, .helpers, _, _ => rfl
  | fuel + 1, .partials, _, _ => rfl
  | fuel + 1, .anyContext name, _, _ => by
    show (Json.record? 1 (.obj [("name", .str name)]) >>= fun r =>
      r.required 0 "name" Json.str? >>= fun n => pure (Accessor.anyContext n)) = _
    rw [Json.record?_obj_bind, Record.required_bind (by simp) (Json.str?_str name)]
    rfl
  -- Only a member nests, one level deeper than its base.
  | fuel + 1, .member base name kind, h, hdepth => by
    have hbase : Accessor.ofJsonWithin? fuel base.toJson = some base :=
      Accessor.ofJsonWithin?_toJson h
        (Nat.lt_of_lt_of_le (base.depth_base_lt name kind) (Nat.le_of_lt_succ hdepth))
    show (Json.record? 3
        (.obj [("base", base.toJson), ("name", .str name), ("kind", .str kind.name)]) >>= fun r =>
      r.required 0 "base" (Accessor.ofJsonWithin? fuel) >>= fun b =>
        r.required 1 "name" Json.str? >>= fun n =>
          r.required 2 "kind" LookupKind.ofJson? >>= fun k => pure (Accessor.member b n k)) = _
    rw [Json.record?_obj_bind, Record.required_bind (by simp) hbase,
      Record.required_bind (by simp) (Json.str?_str name),
      Record.required_bind (by simp) (LookupKind.ofJson?_name kind)]
    rfl

/-- An accessor is read back. -/
theorem Accessor.ofJson?_toJson {a : Accessor} (h : a.Storable) :
    Accessor.ofJson? a.toJson = some a :=
  Accessor.ofJsonWithin?_toJson h (Nat.lt_succ_self _)

theorem Accessor.toJson_ne_null (a : Accessor) : a.toJson ≠ .null := by
  cases a <;> exact Json.noConfusion

/-! ## Operands without operands in them -/

/-- The location of a record is read back, whether there is one or not. -/
theorem loc?_bind {β : Type} {loc : Option Location} {members : List (String × Option Json)}
    {place : Nat} {next : Option Location → Option β} (hloc : Mark.Storable loc)
    (h : present? "loc" members = loc.map Location.toJson) :
    (loc? (Record.ofMembers members) place >>= next) = next loc := by
  rw [loc?, Record.optional_bind h fun l hl => ⟨Location.ofJson?_toJson (hloc l hl), nofun⟩,
    Option.map_id']

/-- A location is written as a member only where there is one. -/
@[simp] theorem present?_locMember (name : String) (loc : Option Location)
    (rest : List (String × Option Json)) :
    present? name (locMember loc :: rest) =
      if "loc" = name then (loc.map Location.toJson).or (present? name rest)
        else present? name rest :=
  Json.present?_cons ..

theorem Literal.ofJson?_toJson (l : Literal) : Literal.ofJson? l.toJson = some l := by
  cases l <;> rfl

/-- A lookup is read back with its accessor and the note of whether its end is required. -/
theorem Lookup.ofJson?_toJson {l : Lookup} (h : l.Storable) : Lookup.ofJson? l.toJson = some l := by
  rw [Lookup.toJson, Lookup.ofJson?, Json.record?_bind,
    Record.required_bind (by simp) (Accessor.ofJson?_toJson h.1),
    Record.withDefault_bind (by simp) (Json.bool?_bool l.requireTerminal),
    Record.required_bind (by simp) (Json.str?_str l.spelling), loc?_bind h.2 (by simp)]
  rfl

/-- The paths that a call notes are strings or absent, so no number restricts them. -/
theorem CallIds.ofJson?_toJson (i : CallIds) : CallIds.ofJson? i.toJson = some i := by
  have hpath : ∀ path : Option String,
      Json.option? Json.str? (orNull Json.str path) = some path := fun path =>
    Json.option?_orNull fun s _ => ⟨Json.str?_str s, Json.noConfusion⟩
  have hparams : Json.list? (Json.option? Json.str?) (.arr (i.params.map (orNull Json.str))) =
      some i.params := by
    rw [Json.list?, Json.all?_map fun path _ => hpath path, List.map_id']
  have hhash : Json.table? (Json.option? Json.str?)
      (.obj (Table.mapValues (orNull Json.str) i.hash)) =
      some i.hash := Json.table?_mapValues fun e _ => hpath e.2
  rw [CallIds.toJson, CallIds.ofJson?, Json.record?_obj_bind,
    Record.required_bind (by simp) hparams, Record.required_bind (by simp) hhash]
  rfl

/-! ## Operands -/

theorem Operand.toJsons_eq_map (os : List Operand) :
    Operand.toJsons os = os.map Operand.toJson := by
  induction os with
  | nil => rfl
  | cons o os ih => rw [Operand.toJsons, List.map_cons, ih]

theorem Operand.toJsonTable_eq_mapValues (os : List (String × Operand)) :
    Operand.toJsonTable os = Table.mapValues Operand.toJson os := by
  induction os with
  | nil => rfl
  | cons e os ih =>
    obtain ⟨name, o⟩ := e
    rw [Operand.toJsonTable, ih]
    rfl

section Operands

variable {N : Float → Prop} {operand : Json → Option Operand}

/-- Operands in a row can be stored one by one. -/
theorem Operand.allStorable_iff {os : List Operand} :
    Operand.AllStorable N os ↔ ∀ o ∈ os, o.Storable N := by
  induction os with
  | nil => exact ⟨fun _ _ h => absurd h List.not_mem_nil, fun _ => trivial⟩
  | cons o os ih => rw [Operand.AllStorable, List.forall_mem_cons, ih]

/-- So can operands under names. -/
theorem Operand.namedStorable_iff {os : List (String × Operand)} :
    Operand.NamedStorable N os ↔ ∀ e ∈ os, e.2.Storable N := by
  induction os with
  | nil => exact ⟨fun _ _ h => absurd h List.not_mem_nil, fun _ => trivial⟩
  | cons e os ih =>
    obtain ⟨name, o⟩ := e
    rw [Operand.NamedStorable, List.forall_mem_cons, ih]

/-- Named operands are read back if each of them is. -/
theorem Operand.table?_toJsonTable {os : List (String × Operand)}
    (h : ∀ e ∈ os, operand e.2.toJson = some e.2) :
    Json.table? operand (.obj (Operand.toJsonTable os)) = some os := by
  rw [Operand.toJsonTable_eq_mapValues, Json.table?_mapValues h]

/-- A call is read back if its arguments are. -/
theorem Call.ofJson?_toJson {c : Call} (hc : c.Storable N)
    (hparams : ∀ o ∈ c.params, operand o.toJson = some o)
    (hhash : ∀ e ∈ c.hash, operand e.2.toJson = some e.2) :
    Call.ofJson? operand c.toJson = some c := by
  obtain ⟨name, helper, value, params, hash, ids, loc⟩ := c
  obtain ⟨hhelper, hvalue, -, -, -, hloc⟩ := hc
  have hlist : Json.list? operand (.arr (Operand.toJsons params)) = some params := by
    rw [Json.list?, Operand.toJsons_eq_map, Json.all?_map hparams, List.map_id']
  rw [Call.toJson, Call.ofJson?, Json.record?_bind,
    Record.required_bind (by simp) (Json.str?_str name),
    Record.optional_bind (by simp : present? "helper" _ = helper.map Accessor.toJson)
      fun a ha => ⟨Accessor.ofJson?_toJson (hhelper a ha), a.toJson_ne_null⟩,
    Record.optional_bind (by simp : present? "value" _ = value.map Lookup.toJson)
      fun l hl => ⟨Lookup.ofJson?_toJson (hvalue l hl), Json.noConfusion⟩,
    Record.withDefault_bind (by simp) hlist,
    Record.withDefault_bind (by simp) (Operand.table?_toJsonTable hhash),
    Record.optional_bind (by simp : present? "ids" _ = ids.map CallIds.toJson)
      fun i _ => ⟨i.ofJson?_toJson, Json.noConfusion⟩,
    loc?_bind hloc (by simp), Option.map_id', Option.map_id', Option.map_id']
  rfl

/-! ### Nesting -/

/-- Arguments nest less deep than their call. -/
theorem Call.depth_params_lt (c : Call) :
    (Json.arr (Operand.toJsons c.params)).depth < c.toJson.depth := by
  cases c
  exact Json.depth_lt_compactObj "params" (by simp)

/-- Named arguments do too. -/
theorem Call.depth_hash_lt (c : Call) :
    (Json.obj (Operand.toJsonTable c.hash)).depth < c.toJson.depth := by
  cases c
  exact Json.depth_lt_compactObj "hash" (by simp)

mutual

/-- An operand is read back to any depth that it does not reach. -/
theorem Operand.ofJsonWithin?_toJson : ∀ {fuel : Nat} {o : Operand}, o.Storable N →
    o.toJson.depth < fuel → Operand.ofJsonWithin? fuel o.toJson = some o
  | fuel + 1, .literal v, _, _ => by
    rw [Operand.toJson, Operand.ofJsonWithin?, Json.variant?_variantObj]
    dsimp only
    rw [Literal.ofJson?_toJson]
    rfl
  | fuel + 1, .lookup l, h, _ => by
    rw [Operand.toJson, Operand.ofJsonWithin?, Json.variant?_variantObj]
    dsimp only
    rw [Lookup.ofJson?_toJson h]
    rfl
  | fuel + 1, .lambda l, h, _ => by
    rw [Operand.toJson, Operand.ofJsonWithin?, Json.variant?_variantObj]
    dsimp only
    rw [Lookup.ofJson?_toJson h]
    rfl
  -- Calls hold operands, which are less deep by the tag and the call.
  | fuel + 1, .call c, h, hdepth => by
    have hlt := Json.depth_lt_variantObj "call" c.toJson
    rw [Operand.toJson] at hdepth ⊢
    rw [Operand.ofJsonWithin?, Json.variant?_variantObj]
    dsimp only
    rw [Call.ofJsonWithin?_toJson h (by omega)]
    rfl
  | fuel + 1, .ambiguous c, h, hdepth => by
    have hlt := Json.depth_lt_variantObj "ambiguous" c.toJson
    rw [Operand.toJson] at hdepth ⊢
    rw [Operand.ofJsonWithin?, Json.variant?_variantObj]
    dsimp only
    rw [Call.ofJsonWithin?_toJson h (by omega)]
    rfl

/-- By recursion over the call: what stands in it is read to one depth less. -/
theorem Call.ofJsonWithin?_toJson : ∀ {fuel : Nat} {c : Call}, c.Storable N →
    c.toJson.depth ≤ fuel → Call.ofJson? (Operand.ofJsonWithin? fuel) c.toJson = some c
  | _, ⟨_, _, _, _, _, _, _⟩, h, hdepth => by
    refine Call.ofJson?_toJson h (Operand.allWithin_toJson h.2.2.1 fun j hj => ?_)
      (Operand.namedWithin_toJson h.2.2.2.1.1 fun e he => ?_)
    · exact Nat.lt_of_lt_of_le (Nat.lt_trans (Json.depth_lt_arr hj) (Call.depth_params_lt _)) hdepth
    · exact Nat.lt_of_lt_of_le (Nat.lt_trans (Json.depth_lt_obj he) (Call.depth_hash_lt _)) hdepth

theorem Operand.allWithin_toJson : ∀ {fuel : Nat} {os : List Operand}, Operand.AllStorable N os →
    (∀ j ∈ Operand.toJsons os, j.depth < fuel) →
    ∀ o ∈ os, Operand.ofJsonWithin? fuel o.toJson = some o
  | _, [], _, _ => nofun
  | fuel, o :: os, h, hdepth => by
    obtain ⟨ho, hos⟩ := List.forall_mem_cons.1 hdepth
    exact List.forall_mem_cons.2
      ⟨Operand.ofJsonWithin?_toJson h.1 ho, Operand.allWithin_toJson h.2 hos⟩

theorem Operand.namedWithin_toJson : ∀ {fuel : Nat} {os : List (String × Operand)},
    Operand.NamedStorable N os → (∀ e ∈ Operand.toJsonTable os, e.2.depth < fuel) →
    ∀ e ∈ os, Operand.ofJsonWithin? fuel e.2.toJson = some e.2
  | _, [], _, _ => nofun
  | fuel, (_, o) :: os, h, hdepth => by
    obtain ⟨ho, hos⟩ := List.forall_mem_cons.1 hdepth
    exact List.forall_mem_cons.2
      ⟨Operand.ofJsonWithin?_toJson h.1 ho, Operand.namedWithin_toJson h.2 hos⟩

end

/-- An operand is read back. -/
theorem Operand.ofJson?_toJson {o : Operand} (h : o.Storable N) :
    Operand.ofJson? o.toJson = some o :=
  Operand.ofJsonWithin?_toJson h (Nat.lt_succ_self _)

/-- Named operands are read back. -/
theorem Operand.named_ofJson?_toJson {os : List (String × Operand)}
    (h : Operand.NamedStorable N os) :
    ∀ e ∈ os, Operand.ofJson? e.2.toJson = some e.2 :=
  fun e he => Operand.ofJson?_toJson (Operand.namedStorable_iff.1 h e he)

/-- A call that opens a block is read back. -/
theorem Call.ofJson?_operand_toJson {c : Call} (h : c.Storable N) :
    Call.ofJson? Operand.ofJson? c.toJson = some c := by
  obtain ⟨name, helper, value, params, hash, ids, loc⟩ := c
  exact Call.ofJson?_toJson h
    (fun o ho => Operand.ofJson?_toJson (Operand.allStorable_iff.1 h.2.2.1 o ho))
    (Operand.named_ofJson?_toJson h.2.2.2.1.1)

/-! ## Instructions -/

/-- What opens a block is read back by the name of its variant. -/
theorem BlockKind.ofJson?_toJson {kind : BlockKind} (h : kind.Storable N) :
    BlockKind.ofJson? kind.toJson = some kind := by
  cases kind with
  | helper c =>
    show (Call.ofJson? Operand.ofJson? c.toJson).map BlockKind.helper = _
    rw [Call.ofJson?_operand_toJson h]
    rfl
  | ambiguous c =>
    show (Call.ofJson? Operand.ofJson? c.toJson).map BlockKind.ambiguous = _
    rw [Call.ofJson?_operand_toJson h]
    rfl
  | «section» o =>
    show (Operand.ofJson? o.toJson).map BlockKind.section = _
    rw [Operand.ofJson?_toJson h]
    rfl

/-- The number of a program is read back, or that there is none. -/
theorem option?_id {id : Option Nat} (h : StorableId id) :
    Json.option? Json.word64? (orNull natJson id) = some id :=
  Json.option?_orNull fun n hn => ⟨Json.word64?_int (h n hn), Json.noConfusion⟩

/-- The programs of a block are written as indices or null. -/
theorem BlockCall.ofJson?_toJson {b : BlockCall} (h : b.Storable N) :
    BlockCall.ofJson? b.toJson = some b := by
  obtain ⟨hkind, hprogram, hinverse, hloc⟩ := h
  rw [BlockCall.toJson, BlockCall.ofJson?, Json.record?_bind,
    Record.required_bind (by simp) (BlockKind.ofJson?_toJson hkind),
    Record.required_bind (by simp) (Json.str?_str b.name),
    Record.nullable_bind (by simp) (option?_id hprogram),
    Record.nullable_bind (by simp) (option?_id hinverse), loc?_bind hloc (by simp)]
  rfl

/-- A name that is given is a string, one that is computed an operand. -/
theorem PartialName.ofJson?_toJson {name : PartialName} (h : name.Storable N) :
    PartialName.ofJson? name.toJson = some name := by
  cases name with
  | fixed written accessor =>
    show (Json.record? 2 (.obj [("name", .str written), ("accessor", accessor.toJson)]) >>= fun r =>
      r.required 0 "name" Json.str? >>= fun n =>
        r.required 1 "accessor" Accessor.ofJson? >>= fun a => pure (PartialName.fixed n a)) = _
    rw [Json.record?_obj_bind, Record.required_bind (by simp) (Json.str?_str written),
      Record.required_bind (by simp) (Accessor.ofJson?_toJson h)]
    rfl
  | computed o =>
    show (Operand.ofJson? o.toJson).map PartialName.computed = _
    rw [Operand.ofJson?_toJson h]
    rfl

/-- A call of a partial is read back with its context, its named arguments and its body. -/
theorem PartialInvocation.ofJson?_toJson {p : PartialInvocation} (h : p.Storable N) :
    PartialInvocation.ofJson? p.toJson = some p := by
  obtain ⟨hname, hcontext, ⟨hhash, -⟩, hprogram, hloc⟩ := h
  have hhash := Operand.table?_toJsonTable (Operand.named_ofJson?_toJson hhash)
  rw [PartialInvocation.toJson, PartialInvocation.ofJson?, Json.record?_bind,
    Record.required_bind (by simp) (PartialName.ofJson?_toJson hname),
    Record.required_bind (by simp) (Operand.ofJson?_toJson hcontext),
    Record.withDefault_bind (by simp) hhash,
    Record.withDefault_bind (by simp) (Json.str?_str p.indent),
    Record.nullable_bind (by simp) (option?_id hprogram), loc?_bind hloc (by simp)]
  rfl

/-- Instructions are told apart by the names of their variants. -/
theorem Instruction.ofJson?_toJson {i : Instruction} (h : i.Storable N) :
    Instruction.ofJson? i.toJson = some i := by
  cases i with
  | content text => rfl
  | append o escape =>
    show (Json.record? 2 (.obj [("value", o.toJson), ("escape", .bool escape)]) >>= fun r =>
      r.required 0 "value" Operand.ofJson? >>= fun v =>
        r.required 1 "escape" Json.bool? >>= fun e => pure (Instruction.append v e)) = _
    rw [Json.record?_obj_bind, Record.required_bind (by simp) (Operand.ofJson?_toJson h),
      Record.required_bind (by simp) (Json.bool?_bool escape)]
    rfl
  | block b =>
    show (BlockCall.ofJson? b.toJson).map Instruction.block = _
    rw [BlockCall.ofJson?_toJson h]
    rfl
  | partialCall p =>
    show (PartialInvocation.ofJson? p.toJson).map Instruction.partialCall = _
    rw [PartialInvocation.ofJson?_toJson h]
    rfl

/-- A chunk is its instructions and the count of its block parameters. -/
theorem Chunk.ofJson?_toJson {c : Chunk} (h : c.Storable N) : Chunk.ofJson? c.toJson = some c := by
  have hlist : Json.list? Instruction.ofJson? (.arr (c.instructions.map Instruction.toJson)) =
      some c.instructions := by
    rw [Json.list?, Json.all?_map fun i hi => Instruction.ofJson?_toJson (h.1 i hi), List.map_id']
  rw [Chunk.toJson, Chunk.ofJson?, Json.record?_obj_bind, Record.required_bind (by simp) hlist,
    Record.withDefault_bind (by simp) (word64?_natJson h.2)]
  rfl

end Operands

/-! ## Specs -/

theorem Features.ofJson?_toJson (f : Features) : Features.ofJson? f.toJson = some f := by
  have hbits : Json.word32? (natJson f.bits.toNat) = some f.bits.toNat :=
    Json.word32?_int f.bits.toNat_lt
  rw [Features.toJson, Features.ofJson?, hbits, Option.map_some, UInt32.ofNat_toNat]

/-- A stamp is a revision, a version and a set of features. -/
theorem Stamp.ofJson?_toJson {s : Stamp} (h : s.Storable) : Stamp.ofJson? s.toJson = some s := by
  rw [Stamp.toJson, Stamp.ofJson?, Json.record?_obj_bind,
    Record.required_bind (by simp) (word32?_natJson h),
    Record.required_bind (by simp) (Json.str?_str s.version),
    Record.withDefault_bind (by simp) (Features.ofJson?_toJson s.features)]
  rfl

theorem Arity.ofJson?_toJson {a : Arity} (h : a.Storable) : Arity.ofJson? a.toJson = some a := by
  cases a with
  | any => rfl
  | exactly count =>
    show (Json.word64? (.int count)).map Arity.exactly = _
    rw [Json.word64?_int h]
    rfl

/-- Options are flags and a table of known helpers, of which each has an arity. -/
theorem Options.ofJson?_toJson {o : Options} (h : o.Storable) :
    Options.ofJson? o.toJson = some o := by
  have hknown : Json.table? Arity.ofJson? (KnownHelpers.toJson o.knownHelpers) =
      some o.knownHelpers :=
    Json.table?_mapValues fun e he => Arity.ofJson?_toJson (h.2 e he)
  rw [Options.toJson, Options.ofJson?]
  dsimp only
  rw [Json.record?_obj_bind, Record.withDefault_bind (by simp) (Json.bool?_bool o.strict),
    Record.withDefault_bind (by simp) (Json.bool?_bool o.compat),
    Record.withDefault_bind (by simp) (Json.bool?_bool o.assumeObjects),
    Record.withDefault_bind (by simp) (Json.bool?_bool o.preventIndent),
    Record.withDefault_bind (by simp) hknown,
    Record.withDefault_bind (by simp) (Json.bool?_bool o.knownHelpersOnly),
    Record.withDefault_bind (by simp) (Json.bool?_bool o.trackIds),
    Record.withDefault_bind (by simp) (Json.bool?_bool o.noEscape),
    Record.withDefault_bind (by simp) (Json.bool?_bool o.explicitPartialContext),
    Record.withDefault_bind (by simp) (Json.bool?_bool o.ignoreStandalone),
    Record.withDefault_bind (by simp) (Json.bool?_bool o.trackLocations)]
  rfl

theorem BufferKind.ofJson?_name (b : BufferKind) : BufferKind.ofJson? (.str b.name) = some b := by
  cases b <;> rfl

/-- Code that can be stored is read back from its form. -/
theorem Spec.ofJson?_toJson {N : Float → Prop} {s : Spec} (h : s.Storable N) :
    Spec.ofJson? s.toJson = some s := by
  obtain ⟨hstamp, hmain, hprograms, hoptions⟩ := h
  have hlist : Json.list? Chunk.ofJson? (.arr (s.programs.map Chunk.toJson)) = some s.programs := by
    rw [Json.list?, Json.all?_map fun c hc => Chunk.ofJson?_toJson (hprograms c hc), List.map_id']
  rw [Spec.toJson, Spec.ofJson?, Json.record?_obj_bind,
    Record.required_bind (by simp) (Stamp.ofJson?_toJson hstamp),
    Record.required_bind (by simp) (word64?_natJson hmain), Record.required_bind (by simp) hlist,
    Record.required_bind (by simp) (Options.ofJson?_toJson hoptions),
    Record.withDefault_bind (by simp) (BufferKind.ofJson?_name s.buffer)]
  rfl

end Stencil.Code
