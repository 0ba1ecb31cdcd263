import Stencil.Proofs.Code.Storable
import Stencil.Proofs.Tree.Legible

/-!
# Forms of code as texts

The form of code that can be stored is legible: the names of each of its objects differ, and its
words fit into an integer of JSON. Its number literals have to be read back from their numerals
(`Spec.legible_toJson`).
-/

set_option autoImplicit false

namespace Stencil.Json

open Stencil.Code (variantObj natJson orNull)

/-- A variant has one member, so no name comes twice. -/
theorem legible_variantObj {name : String} {data : Json} (h : data.Legible) :
    (variantObj name data).Legible :=
  ⟨by simp [Table.names], h, trivial⟩

/-- An index is a word of 64 bits, which fits into an integer of JSON. -/
theorem legible_natJson {n : Nat} (h : n < UInt64.size) : (natJson n).Legible := by
  refine ⟨?_, Int.ofNat_lt.2 h⟩
  exact Int.le_trans (by decide) (Int.natCast_nonneg n)

/-- What is absent is written as null. -/
theorem legible_orNull {α : Type} {write : α → Json} {o : Option α}
    (h : ∀ a, o = some a → (write a).Legible) : (orNull write o).Legible := by
  cases o with
  | none => trivial
  | some a => exact h a rfl

/-- An object is legible if the names of its members differ and each of them is legible. -/
theorem legible_obj {entries : List (String × Json)} (hnames : (Table.names entries).Nodup)
    (h : ∀ e ∈ entries, e.2.Legible) : (Json.obj entries).Legible :=
  ⟨hnames, allLegibleMembers_iff.2 h⟩

/-- Items are legible one by one. -/
theorem allLegible_iff {items : List Json} : AllLegible items ↔ ∀ j ∈ items, j.Legible := by
  induction items with
  | nil => exact ⟨fun _ _ h => absurd h List.not_mem_nil, fun _ => trivial⟩
  | cons j items ih => rw [AllLegible, List.forall_mem_cons, ih]

/-- Values that are written one by one are legible as a list. -/
theorem legible_map {α : Type} {write : α → Json} {as : List α} (h : ∀ a ∈ as, (write a).Legible) :
    (Json.arr (as.map write)).Legible :=
  allLegible_iff.2 (List.forall_mem_map.2 h)

/-- Values that are written under different names are legible as an object. -/
theorem legible_mapValues {α : Type} {write : α → Json} {t : Table α} (hnames : t.names.Nodup)
    (h : ∀ e ∈ t, (write e.2).Legible) : (Json.obj (Table.mapValues write t)).Legible := by
  have heq : Table.names (Table.mapValues write t) = t.names := by
    rw [Table.names, Table.mapValues, List.map_map]
    rfl
  exact legible_obj (heq ▸ hnames) (List.forall_mem_map.2 h)

end Stencil.Json

namespace Stencil.Code

open Stencil.Text (Location)
open Stencil.Tree (Mark)
open Stencil.Json (ReadsBack LegibleOpt)

theorem size_lt {n : Nat} (h : n < UInt32.size) : n < UInt64.size := Nat.lt_trans h (by decide)

/-! ## Operands -/

theorem legible_depth {n : Nat} (h : n < UInt32.size) : (Json.obj [("depth", natJson n)]).Legible :=
  Json.legible_obj (by simp [Table.names]) (by simp [Json.legible_natJson (size_lt h)])

/-- By recursion over the accessor: its names are strings and its numbers words. -/
theorem Accessor.legible_toJson : ∀ {a : Accessor}, a.Storable → a.toJson.Legible
  | .context _, h | .data _, h => Json.legible_variantObj (legible_depth h)
  | .blockParam _ _, h => by
    have hdepth := Json.legible_natJson h.1
    have hindex := Json.legible_natJson h.2
    refine Json.legible_variantObj (Json.legible_obj (by simp [Table.names]) ?_)
    simp [hdepth, hindex]
  | .helpers, _ | .partials, _ => trivial
  | .anyContext _, _ =>
    Json.legible_variantObj (Json.legible_obj (by simp [Table.names]) (by simp))
  | .member base _ _, h => by
    have hbase : base.toJson.Legible := Accessor.legible_toJson h
    refine Json.legible_variantObj (Json.legible_obj (by simp [Table.names]) ?_)
    simp [hbase]

@[simp] theorem locMember_fst (loc : Option Location) : (locMember loc).1 = "loc" := rfl

theorem legible_locMember {loc : Option Location} (h : Mark.Storable loc) :
    LegibleOpt (locMember loc).2 :=
  Json.legibleOpt_map fun l hl => Location.legible_toJson (h l hl)

/-- A number literal is legible if it is read back. -/
theorem Literal.legible_toJson {l : Literal} (h : l.Storable ReadsBack) : l.toJson.Legible := by
  cases l with
  | number x => exact Json.legible_variantObj h
  | string | boolean => exact Json.legible_variantObj trivial
  | undefined | null => trivial

/-- A lookup is its accessor, a flag and where it stands. -/
theorem Lookup.legible_toJson {l : Lookup} (h : l.Storable) : l.toJson.Legible := by
  have haccessor := Accessor.legible_toJson h.1
  have hloc := legible_locMember h.2
  refine Json.legible_compactObj (by simp) ?_
  simp [haccessor, hloc]

/-- The names of arguments in a table differ. -/
theorem CallIds.legible_toJson {i : CallIds} (h : i.Storable) : i.toJson.Legible := by
  have hparams : (Json.arr (i.params.map (orNull Json.str))).Legible :=
    Json.legible_map fun _ _ => Json.legible_orNull fun _ _ => trivial
  have hhash : (Json.obj (Table.mapValues (orNull Json.str) i.hash)).Legible :=
    Json.legible_mapValues h fun _ _ => Json.legible_orNull fun _ _ => trivial
  refine Json.legible_obj (by simp [Table.names]) ?_
  simp only [List.forall_mem_cons]
  exact ⟨hparams, hhash, List.forall_mem_nil _⟩

/-- Operands are written under their own names. -/
theorem Operand.names_toJsonTable (os : List (String × Operand)) :
    Table.names (Operand.toJsonTable os) = Table.names os := by
  rw [Operand.toJsonTable_eq_mapValues, Table.names, Table.mapValues, List.map_map]
  rfl

mutual

theorem Operand.legible_toJson : ∀ {o : Operand}, o.Storable ReadsBack → o.toJson.Legible
  | .literal _, h => Json.legible_variantObj (Literal.legible_toJson h)
  | .lookup _, h | .lambda _, h => Json.legible_variantObj (Lookup.legible_toJson h)
  | .call _, h | .ambiguous _, h => Json.legible_variantObj (Call.legible_toJson h)

/-- By recursion over the call: the names of its named arguments differ, since they are those of a
table. -/
theorem Call.legible_toJson : ∀ {c : Call}, c.Storable ReadsBack → c.toJson.Legible
  | ⟨name, helper, value, params, hash, ids, loc⟩,
      ⟨hhelper, hvalue, hparams, ⟨hhash, hnames⟩, hids, hloc⟩ => by
    have hhelper := Json.legibleOpt_map fun a ha => Accessor.legible_toJson (hhelper a ha)
    have hvalue := Json.legibleOpt_map fun l hl => Lookup.legible_toJson (hvalue l hl)
    have hparams := Operand.allLegible_toJsons hparams
    have hhash : (Json.obj (Operand.toJsonTable hash)).Legible :=
      ⟨Operand.names_toJsonTable hash ▸ hnames, Operand.legible_toJsonTable hhash⟩
    have hids := Json.legibleOpt_map fun i hi => CallIds.legible_toJson (hids i hi)
    have hloc := legible_locMember hloc
    refine Json.legible_compactObj (by simp) ?_
    simp [hhelper, hvalue, hparams, hhash, hids, hloc]

theorem Operand.allLegible_toJsons : ∀ {os : List Operand}, Operand.AllStorable ReadsBack os →
    Json.AllLegible (Operand.toJsons os)
  | [], _ => trivial
  | _ :: _, h => ⟨Operand.legible_toJson h.1, Operand.allLegible_toJsons h.2⟩

theorem Operand.legible_toJsonTable : ∀ {os : List (String × Operand)},
    Operand.NamedStorable ReadsBack os → Json.AllLegibleMembers (Operand.toJsonTable os)
  | [], _ => trivial
  | (_, _) :: _, h => ⟨Operand.legible_toJson h.1, Operand.legible_toJsonTable h.2⟩

end

/-! ## Instructions -/

/-- What opens a block is a variant of an operand or a call. -/
theorem BlockKind.legible_toJson {kind : BlockKind} (h : kind.Storable ReadsBack) :
    kind.toJson.Legible := by
  cases kind with
  | helper | ambiguous => exact Json.legible_variantObj (Call.legible_toJson h)
  | «section» o => exact Json.legible_variantObj (Operand.legible_toJson h)

theorem legible_id {id : Option Nat} (h : StorableId id) : (orNull natJson id).Legible :=
  Json.legible_orNull fun n hn => Json.legible_natJson (h n hn)

theorem BlockCall.legible_toJson {b : BlockCall} (h : b.Storable ReadsBack) : b.toJson.Legible := by
  have hkind := BlockKind.legible_toJson h.1
  have hprogram := legible_id h.2.1
  have hinverse := legible_id h.2.2.1
  have hloc := legible_locMember h.2.2.2
  refine Json.legible_compactObj (by simp) ?_
  simp [hkind, hprogram, hinverse, hloc]

/-- A name that is given is a string, one that is computed an operand. -/
theorem PartialName.legible_toJson {name : PartialName} (h : name.Storable ReadsBack) :
    name.toJson.Legible := by
  cases name with
  | fixed written accessor =>
    have haccessor : accessor.toJson.Legible := Accessor.legible_toJson h
    refine Json.legible_variantObj (Json.legible_obj (by simp [Table.names]) ?_)
    simp [haccessor]
  | computed o => exact Json.legible_variantObj (Operand.legible_toJson h)

/-- The members of a call of a partial differ in name, and each is legible. -/
theorem PartialInvocation.legible_toJson {p : PartialInvocation} (h : p.Storable ReadsBack) :
    p.toJson.Legible := by
  obtain ⟨hname, hcontext, ⟨hhash, hnames⟩, hprogram, hloc⟩ := h
  have hname := PartialName.legible_toJson hname
  have hcontext := Operand.legible_toJson hcontext
  have hhash : (Json.obj (Operand.toJsonTable p.hash)).Legible :=
    ⟨Operand.names_toJsonTable p.hash ▸ hnames, Operand.legible_toJsonTable hhash⟩
  have hprogram := legible_id hprogram
  have hloc := legible_locMember hloc
  refine Json.legible_compactObj (by simp) ?_
  simp [hname, hcontext, hhash, hprogram, hloc]

/-- An instruction is a variant of what it carries. -/
theorem Instruction.legible_toJson {i : Instruction} (h : i.Storable ReadsBack) :
    i.toJson.Legible := by
  cases i with
  | content text => exact Json.legible_variantObj trivial
  | append o escape =>
    have ho : o.toJson.Legible := Operand.legible_toJson h
    refine Json.legible_variantObj (Json.legible_obj (by simp [Table.names]) ?_)
    simp [ho]
  | block b => exact Json.legible_variantObj (BlockCall.legible_toJson h)
  | partialCall p => exact Json.legible_variantObj (PartialInvocation.legible_toJson h)

theorem Chunk.legible_toJson {c : Chunk} (h : c.Storable ReadsBack) : c.toJson.Legible := by
  have hinstructions : (Json.arr (c.instructions.map Instruction.toJson)).Legible :=
    Json.legible_map fun i hi => Instruction.legible_toJson (h.1 i hi)
  refine Json.legible_obj (by simp [Table.names]) ?_
  simp only [List.forall_mem_cons]
  exact ⟨hinstructions, Json.legible_natJson h.2, List.forall_mem_nil _⟩

/-! ## Specs -/

theorem Stamp.legible_toJson {s : Stamp} (h : s.Storable) : s.toJson.Legible := by
  have hrevision := Json.legible_natJson (size_lt h)
  have hfeatures : s.features.toJson.Legible :=
    Json.legible_natJson (size_lt s.features.bits.toNat_lt)
  refine Json.legible_obj (by simp [Table.names]) ?_
  simp [hrevision, hfeatures]

theorem Arity.legible_toJson {a : Arity} (h : a.Storable) : a.toJson.Legible := by
  cases a with
  | any => trivial
  | exactly count => exact Json.legible_variantObj (Json.legible_natJson h)

/-- Known helpers are written under their names, which differ. -/
theorem Options.legible_toJson {o : Options} (h : o.Storable) : o.toJson.Legible := by
  have hknown : (KnownHelpers.toJson o.knownHelpers).Legible :=
    Json.legible_mapValues h.1 fun e he => Arity.legible_toJson (h.2 e he)
  refine Json.legible_obj (by simp [Table.names]) ?_
  simp [hknown]

/-- The form of code that can be stored is legible if its numbers are read back. -/
theorem Spec.legible_toJson {s : Spec} (h : s.Storable ReadsBack) : s.toJson.Legible := by
  obtain ⟨hstamp, hmain, hprograms, hoptions⟩ := h
  have hprograms : (Json.arr (s.programs.map Chunk.toJson)).Legible :=
    Json.legible_map fun c hc => Chunk.legible_toJson (hprograms c hc)
  refine Json.legible_obj (by simp [Table.names]) ?_
  simp only [List.forall_mem_cons]
  exact ⟨Stamp.legible_toJson hstamp, Json.legible_natJson hmain, hprograms,
    Options.legible_toJson hoptions, trivial, List.forall_mem_nil _⟩

/-- Code that can be stored is read back from its text if its form nests no deeper than a text may,
and else not at all. -/
theorem Spec.ofText?_text {s : Spec} (h : s.Storable ReadsBack) :
    Spec.ofText? s.text = if s.toJson.depth ≤ Json.maxDepth then some s else none := by
  rw [Spec.ofText?, Spec.text, Json.read?_text_eq_ite (Spec.legible_toJson h)]
  by_cases hdepth : s.toJson.depth ≤ Json.maxDepth
  · rw [if_pos hdepth, if_pos hdepth, Option.bind_some, Spec.ofJson?_toJson h]
  · rw [if_neg hdepth, if_neg hdepth, Option.bind_none]

end Stencil.Code
