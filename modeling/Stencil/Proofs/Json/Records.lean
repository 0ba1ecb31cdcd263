import Stencil.Json.Decode

/-!
# Reading records that were written

A record is written as an object whose absent members are left out (`compactObj`), and read member
by member. What is read of a member is what was written of it (`present?_cons`). A reader goes on
with what it has read: `required_bind`, `withDefault_bind` and `optional_bind` say so for a member
that must be there, one with a default and one that may be missing. Lists are read item by item
(`all?_map`).

Members and items nest less deep than what holds them, so a reader that bounds its recursion by the
depth of a value reaches them all.
-/

set_option autoImplicit false

namespace Stencil.Json

variable {α β : Type} {members : List (String × Option Json)} {name : String} {place : Nat}

/-! ## Members -/

/-- The member of a name, if it is present. -/
def present? (name : String) (members : List (String × Option Json)) : Option Json :=
  Table.get? name (members.filterMap fun m => m.2.map fun j => (m.1, j))

@[simp] theorem present?_nil (name : String) : present? name [] = none := rfl

@[simp] theorem present?_cons (name key : String) (o : Option Json)
    (rest : List (String × Option Json)) :
    present? name ((key, o) :: rest) =
      if key = name then o.or (present? name rest) else present? name rest := by
  cases o with
  | none => rw [Option.none_or, ite_self]; rfl
  | some j => rw [Option.some_or]; rfl

/-- The record of the members that are present. -/
def Record.ofMembers (members : List (String × Option Json)) : Record :=
  ⟨fun _ name => present? name members⟩

theorem record?_compactObj (count : Nat) (members : List (String × Option Json)) :
    (compactObj members).record? count = some (Record.ofMembers members) := rfl

/-- An object none of whose members may be absent. -/
theorem obj_eq_compactObj (entries : List (String × Json)) :
    Json.obj entries = compactObj (entries.map fun m => (m.1, some m.2)) := by
  rw [compactObj, List.filterMap_map]
  exact congrArg Json.obj List.filterMap_some.symm

/-- What stands under a tag is read back with the tag. -/
theorem tagged?_compactObj (names : List String) (numbered : Bool) (tag : String)
    (members : List (String × Option Json)) :
    (compactObj (("type", some (.str tag)) :: members)).tagged? names numbered =
      some (tag, compactObj (("type", some (.str tag)) :: members)) := by
  have htype : present? "type" (("type", some (.str tag)) :: members) = some (.str tag) := by simp
  rw [present?] at htype
  rw [compactObj, tagged?, htype]
  rfl

/-! ## Reading members -/

theorem option?_of_ne_null {read : Json → Option α} {j : Json} (h : j ≠ .null) :
    option? read j = (read j).map some := by
  cases j with
  | null => exact absurd rfl h
  | _ => rfl

section Steps

variable {read : Json → Option α} {j : Json} {a : α} {next : α → Option β}

theorem record?_bind {count : Nat} {next : Record → Option β} :
    ((compactObj members).record? count >>= next) = next (Record.ofMembers members) := rfl

theorem record?_obj_bind {count : Nat} {entries : List (String × Json)} {next : Record → Option β} :
    ((Json.obj entries).record? count >>= next) =
      next (Record.ofMembers (entries.map fun m => (m.1, some m.2))) := by
  rw [obj_eq_compactObj, record?_bind]

namespace Record

/-- A member that was written is read. -/
theorem required_eq (h : present? name members = some j) (hread : read j = some a) :
    (ofMembers members).required place name read = some a := by
  rw [required, show (ofMembers members).member? place name = some j from h,
    Option.bind_some, hread]

theorem required_bind (h : present? name members = some j) (hread : read j = some a) :
    ((ofMembers members).required place name read >>= next) = next a := by
  rw [required_eq h hread]
  rfl

/-- A member that was written is read, also where there is a default. -/
theorem withDefault_bind {default : α} (h : present? name members = some j)
    (hread : read j = some a) :
    ((ofMembers members).withDefault place name default read >>= next) = next a := by
  rw [withDefault, show (ofMembers members).member? place name = some j from h]
  dsimp only
  rw [hread]
  rfl

/-- A member that was left out has its default. -/
theorem absent_bind {default : α} (h : present? name members = none) :
    ((ofMembers members).withDefault place name default read >>= next) = next default := by
  rw [withDefault, show (ofMembers members).member? place name = none from h]
  rfl

/-- A member that is left out where it would be the default is read, written or not. -/
theorem skipped_bind {default : α} {o : Option Json} (h : present? name members = o)
    (hread : o.elim (a = default) fun j => read j = some a) :
    ((ofMembers members).withDefault place name default read >>= next) = next a := by
  cases o with
  | none =>
    rw [show a = default from hread]
    exact absent_bind h
  | some j => exact withDefault_bind h hread

/-- A member that is written only if there is a value is read as that value. -/
theorem optional_bind {γ : Type} {write : γ → Json} {f : γ → α} {o : Option γ}
    {next : Option α → Option β} (h : present? name members = o.map write)
    (hread : ∀ c, o = some c → read (write c) = some (f c) ∧ write c ≠ .null) :
    ((ofMembers members).optional place name read >>= next) = next (o.map f) := by
  cases o with
  | none => exact absent_bind h
  | some c =>
    obtain ⟨hread, hnull⟩ := hread c rfl
    refine withDefault_bind h ?_
    rw [option?_of_ne_null hnull, hread]
    rfl

/-- A member that is always written, as null if there is no value. -/
theorem nullable_bind {o : Option α} {next : Option α → Option β}
    (h : present? name members = some j) (hread : option? read j = some o) :
    ((ofMembers members).optional place name read >>= next) = next o :=
  withDefault_bind h hread

end Record

end Steps

/-! ## Values -/

@[simp] theorem bool?_bool (b : Bool) : bool? (.bool b) = some b := rfl

@[simp] theorem str?_str (s : String) : str? (.str s) = some s := rfl

@[simp] theorem float?_float (x : Float) : float? (.float x) = some x := rfl

theorem nat?_int {bound n : Nat} (h : n < bound) : nat? bound (.int n) = some n := by
  rw [nat?, if_pos ⟨Int.natCast_nonneg n, Int.ofNat_lt.2 h⟩, Int.toNat_natCast]

theorem word32?_int {n : Nat} (h : n < UInt32.size) : word32? (.int n) = some n := nat?_int h

theorem word64?_int {n : Nat} (h : n < UInt64.size) : word64? (.int n) = some n := nat?_int h

/-- Items that were written one by one are read one by one. -/
theorem all?_map {read : Json → Option β} {write : α → Json} {f : α → β} {as : List α}
    (h : ∀ a ∈ as, read (write a) = some (f a)) : all? read (as.map write) = some (as.map f) := by
  induction as with
  | nil => rfl
  | cons a as ih =>
    obtain ⟨ha, has⟩ := List.forall_mem_cons.1 h
    rw [List.map_cons, all?, ha, ih has]
    rfl

@[simp] theorem list?_strs (texts : List String) :
    list? str? (.arr (texts.map Json.str)) = some texts := by
  have htexts : all? str? (texts.map Json.str) = some (texts.map id) := all?_map fun _ _ => rfl
  rw [List.map_id] at htexts
  exact htexts

/-- Members that were written one by one are read one by one. -/
theorem table?_mapValues {read : Json → Option α} {write : α → Json} {t : Table α}
    (h : ∀ e ∈ t, read (write e.2) = some e.2) :
    table? read (.obj (Table.mapValues write t)) = some t := by
  show allMembers? read (t.map fun e => (e.1, write e.2)) = some t
  induction t with
  | nil => rfl
  | cons e t ih =>
    obtain ⟨he, ht⟩ := List.forall_mem_cons.1 h
    rw [List.map_cons, allMembers?, he, ih ht]

/-! ## Depth -/

theorem depth_le_depths {items : List Json} {j : Json} (h : j ∈ items) :
    depth j ≤ depths items := by
  induction items with
  | nil => cases h
  | cons item items ih =>
    rcases List.mem_cons.1 h with rfl | h
    · exact Nat.le_max_left _ _
    · exact Nat.le_trans (ih h) (Nat.le_max_right _ _)

/-- An item nests less deep than its list. -/
theorem depth_lt_arr {items : List Json} {j : Json} (h : j ∈ items) :
    depth j < depth (.arr items) :=
  Nat.lt_succ_of_le (depth_le_depths h)

theorem depth_le_memberDepths {entries : List (String × Json)} {key : String} {j : Json}
    (h : (key, j) ∈ entries) : depth j ≤ memberDepths entries := by
  induction entries with
  | nil => cases h
  | cons entry entries ih =>
    rcases List.mem_cons.1 h with rfl | h
    · exact Nat.le_max_left _ _
    · exact Nat.le_trans (ih h) (Nat.le_max_right _ _)

/-- A member nests less deep than its object. -/
theorem depth_lt_obj {entries : List (String × Json)} {key : String} {j : Json}
    (h : (key, j) ∈ entries) : depth j < depth (.obj entries) :=
  Nat.lt_succ_of_le (depth_le_memberDepths h)

/-- A member that is present nests less deep than its object. -/
theorem depth_lt_compactObj (key : String) {j : Json} (h : (key, some j) ∈ members) :
    depth j < depth (compactObj members) :=
  Nat.lt_succ_of_le (depth_le_memberDepths (List.mem_filterMap.2 ⟨(key, some j), h, rfl⟩))

end Stencil.Json
