/-!
# Tables in insertion order

A finite map from names to values that remembers the order in which its names
were first entered. Entering a name again replaces its value and keeps its
place. Two tables are alike when they give every name the same value, whatever
their order.
-/

set_option autoImplicit false

namespace Stencil

/-- The entries of a table, each name once. -/
abbrev Table (α : Type) := List (String × α)

namespace Table

variable {α β : Type}

/-- The value of a name. -/
def get? (name : String) : Table α → Option α
  | [] => none
  | (k, v) :: rest => if k = name then some v else get? name rest

/-- Whether a name has an entry. -/
def contains (t : Table α) (name : String) : Bool := (t.get? name).isSome

/-- The table with `name` standing for `value`: in its old place if it has one,
else at the end. -/
def insert (name : String) (value : α) : Table α → Table α
  | [] => [(name, value)]
  | (k, v) :: rest => if k = name then (k, value) :: rest else (k, v) :: insert name value rest

/-- The table without a name; the others keep their order. -/
def erase (name : String) : Table α → Table α
  | [] => []
  | (k, v) :: rest => if k = name then rest else (k, v) :: erase name rest

/-- The names in order. -/
def names (t : Table α) : List String := t.map Prod.fst

/-- The table with the same names and each value mapped. -/
def mapValues (f : α → β) (t : Table α) : Table β := t.map fun e => (e.1, f e.2)

/-- The table that a list of entries makes when they are entered one by one. -/
def ofList (entries : List (String × α)) : Table α :=
  entries.foldl (fun t e => insert e.1 e.2 t) []

/-- Equal values under equal names, in any order. -/
def alike [BEq α] (s t : Table α) : Bool :=
  (s.names ++ t.names).all fun name => s.get? name == t.get? name

/-- What was entered last under a name is found there. -/
@[simp] theorem get?_insert_self (t : Table α) (name : String) (value : α) :
    get? name (insert name value t) = some value := by
  induction t with
  | nil => simp [insert, get?]
  | cons e rest ih =>
    obtain ⟨k, v⟩ := e
    by_cases h : k = name <;> simp [insert, get?, h, ih]

/-- Entering one name changes no other. -/
theorem get?_insert_of_ne (t : Table α) {name other : String} (value : α) (h : name ≠ other) :
    get? other (insert name value t) = get? other t := by
  induction t with
  | nil => simp [insert, get?, h]
  | cons e rest ih =>
    obtain ⟨k, v⟩ := e
    by_cases hk : k = name
    · subst hk; simp [insert, get?, h]
    · have ho : other ≠ name := fun e => h e.symm
      by_cases hko : k = other
      · subst hko; simp [insert, get?, hk]
      · simp [insert, get?, hk, hko, ih]

/-- What is found under a name was entered under it. -/
theorem mem_of_get? {name : String} {value : α} :
    ∀ {t : Table α}, t.get? name = some value → (name, value) ∈ t
  | (k, v) :: rest, h => by
    by_cases hk : k = name
    · simp only [get?, hk, if_true, Option.some.injEq] at h
      simp [hk, h]
    · simp only [get?, hk, if_false] at h
      exact List.mem_cons_of_mem _ (mem_of_get? h)

/-- What is not among the names has no value. -/
theorem get?_eq_none {name : String} : ∀ {t : Table α}, name ∉ t.names → t.get? name = none
  | [], _ => rfl
  | (k, v) :: rest, h => by
    obtain ⟨hk, hrest⟩ := not_or.1 (mt List.mem_cons.2 h)
    rw [get?, if_neg (Ne.symm hk), get?_eq_none hrest]

/-- What has no value is not among the names. -/
theorem not_mem_names {name : String} : ∀ {t : Table α}, t.get? name = none → name ∉ t.names
  | [], _ => List.not_mem_nil
  | (k, v) :: rest, h => by
    rw [get?] at h
    split at h
    next => cases h
    next hk => exact mt List.mem_cons.1 (not_or.2 ⟨Ne.symm hk, not_mem_names h⟩)

/-- Alike tables give every name the same value. -/
theorem alike_iff [BEq α] [LawfulBEq α] {s t : Table α} :
    s.alike t = true ↔ ∀ name, s.get? name = t.get? name := by
  simp only [alike, List.all_eq_true, List.mem_append, beq_iff_eq]
  refine ⟨fun h name => ?_, fun h name _ => h name⟩
  by_cases hname : name ∈ s.names ∨ name ∈ t.names
  · exact h name hname
  · obtain ⟨hs, ht⟩ := not_or.1 hname
    rw [get?_eq_none hs, get?_eq_none ht]

end Table

end Stencil
