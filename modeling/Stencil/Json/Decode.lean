import Stencil.Json.Basic

/-!
# Taking JSON apart

Readers of JSON values for the interchange forms. A record is an object with
members of known names; members of other names are ignored. It may also be
written as the list of its members in their order, where only members with a
default may be missing at the end.
-/

set_option autoImplicit false

namespace Stencil.Json

variable {α : Type}

/-- A truth value. -/
def bool? : Json → Option Bool
  | .bool b => some b
  | _ => none

/-- A text. -/
def str? : Json → Option String
  | .str s => some s
  | _ => none

/-- A natural number below a bound. -/
def nat? (bound : Nat) : Json → Option Nat
  | .int n => if 0 ≤ n ∧ n < bound then some n.toNat else none
  | _ => none

/-- A natural number of 32 bits. -/
def word32? : Json → Option Nat := nat? UInt32.size

/-- A natural number of 64 bits. -/
def word64? : Json → Option Nat := nat? UInt64.size

/-- A number. -/
def float? : Json → Option Float
  | .int n => some (Float.ofInt n)
  | .float x => some x
  | _ => none

/-- Every item of a list read, if all can be. -/
def all? (read : Json → Option α) : List Json → Option (List α)
  | [] => some []
  | j :: js =>
    match read j, all? read js with
    | some a, some as => some (a :: as)
    | _, _ => none

/-- A list. -/
def list? (read : Json → Option α) : Json → Option (List α)
  | .arr items => all? read items
  | _ => none

/-- Every member of an object read, if all can be. -/
def allMembers? (read : Json → Option α) : List (String × Json) → Option (Table α)
  | [] => some []
  | (k, j) :: rest =>
    match read j, allMembers? read rest with
    | some a, some as => some ((k, a) :: as)
    | _, _ => none

/-- A table of values of one sort. -/
def table? (read : Json → Option α) : Json → Option (Table α)
  | .obj members => allMembers? read members
  | _ => none

/-- A value, or null for none. -/
def option? (read : Json → Option α) : Json → Option (Option α)
  | .null => some none
  | j => (read j).map some

/-- The members of a record, by place and by name. -/
structure Record where
  member? : Nat → String → Option Json

/-- The record of a value, with at most `count` members when it is a list. -/
def record? (count : Nat) : Json → Option Record
  | .obj members => some ⟨fun _ name => Table.get? name members⟩
  | .arr items => if items.length ≤ count then some ⟨fun i _ => items[i]?⟩ else none
  | _ => none

namespace Record

/-- A member that must be there. -/
def required (r : Record) (place : Nat) (name : String) (read : Json → Option α) : Option α :=
  (r.member? place name).bind read

/-- A member with a default. -/
def withDefault (r : Record) (place : Nat) (name : String) (default : α)
    (read : Json → Option α) : Option α :=
  match r.member? place name with
  | none => some default
  | some j => read j

/-- A member that may be missing or null. -/
def optional (r : Record) (place : Nat) (name : String) (read : Json → Option α) :
    Option (Option α) :=
  r.withDefault place name none (option? read)

end Record

/-- The name that a tag stands for: the tag itself, or, where tags may be `numbered`,
the name at that place among the names of all variants. -/
def tagName? (names : List String) (numbered : Bool) : Json → Option String
  | .str tag => some tag
  | .int n => if numbered && 0 ≤ n then names[n.toNat]? else none
  | _ => none

/-- A record with a tag beside its members, or in front of them when it is a
list: the name of its variant, and the record. -/
def tagged? (names : List String) (numbered : Bool) : Json → Option (String × Json)
  | .obj members =>
    match (Table.get? "type" members).bind (tagName? names numbered) with
    | some tag => some (tag, .obj members)
    | none => none
  | .arr (tag :: items) => (tagName? names numbered tag).map fun name => (name, .arr items)
  | _ => none

/-- One of several variants: its name and its data, null when it stands alone. -/
def variant? : Json → Option (String × Json)
  | .str name => some (name, .null)
  | .obj [(name, data)] => some (name, data)
  | _ => none

/-- An object whose absent members are left out. -/
def compactObj (members : List (String × Option Json)) : Json :=
  .obj (members.filterMap fun m => m.2.map fun j => (m.1, j))

end Stencil.Json
