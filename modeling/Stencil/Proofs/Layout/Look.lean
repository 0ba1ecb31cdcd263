import Stencil.Proofs.Layout.Tags

/-!
# What the cuts of the layout leave unchanged

Whether a tag stands alone is read from the content as it was written, so every list of statements
with the same looks gives the same answer (`blankBefore_congr`, `blankAfter_congr`), and the cuts at
the ends of a list do not change its looks. On the slots of a list of statements they are the cuts
at the ends of a row.
-/

set_option autoImplicit false

namespace Stencil.Tree

variable {ℓ : Type}

/-! ## Looks -/

/-- What the decisions about lines read of a statement: the text of content as it was written. -/
def Statement.look : Statement ℓ → Option (List Char)
  | .content c => some c.written.toList
  | _ => none

/-- What the decisions about lines read of a list of statements. -/
def Statement.looks (body : List (Statement ℓ)) : List (Option (List Char)) :=
  body.map Statement.look

/-- The decision about the line before a place, from the looks. -/
theorem blankBefore_eq_looks (root : Bool) (before : List (Statement ℓ)) :
    blankBefore root before =
      match Statement.looks before with
      | [] => root
      | some cs :: more =>
        (Text.trailingBlanks cs).contains '\n' ||
          (more.isEmpty && root && (Text.trailingBlanks cs).length == cs.length)
      | none :: _ => false := by
  cases before with
  | nil => rfl
  | cons s more => cases s <;> simp [blankBefore, Statement.looks, Statement.look]

/-- The decision about the line after a place, from the looks. -/
theorem blankAfter_eq_looks (root : Bool) (after : List (Statement ℓ)) :
    blankAfter root after =
      match Statement.looks after with
      | [] => root
      | some cs :: more =>
        (Text.leadingBlanks cs).contains '\n' ||
          (more.isEmpty && root && (Text.leadingBlanks cs).length == cs.length)
      | none :: _ => false := by
  cases after with
  | nil => rfl
  | cons s more => cases s <;> simp [blankAfter, Statement.looks, Statement.look]

theorem blankBefore_congr {root : Bool} {xs ys : List (Statement ℓ)}
    (h : Statement.looks xs = Statement.looks ys) : blankBefore root xs = blankBefore root ys := by
  rw [blankBefore_eq_looks, blankBefore_eq_looks, h]

theorem blankAfter_congr {root : Bool} {xs ys : List (Statement ℓ)}
    (h : Statement.looks xs = Statement.looks ys) : blankAfter root xs = blankAfter root ys := by
  rw [blankAfter_eq_looks, blankAfter_eq_looks, h]

@[simp] theorem looks_reverse (xs : List (Statement ℓ)) :
    Statement.looks xs.reverse = (Statement.looks xs).reverse :=
  List.map_reverse

@[simp] theorem looks_cutFirst (all : Bool) (body : List (Statement ℓ)) :
    Statement.looks (cutFirst all body) = Statement.looks body := by
  cases body with
  | nil => rfl
  | cons s rest =>
    cases s with
    | content c => simp [cutFirst, Statement.looks, Statement.look, Content.cutStart]; split <;> rfl
    | _ => rfl

@[simp] theorem looks_cutNearest (all : Bool) (done : List (Statement ℓ)) :
    Statement.looks (cutNearest all done) = Statement.looks done := by
  cases done with
  | nil => rfl
  | cons s rest =>
    cases s with
    | content c => simp [cutNearest, Statement.looks, Statement.look, Content.cutEnd]; split <;> rfl
    | _ => rfl

@[simp] theorem looks_cutLast (all : Bool) (body : List (Statement ℓ)) :
    Statement.looks (cutLast all body) = Statement.looks body := by
  rw [cutLast, looks_reverse, looks_cutNearest, looks_reverse, List.reverse_reverse]

/-! ## Slots -/

theorem slotsOf_append (link : Bool) (xs ys : List (Statement ℓ)) :
    Statement.slotsOf link (xs ++ ys) =
      Statement.slotsOf link xs ++ Statement.slotsOf link ys := by
  induction xs with
  | nil => rfl
  | cons s xs ih =>
    rw [List.cons_append, Statement.slotsOf, Statement.slotsOf, ih, List.append_assoc]

/-- A statement that is no content is a tag at both ends. -/
theorem Statement.slots_of_tag {s : Statement ℓ} (h : s.look = none) :
    (∃ rest, s.slots false = none :: rest) ∧ ∃ rest, s.slots false = rest ++ [none] := by
  cases s with
  | content c => exact absurd h (Option.some_ne_none _)
  | mustache m => exact ⟨⟨[], rfl⟩, ⟨[], rfl⟩⟩
  | partialCall p => exact ⟨⟨[], rfl⟩, ⟨[], rfl⟩⟩
  | comment c => exact ⟨⟨[], rfl⟩, ⟨[], rfl⟩⟩
  | block b =>
    rw [Statement.slots, Block.slots_eq]
    exact ⟨⟨_, rfl⟩, ⟨_ :: _, rfl⟩⟩
  | partialBlock p =>
    rw [Statement.slots, PartialBlock.slots_eq]
    exact ⟨⟨_, rfl⟩, ⟨_ :: _, rfl⟩⟩

theorem slotsOf_cutFirst (all : Bool) (body : List (Statement ℓ)) :
    Statement.slotsOf false (cutFirst all body) = cutHead all (Statement.slotsOf false body) := by
  cases body with
  | nil => rfl
  | cons s rest =>
    by_cases hs : s.look = none
    · obtain ⟨⟨slots, hslots⟩, _⟩ := Statement.slots_of_tag hs
      have hsame : cutFirst all (s :: rest) = s :: rest := by
        cases s with
        | content c => exact absurd hs (Option.some_ne_none _)
        | _ => rfl
      rw [hsame, Statement.slotsOf, hslots]
      rfl
    · cases s with
      | content c => rfl
      | _ => exact absurd rfl hs

theorem slotsOf_cutNearest (all : Bool) (done : List (Statement ℓ)) :
    Statement.slotsOf false (cutNearest all done).reverse =
      cutBack all (Statement.slotsOf false done.reverse) := by
  cases done with
  | nil => rfl
  | cons s rest =>
    by_cases hs : s.look = none
    · obtain ⟨_, slots, hslots⟩ := Statement.slots_of_tag hs
      have hsame : cutNearest all (s :: rest) = s :: rest := by
        cases s with
        | content c => exact absurd hs (Option.some_ne_none _)
        | _ => rfl
      have hlast : Statement.slotsOf false (s :: rest).reverse =
          (Statement.slotsOf false rest.reverse ++ slots) ++ [none] := by
        rw [List.reverse_cons, slotsOf_append, Statement.slotsOf, Statement.slotsOf, hslots]
        simp
      rw [hsame, hlast, cutBack_append_none]
    · cases s with
      | content c =>
        rw [cutNearest, List.reverse_cons, List.reverse_cons, slotsOf_append, slotsOf_append]
        exact (cutBack_append_singleton all _ c).symm
      | _ => exact absurd rfl hs

theorem slotsOf_cutLast (all : Bool) (body : List (Statement ℓ)) :
    Statement.slotsOf false (cutLast all body) = cutBack all (Statement.slotsOf false body) := by
  rw [cutLast, slotsOf_cutNearest, List.reverse_reverse]

end Stencil.Tree
