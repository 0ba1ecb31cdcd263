import Mathlib.Data.List.Perm.Basic
import Stencil.Tree.Program

/-!
# Nesting

The programs of a tree in the order in which they are opened: a program comes before those in its
statements, the program of a block before its inverse. Counted in that order from a given number,
every program has a number of its own; `Program.nestings` lists each of them with the programs
around it, and `Program.openedAll` the ones that a list of statements holds directly.

Each entry of `Program.nestings` has its place for its number (`Program.nestings_getElem?`), what
the innermost program of an entry holds directly is an entry again (`Program.nestings_opened`), and
each number after the first is that of exactly one program held by another
(`Program.openedIds_nestings_perm`).
-/

set_option autoImplicit false

namespace Stencil.Tree

variable {ℓ : Type}

/-- A program and its number. -/
structure Opened (ℓ : Type) where
  id : Nat
  program : Program ℓ

/-- A program and the programs around it, itself first and the outermost one last. -/
abbrev Nesting (ℓ : Type) : Type := List (Opened ℓ)

/-! ## Numbers -/

mutual

/-- How many programs there are in a program, itself counted. -/
def Program.count : Program ℓ → Nat
  | ⟨body, _, _, _⟩ => Statement.countAll body + 1

/-- How many programs there are in some statements. -/
def Statement.countAll : List (Statement ℓ) → Nat
  | [] => 0
  | s :: rest => s.count + Statement.countAll rest

/-- How many programs there are in a statement. -/
def Statement.count : Statement ℓ → Nat
  | .block b => b.count
  | .partialBlock p => p.count
  | .mustache _ | .partialCall _ | .content _ | .comment _ => 0

/-- How many programs there are in a block. -/
def Block.count : Block ℓ → Nat
  | ⟨_, program, inverse, _, _, _, _, _⟩ => Program.countOpt program + Program.countOpt inverse

/-- How many programs there are in a partial with a body. -/
def PartialBlock.count : PartialBlock ℓ → Nat
  | ⟨_, _, _, program, _, _, _⟩ => program.count

/-- How many programs there are in a section, if it is there. -/
def Program.countOpt : Option (Program ℓ) → Nat
  | none => 0
  | some p => p.count

end

mutual

/-- The program and those in it, each with the programs around it. The program has the number `id`
and stands in `outer`. -/
def Program.nestings (outer : Nesting ℓ) (id : Nat) : Program ℓ → List (Nesting ℓ)
  | ⟨body, blockParams, chained, mark⟩ =>
    (⟨id, ⟨body, blockParams, chained, mark⟩⟩ :: outer) ::
      Statement.nestingsAll (⟨id, ⟨body, blockParams, chained, mark⟩⟩ :: outer) (id + 1) body

/-- The programs in some statements of the innermost program of `outer`, numbered from `next` on. -/
def Statement.nestingsAll (outer : Nesting ℓ) (next : Nat) :
    List (Statement ℓ) → List (Nesting ℓ)
  | [] => []
  | s :: rest => s.nestings outer next ++ Statement.nestingsAll outer (next + s.count) rest

/-- The programs in a statement of the innermost program of `outer`, numbered from `next` on. -/
def Statement.nestings (outer : Nesting ℓ) (next : Nat) : Statement ℓ → List (Nesting ℓ)
  | .block b => b.nestings outer next
  | .partialBlock p => p.nestings outer next
  | .mustache _ | .partialCall _ | .content _ | .comment _ => []

/-- The programs in a block of the innermost program of `outer`, numbered from `next` on. -/
def Block.nestings (outer : Nesting ℓ) (next : Nat) : Block ℓ → List (Nesting ℓ)
  | ⟨_, program, inverse, _, _, _, _, _⟩ =>
    Program.nestingsOpt outer next program ++
      Program.nestingsOpt outer (next + Program.countOpt program) inverse

/-- The programs in a partial with a body that stands in the innermost program of `outer`. -/
def PartialBlock.nestings (outer : Nesting ℓ) (next : Nat) : PartialBlock ℓ → List (Nesting ℓ)
  | ⟨_, _, _, program, _, _, _⟩ => program.nestings outer next

/-- The section, if it is there, and the programs in it. -/
def Program.nestingsOpt (outer : Nesting ℓ) (id : Nat) :
    Option (Program ℓ) → List (Nesting ℓ)
  | none => []
  | some p => p.nestings outer id

end

/-- The section with its number, if it is there. -/
def Program.openedOpt (id : Nat) : Option (Program ℓ) → List (Opened ℓ)
  | none => []
  | some p => [⟨id, p⟩]

/-- The programs that a statement holds directly, numbered from `next` on. -/
def Statement.opened (next : Nat) : Statement ℓ → List (Opened ℓ)
  | .block b =>
    Program.openedOpt next b.program ++
      Program.openedOpt (next + Program.countOpt b.program) b.inverse
  | .partialBlock p => [⟨next, p.program⟩]
  | .mustache _ | .partialCall _ | .content _ | .comment _ => []

/-- The programs that some statements hold directly, numbered from `next` on. -/
def Statement.openedAll (next : Nat) : List (Statement ℓ) → List (Opened ℓ)
  | [] => []
  | s :: rest => s.opened next ++ Statement.openedAll (next + s.count) rest

/-- The programs that the innermost program holds directly. -/
def Nesting.opened : Nesting ℓ → List (Opened ℓ)
  | [] => []
  | here :: _ => Statement.openedAll (here.id + 1) here.program.body

/-- The numbers of the programs that the innermost program holds directly. -/
def Nesting.openedIds (n : Nesting ℓ) : List Nat := (Nesting.opened n).map Opened.id

/-- Whether a statement is a tag that shows something or holds a program. -/
def Statement.isTag : Statement ℓ → Bool
  | .mustache _ | .block _ | .partialCall _ | .partialBlock _ => true
  | .content _ | .comment _ => false

/-- The tags among some statements, each with the number from which its programs are numbered. -/
def Statement.tagsFrom (next : Nat) : List (Statement ℓ) → List (Nat × Statement ℓ)
  | [] => []
  | s :: rest =>
    if s.isTag then (next, s) :: Statement.tagsFrom (next + s.count) rest
    else Statement.tagsFrom (next + s.count) rest

/-- The tags of the innermost program. -/
def Nesting.tags : Nesting ℓ → List (Nat × Statement ℓ)
  | [] => []
  | here :: _ => Statement.tagsFrom (here.id + 1) here.program.body

/-- The names of the block parameters in scope, by program. -/
def Nesting.frames (n : Nesting ℓ) : List (List String) := n.map fun o => o.program.blockParams

/-- The statements after one are numbered from behind the programs in it. -/
theorem Statement.tagsFrom_cons (next : Nat) (s : Statement ℓ) (rest : List (Statement ℓ)) :
    Statement.tagsFrom next (s :: rest) =
      Statement.tagsFrom next [s] ++ Statement.tagsFrom (next + s.count) rest := by
  cases s <;> rfl

/-- What statements hold directly is what each of them holds, under its number. -/
theorem Statement.openedAll_eq_flatMap_tagsFrom :
    ∀ (body : List (Statement ℓ)) (next : Nat),
      Statement.openedAll next body =
        (Statement.tagsFrom next body).flatMap fun t => t.2.opened t.1
  | [], _ => rfl
  | s :: rest, next => by
    rw [Statement.openedAll, Statement.tagsFrom_cons, List.flatMap_append,
      Statement.openedAll_eq_flatMap_tagsFrom rest]
    refine congrArg (· ++ _) ?_
    cases s <;> simp [Statement.tagsFrom, Statement.isTag, Statement.opened]

/-- Only tags hold programs. -/
theorem Nesting.opened_eq_flatMap_tags (n : Nesting ℓ) :
    Nesting.opened n = (Nesting.tags n).flatMap fun t => t.2.opened t.1 := by
  cases n with
  | nil => rfl
  | cons here outer => exact Statement.openedAll_eq_flatMap_tagsFrom _ _

/-- A program comes first among those in it, and around all of them. -/
theorem Program.nestings_eq (outer : Nesting ℓ) (id : Nat) (p : Program ℓ) :
    p.nestings outer id =
      (⟨id, p⟩ :: outer) :: Statement.nestingsAll (⟨id, p⟩ :: outer) (id + 1) p.body := by
  cases p
  rfl

/-- A program counts itself and what is in its body. -/
theorem Program.count_eq (p : Program ℓ) : p.count = Statement.countAll p.body + 1 := by
  cases p
  rfl

/-- The inverse of a block is numbered from behind the programs of its program. -/
theorem Block.nestings_eq (outer : Nesting ℓ) (next : Nat) (b : Block ℓ) :
    b.nestings outer next =
      Program.nestingsOpt outer next b.program ++
        Program.nestingsOpt outer (next + Program.countOpt b.program) b.inverse := by
  cases b
  rfl

theorem PartialBlock.nestings_eq (outer : Nesting ℓ) (next : Nat) (p : PartialBlock ℓ) :
    p.nestings outer next = p.program.nestings outer next := by
  cases p
  rfl

/-! ## Places -/

/-- The entries are numbered by their places, from `next` on. -/
def NumberedFrom (next : Nat) (entries : List (Nesting ℓ)) : Prop :=
  ∀ i n, entries[i]? = some n → ∃ here outer, n = here :: outer ∧ here.id = next + i

/-- Entries that go on where the ones before them end are numbered together. -/
theorem NumberedFrom.append {next : Nat} {as bs : List (Nesting ℓ)} (ha : NumberedFrom next as)
    (hb : NumberedFrom (next + as.length) bs) : NumberedFrom next (as ++ bs) := by
  intro i n hn
  rcases Nat.lt_or_ge i as.length with hi | hi
  · rw [List.getElem?_append_left hi] at hn
    exact ha i n hn
  · rw [List.getElem?_append_right hi] at hn
    obtain ⟨here, outer, rfl, hid⟩ := hb _ n hn
    exact ⟨here, outer, rfl, by omega⟩

/-- A program has the number before those in it. -/
theorem NumberedFrom.cons {next : Nat} {here : Opened ℓ} {outer : Nesting ℓ}
    {entries : List (Nesting ℓ)} (hid : here.id = next) (h : NumberedFrom (next + 1) entries) :
    NumberedFrom next ((here :: outer) :: entries) := by
  intro i n hn
  cases i with
  | zero =>
    rw [List.getElem?_cons_zero, Option.some.injEq] at hn
    exact ⟨here, outer, hn.symm, hid⟩
  | succ i =>
    obtain ⟨inner, around, rfl, hinner⟩ := h i n hn
    exact ⟨inner, around, rfl, by omega⟩

theorem numberedFrom_nil (next : Nat) : NumberedFrom next ([] : List (Nesting ℓ)) :=
  fun _ _ h => absurd h (by simp)

mutual

/-- There are as many entries as programs. -/
theorem Program.length_nestings (outer : Nesting ℓ) (id : Nat) :
    ∀ p : Program ℓ, (p.nestings outer id).length = p.count
  | ⟨body, _, _, _⟩ => by
    rw [Program.nestings, Program.count, List.length_cons, Statement.length_nestingsAll _ _ body]

/-- There are as many entries for statements as programs are counted in them. -/
theorem Statement.length_nestingsAll (outer : Nesting ℓ) (next : Nat) :
    ∀ body : List (Statement ℓ),
      (Statement.nestingsAll outer next body).length = Statement.countAll body
  | [] => rfl
  | s :: rest => by
    rw [Statement.nestingsAll, Statement.countAll, List.length_append,
      Statement.length_nestings _ _ s, Statement.length_nestingsAll _ _ rest]

theorem Statement.length_nestings (outer : Nesting ℓ) (next : Nat) :
    ∀ s : Statement ℓ, (s.nestings outer next).length = s.count
  | .block b => Block.length_nestings outer next b
  | .partialBlock p => PartialBlock.length_nestings outer next p
  | .mustache _ | .partialCall _ | .content _ | .comment _ => rfl

/-- Of a block the entries are counted section by section. -/
theorem Block.length_nestings (outer : Nesting ℓ) (next : Nat) :
    ∀ b : Block ℓ, (b.nestings outer next).length = b.count
  | ⟨_, program, inverse, _, _, _, _, _⟩ => by
    rw [Block.nestings, Block.count, List.length_append, Program.length_nestingsOpt _ _ program,
      Program.length_nestingsOpt _ _ inverse]

theorem PartialBlock.length_nestings (outer : Nesting ℓ) (next : Nat) :
    ∀ p : PartialBlock ℓ, (p.nestings outer next).length = p.count
  | ⟨_, _, _, program, _, _, _⟩ => Program.length_nestings outer next program

theorem Program.length_nestingsOpt (outer : Nesting ℓ) (id : Nat) :
    ∀ p : Option (Program ℓ), (Program.nestingsOpt outer id p).length = Program.countOpt p
  | none => rfl
  | some p => Program.length_nestings outer id p

end

mutual

/-- By recursion over the tree: a program has its number, and those in it have the numbers after
it. -/
theorem Program.numberedFrom_nestings (outer : Nesting ℓ) (id : Nat) :
    ∀ p : Program ℓ, NumberedFrom id (p.nestings outer id)
  | ⟨body, _, _, _⟩ => .cons rfl (Statement.numberedFrom_nestingsAll _ (id + 1) body)

/-- The entries of one statement end where those of the next begin, as many further on as were
counted. -/
theorem Statement.numberedFrom_nestingsAll (outer : Nesting ℓ) (next : Nat) :
    ∀ body : List (Statement ℓ), NumberedFrom next (Statement.nestingsAll outer next body)
  | [] => numberedFrom_nil next
  | s :: rest => by
    refine (Statement.numberedFrom_nestings outer next s).append ?_
    rw [Statement.length_nestings]
    exact Statement.numberedFrom_nestingsAll outer (next + s.count) rest

theorem Statement.numberedFrom_nestings (outer : Nesting ℓ) (next : Nat) :
    ∀ s : Statement ℓ, NumberedFrom next (s.nestings outer next)
  | .block b => Block.numberedFrom_nestings outer next b
  | .partialBlock p => PartialBlock.numberedFrom_nestings outer next p
  | .mustache _ | .partialCall _ | .content _ | .comment _ => numberedFrom_nil next

/-- The entries of the inverse begin where those of the program end. -/
theorem Block.numberedFrom_nestings (outer : Nesting ℓ) (next : Nat) :
    ∀ b : Block ℓ, NumberedFrom next (b.nestings outer next)
  | ⟨_, program, inverse, _, _, _, _, _⟩ => by
    refine (Program.numberedFrom_nestingsOpt outer next program).append ?_
    rw [Program.length_nestingsOpt]
    exact Program.numberedFrom_nestingsOpt outer (next + Program.countOpt program) inverse

theorem PartialBlock.numberedFrom_nestings (outer : Nesting ℓ) (next : Nat) :
    ∀ p : PartialBlock ℓ, NumberedFrom next (p.nestings outer next)
  | ⟨_, _, _, program, _, _, _⟩ => Program.numberedFrom_nestings outer next program

theorem Program.numberedFrom_nestingsOpt (outer : Nesting ℓ) (id : Nat) :
    ∀ p : Option (Program ℓ), NumberedFrom id (Program.nestingsOpt outer id p)
  | none => numberedFrom_nil id
  | some p => Program.numberedFrom_nestings outer id p

end

/-- The entry at a place is that of the program whose number is the place. -/
theorem Program.nestings_getElem? {p : Program ℓ} {here : Opened ℓ} {outer : Nesting ℓ} :
    (p.nestings [] 0)[here.id]? = some (here :: outer) ↔ here :: outer ∈ p.nestings [] 0 := by
  constructor
  · exact List.mem_of_getElem?
  · intro h
    obtain ⟨i, hi⟩ := List.mem_iff_getElem?.1 h
    obtain ⟨first, rest, heq, hid⟩ := p.numberedFrom_nestings [] 0 i _ hi
    obtain ⟨rfl, rfl⟩ := List.cons.inj heq
    rw [hid, Nat.zero_add]
    exact hi

/-! ## Programs held by others -/

/-- A section that is there is the first of its own entries. -/
theorem Program.mem_nestingsOpt_of_openedOpt {outer : Nesting ℓ} {id : Nat}
    {p : Option (Program ℓ)} {c : Opened ℓ} (h : c ∈ Program.openedOpt id p) :
    c :: outer ∈ Program.nestingsOpt outer id p := by
  cases p with
  | none => exact absurd h List.not_mem_nil
  | some p =>
    obtain rfl := List.mem_singleton.1 h
    rw [Program.nestingsOpt, Program.nestings_eq]
    exact List.mem_cons_self

/-- What a statement holds directly is an entry of the statement. -/
theorem Statement.mem_nestings_of_opened {outer : Nesting ℓ} {next : Nat} {s : Statement ℓ}
    {c : Opened ℓ} (h : c ∈ s.opened next) : c :: outer ∈ s.nestings outer next := by
  cases s with
  | block b =>
    rw [Statement.nestings, Block.nestings_eq]
    rcases List.mem_append.1 h with h | h
    · exact List.mem_append_left _ (Program.mem_nestingsOpt_of_openedOpt h)
    · exact List.mem_append_right _ (Program.mem_nestingsOpt_of_openedOpt h)
  | partialBlock p =>
    obtain rfl := List.mem_singleton.1 h
    rw [Statement.nestings, PartialBlock.nestings_eq, Program.nestings_eq]
    exact List.mem_cons_self
  | mustache _ => exact absurd h List.not_mem_nil
  | partialCall _ => exact absurd h List.not_mem_nil
  | content _ => exact absurd h List.not_mem_nil
  | comment _ => exact absurd h List.not_mem_nil

/-- By recursion over the row: what is held directly is held by one of the statements. -/
theorem Statement.mem_nestingsAll_of_openedAll {outer : Nesting ℓ} {c : Opened ℓ} :
    ∀ {body : List (Statement ℓ)} {next : Nat}, c ∈ Statement.openedAll next body →
      c :: outer ∈ Statement.nestingsAll outer next body
  | [], _, h => absurd h List.not_mem_nil
  | s :: rest, next, h => by
    rcases List.mem_append.1 h with h | h
    · exact List.mem_append_left _ (Statement.mem_nestings_of_opened h)
    · exact List.mem_append_right _ (Statement.mem_nestingsAll_of_openedAll h)

/-- The entries hold with each program those that it holds directly. -/
def ClosedUnderOpened (entries : List (Nesting ℓ)) : Prop :=
  ∀ n ∈ entries, ∀ c ∈ Nesting.opened n, c :: n ∈ entries

/-- An entry of either list has the programs that it holds in the same list. -/
theorem ClosedUnderOpened.append {as bs : List (Nesting ℓ)} (ha : ClosedUnderOpened as)
    (hb : ClosedUnderOpened bs) : ClosedUnderOpened (as ++ bs) := by
  intro n hn c hc
  rcases List.mem_append.1 hn with hn | hn
  · exact List.mem_append_left _ (ha n hn c hc)
  · exact List.mem_append_right _ (hb n hn c hc)

theorem closedUnderOpened_nil : ClosedUnderOpened ([] : List (Nesting ℓ)) :=
  fun _ h => absurd h List.not_mem_nil

mutual

/-- What a program of the tree holds directly is a program of the tree. -/
theorem Program.nestings_opened (outer : Nesting ℓ) (id : Nat) :
    ∀ p : Program ℓ, ClosedUnderOpened (p.nestings outer id)
  | ⟨body, blockParams, chained, mark⟩ => by
    intro n hn c hc
    rcases List.mem_cons.1 hn with rfl | hn
    · exact List.mem_cons_of_mem _ (Statement.mem_nestingsAll_of_openedAll hc)
    · exact List.mem_cons_of_mem _ (Statement.nestingsAll_opened _ (id + 1) body n hn c hc)

/-- Statements in a row hold nothing of each other, so each keeps to its own entries. -/
theorem Statement.nestingsAll_opened (outer : Nesting ℓ) (next : Nat) :
    ∀ body : List (Statement ℓ), ClosedUnderOpened (Statement.nestingsAll outer next body)
  | [] => closedUnderOpened_nil
  | s :: rest =>
    (Statement.nestings_opened outer next s).append
      (Statement.nestingsAll_opened outer (next + s.count) rest)

theorem Statement.nestings_opened (outer : Nesting ℓ) (next : Nat) :
    ∀ s : Statement ℓ, ClosedUnderOpened (s.nestings outer next)
  | .block b => Block.nestings_opened outer next b
  | .partialBlock p => PartialBlock.nestings_opened outer next p
  | .mustache _ | .partialCall _ | .content _ | .comment _ => closedUnderOpened_nil

/-- So do the two sections of a block. -/
theorem Block.nestings_opened (outer : Nesting ℓ) (next : Nat) :
    ∀ b : Block ℓ, ClosedUnderOpened (b.nestings outer next)
  | ⟨_, program, inverse, _, _, _, _, _⟩ =>
    (Program.nestingsOpt_opened outer next program).append
      (Program.nestingsOpt_opened outer (next + Program.countOpt program) inverse)

theorem PartialBlock.nestings_opened (outer : Nesting ℓ) (next : Nat) :
    ∀ p : PartialBlock ℓ, ClosedUnderOpened (p.nestings outer next)
  | ⟨_, _, _, program, _, _, _⟩ => Program.nestings_opened outer next program

theorem Program.nestingsOpt_opened (outer : Nesting ℓ) (id : Nat) :
    ∀ p : Option (Program ℓ), ClosedUnderOpened (Program.nestingsOpt outer id p)
  | none => closedUnderOpened_nil
  | some p => Program.nestings_opened outer id p

end

/-! ## Each number once -/

section Once

/-- The direct programs, given by their numbers, and those held by some entries make up the `count`
numbers from `next` on. -/
def Covers (next count : Nat) (direct : List Nat) (entries : List (Nesting ℓ)) : Prop :=
  (direct ++ entries.flatMap Nesting.openedIds).Perm (List.range' next count)

/-- Two runs of numbers, one right after the other, make one run, of which the direct programs are
those of both. -/
theorem Covers.append {next m n : Nat} {ds es : List Nat} {as bs : List (Nesting ℓ)}
    (ha : Covers next m ds as) (hb : Covers (next + m) n es bs) :
    Covers next (m + n) (ds ++ es) (as ++ bs) := by
  have swapped : (ds ++ es ++ (as ++ bs).flatMap Nesting.openedIds).Perm
      ((ds ++ as.flatMap Nesting.openedIds) ++ (es ++ bs.flatMap Nesting.openedIds)) := by
    rw [List.flatMap_append, List.append_assoc, List.append_assoc]
    refine List.Perm.append_left ds ?_
    rw [← List.append_assoc, ← List.append_assoc]
    exact List.Perm.append_right _ List.perm_append_comm
  rw [Covers, ← List.range'_append_1]
  exact swapped.trans (List.Perm.append ha hb)

theorem covers_nil (next : Nat) : Covers next 0 [] ([] : List (Nesting ℓ)) := List.Perm.refl _

mutual

/-- A program takes the first number, and what it holds directly takes its share of the rest. -/
theorem Program.covers_nestings (outer : Nesting ℓ) (id : Nat) :
    ∀ p : Program ℓ, Covers id p.count [id] (p.nestings outer id)
  | ⟨body, blockParams, chained, mark⟩ => by
    have inner := Statement.covers_nestingsAll
      (⟨id, ⟨body, blockParams, chained, mark⟩⟩ :: outer) (id + 1) body
    rw [Covers, Program.count, List.range'_succ]
    exact List.Perm.cons id inner

/-- By recursion over the row: the shares of the statements follow one another without a gap. -/
theorem Statement.covers_nestingsAll (outer : Nesting ℓ) (next : Nat) :
    ∀ body : List (Statement ℓ),
      Covers next (Statement.countAll body) ((Statement.openedAll next body).map Opened.id)
        (Statement.nestingsAll outer next body)
  | [] => covers_nil next
  | s :: rest => by
    rw [Statement.openedAll, List.map_append]
    exact (Statement.covers_nestings outer next s).append
      (Statement.covers_nestingsAll outer (next + s.count) rest)

theorem Statement.covers_nestings (outer : Nesting ℓ) (next : Nat) :
    ∀ s : Statement ℓ, Covers next s.count ((s.opened next).map Opened.id) (s.nestings outer next)
  | .block b => Block.covers_nestings outer next b
  | .partialBlock p => PartialBlock.covers_nestings outer next p
  | .mustache _ | .partialCall _ | .content _ | .comment _ => covers_nil next

theorem Block.covers_nestings (outer : Nesting ℓ) (next : Nat) :
    ∀ b : Block ℓ,
      Covers next b.count (((Statement.block b).opened next).map Opened.id) (b.nestings outer next)
  | ⟨_, program, inverse, _, _, _, _, _⟩ => by
    rw [Statement.opened, List.map_append]
    exact (Program.covers_nestingsOpt outer next program).append
      (Program.covers_nestingsOpt outer (next + Program.countOpt program) inverse)

theorem PartialBlock.covers_nestings (outer : Nesting ℓ) (next : Nat) :
    ∀ p : PartialBlock ℓ, Covers next p.count [next] (p.nestings outer next)
  | ⟨_, _, _, program, _, _, _⟩ => Program.covers_nestings outer next program

theorem Program.covers_nestingsOpt (outer : Nesting ℓ) (id : Nat) :
    ∀ p : Option (Program ℓ),
      Covers id (Program.countOpt p) ((Program.openedOpt id p).map Opened.id)
        (Program.nestingsOpt outer id p)
  | none => covers_nil id
  | some p => Program.covers_nestings outer id p

end

/-- Each number after the first is that of one program that another one holds, and of no second. -/
theorem Program.openedIds_nestings_perm (outer : Nesting ℓ) (id : Nat) (p : Program ℓ) :
    ((p.nestings outer id).flatMap Nesting.openedIds).Perm
      (List.range' (id + 1) (p.count - 1)) := by
  have h := Program.covers_nestings outer id p
  rw [Covers, Program.count_eq, List.range'_succ] at h
  rw [Program.count_eq]
  exact (List.perm_cons id).1 h

end Once

/-- A program that another one holds has the greater number. -/
theorem Statement.le_id_of_openedAll {c : Opened ℓ} :
    ∀ {body : List (Statement ℓ)} {next : Nat}, c ∈ Statement.openedAll next body → next ≤ c.id
  | [], _, h => absurd h List.not_mem_nil
  | s :: rest, next, h => by
    rcases List.mem_append.1 h with h | h
    · have hmem : [c] ∈ s.nestings [] next := Statement.mem_nestings_of_opened h
      obtain ⟨i, hi⟩ := List.mem_iff_getElem?.1 hmem
      obtain ⟨here, outer, heq, hid⟩ := Statement.numberedFrom_nestings [] next s i _ hi
      obtain ⟨rfl, -⟩ := List.cons.inj heq
      omega
    · have := Statement.le_id_of_openedAll h
      omega

end Stencil.Tree
