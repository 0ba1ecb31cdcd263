import Mathlib.Data.List.Duplicate
import Stencil.Proofs.Code.Sequencing
import Stencil.Proofs.Syntax.Fronts
import Stencil.Template

/-!
# Named arguments

Which argument counts where a name is given more than once. Looked up in the tree, a name has the
value of its first argument (`Hash.get?_eq`). Operands and paths are entered into a table one after
the other (`Entered`), so there a name has what belongs to its last argument. All of them mean the
same argument exactly if the first and the last one of the name have the same operand and the same
path, and whatever the values are exactly if no name is given twice
(`Compiler.namedArguments_agree_iff`).
-/

set_option autoImplicit false

namespace Stencil.Tree

variable {ℓ α : Type}

/-- The arguments of one name, in order. -/
def Pair.named (key : String) (pairs : List (Pair ℓ)) : List (Pair ℓ) :=
  pairs.filter fun p => p.key == key

theorem Pair.named_cons_self (p : Pair ℓ) (rest : List (Pair ℓ)) :
    Pair.named p.key (p :: rest) = p :: Pair.named p.key rest :=
  List.filter_cons_of_pos (beq_self_eq_true p.key)

theorem Pair.named_cons_of_ne {key : String} {p : Pair ℓ} (h : p.key ≠ key) (rest : List (Pair ℓ)) :
    Pair.named key (p :: rest) = Pair.named key rest :=
  List.filter_cons_of_neg (mt beq_iff_eq.1 h)

theorem Pair.named_append (key : String) (ps qs : List (Pair ℓ)) :
    Pair.named key (ps ++ qs) = Pair.named key ps ++ Pair.named key qs := List.filter_append ps qs

/-- A name that is looked up has the value of its first argument. -/
theorem Hash.get?_eq (h : Hash ℓ) (key : String) :
    h.get? key = (Pair.named key h.pairs).head?.map Pair.value := by
  rw [Pair.named, List.head?_filter]
  rfl

/-- Where no name is given twice, the first argument of a name is the last. -/
theorem Pair.eq_of_nodup {pairs : List (Pair ℓ)} (h : (pairs.map Pair.key).Nodup) {key : String}
    {p q : Pair ℓ} (hp : p ∈ Pair.named key pairs) (hq : q ∈ Pair.named key pairs) : p = q := by
  obtain ⟨hmemP, hkeyP⟩ := List.mem_filter.1 hp
  obtain ⟨hmemQ, hkeyQ⟩ := List.mem_filter.1 hq
  have hkey : p.key = q.key := (beq_iff_eq.1 hkeyP).trans (beq_iff_eq.1 hkeyQ).symm
  exact List.inj_on_of_nodup_map h hmemP hmemQ hkey

/-! ## Names that are given twice -/

/-- A name that is given twice has an argument that comes first and one after it. -/
theorem exists_split_of_not_nodup {names : List String} (h : ¬ names.Nodup) :
    ∃ before key rest, names = before ++ key :: rest ∧ key ∉ before ∧ key ∈ rest := by
  obtain ⟨key, hkey⟩ := List.exists_duplicate_iff_not_nodup.2 h
  obtain ⟨before, rest, rfl, hbefore⟩ := List.eq_append_cons_of_mem hkey.mem
  refine ⟨before, key, rest, rfl, hbefore, ?_⟩
  have htwice : 2 ≤ (before ++ key :: rest).count key := List.duplicate_iff_two_le_count.1 hkey
  rw [List.count_append, List.count_eq_zero.2 hbefore, List.count_cons_self] at htwice
  exact List.count_pos_iff.1 (by omega)

/-- The argument of a name with a string for its value. -/
def Pair.ofString (mark : ℓ) (value key : String) : Pair ℓ := ⟨key, .string value value mark, mark⟩

/-- Arguments with the empty string for their values, but for one. -/
def Pair.oneOdd (mark : ℓ) (before : List String) (key : String) (rest : List String) :
    List (Pair ℓ) :=
  before.map (Pair.ofString mark "") ++ Pair.ofString mark "odd" key ::
    rest.map (Pair.ofString mark "")

section OneOdd

variable {mark : ℓ} {before rest : List String} {key : String}

theorem Pair.map_key_oneOdd :
    (Pair.oneOdd mark before key rest).map Pair.key = before ++ key :: rest := by
  simp [Pair.oneOdd, Pair.ofString, Function.comp_def]

theorem Pair.exists_ofString_of_mem_oneOdd {p : Pair ℓ} (h : p ∈ Pair.oneOdd mark before key rest) :
    ∃ value name, p = Pair.ofString mark value name := by
  rcases List.mem_append.1 h with h | h
  · obtain ⟨name, -, rfl⟩ := List.mem_map.1 h
    exact ⟨"", name, rfl⟩
  · rcases List.mem_cons.1 h with rfl | h
    · exact ⟨"odd", key, rfl⟩
    · obtain ⟨name, -, rfl⟩ := List.mem_map.1 h
      exact ⟨"", name, rfl⟩

theorem Pair.named_oneOdd (h : key ∉ before) : Pair.named key (Pair.oneOdd mark before key rest) =
    Pair.ofString mark "odd" key :: Pair.named key (rest.map (Pair.ofString mark "")) := by
  have hnone : Pair.named key (before.map (Pair.ofString mark "")) = [] := by
    rw [Pair.named, List.filter_eq_nil_iff, List.forall_mem_map]
    exact fun name hname hkey => h (beq_iff_eq.1 hkey ▸ hname)
  rw [Pair.oneOdd, Pair.named_append, hnone, List.nil_append]
  exact Pair.named_cons_self (Pair.ofString mark "odd" key) _

/-- If the name is given again, its last argument is another than the odd one. -/
theorem Pair.getLast?_named_oneOdd (hbefore : key ∉ before) (hrest : key ∈ rest) :
    (Pair.named key (Pair.oneOdd mark before key rest)).getLast? =
      some (Pair.ofString mark "" key) := by
  have hmore : Pair.ofString mark "" key ∈ Pair.named key (rest.map (Pair.ofString mark "")) :=
    List.mem_filter.2 ⟨List.mem_map_of_mem hrest, beq_self_eq_true key⟩
  have hlast := List.getLast?_eq_some_getLast (List.ne_nil_of_mem hmore)
  obtain ⟨hmem, hkey⟩ := List.mem_filter.1 (List.mem_of_getLast? hlast)
  obtain ⟨name, -, hname⟩ := List.mem_map.1 hmem
  rw [← hname] at hlast hkey
  obtain rfl : name = key := beq_iff_eq.1 hkey
  rw [Pair.named_oneOdd hbefore, List.getLast?_cons, hlast]
  rfl

end OneOdd

/-! ## Tables of arguments -/

/-- The table grows by one value for each argument, entered under the name of the argument and in
the relation to it. -/
inductive Entered (R : Pair ℓ → α → Prop) : Table α → List (Pair ℓ) → Table α → Prop
  | done (table : Table α) : Entered R table [] table
  | enter {table table' : Table α} {p : Pair ℓ} {rest : List (Pair ℓ)} {value : α}
    (holds : R p value) (more : Entered R (table.insert p.key value) rest table') :
    Entered R table (p :: rest) table'

namespace Entered

variable {R : Pair ℓ → α → Prop} {table table' : Table α} {pairs : List (Pair ℓ)}

/-- In the end a name has the value of its last argument, or what it had before if it has none. -/
theorem get?_cases (h : Entered R table pairs table') (key : String) :
    (∃ last value, (Pair.named key pairs).getLast? = some last ∧ R last value ∧
      table'.get? key = some value) ∨
      Pair.named key pairs = [] ∧ table'.get? key = table.get? key := by
  induction h with
  | done table => exact .inr ⟨rfl, rfl⟩
  | @enter table table' p rest value holds _ ih =>
    rcases ih with ⟨last, final, hlast, hfinal, hfound⟩ | ⟨hnone, hkept⟩
    · -- The name is given again later, and that is what stays.
      refine .inl ⟨last, final, ?_, hfinal, hfound⟩
      by_cases hkey : p.key = key
      · subst hkey
        rw [Pair.named_cons_self, List.getLast?_cons, hlast]
        rfl
      · rw [Pair.named_cons_of_ne hkey, hlast]
    · by_cases hkey : p.key = key
      · subst hkey
        refine .inl ⟨p, value, ?_, holds, ?_⟩
        · rw [Pair.named_cons_self, hnone]
          rfl
        · rw [hkept, Table.get?_insert_self]
      · refine .inr ⟨?_, ?_⟩
        · rw [Pair.named_cons_of_ne hkey, hnone]
        · rw [hkept, Table.get?_insert_of_ne table value hkey]

theorem get?_eq_none (h : Entered R [] pairs table) {key : String}
    (hnone : Pair.named key pairs = []) :
    table.get? key = none := by
  rcases h.get?_cases key with ⟨last, value, hlast, -⟩ | ⟨-, hkept⟩
  · rw [hnone] at hlast
    cases hlast
  · exact hkept

theorem exists_of_getLast? (h : Entered R [] pairs table) {key : String} {last : Pair ℓ}
    (hlast : (Pair.named key pairs).getLast? = some last) :
    ∃ value, R last value ∧ table.get? key = some value := by
  rcases h.get?_cases key with ⟨other, value, hother, hvalue, hfound⟩ | ⟨hnone, -⟩
  · obtain rfl : other = last := Option.some.inj (hother.symm.trans hlast)
    exact ⟨value, hvalue, hfound⟩
  · rw [hnone] at hlast
    cases hlast

/-- A table that is made of what is computed for each argument. -/
theorem foldl (f : Pair ℓ → α) (pairs : List (Pair ℓ)) (table : Table α) :
    Entered (fun p value => value = f p) table pairs
      ((pairs.map fun p => (p.key, f p)).foldl (fun t e => Table.insert e.1 e.2 t) table) := by
  induction pairs generalizing table with
  | nil => exact .done table
  | cons p rest ih => exact .enter rfl (ih _)

end Entered

end Stencil.Tree

namespace Stencil.Code

open Stencil.Text (Location)
open Stencil.Tree (Expr Hash Pair Entered exists_split_of_not_nodup)
open Compiling (Gives Gathers gives_pure gives_bind)

/-- Compiling gives no two values. -/
theorem Compiling.Gathers.gives_unique {α : Type} {c : Compiling α} (hc : Gathers c) {a b : α}
    (ha : Gives c a) (hb : Gives c b) : a = b := by
  obtain ⟨after, ha⟩ := hc.exists_run ha Features.none
  obtain ⟨other, hb⟩ := hc.exists_run hb Features.none
  exact congrArg Prod.fst (Except.ok.inj (ha.symm.trans hb))

/-- The paths of the arguments are entered under their names. -/
theorem Form.entered_ids {f : Form} {h : Hash (Option Location)} (hf : f.hash = some h) :
    Entered (fun p path => path = argumentPath? p.value) [] h.pairs f.ids.hash := by
  rw [Form.ids, hf]
  exact Entered.foldl _ h.pairs []

namespace Compiler

variable (compiler : Compiler) (frames : Frames)

theorem entered_pairOperands {pairs : List (Pair (Option Location))} {table table' : Table Operand}
    (h : Gives (compiler.pairOperands frames table pairs) table') :
    Entered (fun p o => Gives (compiler.operand frames p.value) o) table pairs table' := by
  induction pairs generalizing table with
  | nil =>
    obtain rfl := gives_pure.1 h
    exact .done table
  | cons p rest ih =>
    obtain ⟨key, value, mark⟩ := p
    obtain ⟨o, ho, hrest⟩ := gives_bind h
    exact .enter ho (ih hrest)

/-- The operands of the arguments are entered under their names. -/
theorem entered_hashOperands {h : Hash (Option Location)} {operands : Table Operand}
    (hgives : Gives (compiler.hashOperands frames (some h)) operands) :
    Entered (fun p o => Gives (compiler.operand frames p.value) o) [] h.pairs operands := by
  obtain ⟨pairs, mark⟩ := h
  exact compiler.entered_pairOperands frames hgives

/-! ## Readers of the arguments -/

/-- Two values of arguments are compiled to the same operand and have the same path. -/
structure Alike (e e' : Expr (Option Location)) : Prop where
  operand : ∃ o, Gives (compiler.operand frames e) o ∧ Gives (compiler.operand frames e') o
  path : argumentPath? e = argumentPath? e'

/-- The tree, the operands and the paths agree on what a name stands for: one and the same of its
arguments, and nothing if it has none. -/
structure Agrees (h : Hash (Option Location)) (operands : Table Operand)
    (paths : Table (Option String)) (key : String) : Prop where
  absent : Pair.named key h.pairs = [] → h.get? key = none ∧ operands.get? key = none ∧
    paths.get? key = none
  denoted : Pair.named key h.pairs ≠ [] → ∃ p ∈ Pair.named key h.pairs, h.get? key = some p.value ∧
    (∃ o, Gives (compiler.operand frames p.value) o ∧ operands.get? key = some o) ∧
      paths.get? key = some (argumentPath? p.value)

variable {compiler frames}

/-- Where the readers agree, the path that is recorded is that of the value that is looked up. -/
theorem Agrees.path_eq {h : Hash (Option Location)} {operands : Table Operand}
    {paths : Table (Option String)} {key : String}
    (hagrees : compiler.Agrees frames h operands paths key) :
    (h.get? key).map argumentPath? = paths.get? key := by
  by_cases hnone : Pair.named key h.pairs = []
  · obtain ⟨hvalue, -, hpath⟩ := hagrees.absent hnone
    rw [hvalue, hpath]
    rfl
  · obtain ⟨p, -, hvalue, -, hpath⟩ := hagrees.denoted hnone
    rw [hvalue, hpath]
    rfl

/-- The readers agree on a name exactly if it does not matter whether its first or its last argument
is taken. -/
theorem agrees_iff {f : Form} {h : Hash (Option Location)} {operands : Table Operand}
    (hf : f.hash = some h) (hgives : Gives (compiler.hashOperands frames f.hash) operands)
    (key : String) :
    compiler.Agrees frames h operands f.ids.hash key ↔
      ∀ first last, (Pair.named key h.pairs).head? = some first →
      (Pair.named key h.pairs).getLast? = some last →
        compiler.Alike frames first.value last.value := by
  rw [hf] at hgives
  have hoperands := compiler.entered_hashOperands frames hgives
  have hpaths := Form.entered_ids hf
  constructor
  · intro hagrees first last hfirst hlast
    have hsome : Pair.named key h.pairs ≠ [] := List.ne_nil_of_mem (List.mem_of_head? hfirst)
    obtain ⟨p, -, hvalue, ⟨o, ho, hfound⟩, hpath⟩ := hagrees.denoted hsome
    obtain ⟨o', ho', hfound'⟩ := hoperands.exists_of_getLast? hlast
    obtain ⟨path, rfl, hpath'⟩ := hpaths.exists_of_getLast? hlast
    -- What is looked up is the first argument, so that is the one that all agree on.
    have hp : first.value = p.value := by
      rw [Hash.get?_eq, hfirst] at hvalue
      exact Option.some.inj hvalue
    obtain rfl : o = o' := Option.some.inj (hfound.symm.trans hfound')
    rw [hp]
    exact ⟨⟨o, ho, ho'⟩, Option.some.inj (hpath.symm.trans hpath')⟩
  · intro halike
    refine ⟨fun hnone => ⟨?_, hoperands.get?_eq_none hnone, hpaths.get?_eq_none hnone⟩,
      fun hsome => ?_⟩
    · rw [Hash.get?_eq, hnone]
      rfl
    · -- The first argument will do: its operand and its path are those that were entered last.
      have hfirst := List.head?_eq_some_head hsome
      have hlast := List.getLast?_eq_some_getLast hsome
      obtain ⟨⟨o, ho, ho'⟩, hpath⟩ := halike _ _ hfirst hlast
      obtain ⟨other, hother, hfound⟩ := hoperands.exists_of_getLast? hlast
      obtain ⟨path, rfl, hfoundPath⟩ := hpaths.exists_of_getLast? hlast
      obtain rfl : o = other := (compiler.operand_gathers frames _).gives_unique ho' hother
      refine ⟨_, List.head_mem hsome, ?_, ⟨o, ho, hfound⟩, ?_⟩
      · rw [Hash.get?_eq, hfirst]
        rfl
      · rw [hpath, hfoundPath]

/-! ## Names that are given twice -/

/-- Strings are compiled whatever they are. -/
theorem exists_operands_of_strings (table : Table Operand) {pairs : List (Pair (Option Location))}
    (h : ∀ p ∈ pairs, ∃ value key, p = Pair.ofString none value key) :
    ∃ operands, Gives (compiler.pairOperands frames table pairs) operands := by
  induction pairs generalizing table with
  | nil => exact ⟨table, gives_pure.2 rfl⟩
  | cons p rest ih =>
    obtain ⟨⟨value, key, rfl⟩, hrest⟩ := List.forall_mem_cons.1 h
    exact ih (table.insert key (.literal (.string value))) hrest

/-- Strings that differ are compiled to operands that do. -/
theorem not_alike_strings {value other spelling spelling' : String} {mark mark' : Option Location}
    (h : value ≠ other) :
    ¬ compiler.Alike frames (.string value spelling mark) (.string other spelling' mark') := by
  rintro ⟨⟨o, ho, hother⟩, -⟩
  have hsame : Operand.literal (.string value) = .literal (.string other) :=
    (gives_pure.1 ho).trans (gives_pure.1 hother).symm
  injection hsame with hsame
  injection hsame with hsame
  exact h hsame

/-! ## Which argument counts -/

/-- Looked up in the tree, as an operand and as a path, a name stands for one and the same of its
arguments exactly if the first and the last of them have the same operand and the same path.
Whatever the values of the arguments are, this is so exactly for names of which none is given twice.
-/
theorem namedArguments_agree_iff (compiler : Compiler) (frames : Frames) :
    (∀ (f : Form) (h : Hash (Option Location)) (operands : Table Operand), f.hash = some h →
      Gives (compiler.hashOperands frames f.hash) operands → ∀ key,
        (compiler.Agrees frames h operands f.ids.hash key ↔
          ∀ first last, (Pair.named key h.pairs).head? = some first →
            (Pair.named key h.pairs).getLast? = some last →
              compiler.Alike frames first.value last.value)) ∧
    ∀ names : List String,
      (∀ (f : Form) (h : Hash (Option Location)) (operands : Table Operand), f.hash = some h →
        Gives (compiler.hashOperands frames f.hash) operands → h.pairs.map Pair.key = names →
          ∀ key, compiler.Agrees frames h operands f.ids.hash key) ↔ names.Nodup := by
  refine ⟨fun f h operands hf hgives key => agrees_iff hf hgives key,
    fun names => ⟨fun hall => ?_, ?_⟩⟩
  · -- If a name is given twice, its first argument may have another string for its value than all
    -- others.
    by_contra htwice
    obtain ⟨before, key, rest, rfl, hbefore, hrest⟩ := exists_split_of_not_nodup htwice
    let h : Hash (Option Location) := ⟨Pair.oneOdd none before key rest, none⟩
    let f : Form := { path := Tree.Path.ofParts [] none, hash := some h, loc := none }
    obtain ⟨operands, hgives⟩ : ∃ operands, Gives (compiler.hashOperands frames f.hash) operands :=
      exists_operands_of_strings [] fun _ => Pair.exists_ofString_of_mem_oneOdd
    have hagrees :=
      (agrees_iff rfl hgives key).1 (hall f h operands rfl hgives Pair.map_key_oneOdd key)
    have hfirst : (Pair.named key h.pairs).head? = some (Pair.ofString none "odd" key) := by
      rw [Pair.named_oneOdd hbefore]
      rfl
    exact not_alike_strings (by decide)
      (hagrees _ _ hfirst (Pair.getLast?_named_oneOdd hbefore hrest))
  · rintro hnodup f h operands hf hgives rfl key
    rw [agrees_iff hf hgives]
    intro first last hfirst hlast
    obtain rfl := Pair.eq_of_nodup hnodup (List.mem_of_head? hfirst) (List.mem_of_getLast? hlast)
    rw [hf] at hgives
    obtain ⟨o, ho, -⟩ := (compiler.entered_hashOperands frames hgives).exists_of_getLast? hlast
    exact ⟨⟨o, ho, ho⟩, rfl⟩

/-- Three arguments of two names, of which the first and the last have one name and, at different
places, the same string for their values. -/
def equalStrings : Hash (Option Location) where
  pairs :=
    [⟨"a", .string "x" "x" (some ⟨none, ⟨1, 6⟩, ⟨1, 9⟩⟩), none⟩,
      ⟨"b", .boolean true "true" none, none⟩,
      ⟨"a", .string "x" "x" (some ⟨none, ⟨1, 19⟩, ⟨1, 22⟩⟩), none⟩]
  mark := none

/-- A call with these arguments. -/
def equalStringsForm : Form where
  path := { parts := ["f"], spelling := "f", mark := none }
  hash := some equalStrings
  loc := none

/-- A name that is given twice is read alike where both its arguments come to the same. -/
theorem namedArguments_agree_iff_equalStrings :
    ¬ (equalStrings.pairs.map Pair.key).Nodup ∧ equalStringsForm.hash = some equalStrings ∧
      ∃ operands, Gives (({} : Compiler).hashOperands [] equalStringsForm.hash) operands ∧
        ({} : Compiler).Agrees [] equalStrings operands equalStringsForm.ids.hash "a" := by
  let operands : Table Operand := [("a", .literal (.string "x")), ("b", .literal (.boolean true))]
  have hgives : Gives (({} : Compiler).hashOperands [] equalStringsForm.hash) operands :=
    ⟨Features.none, Features.none, rfl⟩
  refine ⟨by decide, rfl, operands, hgives, ?_⟩
  refine ((namedArguments_agree_iff {} []).1 equalStringsForm equalStrings operands rfl
    hgives "a").2 ?_
  intro first last hfirst hlast
  cases hfirst
  cases hlast
  exact ⟨⟨.literal (.string "x"), gives_pure.2 rfl, gives_pure.2 rfl⟩, rfl⟩

/-- The form of the tag that a template consists of. -/
def onlyForm? (tree : Tree.Located) : Option Form :=
  match tree.body with
  | [.mustache m] => some (Form.ofExpr m.expr)
  | _ => none

/-- A tag that gives one name twice. -/
def twiceNamed : String := "\x7b\x7bf a=b a=c\x7d\x7d"

/-- The value of the first argument is found in the tree, and the path of the last one is
recorded. -/
theorem not_namedArguments_agree :
    ∃ tree f h operands, Template.read {} twiceNamed = .ok tree ∧ onlyForm? tree = some f ∧
      f.hash = some h ∧
      Gives (({} : Compiler).hashOperands [] f.hash) operands ∧
        ¬ ({} : Compiler).Agrees [] h operands f.ids.hash "a" := by
  have hread : ((Template.read {} twiceNamed).toOption.bind onlyForm?).any
      (fun f => f.hash.any fun h =>
      (h.get? "a").map argumentPath? == some (some "b") && f.ids.hash.get? "a" == some (some "c") &&
        ((({} : Compiler).hashOperands [] f.hash).run Features.none).toOption.isSome) = true := by
    decide +kernel
  obtain ⟨f, hform, hf⟩ := (Option.any_eq_true _ _).1 hread
  obtain ⟨h, hhash, hpaths⟩ := (Option.any_eq_true _ _).1 hf
  obtain ⟨tree, htree, honly⟩ := Option.bind_eq_some_iff.1 hform
  simp only [Bool.and_eq_true, beq_iff_eq] at hpaths
  obtain ⟨⟨hfirst, hlast⟩, hcompiles⟩ := hpaths
  obtain ⟨⟨operands, after⟩, hrun⟩ := Option.isSome_iff_exists.1 hcompiles
  refine ⟨tree, f, h, operands, Syntax.eq_ok_of_toOption htree, honly, hhash,
    ⟨Features.none, after, Syntax.eq_ok_of_toOption hrun⟩, fun hagrees => ?_⟩
  have hpath := hagrees.path_eq
  rw [hfirst, hlast] at hpath
  exact absurd hpath (by decide)

end Compiler

end Stencil.Code
