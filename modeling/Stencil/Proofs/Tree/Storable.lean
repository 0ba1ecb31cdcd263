import Stencil.Proofs.Json.Records
import Stencil.Proofs.Tree.Cleared

/-!
# Trees that can be stored

A tree can be stored when its numbers are those of the interchange form: words of 32 bits for places
and depths, and for the literals such numbers as a given property `N` allows. An expression that can
be stored is read back from its form (`Expr.ofJson?_toJson`). Each kind of node is read back when
what stands in it is.

A form is read to a depth that is given beforehand, and the induction over the expression keeps to
it: what stands in a node nests less deep than the node.
-/

set_option autoImplicit false

namespace Stencil.Text

open Stencil.Json (Record present?)

/-- Line and column are words of 32 bits. -/
def Position.Storable (p : Position) : Prop := p.line < UInt32.size ∧ p.column < UInt32.size

/-- The places of a location are words of 32 bits. -/
def Location.Storable (l : Location) : Prop := l.start.Storable ∧ l.stop.Storable

theorem Position.toJson_eq (p : Position) :
    p.toJson =
      Json.compactObj [("line", some (.int p.line)), ("column", some (.int p.column))] := rfl

/-- Both members are required, and are read back since they are words. -/
theorem Position.ofJson?_toJson {p : Position} (h : p.Storable) :
    Position.ofJson? p.toJson = some p := by
  rw [Position.toJson_eq, Position.ofJson?, Json.record?_compactObj]
  dsimp only
  rw [Record.required_bind (by simp) (Json.word32?_int h.1),
    Record.required_bind (by simp) (Json.word32?_int h.2)]
  rfl

/-- The source is optional, and no name of a source is read as absent. -/
theorem Location.ofJson?_toJson {l : Location} (h : l.Storable) :
    Location.ofJson? l.toJson = some l := by
  rw [Location.toJson, Location.ofJson?, Json.record?_compactObj]
  dsimp only
  rw [Record.optional_bind (by simp : present? "source" _ = l.source.map Json.str)
      fun s _ => ⟨Json.str?_str s, Json.noConfusion⟩,
    Record.required_bind (by simp) (Position.ofJson?_toJson h.1),
    Record.required_bind (by simp) (Position.ofJson?_toJson h.2), Option.map_id']
  rfl

end Stencil.Text

namespace Stencil.Tree

open Stencil.Text (Location)
open Stencil.Json (Record present?)

/-! ## Trees that can be stored -/

/-- The location of a node, if it has one, consists of words of 32 bits. -/
def Mark.Storable (m : Mark) : Prop := ∀ l, m = some l → l.Storable

/-- Depth and location of a path are words of 32 bits. -/
def Path.Storable (p : Path Mark) : Prop := p.depth < UInt32.size ∧ Mark.Storable p.mark

section Storable

variable (N : Float → Prop)

mutual

/-- The words of the expression are of 32 bits, and its number literals have the property. -/
def Expr.Storable : Expr Mark → Prop
  | .call c => c.Storable
  | .path p => p.Storable
  | .string _ _ m => Mark.Storable m
  | .number x _ m => N x ∧ Mark.Storable m
  | .boolean _ _ m => Mark.Storable m
  | .undefined m => Mark.Storable m
  | .null m => Mark.Storable m

/-- The words of the call are of 32 bits, and its number literals have the property. -/
def Call.Storable : Call Mark → Prop
  | ⟨path, params, hash, _, mark⟩ =>
    path.Storable ∧ Expr.AllStorable params ∧ Hash.StorableOpt hash ∧ Mark.Storable mark

/-- Each of the expressions can be stored. -/
def Expr.AllStorable : List (Expr Mark) → Prop
  | [] => True
  | e :: es => e.Storable ∧ Expr.AllStorable es

/-- The named arguments, if there are any, can be stored. -/
def Hash.StorableOpt : Option (Hash Mark) → Prop
  | none => True
  | some h => h.Storable

/-- The named arguments can be stored. -/
def Hash.Storable : Hash Mark → Prop
  | ⟨pairs, mark⟩ => Pair.AllStorable pairs ∧ Mark.Storable mark

/-- Each of the arguments can be stored. -/
def Pair.AllStorable : List (Pair Mark) → Prop
  | [] => True
  | p :: ps => p.Storable ∧ Pair.AllStorable ps

/-- The argument can be stored. -/
def Pair.Storable : Pair Mark → Prop
  | ⟨_, value, mark⟩ => value.Storable ∧ Mark.Storable mark

end

/-- The mustache can be stored. -/
def Mustache.Storable (m : Mustache Mark) : Prop := m.expr.Storable N ∧ Mark.Storable m.mark

/-- The partial can be stored. -/
def PartialCall.Storable (p : PartialCall Mark) : Prop :=
  p.name.Storable N ∧ Expr.AllStorable N p.params ∧ Hash.StorableOpt N p.hash ∧ Mark.Storable p.mark

mutual

/-- The words of the program are of 32 bits, and its number literals have the property. -/
def Program.Storable : Program Mark → Prop
  | ⟨body, _, _, mark⟩ => Statement.AllStorable body ∧ Mark.Storable mark

/-- Each of the statements can be stored. -/
def Statement.AllStorable : List (Statement Mark) → Prop
  | [] => True
  | s :: rest => s.Storable ∧ Statement.AllStorable rest

/-- The statement can be stored. -/
def Statement.Storable : Statement Mark → Prop
  | .mustache m => m.Storable N
  | .block b => b.Storable
  | .partialCall p => p.Storable N
  | .partialBlock p => p.Storable
  | .content c => Mark.Storable c.mark
  | .comment c => Mark.Storable c.mark

/-- The block can be stored. -/
def Block.Storable : Block Mark → Prop
  | ⟨expr, program, inverse, _, _, _, close, mark⟩ =>
    expr.Storable N ∧ Program.StorableOpt program ∧ Program.StorableOpt inverse ∧
      (∀ p, close = some p → p.Storable) ∧ Mark.Storable mark

/-- The partial with a body can be stored. -/
def PartialBlock.Storable : PartialBlock Mark → Prop
  | ⟨name, params, hash, program, _, _, mark⟩ =>
    name.Storable N ∧ Expr.AllStorable N params ∧ Hash.StorableOpt N hash ∧ program.Storable ∧
      Mark.Storable mark

/-- The section, if it is there, can be stored. -/
def Program.StorableOpt : Option (Program Mark) → Prop
  | none => True
  | some p => p.Storable

end

end Storable

/-! ## Nodes without nodes in them -/

/-- The tag is the first member, so it is found whatever the others are. -/
theorem tagged?_taggedObj (names : List String) (numbered : Bool) (tag : String)
    (members : List (String × Option Json)) :
    (taggedObj tag members).tagged? names numbered = some (tag, taggedObj tag members) :=
  Json.tagged?_compactObj names numbered tag members

/-- A mark has its member only where there is a location. -/
@[simp] theorem present?_member (name : String) (m : Mark) (rest : List (String × Option Json)) :
    present? name (m.member :: rest) =
      if "loc" = name then (m.map Location.toJson).or (present? name rest)
        else present? name rest :=
  Json.present?_cons ..

/-- The location of a node is read back, whether there is one or not. -/
theorem Mark.read_bind {β : Type} {m : Mark} {members : List (String × Option Json)} {place : Nat}
    {next : Mark → Option β} (hmark : m.Storable)
    (h : present? "loc" members = m.map Location.toJson) :
    (Mark.read (Record.ofMembers members) place >>= next) = next m := by
  rw [Mark.read, Record.optional_bind h fun l hl => ⟨Location.ofJson?_toJson (hmark l hl), nofun⟩,
    Option.map_id']

/-- A path is read back from an object that has its members, and perhaps a tag. -/
theorem Path.ofJson?_compactObj {p : Path Mark} {members : List (String × Option Json)}
    (hp : p.Storable)
    (h : ∀ name, name ≠ "type" → present? name members = present? name p.members) :
    Path.ofJson? (Json.compactObj members) = some p := by
  rw [Path.ofJson?, Json.record?_bind,
    Record.withDefault_bind (by simp [h, Path.members]) (Json.bool?_bool p.data),
    Record.withDefault_bind (by simp [h, Path.members]) (Json.word32?_int hp.1),
    Record.required_bind (by simp [h, Path.members]) (Json.list?_strs p.parts),
    Record.required_bind (by simp [h, Path.members]) (Json.str?_str p.spelling),
    Mark.read_bind hp.2 (by simp [h, Path.members])]
  rfl

theorem Path.ofJson?_toJson {p : Path Mark} (h : p.Storable) : Path.ofJson? p.toJson = some p :=
  Path.ofJson?_compactObj h fun _ _ => rfl

/-- A tag in front of the members of a path is not looked at when the path is read. -/
theorem Path.ofJson?_taggedObj {p : Path Mark} (h : p.Storable) (tag : String) :
    Path.ofJson? (taggedObj tag p.members) = some p :=
  Path.ofJson?_compactObj h fun _ hname => by rw [Json.present?_cons, if_neg hname.symm]

/-- A literal is read back if its value is. -/
theorem literalOf?_taggedObj {α : Type} {value : Json → Option α}
    {make : α → String → Mark → Expr Mark} {j : Json} {v : α} {mark : Mark} (tag spelling : String)
    (hvalue : value j = some v) (hmark : mark.Storable) :
    literalOf? (taggedObj tag (literalMembers j spelling mark)) value make =
      some (make v spelling mark) := by
  rw [literalOf?, taggedObj, literalMembers, Json.record?_bind,
    Record.required_bind (by simp) hvalue, Record.required_bind (by simp) (Json.str?_str spelling),
    Mark.read_bind hmark (by simp)]
  rfl

/-- A literal without a value is read back from its tag. -/
theorem bareLiteral?_taggedObj {make : Mark → Expr Mark} {mark : Mark} (tag : String)
    (hmark : mark.Storable) :
    bareLiteral? (taggedObj tag [mark.member]) make = some (make mark) := by
  rw [bareLiteral?, taggedObj, Json.record?_bind, Mark.read_bind hmark (by simp)]
  rfl

theorem Strip.toJson_eq (s : Strip) :
    s.toJson =
      Json.compactObj [("open", some (.bool s.before)), ("close", some (.bool s.after))] := rfl

/-- Two markers make two members that are always there. -/
theorem Strip.ofJson?_toJson (s : Strip) : Strip.ofJson? s.toJson = some s := by
  rw [Strip.toJson_eq, Strip.ofJson?, Json.record?_bind,
    Record.withDefault_bind (by simp) (Json.bool?_bool s.before),
    Record.withDefault_bind (by simp) (Json.bool?_bool s.after)]
  rfl

/-- The form of content does not say what was cut off it. -/
theorem Content.ofJson?_toJson {c : Content Mark} (h : Mark.Storable c.mark) :
    Content.ofJson? c.toJson = some c.cleared := by
  rw [Content.toJson, taggedObj, Content.ofJson?, Json.record?_bind,
    Record.required_bind (by simp) (Json.str?_str c.value),
    Record.required_bind (by simp) (Json.str?_str c.written), Mark.read_bind h (by simp)]
  rfl

/-- A comment is its text, its markers and its mark. -/
theorem Comment.ofJson?_toJson {c : Comment Mark} (h : Mark.Storable c.mark) :
    Comment.ofJson? c.toJson = some c := by
  rw [Comment.toJson, taggedObj, Comment.ofJson?, Json.record?_bind,
    Record.required_bind (by simp) (Json.str?_str c.value),
    Record.withDefault_bind (by simp) (Strip.ofJson?_toJson c.strip), Mark.read_bind h (by simp)]
  rfl

/-! ## Expressions -/

theorem Expr.toJsons_eq_map (es : List (Expr Mark)) : Expr.toJsons es = es.map Expr.toJson := by
  induction es with
  | nil => rfl
  | cons e es ih => rw [Expr.toJsons, List.map_cons, ih]

theorem Pair.toJsons_eq_map (ps : List (Pair Mark)) : Pair.toJsons ps = ps.map Pair.toJson := by
  induction ps with
  | nil => rfl
  | cons p ps ih => rw [Pair.toJsons, List.map_cons, ih]

theorem Hash.toJsonOpt_eq_map (h : Option (Hash Mark)) : Hash.toJsonOpt h = h.map Hash.toJson := by
  cases h <;> rfl

/-- So named arguments that are there are not taken for absent ones. -/
theorem Hash.toJson_ne_null (h : Hash Mark) : h.toJson ≠ .null := by
  cases h
  exact Json.noConfusion

section Expressions

variable {N : Float → Prop} {value : Json → Option (Expr Mark)}

/-- Expressions in a row can be stored one by one. -/
theorem Expr.allStorable_iff {es : List (Expr Mark)} :
    Expr.AllStorable N es ↔ ∀ e ∈ es, e.Storable N := by
  induction es with
  | nil => exact ⟨fun _ _ h => absurd h List.not_mem_nil, fun _ => trivial⟩
  | cons e es ih => rw [Expr.AllStorable, List.forall_mem_cons, ih]

theorem Pair.allStorable_iff {ps : List (Pair Mark)} :
    Pair.AllStorable N ps ↔ ∀ p ∈ ps, p.Storable N := by
  induction ps with
  | nil => exact ⟨fun _ _ h => absurd h List.not_mem_nil, fun _ => trivial⟩
  | cons p ps ih => rw [Pair.AllStorable, List.forall_mem_cons, ih]

/-- A list is read back if each of its items is. -/
theorem Expr.list?_toJsons {es : List (Expr Mark)} (h : ∀ e ∈ es, value e.toJson = some e) :
    Json.list? value (.arr (Expr.toJsons es)) = some es := by
  rw [Json.list?, Expr.toJsons_eq_map, Json.all?_map h, List.map_id']

/-- A named argument is read back if its value is. -/
theorem Pair.ofJson?_toJson {p : Pair Mark} (hp : p.Storable N)
    (hvalue : value p.value.toJson = some p.value) : Pair.ofJson? value p.toJson = some p := by
  obtain ⟨key, argument, mark⟩ := p
  obtain ⟨-, hmark⟩ := hp
  rw [Pair.toJson, Pair.ofJson?, Json.record?_bind,
    Record.required_bind (by simp) (Json.str?_str key), Record.required_bind (by simp) hvalue,
    Mark.read_bind hmark (by simp)]
  rfl

/-- So are named arguments in a row. -/
theorem Hash.ofJson?_toJson {h : Hash Mark} (hh : h.Storable N)
    (hvalues : ∀ p ∈ h.pairs, value p.value.toJson = some p.value) :
    Hash.ofJson? value h.toJson = some h := by
  obtain ⟨pairs, mark⟩ := h
  obtain ⟨hpairs, hmark⟩ := hh
  have hlist : Json.list? (Pair.ofJson? value) (.arr (Pair.toJsons pairs)) = some pairs := by
    rw [Json.list?, Pair.toJsons_eq_map, Json.all?_map fun p hp =>
      Pair.ofJson?_toJson (Pair.allStorable_iff.1 hpairs p hp) (hvalues p hp), List.map_id']
  rw [Hash.toJson, Hash.ofJson?, Json.record?_bind, Record.required_bind (by simp) hlist,
    Mark.read_bind hmark (by simp)]
  rfl

/-- Named arguments are read back, if there are any. -/
theorem Hash.read_bind {β : Type} {hash : Option (Hash Mark)}
    {members : List (String × Option Json)} {place : Nat} {next : Option (Hash Mark) → Option β}
    (hhash : Hash.StorableOpt N hash)
    (hvalues : ∀ h, hash = some h → ∀ p ∈ h.pairs, value p.value.toJson = some p.value)
    (hwritten : present? "hash" members = Hash.toJsonOpt hash) :
    ((Record.ofMembers members).optional place "hash" (Hash.ofJson? value) >>= next) =
      next hash := by
  have hread : ∀ h, hash = some h → Hash.ofJson? value h.toJson = some h ∧ h.toJson ≠ .null := by
    rintro h rfl
    exact ⟨Hash.ofJson?_toJson hhash (hvalues h rfl), h.toJson_ne_null⟩
  rw [Hash.toJsonOpt_eq_map] at hwritten
  rw [Record.optional_bind hwritten hread, Option.map_id']

/-- A call is read back if what stands in it is: its arguments and the values of its named ones. -/
theorem Call.ofJson?_toJson {c : Call Mark} (hc : c.Storable N)
    (hparams : ∀ e ∈ c.params, value e.toJson = some e)
    (hvalues : ∀ h, c.hash = some h → ∀ p ∈ h.pairs, value p.value.toJson = some p.value) :
    Call.ofJson? value c.toJson = some c := by
  obtain ⟨path, params, hash, parenthesised, mark⟩ := c
  obtain ⟨hpath, -, hhash, hmark⟩ := hc
  rw [Call.toJson, taggedObj, Call.ofJson?, Json.record?_bind,
    Record.required_bind (by simp) (Path.ofJson?_toJson hpath),
    Record.withDefault_bind (by simp) (Expr.list?_toJsons hparams),
    Hash.read_bind hhash hvalues (by simp),
    Record.optional_bind (by simp : present? "isHelper" _ = parenthesised.map Json.bool)
      fun b _ => ⟨Json.bool?_bool b, Json.noConfusion⟩,
    Mark.read_bind hmark (by simp), Option.map_id']
  rfl

/-! ### Nesting -/

/-- Every call is written under one tag, by which it is told from other expressions. -/
theorem Call.tagged?_toJson (names : List String) (numbered : Bool) (c : Call Mark) :
    c.toJson.tagged? names numbered = some ("SubExpression", c.toJson) := by
  cases c
  exact tagged?_taggedObj ..

/-- Arguments nest less deep than their call, so the depth that is left suffices for them. -/
theorem Call.depth_params_lt (c : Call Mark) :
    (Json.arr (Expr.toJsons c.params)).depth < c.toJson.depth := by
  cases c
  exact Json.depth_lt_compactObj "params" (by simp)

/-- Named arguments do too. -/
theorem Call.depth_hash_lt {c : Call Mark} {h : Hash Mark} (hc : c.hash = some h) :
    h.toJson.depth < c.toJson.depth := by
  cases c
  cases hc
  exact Json.depth_lt_compactObj "hash" (by simp [Hash.toJsonOpt])

theorem Pair.depth_value_lt (p : Pair Mark) : p.value.toJson.depth < p.toJson.depth := by
  cases p
  exact Json.depth_lt_compactObj "value" (by simp)

theorem Hash.depth_pairs_lt (h : Hash Mark) :
    (Json.arr (Pair.toJsons h.pairs)).depth < h.toJson.depth := by
  cases h
  exact Json.depth_lt_compactObj "pairs" (by simp)

mutual

/-- An expression is read back to any depth that it does not reach. -/
theorem Expr.ofJsonWithin?_toJson : ∀ {fuel : Nat} {e : Expr Mark}, e.Storable N →
    e.toJson.depth < fuel → Expr.ofJsonWithin? fuel e.toJson = some e
  | fuel + 1, .call c, h, hdepth => by
    rw [Expr.toJson, Expr.ofJsonWithin?, Call.tagged?_toJson]
    dsimp only
    rw [Call.ofJsonWithin?_toJson h (Nat.le_of_lt_succ hdepth)]
    rfl
  | fuel + 1, .path p, h, _ => by
    rw [Expr.toJson, Expr.ofJsonWithin?, tagged?_taggedObj]
    dsimp only
    rw [Path.ofJson?_taggedObj h]
    rfl
  | fuel + 1, .string v o m, h, _ => by
    rw [Expr.toJson, Expr.ofJsonWithin?, tagged?_taggedObj]
    exact literalOf?_taggedObj _ o (Json.str?_str v) h
  | fuel + 1, .number x o m, h, _ => by
    rw [Expr.toJson, Expr.ofJsonWithin?, tagged?_taggedObj]
    exact literalOf?_taggedObj _ o (Json.float?_float x) h.2
  | fuel + 1, .boolean b o m, h, _ => by
    rw [Expr.toJson, Expr.ofJsonWithin?, tagged?_taggedObj]
    exact literalOf?_taggedObj _ o (Json.bool?_bool b) h
  | fuel + 1, .undefined m, h, _ => by
    rw [Expr.toJson, Expr.ofJsonWithin?, tagged?_taggedObj]
    exact bareLiteral?_taggedObj _ h
  | fuel + 1, .null m, h, _ => by
    rw [Expr.toJson, Expr.ofJsonWithin?, tagged?_taggedObj]
    exact bareLiteral?_taggedObj _ h

/-- By recursion over the call: what stands in it is read to one depth less, which is enough. -/
theorem Call.ofJsonWithin?_toJson : ∀ {fuel : Nat} {c : Call Mark}, c.Storable N →
    c.toJson.depth ≤ fuel → Call.ofJson? (Expr.ofJsonWithin? fuel) c.toJson = some c
  | _, ⟨_, _, _, _, _⟩, h, hdepth => by
    refine Call.ofJson?_toJson h (Expr.allWithin_toJson h.2.1 fun j hj => ?_)
      (Hash.allWithin_toJson h.2.2.1 fun h hh => ?_)
    · exact Nat.lt_of_lt_of_le (Nat.lt_trans (Json.depth_lt_arr hj) (Call.depth_params_lt _)) hdepth
    · exact Nat.lt_of_lt_of_le (Call.depth_hash_lt hh) hdepth

theorem Expr.allWithin_toJson : ∀ {fuel : Nat} {es : List (Expr Mark)}, Expr.AllStorable N es →
    (∀ j ∈ Expr.toJsons es, j.depth < fuel) →
    ∀ e ∈ es, Expr.ofJsonWithin? fuel e.toJson = some e
  | _, [], _, _ => nofun
  | fuel, e :: es, h, hdepth => by
    obtain ⟨he, hes⟩ := List.forall_mem_cons.1 hdepth
    exact List.forall_mem_cons.2
      ⟨Expr.ofJsonWithin?_toJson h.1 he, Expr.allWithin_toJson h.2 hes⟩

theorem Hash.allWithin_toJson : ∀ {fuel : Nat} {hash : Option (Hash Mark)},
    Hash.StorableOpt N hash → (∀ h, hash = some h → h.toJson.depth < fuel) →
    ∀ h, hash = some h → ∀ p ∈ h.pairs, Expr.ofJsonWithin? fuel p.value.toJson = some p.value
  | _, none, _, _ => nofun
  | fuel, some h, hstorable, hdepth => by
    rintro _ ⟨⟩
    exact Hash.valuesWithin_toJson hstorable (hdepth h rfl)

/-- The pairs stand one level further in, their values one more. -/
theorem Hash.valuesWithin_toJson : ∀ {fuel : Nat} {h : Hash Mark}, h.Storable N →
    h.toJson.depth < fuel → ∀ p ∈ h.pairs, Expr.ofJsonWithin? fuel p.value.toJson = some p.value
  | _, ⟨_, _⟩, h, hdepth =>
    Pair.allWithin_toJson h.1 fun _ hj =>
      Nat.lt_trans (Nat.lt_trans (Json.depth_lt_arr hj) (Hash.depth_pairs_lt _)) hdepth

theorem Pair.allWithin_toJson : ∀ {fuel : Nat} {ps : List (Pair Mark)}, Pair.AllStorable N ps →
    (∀ j ∈ Pair.toJsons ps, j.depth < fuel) →
    ∀ p ∈ ps, Expr.ofJsonWithin? fuel p.value.toJson = some p.value
  | _, [], _, _ => nofun
  | fuel, p :: ps, h, hdepth => by
    obtain ⟨hp, hps⟩ := List.forall_mem_cons.1 hdepth
    exact List.forall_mem_cons.2 ⟨Pair.valueWithin_toJson h.1 hp, Pair.allWithin_toJson h.2 hps⟩

theorem Pair.valueWithin_toJson : ∀ {fuel : Nat} {p : Pair Mark}, p.Storable N →
    p.toJson.depth < fuel → Expr.ofJsonWithin? fuel p.value.toJson = some p.value
  | _, ⟨_, _, _⟩, h, hdepth =>
    Expr.ofJsonWithin?_toJson h.1 (Nat.lt_trans (Pair.depth_value_lt _) hdepth)

end

/-- An expression is read back. -/
theorem Expr.ofJson?_toJson {e : Expr Mark} (h : e.Storable N) : Expr.ofJson? e.toJson = some e :=
  Expr.ofJsonWithin?_toJson h (Nat.lt_succ_self _)

end Expressions

end Stencil.Tree
