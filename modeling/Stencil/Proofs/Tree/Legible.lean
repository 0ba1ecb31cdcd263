import Stencil.Proofs.Json.Text
import Stencil.Proofs.Tree.Storable

/-!
# Forms of trees as texts

The form of a tree is legible: the names of each of its objects differ, and its words fit into an
integer of JSON. Its number literals are those of the tree, so they have to be read back from their
numerals (`Program.legible_toJson`).
-/

set_option autoImplicit false

namespace Stencil

namespace Json

/-- Members of different names are so when some are left out. -/
theorem names_compactObj {members : List (String × Option Json)}
    (h : (members.map Prod.fst).Nodup) :
    (Table.names (members.filterMap fun m => m.2.map fun j => (m.1, j))).Nodup := by
  have hsub : ∀ members : List (String × Option Json),
      (Table.names (members.filterMap fun m => m.2.map fun j => (m.1, j))).Sublist
        (members.map Prod.fst) := by
    intro members
    induction members with
    | nil => exact List.Sublist.slnil
    | cons m members ih =>
      obtain ⟨key, _ | j⟩ := m
      · exact ih.cons key
      · exact ih.cons_cons key
  exact h.sublist (hsub members)

/-- Members are legible one by one. -/
theorem allLegibleMembers_iff {members : List (String × Json)} :
    AllLegibleMembers members ↔ ∀ m ∈ members, m.2.Legible := by
  induction members with
  | nil => exact ⟨fun _ _ h => absurd h List.not_mem_nil, fun _ => trivial⟩
  | cons m members ih =>
    obtain ⟨key, j⟩ := m
    rw [AllLegibleMembers, List.forall_mem_cons, ih]

/-- The value is legible if there is one. -/
def LegibleOpt (o : Option Json) : Prop := ∀ j, o = some j → j.Legible

@[simp] theorem legibleOpt_none : LegibleOpt none := nofun

@[simp] theorem legibleOpt_some {j : Json} : LegibleOpt (some j) ↔ j.Legible :=
  ⟨fun h => h j rfl, fun h => by rintro _ ⟨⟩; exact h⟩

/-- What is written of a value, if there is one, is legible. -/
theorem legibleOpt_map {α : Type} {write : α → Json} {o : Option α}
    (h : ∀ a, o = some a → (write a).Legible) : LegibleOpt (o.map write) := by
  cases o with
  | none => exact legibleOpt_none
  | some a => exact legibleOpt_some.2 (h a rfl)

@[simp] theorem legibleOpt_ite {c : Prop} [Decidable c] {o o' : Option Json} :
    LegibleOpt (if c then o else o') ↔ (c → LegibleOpt o) ∧ (¬c → LegibleOpt o') := by
  by_cases h : c
  · simp [h]
  · simp [h]

@[simp] theorem legible_bool (b : Bool) : (Json.bool b).Legible := trivial

@[simp] theorem legible_str (s : String) : (Json.str s).Legible := trivial

@[simp] theorem legible_arr {items : List Json} : (Json.arr items).Legible ↔ AllLegible items :=
  Iff.rfl

/-- An object is legible if the names of its members differ and those that are present are
legible. -/
theorem legible_compactObj {members : List (String × Option Json)}
    (hnames : (members.map Prod.fst).Nodup) (h : ∀ m ∈ members, LegibleOpt m.2) :
    (compactObj members).Legible := by
  refine ⟨names_compactObj hnames, allLegibleMembers_iff.2 fun m hm => ?_⟩
  obtain ⟨⟨key, o⟩, hmem, hsome⟩ := List.mem_filterMap.1 hm
  obtain ⟨j, rfl, rfl⟩ := Option.map_eq_some_iff.1 hsome
  exact h _ hmem j rfl

/-- A word of 32 bits fits into an integer of JSON. -/
theorem legible_word {n : Nat} (h : n < UInt32.size) : (Json.int n).Legible := by
  refine ⟨?_, ?_⟩
  · exact Int.le_trans (by decide) (Int.natCast_nonneg n)
  · exact Int.lt_trans (Int.ofNat_lt.2 h) (by decide)

/-- Strings are legible whatever their text. -/
@[simp] theorem allLegible_strs (texts : List String) : AllLegible (texts.map Json.str) := by
  induction texts with
  | nil => trivial
  | cons s texts ih => exact ⟨trivial, ih⟩

end Json

namespace Text

/-- Line and column are words. -/
theorem Position.legible_toJson {p : Position} (h : p.Storable) : p.toJson.Legible := by
  rw [Position.toJson_eq]
  refine Json.legible_compactObj (by simp) ?_
  simp [Json.legible_word h.1, Json.legible_word h.2]

/-- A location has its two places, and a name of a source if one was given. -/
theorem Location.legible_toJson {l : Location} (h : l.Storable) : l.toJson.Legible := by
  have hsource : Json.LegibleOpt (l.source.map Json.str) :=
    Json.legibleOpt_map fun s _ => Json.legible_str s
  refine Json.legible_compactObj (by simp) ?_
  simp [hsource, Position.legible_toJson h.1, Position.legible_toJson h.2]

end Text

namespace Tree

open Stencil.Text (Location)
open Stencil.Json (ReadsBack)

/-! ## Expressions -/

@[simp] theorem Mark.member_fst (m : Mark) : m.member.1 = "loc" := rfl

/-- A node without a location has no such member. -/
theorem Mark.legible_member {m : Mark} (h : m.Storable) : Json.LegibleOpt m.member.2 :=
  Json.legibleOpt_map fun l hl => Location.legible_toJson (h l hl)

/-- The members of a path may stand behind others of different names, since a path is written into
the object of the node it stands for. -/
theorem Path.legible_compactObj {p : Path Mark} (h : p.Storable)
    (members : List (String × Option Json)) (hnames : ((members ++ p.members).map Prod.fst).Nodup)
    (hmembers : ∀ m ∈ members, Json.LegibleOpt m.2) :
    (Json.compactObj (members ++ p.members)).Legible := by
  refine Json.legible_compactObj hnames (List.forall_mem_append.2 ⟨hmembers, ?_⟩)
  have hmark := Mark.legible_member h.2
  simp [Path.members, Json.legible_word h.1, Json.allLegible_strs, hmark]

theorem Path.legible_toJson {p : Path Mark} (h : p.Storable) : p.toJson.Legible :=
  Path.legible_compactObj h [] (by simp [Path.members]) nofun

theorem Path.legible_taggedObj {p : Path Mark} (h : p.Storable) (tag : String) :
    (taggedObj tag p.members).Legible :=
  Path.legible_compactObj h [("type", some (.str tag))] (by simp [Path.members])
    (by simp)

/-- A literal is legible if its value is. -/
theorem legible_literal {value : Json} {mark : Mark} (tag spelling : String)
    (hvalue : value.Legible) (hmark : mark.Storable) :
    (taggedObj tag (literalMembers value spelling mark)).Legible := by
  have hmark := Mark.legible_member hmark
  refine Json.legible_compactObj (by simp [literalMembers]) ?_
  simp [literalMembers, hvalue, hmark]

theorem legible_bareLiteral {mark : Mark} (tag : String) (hmark : mark.Storable) :
    (taggedObj tag [mark.member]).Legible := by
  have hmark := Mark.legible_member hmark
  refine Json.legible_compactObj (by simp) ?_
  simp [hmark]

mutual

/-- By recursion over the expression: the only condition is on the number literals in it. -/
theorem Expr.legible_toJson : ∀ {e : Expr Mark}, e.Storable ReadsBack → e.toJson.Legible
  | .call _, h => Call.legible_toJson h
  | .path _, h => Path.legible_taggedObj h _
  | .string _ _ _, h => legible_literal _ _ trivial h
  | .number _ _ _, h => legible_literal _ _ h.1 h.2
  | .boolean _ _ _, h => legible_literal _ _ trivial h
  | .undefined _, h => legible_bareLiteral _ h
  | .null _, h => legible_bareLiteral _ h

/-- The names of the members of a call differ, and each member is legible by the recursion. -/
theorem Call.legible_toJson : ∀ {c : Call Mark}, c.Storable ReadsBack → c.toJson.Legible
  | ⟨path, params, hash, parenthesised, mark⟩, ⟨hpath, hparams, hhash, hmark⟩ => by
    have hpath := Path.legible_toJson hpath
    have hparams := Expr.allLegible_toJsons hparams
    have hhash := Hash.legible_toJsonOpt hhash
    have hhelper : Json.LegibleOpt (parenthesised.map Json.bool) :=
      Json.legibleOpt_map fun b _ => Json.legible_bool b
    have hmark := Mark.legible_member hmark
    refine Json.legible_compactObj (by simp) ?_
    simp [hpath, hparams, hhash, hhelper, hmark]

theorem Expr.allLegible_toJsons : ∀ {es : List (Expr Mark)}, Expr.AllStorable ReadsBack es →
    Json.AllLegible (Expr.toJsons es)
  | [], _ => trivial
  | _ :: _, h => ⟨Expr.legible_toJson h.1, Expr.allLegible_toJsons h.2⟩

theorem Hash.legible_toJsonOpt : ∀ {hash : Option (Hash Mark)}, Hash.StorableOpt ReadsBack hash →
    Json.LegibleOpt (Hash.toJsonOpt hash)
  | none, _ => Json.legibleOpt_none
  | some _, h => Json.legibleOpt_some.2 (Hash.legible_toJson h)

theorem Hash.legible_toJson : ∀ {h : Hash Mark}, h.Storable ReadsBack → h.toJson.Legible
  | ⟨pairs, mark⟩, ⟨hpairs, hmark⟩ => by
    have hpairs := Pair.allLegible_toJsons hpairs
    have hmark := Mark.legible_member hmark
    refine Json.legible_compactObj (by simp) ?_
    simp [hpairs, hmark]

theorem Pair.allLegible_toJsons : ∀ {ps : List (Pair Mark)}, Pair.AllStorable ReadsBack ps →
    Json.AllLegible (Pair.toJsons ps)
  | [], _ => trivial
  | _ :: _, h => ⟨Pair.legible_toJson h.1, Pair.allLegible_toJsons h.2⟩

/-- The name of an argument is a string, its value an expression. -/
theorem Pair.legible_toJson : ∀ {p : Pair Mark}, p.Storable ReadsBack → p.toJson.Legible
  | ⟨key, value, mark⟩, ⟨hvalue, hmark⟩ => by
    have hvalue := Expr.legible_toJson hvalue
    have hmark := Mark.legible_member hmark
    refine Json.legible_compactObj (by simp) ?_
    simp [hvalue, hmark]

end

/-! ## Statements -/

theorem Strip.legible_toJson (s : Strip) : s.toJson.Legible := by
  rw [Strip.toJson_eq]
  refine Json.legible_compactObj (by simp) ?_
  simp

/-- A tag is its expression and markers without numbers. -/
theorem Mustache.legible_toJson {m : Mustache Mark} (h : m.Storable ReadsBack) :
    m.toJson.Legible := by
  have hexpr := Expr.legible_toJson h.1
  have hmark := Mark.legible_member h.2
  refine Json.legible_compactObj (by simp) ?_
  simp [hexpr, hmark, Strip.legible_toJson]

/-- A partial is its name, its arguments and its indentation. -/
theorem PartialCall.legible_toJson {p : PartialCall Mark} (h : p.Storable ReadsBack) :
    p.toJson.Legible := by
  have hname := Expr.legible_toJson h.1
  have hparams := Expr.allLegible_toJsons h.2.1
  have hhash := Hash.legible_toJsonOpt h.2.2.1
  have hmark := Mark.legible_member h.2.2.2
  refine Json.legible_compactObj (by simp) ?_
  simp [hname, hparams, hhash, hmark, Strip.legible_toJson]

theorem Content.legible_toJson {c : Content Mark} (h : Mark.Storable c.mark) :
    c.toJson.Legible := by
  have hmark := Mark.legible_member h
  refine Json.legible_compactObj (by simp) ?_
  simp [hmark]

theorem Comment.legible_toJson {c : Comment Mark} (h : Mark.Storable c.mark) :
    c.toJson.Legible := by
  have hmark := Mark.legible_member h
  refine Json.legible_compactObj (by simp) ?_
  simp [hmark, Strip.legible_toJson]

mutual

/-- The form of a tree is legible if its numbers are read back. -/
theorem Program.legible_toJson : ∀ {p : Program Mark}, p.Storable ReadsBack → p.toJson.Legible
  | ⟨body, blockParams, chained, mark⟩, ⟨hbody, hmark⟩ => by
    have hbody := Statement.allLegible_toJsons hbody
    have hmark := Mark.legible_member hmark
    refine Json.legible_compactObj (by simp) ?_
    simp [hbody, hmark]

/-- Statements in a row are legible one by one. -/
theorem Statement.allLegible_toJsons : ∀ {body : List (Statement Mark)},
    Statement.AllStorable ReadsBack body → Json.AllLegible (Statement.toJsons body)
  | [], _ => trivial
  | _ :: _, h => ⟨Statement.legible_toJson h.1, Statement.allLegible_toJsons h.2⟩

theorem Statement.legible_toJson : ∀ {s : Statement Mark}, s.Storable ReadsBack → s.toJson.Legible
  | .mustache _, h => Mustache.legible_toJson h
  | .block _, h => Block.legible_toJson h
  | .partialCall _, h => PartialCall.legible_toJson h
  | .partialBlock _, h => PartialBlock.legible_toJson h
  | .content _, h => Content.legible_toJson h
  | .comment _, h => Comment.legible_toJson h

/-- A section that is absent is written as null, a closing tag that is absent not at all. -/
theorem Block.legible_toJson : ∀ {b : Block Mark}, b.Storable ReadsBack → b.toJson.Legible
  | ⟨expr, program, inverse, _, _, _, close, mark⟩, ⟨hexpr, hprogram, hinverse, hclose, hmark⟩ => by
    have hexpr := Expr.legible_toJson hexpr
    have hprogram := Program.legible_toJsonOpt hprogram
    have hinverse := Program.legible_toJsonOpt hinverse
    have hclose := Json.legibleOpt_map fun p hp => Path.legible_toJson (hclose p hp)
    have hmark := Mark.legible_member hmark
    refine Json.legible_compactObj (by simp) ?_
    simp [hexpr, hprogram, hinverse, hclose, hmark, Strip.legible_toJson]

theorem Program.legible_toJsonOpt : ∀ {p : Option (Program Mark)}, Program.StorableOpt ReadsBack p →
    (Program.toJsonOpt p).Legible
  | none, _ => trivial
  | some _, h => Program.legible_toJson h

/-- A partial block has the members of a partial and a body. -/
theorem PartialBlock.legible_toJson : ∀ {p : PartialBlock Mark}, p.Storable ReadsBack →
    p.toJson.Legible
  | ⟨name, params, hash, program, _, _, mark⟩, ⟨hname, hparams, hhash, hprogram, hmark⟩ => by
    have hname := Expr.legible_toJson hname
    have hparams := Expr.allLegible_toJsons hparams
    have hhash := Hash.legible_toJsonOpt hhash
    have hprogram := Program.legible_toJson hprogram
    have hmark := Mark.legible_member hmark
    refine Json.legible_compactObj (by simp) ?_
    simp [hname, hparams, hhash, hprogram, hmark, Strip.legible_toJson]

end

end Tree

end Stencil
