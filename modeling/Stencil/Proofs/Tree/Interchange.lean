import Stencil.Proofs.Tree.Storable

/-!
# Reading trees that were written

A tree that can be stored is read back from its form, less the notes of what was cut off its content
(`Program.ofJson?_toJson`). Each kind of statement is read back when what stands in it is, and the
induction over the tree supplies that: what stands in a statement nests less deep than the
statement.
-/

set_option autoImplicit false

namespace Stencil.Tree

open Stencil.Json (Record present?)

variable {N : Float → Prop}

theorem Statement.toJsons_eq_map (body : List (Statement Mark)) :
    Statement.toJsons body = body.map Statement.toJson := by
  induction body with
  | nil => rfl
  | cons s rest ih => rw [Statement.toJsons, List.map_cons, ih]

/-! ## Statements without statements in them -/

theorem Mustache.ofJson?_toJson {m : Mustache Mark} (h : m.Storable N) :
    Mustache.ofJson? m.toJson = some m := by
  rw [Mustache.toJson, taggedObj, Mustache.ofJson?, Json.record?_bind,
    Record.required_bind (by simp) (Expr.ofJson?_toJson h.1),
    Record.required_bind (by simp) (Json.bool?_bool m.escaped),
    Record.withDefault_bind (by simp) (Strip.ofJson?_toJson m.strip), Mark.read_bind h.2 (by simp)]
  rfl

/-- The values of named arguments are read back. -/
theorem Hash.values_toJson {hash : Option (Hash Mark)} (h : Hash.StorableOpt N hash) :
    ∀ h, hash = some h → ∀ p ∈ h.pairs, Expr.ofJson? p.value.toJson = some p.value := by
  rintro ⟨pairs, mark⟩ rfl ⟨key, value, place⟩ hp
  exact Expr.ofJson?_toJson (Pair.allStorable_iff.1 h.1 _ hp).1

theorem PartialCall.ofJson?_toJson {p : PartialCall Mark} (h : p.Storable N) :
    PartialCall.ofJson? p.toJson = some p := by
  obtain ⟨hname, hparams, hhash, hmark⟩ := h
  have hlist := Expr.list?_toJsons fun e he =>
    Expr.ofJson?_toJson (Expr.allStorable_iff.1 hparams e he)
  rw [PartialCall.toJson, taggedObj, PartialCall.ofJson?, Json.record?_bind,
    Record.required_bind (by simp) (Expr.ofJson?_toJson hname),
    Record.withDefault_bind (by simp) hlist,
    Hash.read_bind hhash (Hash.values_toJson hhash) (by simp),
    Record.withDefault_bind (by simp) (Json.str?_str p.indent),
    Record.withDefault_bind (by simp) (Strip.ofJson?_toJson p.strip),
    Mark.read_bind hmark (by simp)]
  rfl

/-! ## Programs and statements with a body -/

theorem Program.toJson_ne_null (p : Program Mark) : p.toJson ≠ .null := by
  cases p
  exact Json.noConfusion

/-- A program is read back if its statements are. -/
theorem Program.ofJsonOver?_toJson {statement : Json → Option (Statement Mark)} {p : Program Mark}
    (hp : p.Storable N) (hbody : ∀ s ∈ p.body, statement s.toJson = some s.cleared) :
    Program.ofJsonOver? statement p.toJson = some p.cleared := by
  obtain ⟨body, blockParams, chained, mark⟩ := p
  obtain ⟨-, hmark⟩ := hp
  have hlist : Json.list? statement (.arr (Statement.toJsons body)) =
      some (Statement.mapContents Content.cleared body) := by
    rw [Json.list?, Statement.toJsons_eq_map, Json.all?_map hbody, Statement.mapContents_eq_map]
    rfl
  have hparams : (if blockParams.isEmpty then none else some (.arr (blockParams.map Json.str))).elim
      (blockParams = []) fun j => Json.list? Json.str? j = some blockParams := by
    cases blockParams with
    | nil => rfl
    | cons => exact Json.list?_strs _
  have hchained : (if chained then some (.bool true) else none).elim (chained = false)
      fun j => Json.bool? j = some chained := by
    cases chained <;> rfl
  rw [Program.toJson, Program.ofJsonOver?, Json.record?_bind, Record.required_bind (by simp) hlist,
    Record.skipped_bind (by simp) hparams, Record.skipped_bind (by simp) hchained,
    Mark.read_bind hmark (by simp)]
  rfl

/-- A section is read back if it is there and its program is, and as missing otherwise. -/
theorem Program.option?_toJsonOpt {section? : Json → Option (Program Mark)}
    {p : Option (Program Mark)} (h : ∀ q, p = some q → section? q.toJson = some q.cleared) :
    Json.option? section? (Program.toJsonOpt p) = some (p.map Program.cleared) := by
  cases p with
  | none => rfl
  | some q =>
    rw [Program.toJsonOpt, Json.option?_of_ne_null q.toJson_ne_null, h q rfl]
    rfl

/-- A block is read back if its sections are. -/
theorem Block.ofJson?_toJson {section? : Json → Option (Program Mark)} {b : Block Mark}
    (hb : b.Storable N) (hprogram : ∀ p, b.program = some p → section? p.toJson = some p.cleared)
    (hinverse : ∀ p, b.inverse = some p → section? p.toJson = some p.cleared) :
    Block.ofJson? section? b.toJson = some (b.mapContent Content.cleared) := by
  obtain ⟨expr, program, inverse, openStrip, inverseStrip, closeStrip, close, mark⟩ := b
  obtain ⟨hexpr, -, -, hclose, hmark⟩ := hb
  rw [Block.toJson, taggedObj, Block.ofJson?, Json.record?_bind,
    Record.required_bind (by simp) (Expr.ofJson?_toJson hexpr),
    Record.nullable_bind (by simp) (Program.option?_toJsonOpt hprogram),
    Record.nullable_bind (by simp) (Program.option?_toJsonOpt hinverse),
    Record.withDefault_bind (by simp) (Strip.ofJson?_toJson openStrip),
    Record.withDefault_bind (by simp) (Strip.ofJson?_toJson inverseStrip),
    Record.withDefault_bind (by simp) (Strip.ofJson?_toJson closeStrip),
    Record.optional_bind (by simp : present? "close" _ = close.map Path.toJson)
      fun p hp => ⟨Path.ofJson?_toJson (hclose p hp), Json.noConfusion⟩,
    Mark.read_bind hmark (by simp), Option.map_id', Block.mapContent, Program.mapContentOpt_eq_map,
    Program.mapContentOpt_eq_map]
  rfl

/-- A partial with a body is read back if its body is. -/
theorem PartialBlock.ofJson?_toJson {section? : Json → Option (Program Mark)}
    {p : PartialBlock Mark} (hp : p.Storable N)
    (hprogram : section? p.program.toJson = some p.program.cleared) :
    PartialBlock.ofJson? section? p.toJson = some (p.mapContent Content.cleared) := by
  obtain ⟨name, params, hash, program, openStrip, closeStrip, mark⟩ := p
  obtain ⟨hname, hparams, hhash, -, hmark⟩ := hp
  have hlist := Expr.list?_toJsons fun e he =>
    Expr.ofJson?_toJson (Expr.allStorable_iff.1 hparams e he)
  rw [PartialBlock.toJson, taggedObj, PartialBlock.ofJson?, Json.record?_bind,
    Record.required_bind (by simp) (Expr.ofJson?_toJson hname),
    Record.withDefault_bind (by simp) hlist,
    Hash.read_bind hhash (Hash.values_toJson hhash) (by simp),
    Record.required_bind (by simp) hprogram,
    Record.withDefault_bind (by simp) (Strip.ofJson?_toJson openStrip),
    Record.withDefault_bind (by simp) (Strip.ofJson?_toJson closeStrip),
    Mark.read_bind hmark (by simp)]
  rfl

/-! ## Nesting -/

theorem Program.depth_body_lt (p : Program Mark) :
    (Json.arr (Statement.toJsons p.body)).depth < p.toJson.depth := by
  cases p
  exact Json.depth_lt_compactObj "body" (by simp)

theorem Block.depth_program_lt {b : Block Mark} {p : Program Mark} (h : b.program = some p) :
    p.toJson.depth < b.toJson.depth := by
  cases b
  cases h
  exact Json.depth_lt_compactObj "program" (by simp [Program.toJsonOpt])

theorem Block.depth_inverse_lt {b : Block Mark} {p : Program Mark} (h : b.inverse = some p) :
    p.toJson.depth < b.toJson.depth := by
  cases b
  cases h
  exact Json.depth_lt_compactObj "inverse" (by simp [Program.toJsonOpt])

theorem PartialBlock.depth_program_lt (p : PartialBlock Mark) :
    p.program.toJson.depth < p.toJson.depth := by
  cases p
  exact Json.depth_lt_compactObj "program" (by simp)

theorem Block.tagged?_toJson (names : List String) (numbered : Bool) (b : Block Mark) :
    b.toJson.tagged? names numbered = some ("BlockStatement", b.toJson) := by
  cases b
  exact tagged?_taggedObj ..

theorem PartialBlock.tagged?_toJson (names : List String) (numbered : Bool)
    (p : PartialBlock Mark) :
    p.toJson.tagged? names numbered = some ("PartialBlockStatement", p.toJson) := by
  cases p
  exact tagged?_taggedObj ..

/-- The form of a statement is tagged with its type. -/
theorem Statement.tagged?_toJson (names : List String) (numbered : Bool) (s : Statement Mark) :
    s.toJson.tagged? names numbered = some (s.typeName, s.toJson) := by
  cases s with
  | mustache | partialCall | content | comment => exact tagged?_taggedObj ..
  | block b => exact b.tagged?_toJson names numbered
  | partialBlock p => exact p.tagged?_toJson names numbered

mutual

/-- A statement is read back to any depth that it does not reach. -/
theorem Statement.ofJsonWithin?_toJson (numbered : Bool) : ∀ {fuel : Nat} {s : Statement Mark},
    s.Storable N → s.toJson.depth < fuel →
      Statement.ofJsonWithin? numbered fuel s.toJson = some s.cleared
  | fuel + 1, .mustache m, h, _ => by
    rw [Statement.ofJsonWithin?, Statement.tagged?_toJson]
    dsimp only [Statement.typeName]
    rw [Statement.toJson, Mustache.ofJson?_toJson h]
    rfl
  -- Blocks and partial blocks hold programs, for which one level less is left.
  | fuel + 1, .block b, h, hdepth => by
    rw [Statement.ofJsonWithin?, Statement.tagged?_toJson]
    dsimp only [Statement.typeName]
    rw [Statement.toJson, Block.ofJsonWithin?_toJson h (Nat.le_of_lt_succ hdepth)]
    rfl
  | fuel + 1, .partialCall p, h, _ => by
    rw [Statement.ofJsonWithin?, Statement.tagged?_toJson]
    dsimp only [Statement.typeName]
    rw [Statement.toJson, PartialCall.ofJson?_toJson h]
    rfl
  | fuel + 1, .partialBlock p, h, hdepth => by
    rw [Statement.ofJsonWithin?, Statement.tagged?_toJson]
    dsimp only [Statement.typeName]
    rw [Statement.toJson, PartialBlock.ofJsonWithin?_toJson h (Nat.le_of_lt_succ hdepth)]
    rfl
  | fuel + 1, .content c, h, _ => by
    rw [Statement.ofJsonWithin?, Statement.tagged?_toJson]
    dsimp only [Statement.typeName]
    rw [Statement.toJson, Content.ofJson?_toJson h]
    rfl
  | fuel + 1, .comment c, h, _ => by
    rw [Statement.ofJsonWithin?, Statement.tagged?_toJson]
    dsimp only [Statement.typeName]
    rw [Statement.toJson, Comment.ofJson?_toJson h]
    rfl

theorem Block.ofJsonWithin?_toJson : ∀ {fuel : Nat} {b : Block Mark}, b.Storable N →
    b.toJson.depth ≤ fuel →
      Block.ofJson? (Program.ofJsonOver? (Statement.ofJsonWithin? true fuel)) b.toJson =
        some (b.mapContent Content.cleared)
  | _, ⟨_, _, _, _, _, _, _, _⟩, h, hdepth => by
    refine Block.ofJson?_toJson h (Program.optWithin_toJson h.2.1 fun p hp => ?_)
      (Program.optWithin_toJson h.2.2.1 fun p hp => ?_)
    · exact Nat.le_trans (Nat.le_of_lt (Block.depth_program_lt hp)) hdepth
    · exact Nat.le_trans (Nat.le_of_lt (Block.depth_inverse_lt hp)) hdepth

theorem PartialBlock.ofJsonWithin?_toJson : ∀ {fuel : Nat} {p : PartialBlock Mark}, p.Storable N →
    p.toJson.depth ≤ fuel →
      PartialBlock.ofJson? (Program.ofJsonOver? (Statement.ofJsonWithin? true fuel)) p.toJson =
        some (p.mapContent Content.cleared)
  | _, ⟨_, _, _, _, _, _, _⟩, h, hdepth =>
    PartialBlock.ofJson?_toJson h
      (Program.ofJsonWithin?_toJson true h.2.2.2.1
        (Nat.le_trans (Nat.le_of_lt (PartialBlock.depth_program_lt _)) hdepth))

theorem Program.optWithin_toJson : ∀ {fuel : Nat} {o : Option (Program Mark)},
    Program.StorableOpt N o → (∀ p, o = some p → p.toJson.depth ≤ fuel) → ∀ p, o = some p →
      Program.ofJsonOver? (Statement.ofJsonWithin? true fuel) p.toJson = some p.cleared
  | _, none, _, _ => nofun
  | _, some p, h, hdepth => by
    rintro _ ⟨⟩
    exact Program.ofJsonWithin?_toJson true h (hdepth p rfl)

/-- A program is read back to any depth that it does not exceed. -/
theorem Program.ofJsonWithin?_toJson (numbered : Bool) : ∀ {fuel : Nat} {p : Program Mark},
    p.Storable N → p.toJson.depth ≤ fuel →
      Program.ofJsonOver? (Statement.ofJsonWithin? numbered fuel) p.toJson = some p.cleared
  | _, ⟨_, _, _, _⟩, h, hdepth =>
    Program.ofJsonOver?_toJson h (Statement.allWithin_toJson numbered h.1 fun _ hj =>
      Nat.lt_of_lt_of_le (Nat.lt_trans (Json.depth_lt_arr hj) (Program.depth_body_lt _)) hdepth)

theorem Statement.allWithin_toJson (numbered : Bool) :
    ∀ {fuel : Nat} {body : List (Statement Mark)}, Statement.AllStorable N body →
      (∀ j ∈ Statement.toJsons body, j.depth < fuel) →
      ∀ s ∈ body, Statement.ofJsonWithin? numbered fuel s.toJson = some s.cleared
  | _, [], _, _ => nofun
  | _, s :: rest, h, hdepth => by
    obtain ⟨hs, hrest⟩ := List.forall_mem_cons.1 hdepth
    exact List.forall_mem_cons.2
      ⟨Statement.ofJsonWithin?_toJson numbered h.1 hs,
        Statement.allWithin_toJson numbered h.2 hrest⟩

end

/-- A tree that can be stored is read back from its form, less the notes of what was cut off. -/
theorem Program.ofJson?_toJson {p : Program Mark} (h : p.Storable N) :
    Program.ofJson? p.toJson = some p.cleared :=
  Program.ofJsonWithin?_toJson false h (Nat.le_refl _)

end Stencil.Tree
