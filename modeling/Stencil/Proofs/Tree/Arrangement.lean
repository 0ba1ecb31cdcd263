import Stencil.Proofs.Tree.Every

/-!
# How the marks of a tree lie

A node of a tree is arranged when its mark starts no later than it ends and the marks of what is in
it lie within it. A program is in order when, besides, the marks of its statements come one after
the other. What that means for marks of a kind is an `Arrangement` of them; a map of marks that
keeps it keeps the order of a tree (`Program.Arranged.mapMark`).
-/

set_option autoImplicit false

namespace Stencil.Tree

/-- What it means for marks that one is proper, that one lies within another, and that one comes
before another. -/
structure Arrangement (ℓ : Type) where
  /-- The mark starts no later than it ends. -/
  proper : ℓ → Prop
  /-- The first mark lies within the second. -/
  within : ℓ → ℓ → Prop
  /-- The first mark ends no later than the second starts. -/
  before : ℓ → ℓ → Prop

variable {ℓ μ : Type} (A : Arrangement ℓ)

/-! ## Expressions -/

mutual

/-- The mark of the expression is proper, and so are those of its parts, which lie within it. -/
def Expr.Arranged : Expr ℓ → Prop
  | .call c => c.Arranged
  | .path p => A.proper p.mark
  | .string _ _ mark | .number _ _ mark | .boolean _ _ mark | .undefined mark | .null mark =>
    A.proper mark

/-- The head, the parameters and the named arguments lie within the call. -/
def Call.Arranged : Call ℓ → Prop
  | ⟨path, params, hash, _, mark⟩ =>
    A.proper mark ∧ (A.proper path.mark ∧ A.within path.mark mark) ∧ Expr.ArrangedIn mark params ∧
      Hash.ArrangedIn mark hash

/-- The expressions lie within an outer mark. -/
def Expr.ArrangedIn (outer : ℓ) : List (Expr ℓ) → Prop
  | [] => True
  | e :: es => (e.Arranged ∧ A.within e.mark outer) ∧ Expr.ArrangedIn outer es

/-- The named arguments, if there are any, lie within an outer mark. -/
def Hash.ArrangedIn (outer : ℓ) : Option (Hash ℓ) → Prop
  | none => True
  | some ⟨pairs, mark⟩ => (A.proper mark ∧ A.within mark outer) ∧ Pair.ArrangedIn mark pairs

/-- The named arguments lie within an outer mark, and their values within them. -/
def Pair.ArrangedIn (outer : ℓ) : List (Pair ℓ) → Prop
  | [] => True
  | ⟨_, value, mark⟩ :: ps =>
    (A.proper mark ∧ A.within mark outer ∧ value.Arranged ∧ A.within value.mark mark) ∧
      Pair.ArrangedIn outer ps

end

variable {A}

/-- Expressions lie in a span one by one. -/
theorem Expr.arrangedIn_iff {outer : ℓ} {es : List (Expr ℓ)} :
    Expr.ArrangedIn A outer es ↔ ∀ e ∈ es, e.Arranged A ∧ A.within e.mark outer := by
  induction es with
  | nil => simp [Expr.ArrangedIn]
  | cons e es ih => rw [Expr.ArrangedIn, List.forall_mem_cons, ih]

/-- Pairs do, each with its value in its own span. -/
theorem Pair.arrangedIn_iff {outer : ℓ} {ps : List (Pair ℓ)} :
    Pair.ArrangedIn A outer ps ↔
      ∀ p ∈ ps, A.proper p.mark ∧ A.within p.mark outer ∧ p.value.Arranged A ∧
        A.within p.value.mark p.mark := by
  induction ps with
  | nil => simp [Pair.ArrangedIn]
  | cons p ps ih =>
    obtain ⟨key, value, mark⟩ := p
    rw [Pair.ArrangedIn, List.forall_mem_cons, ih]

/-- What is arranged has a span of its own. -/
theorem Expr.Arranged.proper {e : Expr ℓ} (h : e.Arranged A) : A.proper e.mark := by
  cases e with
  | call c =>
    obtain ⟨path, params, hash, parenthesised, mark⟩ := c
    exact h.1
  | _ => exact h

/-! ## Statements and programs -/

variable (A)

/-- The mark of a program is proper, and its statements lie within it, one after the other. -/
structure Program.Orderly (p : Program ℓ) : Prop where
  proper : A.proper p.mark
  pairwise : p.body.Pairwise fun s t => A.before s.mark t.mark
  within : ∀ s ∈ p.body, A.proper s.mark ∧ A.within s.mark p.mark

/-- A section, if it is there, is in order and lies within an outer mark. -/
def Program.OrderlyIn (outer : ℓ) (section? : Option (Program ℓ)) : Prop :=
  ∀ p ∈ section?, p.Orderly A ∧ A.within p.mark outer

/-- The mark of a statement is proper, and its expressions and sections lie within it. -/
def Statement.Arranged : Statement ℓ → Prop
  | .mustache m => A.proper m.mark ∧ Expr.ArrangedIn A m.mark [m.expr]
  | .block b =>
    A.proper b.mark ∧ Expr.ArrangedIn A b.mark [b.expr] ∧ Program.OrderlyIn A b.mark b.program ∧
      Program.OrderlyIn A b.mark b.inverse ∧ ∀ path ∈ b.close, A.proper path.mark ∧
        A.within path.mark b.mark
  | .partialCall p =>
    A.proper p.mark ∧ Expr.ArrangedIn A p.mark (p.name :: p.params) ∧
      Hash.ArrangedIn A p.mark p.hash
  | .partialBlock p =>
    A.proper p.mark ∧ Expr.ArrangedIn A p.mark (p.name :: p.params) ∧
      Hash.ArrangedIn A p.mark p.hash ∧
      p.program.Orderly A ∧ A.within p.program.mark p.mark
  | .content c => A.proper c.mark
  | .comment c => A.proper c.mark

/-- Every node of a tree lies within the one around it, and the statements of every program come one
after the other. -/
structure Program.Arranged (p : Program ℓ) : Prop where
  orderly : p.Orderly A
  every : p.Every (Statement.Arranged A)

variable {A}

theorem Statement.Arranged.proper {s : Statement ℓ} (h : s.Arranged A) : A.proper s.mark := by
  cases s with
  | mustache m => exact h.1
  | block b => exact h.1
  | partialCall p => exact h.1
  | partialBlock p => exact h.1
  | content c => exact h
  | comment c => exact h

theorem Program.orderlyIn_none (outer : ℓ) : Program.OrderlyIn A outer none := fun _ h => by cases h

/-! ## Maps of marks -/

/-- A map of marks keeps how they lie. -/
structure Arrangement.Keeps (A : Arrangement ℓ) (B : Arrangement μ) (f : ℓ → μ) : Prop where
  proper : ∀ {m}, A.proper m → B.proper (f m)
  within : ∀ {inner outer}, A.proper inner → A.proper outer → A.within inner outer →
    B.within (f inner) (f outer)
  before : ∀ {m n}, A.proper m → A.proper n → A.before m n → B.before (f m) (f n)

@[simp] theorem Expr.mark_mapMark (f : ℓ → μ) (e : Expr ℓ) : (e.mapMark f).mark = f e.mark := by
  cases e with
  | call c =>
    cases c
    rfl
  | _ => rfl

@[simp] theorem Program.mark_mapMark (f : ℓ → μ) (p : Program ℓ) :
    (p.mapMark f).mark = f p.mark := by
  cases p
  rfl

@[simp] theorem Statement.mark_mapMark (f : ℓ → μ) (s : Statement ℓ) :
    (s.mapMark f).mark = f s.mark := by
  cases s with
  | block b =>
    cases b
    rfl
  | partialBlock p =>
    cases p
    rfl
  | _ => rfl

section Maps

variable {B : Arrangement μ} {f : ℓ → μ} (keeps : A.Keeps B f)

include keeps

mutual

/-- By recursion over the expression: what the maps of marks keep of one and of two spans is all
there is to arrangement. -/
theorem Expr.Arranged.mapMark : ∀ {e : Expr ℓ}, e.Arranged A → (e.mapMark f).Arranged B
  | .call _, h => Call.Arranged.mapMark h
  | .path _, h | .string _ _ _, h | .number _ _ _, h | .boolean _ _ _, h | .undefined _, h
    | .null _, h =>
    keeps.proper h

theorem Call.Arranged.mapMark : ∀ {c : Call ℓ}, c.Arranged A → (c.mapMark f).Arranged B
  | ⟨_, _, _, _, _⟩, ⟨hmark, ⟨hpath, hwithin⟩, hparams, hhash⟩ =>
    ⟨keeps.proper hmark, ⟨keeps.proper hpath, keeps.within hpath hmark hwithin⟩,
      Expr.ArrangedIn.mapMarks hmark hparams, Hash.ArrangedIn.mapMarkOpt hmark hhash⟩

/-- Expressions in a row are within the image of what they were in. -/
theorem Expr.ArrangedIn.mapMarks {outer : ℓ} (houter : A.proper outer) :
    ∀ {es : List (Expr ℓ)}, Expr.ArrangedIn A outer es →
      Expr.ArrangedIn B (f outer) (Expr.mapMarks f es)
  | [], _ => trivial
  | e :: _, ⟨⟨he, hwithin⟩, hes⟩ => by
    refine ⟨⟨Expr.Arranged.mapMark he, ?_⟩, Expr.ArrangedIn.mapMarks houter hes⟩
    rw [Expr.mark_mapMark]
    exact keeps.within he.proper houter hwithin

theorem Hash.ArrangedIn.mapMarkOpt {outer : ℓ} (houter : A.proper outer) :
    ∀ {h : Option (Hash ℓ)}, Hash.ArrangedIn A outer h →
      Hash.ArrangedIn B (f outer) (Hash.mapMarkOpt f h)
  | none, _ => trivial
  | some ⟨_, _⟩, ⟨⟨hmark, hwithin⟩, hpairs⟩ =>
    ⟨⟨keeps.proper hmark, keeps.within hmark houter hwithin⟩, Pair.ArrangedIn.mapMarks hmark hpairs⟩

theorem Pair.ArrangedIn.mapMarks {outer : ℓ} (houter : A.proper outer) :
    ∀ {ps : List (Pair ℓ)}, Pair.ArrangedIn A outer ps →
      Pair.ArrangedIn B (f outer) (Pair.mapMarks f ps)
  | [], _ => trivial
  | ⟨_, value, _⟩ :: _, ⟨⟨hmark, hwithin, hvalue, hinner⟩, hps⟩ => by
    refine ⟨⟨keeps.proper hmark, keeps.within hmark houter hwithin,
      Expr.Arranged.mapMark hvalue, ?_⟩, Pair.ArrangedIn.mapMarks houter hps⟩
    rw [Expr.mark_mapMark]
    exact keeps.within hvalue.proper hmark hinner

end

omit keeps in
theorem Statement.mapMarks_eq (f : ℓ → μ) (body : List (Statement ℓ)) :
    Statement.mapMarks f body = body.map (Statement.mapMark f) := by
  induction body with
  | nil => rfl
  | cons s body ih => rw [Statement.mapMarks, ih, List.map_cons]

/-- The statements of a program are in order under other marks too. -/
theorem Program.Orderly.mapMark {p : Program ℓ} (h : p.Orderly A) : (p.mapMark f).Orderly B := by
  obtain ⟨body, blockParams, chained, mark⟩ := p
  refine ⟨keeps.proper h.proper, ?_, ?_⟩
  · rw [Program.mapMark, Statement.mapMarks_eq, List.pairwise_map]
    refine h.pairwise.imp_of_mem ?_
    intro s t hs ht hbefore
    rw [Statement.mark_mapMark, Statement.mark_mapMark]
    exact keeps.before (h.within s hs).1 (h.within t ht).1 hbefore
  · rw [Program.mapMark, Statement.mapMarks_eq]
    intro s hs
    obtain ⟨t, ht, rfl⟩ := List.mem_map.1 hs
    obtain ⟨hproper, hwithin⟩ := h.within t ht
    rw [Statement.mark_mapMark]
    exact ⟨keeps.proper hproper, keeps.within hproper h.proper hwithin⟩

theorem Program.OrderlyIn.mapMarkOpt {outer : ℓ} (houter : A.proper outer)
    {section? : Option (Program ℓ)} (h : Program.OrderlyIn A outer section?) :
    Program.OrderlyIn B (f outer) (Program.mapMarkOpt f section?) := by
  cases section? with
  | none => exact Program.orderlyIn_none _
  | some p =>
    rintro _ ⟨⟩
    obtain ⟨hp, hwithin⟩ := h p rfl
    refine ⟨hp.mapMark keeps, ?_⟩
    rw [Program.mark_mapMark]
    exact keeps.within hp.proper houter hwithin

/-- A statement is arranged by its own parts, whatever is in its sections. -/
theorem Statement.Arranged.mapMark {s : Statement ℓ} (h : s.Arranged A) :
    (s.mapMark f).Arranged B := by
  cases s with
  | mustache m =>
    obtain ⟨hmark, hexpr⟩ := h
    exact ⟨keeps.proper hmark, Expr.ArrangedIn.mapMarks keeps hmark hexpr⟩
  | block b =>
    obtain ⟨expr, program, inverse, openStrip, inverseStrip, closeStrip, close, mark⟩ := b
    obtain ⟨hmark, hexpr, hprogram, hinverse, hclose⟩ := h
    refine ⟨keeps.proper hmark, Expr.ArrangedIn.mapMarks keeps hmark hexpr,
      hprogram.mapMarkOpt keeps hmark, hinverse.mapMarkOpt keeps hmark, ?_⟩
    intro path hpath
    obtain ⟨path, hmem, rfl⟩ := Option.map_eq_some_iff.1 hpath
    obtain ⟨hproper, hwithin⟩ := hclose path hmem
    exact ⟨keeps.proper hproper, keeps.within hproper hmark hwithin⟩
  | partialCall p =>
    obtain ⟨hmark, hexprs, hhash⟩ := h
    exact ⟨keeps.proper hmark, Expr.ArrangedIn.mapMarks keeps hmark hexprs,
      Hash.ArrangedIn.mapMarkOpt keeps hmark hhash⟩
  | partialBlock p =>
    obtain ⟨name, params, hash, program, openStrip, closeStrip, mark⟩ := p
    obtain ⟨hmark, hexprs, hhash, hprogram, hwithin⟩ := h
    refine ⟨keeps.proper hmark, Expr.ArrangedIn.mapMarks keeps hmark hexprs,
      Hash.ArrangedIn.mapMarkOpt keeps hmark hhash, hprogram.mapMark keeps, ?_⟩
    -- The body of a partial block has a mark of its own within that of the statement.
    rw [PartialBlock.mapMark, Program.mark_mapMark]
    exact keeps.within hprogram.proper hmark hwithin
  | content c => exact keeps.proper h
  | comment c => exact keeps.proper h

/-- A map that keeps how marks lie keeps how the nodes of a tree do. -/
theorem Program.Arranged.mapMark {p : Program ℓ} (h : p.Arranged A) : (p.mapMark f).Arranged B where
  orderly := h.orderly.mapMark keeps
  every := Program.Every.mapMark (fun _ hs => Statement.Arranged.mapMark keeps hs) h.every

end Maps

end Stencil.Tree
