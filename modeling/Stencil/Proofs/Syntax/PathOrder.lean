import Stencil.Proofs.Syntax.Passing
import Stencil.Proofs.Tree.Visiting

/-!
# The order in which paths are read

What is read from one cursor to another has its paths between the two (`Strung`). So the paths of
what is read one after the other start one after the other, if those of each part do
(`Strung.append`); exchanged, they do only if one of the two parts has none (`Strung.exchanged`).
The parts of a tag are walked in the order in which they are read, so the paths of every tag start
one after the other.
-/

set_option autoImplicit false

namespace Stencil.Syntax

open Stencil.Text
open Stencil.Tree

/-! ## Paths between two cursors -/

/-- The first span starts before the second. -/
def StartsBefore (first second : Span) : Prop := first.start < second.start

instance : DecidableRel StartsBefore :=
  fun first second => inferInstanceAs (Decidable (first.start < second.start))

/-- Every path starts before those that come later. -/
def InOrder (paths : List (Path Span)) : Prop :=
  paths.Pairwise fun p q => StartsBefore p.mark q.mark

/-- Two rows of paths are in order if each is, and one begins behind the other. -/
theorem inOrder_append_iff {xs ys : List (Path Span)} :
    InOrder (xs ++ ys) ↔ InOrder xs ∧ InOrder ys ∧ ∀ p ∈ xs, ∀ q ∈ ys, StartsBefore p.mark q.mark :=
  List.pairwise_append

variable {source : List Char} {ts : List Token} {c c₁ c₂ c' : Cursor} {xs ys : List (Path Span)}
  {S T : Prop}

/-- The paths that were read from one cursor to another start between the two, where characters of
the source start, and they are in order under a condition. -/
structure Strung (source : List Char) (ts : List Token) (c : Cursor) (paths : List (Path Span))
    (ordered : Prop) (c' : Cursor) : Prop where
  on : c'.On ts
  start_le : c.here.start ≤ c'.here.start
  boundary : ∀ p ∈ paths, Boundary source p.mark.start
  le_start : ∀ p ∈ paths, c.here.start ≤ p.mark.start
  start_lt : ∀ p ∈ paths, p.mark.start < c'.here.start
  inOrder_iff : InOrder paths ↔ ordered

namespace Strung

theorem congr (h : Strung source ts c xs S c') (hst : S ↔ T) : Strung source ts c xs T c' :=
  { h with inOrder_iff := h.inOrder_iff.trans hst }

/-- Where no path is read there is none out of order. -/
theorem nil (hc' : c'.On ts) (hstart : c.here.start ≤ c'.here.start) :
    Strung source ts c [] True c' where
  on := hc'
  start_le := hstart
  boundary := List.forall_mem_nil _
  le_start := List.forall_mem_nil _
  start_lt := List.forall_mem_nil _
  inOrder_iff := iff_true_intro List.Pairwise.nil

/-- Some of the paths are in order if all are. -/
theorem sublist (h : Strung source ts c xs True c') (hsub : List.Sublist ys xs) :
    Strung source ts c ys True c' where
  on := h.on
  start_le := h.start_le
  boundary p hp := h.boundary p (hsub.subset hp)
  le_start p hp := h.le_start p (hsub.subset hp)
  start_lt p hp := h.start_lt p (hsub.subset hp)
  inOrder_iff := iff_true_intro ((h.inOrder_iff.2 trivial).sublist hsub)

/-- Without its paths a stretch is one that is passed. -/
theorem pass (h : Strung source ts c xs True c') : Strung source ts c [] True c' :=
  h.sublist (List.nil_sublist _)

/-- The paths of two pieces, in any order of the two, lie in both together. -/
theorem join (h : Strung source ts c xs S c₁) (h' : Strung source ts c₁ ys T c')
    {paths : List (Path Span)} (hpaths : ∀ p ∈ paths, p ∈ xs ∨ p ∈ ys) {ordered : Prop}
    (hordered : InOrder paths ↔ ordered) :
    Strung source ts c paths ordered c' where
  on := h'.on
  start_le := Nat.le_trans h.start_le h'.start_le
  boundary p hp := (hpaths p hp).elim (h.boundary p) (h'.boundary p)
  le_start p hp :=
    (hpaths p hp).elim (h.le_start p) fun hy => Nat.le_trans h.start_le (h'.le_start p hy)
  start_lt p hp :=
    (hpaths p hp).elim (fun hx => Nat.lt_of_lt_of_le (h.start_lt p hx) h'.start_le) (h'.start_lt p)
  inOrder_iff := hordered

/-- What is read first starts before what is read from where it ended. -/
theorem startsBefore (h : Strung source ts c xs S c₁) (h' : Strung source ts c₁ ys T c') :
    ∀ p ∈ xs, ∀ q ∈ ys, StartsBefore p.mark q.mark :=
  fun p hp q hq => Nat.lt_of_lt_of_le (h.start_lt p hp) (h'.le_start q hq)

/-- What is read later starts later. -/
theorem append (h : Strung source ts c xs S c₁) (h' : Strung source ts c₁ ys T c') :
    Strung source ts c (xs ++ ys) (S ∧ T) c' := by
  refine h.join h' (fun p hp => List.mem_append.1 hp) ?_
  rw [inOrder_append_iff, h.inOrder_iff, h'.inOrder_iff]
  exact and_congr_right fun _ => and_iff_left (h.startsBefore h')

/-- What is read later and comes first is in order only if one of the two is nothing. -/
theorem exchanged (h : Strung source ts c xs S c₁) (h' : Strung source ts c₁ ys T c') :
    Strung source ts c (ys ++ xs) ((ys ≠ [] → xs = []) ∧ T ∧ S) c' := by
  refine h.join h' (fun p hp => (List.mem_append.1 hp).symm) ?_
  rw [inOrder_append_iff, h.inOrder_iff, h'.inOrder_iff, ← and_assoc, and_comm]
  refine and_congr_left fun _ => ⟨fun hall hsome => ?_, fun hnone q hq p hp => ?_⟩
  · obtain ⟨q, hq⟩ := List.exists_mem_of_ne_nil ys hsome
    refine List.eq_nil_iff_forall_not_mem.2 fun p hp => ?_
    exact absurd (hall q hq p hp) (Nat.lt_asymm (h.startsBefore h' p hp q hq))
  · rw [hnone (List.ne_nil_of_mem hq)] at hp
    exact absurd hp List.not_mem_nil

/-- Before other paths there may be tokens without paths, and after them. -/
theorem after (h : Strung source ts c [] True c₁) (h' : Strung source ts c₁ ys T c') :
    Strung source ts c ys T c' :=
  (h.append h').congr (and_iff_right trivial)

/-- Tokens passed after the paths leave them in order. -/
theorem before (h : Strung source ts c xs S c₁) (h' : Strung source ts c₁ [] True c') :
    Strung source ts c xs S c' := by
  have happend := (h.append h').congr (and_iff_left trivial)
  rwa [List.append_nil] at happend

end Strung

/-! ## Passing tokens -/

section Passing

variable (laid : Laid source ts)

include laid

/-- What is left after some tokens starts after the first of them. -/
theorem start_lt_of_tokens (hc : c.On ts) (hkind : c.kind ≠ .eof) (passed : List Token)
    (htokens : c.tokens = c.here :: passed ++ c'.tokens) :
    c'.On ts ∧ c.here.start < c'.here.start := by
  have hordered := laid.ordered.sublist hc.sublist
  rw [htokens] at hordered
  have hnext : c.here.stop ≤ c'.here.start := by
    refine (List.pairwise_cons.1 hordered).1 _ (List.mem_append_right _ List.mem_cons_self)
  refine ⟨List.IsSuffix.trans ⟨_, htokens.symm⟩ hc, ?_⟩
  exact Nat.lt_of_lt_of_le (laid.proper.sized _ hc.here_mem hkind) hnext

/-- Each token starts behind the one before it. -/
theorem start_lt_advance (hc : c.On ts) (hkind : c.kind ≠ .eof) :
    c.here.start < c.advance.here.start :=
  (start_lt_of_tokens laid hc hkind [] (c.advance_tokens (hc.proper laid.proper) hkind)).2

/-- The last token is not passed; any other one starts before the next. -/
theorem strung_advance (hc : c.On ts) : Strung source ts c [] True c.advance := by
  refine .nil hc.advance ?_
  obtain ⟨prev, here, rest⟩ := c
  cases rest with
  | nil => exact Nat.le_refl _
  | cons t rest =>
    have hordered := laid.ordered.sublist hc.sublist
    exact Nat.le_trans here.start_le_stop ((List.pairwise_cons.1 hordered).1 t List.mem_cons_self)

/-- A path that starts where the cursor stands, which goes on from there. -/
theorem strung_singleton (hc : c.On ts) (hc' : c'.On ts) (hlt : c.here.start < c'.here.start)
    {p : Path Span} (hp : p.mark.start = c.here.start) : Strung source ts c [p] True c' where
  on := hc'
  start_le := Nat.le_of_lt hlt
  boundary := List.forall_mem_singleton.2 (by rw [hp]; exact (laid.boundary _ hc.here_mem).1)
  le_start := List.forall_mem_singleton.2 (Nat.le_of_eq hp.symm)
  start_lt := List.forall_mem_singleton.2 (by rw [hp]; exact hlt)
  inOrder_iff := iff_true_intro (List.pairwise_singleton _ _)

/-- A token that is asked for by its kind has no path. -/
theorem strung_expect {kind : TokenKind} {t : Token} (hc : c.On ts)
    (h : Cursor.expect kind c = .ok (t, c')) :
    Strung source ts c [] True c' := by
  rw [Cursor.expect] at h
  split at h
  · cases h
    exact strung_advance laid hc
  · cases h

end Passing

/-! ## Readers -/

/-- Two readers one after the other both come to a result. -/
theorem Reader.bind_eq_ok {α β : Type} {first : Reader α} {next : α → Reader β} {b : β}
    (h : first.bind next c = .ok (b, c')) :
    ∃ a c₁, first c = .ok (a, c₁) ∧ next a c₁ = .ok (b, c') := by
  rw [Reader.bind] at h
  split at h
  · cases h
  · exact ⟨_, _, ‹_›, h⟩

theorem Reader.map_eq_ok {α β : Type} {first : Reader α} {g : α → β} {b : β}
    (h : first.map g c = .ok (b, c')) : ∃ a, first c = .ok (a, c') ∧ g a = b := by
  rw [Reader.map] at h
  split at h
  · cases h
  · cases h
    exact ⟨_, ‹_›, rfl⟩

/-- What a reader reads has its paths where they are read. -/
def Strings {α : Type} (source : List Char) (ts : List Token) (reader : Reader α)
    (paths : α → List (Path Span)) (ordered : α → Prop) : Prop :=
  ∀ c a c', c.On ts → reader c = .ok (a, c') → Strung source ts c (paths a) (ordered a) c'

/-- By induction on the rounds: the paths of each item lie behind those of the items before. -/
theorem Strings.many {α : Type} {item : Reader α} {paths : α → List (Path Span)}
    {ordered : α → Prop} (h : Strings source ts item paths ordered) (more : Cursor → Bool) :
    Strings source ts (Cursor.many more item) (fun as => as.flatMap paths)
      (fun as => ∀ a ∈ as, ordered a) := by
  suffices ∀ fuel, Strings source ts (Cursor.readWhile more item fuel) (fun as => as.flatMap paths)
      (fun as => ∀ a ∈ as, ordered a) from fun c => this c.rest.length c
  have none : ∀ {c : Cursor}, c.On ts →
      Strung source ts c (([] : List α).flatMap paths) (∀ a ∈ ([] : List α), ordered a) c :=
    fun hc => (Strung.nil hc (Nat.le_refl _)).congr (iff_of_true trivial (List.forall_mem_nil _))
  intro fuel
  induction fuel with
  | zero =>
    rintro c as c' hc ⟨⟩
    exact none hc
  | succ fuel ih =>
    intro c as c' hc has
    rw [Cursor.readWhile_succ] at has
    split at has
    · obtain ⟨a, c₁, ha, hmore⟩ := Reader.bind_eq_ok has
      obtain ⟨rest, hrest, rfl⟩ := Reader.map_eq_ok hmore
      have hfirst := h _ _ _ hc ha
      exact (hfirst.append (ih _ _ _ hfirst.on hrest)).congr List.forall_mem_cons.symm
    · cases has
      exact none hc

/-! ## Expressions -/

theorem visitedOpt_hashOf (pairs : List (Pair Span)) (mark : Span) :
    Hash.visitedOpt (hashOf pairs mark) = pairs.flatMap fun p => p.value.visited := by
  rw [← Pair.visitedAll_eq]
  cases pairs <;> rfl

/-- The paths that a walk through a call of the parts comes by. -/
def CallParts.visited (parts : CallParts) : List (Path Span) :=
  parts.head.headPath :: (Expr.visitedAll parts.params ++ Hash.visitedOpt parts.hash)

/-- The paths that a walk through a partial of the parts comes by. -/
def PartialParts.visited (parts : PartialParts) : List (Path Span) :=
  parts.name.visited ++ Expr.visitedAll parts.params ++ Hash.visitedOpt parts.hash

section Expressions

variable (laid : Laid source ts)

include laid

/-- A path starts with its first segment. -/
theorem strung_path {data : Bool} {p : Path Span} (hc : c.On ts) (h : path data c = .ok (p, c')) :
    Strung source ts c [p] True c' := by
  obtain ⟨⟨first, more⟩, hruns, -, htokens, -, rfl⟩ := path_ok data (hc.proper laid.proper) h
  obtain rfl : c.here = first := (List.cons.inj htokens).1
  have hkind : c.kind ≠ .eof := by
    rw [show c.kind = .name from hruns.first]
    decide
  obtain ⟨hc', hlt⟩ := start_lt_of_tokens laid hc hkind _ htokens
  exact strung_singleton laid hc hc' hlt rfl

/-- What is read as an expression starts with a path, or is a literal that stands for one. -/
theorem strung_simpleExpr {e : Expr Span} (hc : c.On ts) (h : simpleExpr c = .ok (e, c')) :
    Strung source ts c [e.headPath] True c' ∧ List.Sublist e.visited [e.headPath] := by
  have literal : c.kind.isLiteral = true → ∀ e : Expr Span, e.isLiteral = true →
      e.mark = c.here.span →
      Strung source ts c [e.headPath] True c.advance ∧ List.Sublist e.visited [e.headPath] := by
    intro hliteral e he hmark
    have hkind : c.kind ≠ .eof := fun heof => by rw [heof] at hliteral; cases hliteral
    have hlt := start_lt_advance laid hc hkind
    have hstart : e.mark.start = c.here.start := by rw [hmark]; rfl
    cases e with
    | call call => cases he
    | path p => cases he
    | _ => exact ⟨strung_singleton laid hc hc.advance hlt hstart, List.nil_sublist _⟩
  rw [simpleExpr_eq] at h
  split at h
  · obtain ⟨p, hp, rfl⟩ := Reader.map_eq_ok h
    exact ⟨strung_path laid hc hp, List.Sublist.refl _⟩
  · obtain ⟨p, hp, rfl⟩ := Reader.map_eq_ok h
    exact ⟨(strung_advance laid hc).after (strung_path laid hc.advance hp), List.Sublist.refl _⟩
  all_goals
    rename_i hkind
    cases h
  all_goals exact literal (by rw [hkind]; rfl) _ rfl rfl

variable {param : Reader (Expr Span)} (hparam : Strings source ts param Expr.visited fun _ => True)

include hparam

omit laid in
/-- Arguments are visited in the order in which they are read. -/
theorem strings_params (more : Cursor → Bool) :
    Strings source ts (Cursor.many more param) Expr.visitedAll fun _ => True := by
  intro c es c' hc h
  rw [Expr.visitedAll_eq]
  exact (hparam.many more _ _ _ hc h).congr (iff_true_intro fun _ _ => trivial)

theorem strings_pair : Strings source ts (pair param) (fun p => p.value.visited) fun _ => True := by
  intro c p c' hc h
  rw [pair_eq] at h
  obtain ⟨value, c₁, hvalue, ⟨⟩⟩ := Reader.bind_eq_ok h
  have hsign := (strung_advance laid hc).after (strung_advance laid hc.advance)
  exact hsign.after (hparam _ _ _ hsign.on hvalue)

/-- So are the values of pairs. -/
theorem strings_hash? : Strings source ts (hash? param) Hash.visitedOpt fun _ => True := by
  intro c hash c' hc h
  rw [hash?_eq] at h
  obtain ⟨pairs, c₁, hpairs, ⟨⟩⟩ := Reader.bind_eq_ok h
  rw [visitedOpt_hashOf]
  exact ((strings_pair laid hparam).many _ _ _ _ hc hpairs).congr
    (iff_true_intro fun _ _ => trivial)

/-- The head of a call comes first, then its parameters, then its named arguments. Without arguments
it is the bare head. -/
theorem strung_callParts {parts : CallParts} (hc : c.On ts)
    (h : callParts param c = .ok (parts, c')) :
    Strung source ts c parts.visited True c' ∧ List.Sublist parts.expr.visited parts.visited := by
  rw [callParts_eq] at h
  obtain ⟨head, c₁, hhead, h⟩ := Reader.bind_eq_ok h
  obtain ⟨params, c₂, hparams, h⟩ := Reader.bind_eq_ok h
  obtain ⟨hash, c₃, hhash, ⟨⟩⟩ := Reader.bind_eq_ok h
  obtain ⟨hhead, hsub⟩ := strung_simpleExpr laid hc hhead
  have hparams := strings_params hparam _ _ _ _ hhead.on hparams
  have hhash := strings_hash? laid hparam _ _ _ hparams.on hhash
  refine ⟨(hhead.append (hparams.append hhash)).congr (by simp), ?_⟩
  unfold CallParts.expr
  split
  · exact hsub.trans (List.Sublist.cons_cons _ (List.nil_sublist _))
  · exact List.Sublist.refl _

/-- The head of a call is visited first, as it is read first. -/
theorem strings_callExpr :
    Strings source ts (callParts param) (fun parts => parts.expr.visited) fun _ => True :=
  fun _ _ _ hc h => (strung_callParts laid hparam hc h).1.sublist
    (strung_callParts laid hparam hc h).2

theorem strings_parenthesised (opened : Token) :
    Strings source ts (parenthesised param opened) Expr.visited fun _ => True := by
  intro c e c' hc h
  rw [parenthesised_eq] at h
  obtain ⟨parts, c₁, hparts, h⟩ := Reader.bind_eq_ok h
  obtain ⟨closed, hclosed, rfl⟩ := Reader.map_eq_ok h
  have hparts := (strung_callParts laid hparam hc hparts).1
  exact hparts.before (strung_expect laid hparts.on hclosed)

omit hparam in
theorem strings_blockParams : Strings source ts blockParams (fun _ => []) fun _ => True := by
  have hname : Strings source ts blockParam (fun _ => []) fun _ => True := by
    rintro c name c' hc ⟨⟩
    exact strung_advance laid hc
  intro c names c' hc h
  rw [blockParams_eq] at h
  split at h
  · cases h
    exact .nil hc (Nat.le_refl _)
  obtain ⟨names', c₁, hnames, h⟩ := Reader.bind_eq_ok h
  split at h
  · cases h
  obtain ⟨closed, hclosed, rfl⟩ := Reader.map_eq_ok h
  have hbar := strung_advance laid hc
  have hnames := (hname.many _ _ _ _ hbar.on hnames).congr (iff_true_intro fun _ _ => trivial)
  exact hbar.after (hnames.pass.after (strung_expect laid hnames.on hclosed))

/-- Block parameters are no paths, so those of the tag are those of its call. -/
theorem strings_openTag (opened : Token) :
    Strings source ts (openTag param opened) (fun tag => tag.call.expr.visited) fun _ => True := by
  intro c tag c' hc h
  rw [openTag_eq] at h
  obtain ⟨call, c₁, hcall, h⟩ := Reader.bind_eq_ok h
  obtain ⟨names, c₂, hnames, h⟩ := Reader.bind_eq_ok h
  obtain ⟨closed, hclosed, rfl⟩ := Reader.map_eq_ok h
  have hcall := strings_callExpr laid hparam _ _ _ hc hcall
  have hnames := strings_blockParams laid _ _ _ hcall.on hnames
  exact (hcall.before hnames).before (strung_expect laid hnames.on hclosed)

omit hparam in
/-- The path of a closing tag is not walked. -/
theorem strings_closingTag (name : String) (opening : Span) :
    Strings source ts (closingTag name opening) (fun _ => []) fun _ => True := by
  intro c closing c' hc h
  rw [closingTag_eq] at h
  split at h
  · cases h
  split at h
  · cases h
  obtain ⟨e, c₁, he, h⟩ := Reader.bind_eq_ok h
  obtain ⟨closed, c₂, hclosed, h⟩ := Reader.bind_eq_ok h
  split at h
  · cases h
    have hopen := strung_advance laid hc
    have he := (strung_simpleExpr laid hopen.on he).1
    exact hopen.after (he.pass.after (strung_expect laid he.on hclosed))
  · cases h

/-- The name of a partial comes first, then its parameters, then its named arguments. -/
theorem strings_partialParts :
    Strings source ts (partialParts param) PartialParts.visited fun _ => True := by
  intro c parts c' hc h
  rw [partialParts_eq] at h
  obtain ⟨name, c₁, hname, h⟩ := Reader.bind_eq_ok h
  obtain ⟨params, c₂, hparams, h⟩ := Reader.bind_eq_ok h
  split at h
  · cases h
  obtain ⟨hash, hhash, rfl⟩ := Reader.map_eq_ok h
  have hname := hparam _ _ _ hc hname
  have hparams := strings_params hparam _ _ _ _ hname.on hparams
  have hhash := strings_hash? laid hparam _ _ _ hparams.on hhash
  exact ((hname.append hparams).append hhash).congr (by simp)

end Expressions

end Stencil.Syntax
