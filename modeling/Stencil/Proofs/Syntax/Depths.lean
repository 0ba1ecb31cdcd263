import Stencil.Proofs.Syntax.Origins
import Stencil.Proofs.Syntax.Passing
import Stencil.Proofs.Tree.Depth

/-!
# How deep the constructs of a template are

The readers of a level read nothing that is deeper than the number of the level (`boundedBy_ofNat`):
whatever nests is read by the readers of the level below, and counts one more. So the tree of a
template is no deeper than `maxNesting` (`depth_le_of_template?`).

A raw block is read at the level itself. It adds nothing to the depth, because the token that opens
it tells it apart (`opensRaw`).
-/

set_option autoImplicit false

namespace Stencil.Syntax

open Stencil.Text
open Stencil.Tree

/-- Whether a raw block is opened where a mark starts. -/
def opensRaw (ts : List Token) (mark : Span) : Bool :=
  ts.any fun t => t.kind == .openRaw && t.start == mark.start

/-- The token that opens a raw block is found by where the block starts. -/
theorem opensRaw_of_mem {ts : List Token} {t : Token} (ht : t ∈ ts) (hkind : t.kind = .openRaw)
    (last : Token) :
    opensRaw ts (t.to last) = true :=
  List.any_eq_true.2 ⟨t, ht, by simp [hkind, Token.to]⟩

/-- A reader follows the tokens if it does so from each cursor on them. -/
theorem follows_iff {α : Type} {ts : List Token} {reader : Reader α} {Q : α → Prop} :
    Follows ts reader Q ↔
      ∀ c, c.On ts → Ends (fun a c' => Q a ∧ c'.On ts) (fun _ => True) (reader c) := by
  constructor
  · intro h c hc
    rcases hreads : reader c with f | ⟨a, c'⟩
    · trivial
    · exact h c a c' hc hreads
  · intro h c a c' hc hreads
    exact (h c hc).of_ok hreads

/-- What follows the tokens ends well at every cursor on them, with any fault. -/
theorem Follows.ends {α : Type} {ts : List Token} {reader : Reader α} {Q : α → Prop}
    (h : Follows ts reader Q) {c : Cursor} (hc : c.On ts) :
    Ends (fun a c' => Q a ∧ c'.On ts) (fun _ => True) (reader c) :=
  follows_iff.1 h c hc

/-! ## Chains -/

section Chains

variable {raw : Span → Bool}

mutual

/-- The markers of a closing tag make nothing deeper. -/
theorem depth_closeChain (strip : Strip) :
    ∀ p : Program Span, (Program.closeChain strip p).depth raw = p.depth raw
  | ⟨body, names, chained, mark⟩ => by
    cases chained with
    | false => rfl
    | true => exact depthAll_closeChain strip body

/-- Closing a chain changes markers along it, and depth is no matter of markers. -/
theorem depthAll_closeChain (strip : Strip) :
    ∀ body : List (Statement Span),
      Statement.depthAll raw (Statement.closeChain strip body) = Statement.depthAll raw body
  | [] => rfl
  | .block b :: rest => congrArg (max · (Statement.depthAll raw rest)) (depth_closeBlock strip b)
  | .mustache _ :: _ | .partialCall _ :: _ | .partialBlock _ :: _ | .content _ :: _
    | .comment _ :: _ => rfl

theorem depth_closeBlock (strip : Strip) :
    ∀ b : Block Span, (Block.closeChain strip b).depth raw = b.depth raw
  | ⟨expr, program, inverse, _, _, _, _, mark⟩ => by
    have hinverse := depthOpt_closeChainOpt strip inverse
    simp only [Block.closeChain, Block.depth, hinverse]

theorem depthOpt_closeChainOpt (strip : Strip) :
    ∀ p : Option (Program Span), Program.depthOpt raw (Program.closeChainOpt strip p) =
      Program.depthOpt raw p
  | none => rfl
  | some p => depth_closeChain strip p

end

variable {n : Nat} {main : Program Span} {section? : Option ElseSection} {expr : Expr Span}

/-- A section that is not there has no depth. -/
theorem depthOpt_section_le (h : ∀ s, section? = some s → s.program.depth raw ≤ n) :
    Program.depthOpt raw (section?.map ElseSection.program) ≤ n := by
  cases section? with
  | none => exact Nat.zero_le _
  | some s => exact h s rfl

/-- A block is one deeper than the deepest of its head and its sections, in whichever order they
stand. -/
theorem depth_blockOf_le (hexpr : expr.depth ≤ n) (hmain : main.depth raw ≤ n)
    (hsection : ∀ s, section? = some s → s.program.depth raw ≤ n) (closeStrip : Strip)
    (inverted : Bool) (openStrip : Strip) (close : Option (Path Span)) (mark : Span) :
    (blockOf main section? closeStrip inverted expr openStrip close mark).depth raw ≤ n + 1 := by
  have halternative :
      Program.depthOpt raw (section?.map fun s => Program.closeChain closeStrip s.program) ≤ n := by
    cases section? with
    | none => exact Nat.zero_le _
    | some s =>
      exact Nat.le_trans (Nat.le_of_eq (depth_closeChain closeStrip s.program)) (hsection s rfl)
  have hmain : Program.depthOpt raw (some main) ≤ n := hmain
  rw [blockOf, Block.depth]
  -- An inverted block exchanges its sections, and both are bounded alike.
  cases inverted with
  | false => grind
  | true => grind

/-- A chained section counts as a block of its own. -/
theorem depth_linkOf_le (hexpr : expr.depth ≤ n) (hmain : main.depth raw ≤ n)
    (hsection : ∀ s, section? = some s → s.program.depth raw ≤ n) (openStrip : Strip)
    (mark : Span) :
    (linkOf main section? expr openStrip mark).depth raw ≤ n + 1 := by
  have hmain : Program.depthOpt raw (some main) ≤ n := hmain
  have hsection := depthOpt_section_le hsection
  rw [linkOf, Block.depth]
  grind

end Chains

/-! ## Expressions -/

section Expressions

variable {ts : List Token} {n : Nat}

/-- A name or a literal has no depth. -/
theorem bounded_simpleExpr (hts : Proper ts) : Follows ts simpleExpr fun e => e.depth = 0 := by
  intro c e c' hc h
  have hon := (follows_simpleExpr (pathRules_origin hts) c e c' hc h).2
  have hpath : ∀ data c, Ends (fun (e : Expr Span) _ => e.depth = 0) (fun _ => True)
      ((path data).map Expr.path c) := by
    intro data c
    refine Ends.map (Q := fun _ _ => True) ?_ fun p c' _ => rfl
    rcases path data c with f | ⟨p, c'⟩ <;> trivial
  -- Every case reads something else than a call.
  have hends : Ends (fun (e : Expr Span) _ => e.depth = 0) (fun _ => True) (simpleExpr c) := by
    rw [simpleExpr_eq]
    cases c.kind <;> first | exact hpath _ _ | exact rfl | trivial
  exact ⟨hends.of_ok h, hon⟩

/-- The head of a call has no depth, and its arguments are no deeper than `n`. -/
structure CallParts.BoundedBy (n : Nat) (parts : CallParts) : Prop where
  head : parts.head.depth = 0
  params : ∀ e ∈ parts.params, e.depth ≤ n
  hash : Hash.depthOpt parts.hash ≤ n

/-- Parentheses are one deeper than what is in them. -/
theorem CallParts.BoundedBy.parenthesised {parts : CallParts} (h : parts.BoundedBy n)
    (mark : Span) :
    (Expr.call ⟨parts.head.headPath, parts.params, parts.hash, some true, mark⟩).depth ≤ n + 1 :=
  Nat.succ_le_succ (Nat.max_le.2 ⟨Expr.depthAll_le_iff.2 h.params, h.hash⟩)

/-- A call without parentheses is as deep as its parts. -/
theorem CallParts.BoundedBy.expr {parts : CallParts} (h : parts.BoundedBy n) :
    parts.expr.depth ≤ n := by
  rw [CallParts.expr]
  split
  · rw [h.head]
    exact Nat.zero_le n
  · exact Nat.max_le.2 ⟨Expr.depthAll_le_iff.2 h.params, h.hash⟩

variable {param : Reader (Expr Span)} (hparam : Follows ts param fun e => e.depth ≤ n)

include hparam

/-- Named arguments are as deep as the deepest of their values. -/
theorem bounded_hash? : Follows ts (hash? param) fun hash => Hash.depthOpt hash ≤ n := by
  have hpair : Follows ts (pair param) fun p => p.value.depth ≤ n := by
    rw [follows_iff]
    intro c hc
    rw [pair_eq]
    refine (hparam.ends hc.advance.advance).bind fun value c' h => ?_
    exact h
  rw [follows_iff]
  intro c hc
  rw [hash?_eq]
  refine ((hpair.many _).ends hc).bind fun pairs c' h => ?_
  refine ⟨?_, h.2⟩
  rw [hashOf]
  split
  · exact Nat.zero_le n
  · exact Pair.depthAll_le_iff.2 h.1

/-- A call is as deep as the deepest of its parts. -/
theorem bounded_callParts (hts : Proper ts) :
    Follows ts (callParts param) (CallParts.BoundedBy n) := by
  rw [follows_iff]
  intro c hc
  rw [callParts_eq]
  refine ((bounded_simpleExpr hts).ends hc).bind fun head c₁ hhead => ?_
  refine ((hparam.many _).ends hhead.2).bind fun params c₂ hparams => ?_
  refine ((bounded_hash? hparam).ends hparams.2).bind fun hash c' hhash => ?_
  exact ⟨⟨hhead.1, hparams.1, hhash.1⟩, hhash.2⟩

/-- The arguments are read by the level below, and the parentheses count. -/
theorem bounded_parenthesised (hts : Proper ts) (opened : Token) :
    Follows ts (parenthesised param opened) fun e => e.depth ≤ n + 1 := by
  rw [follows_iff]
  intro c hc
  rw [parenthesised_eq]
  refine ((bounded_callParts hparam hts).ends hc).bind fun parts c₁ hparts => ?_
  refine ((follows_expect .closeCall).ends hparts.2).map fun closed c' hclosed => ?_
  exact ⟨hparts.1.parenthesised _, hclosed.2⟩

/-! ## Statements -/

/-- The depth of an opening tag is that of its call. -/
theorem bounded_openTag (hts : Proper ts) (opened : Token) :
    Follows ts (openTag param opened) fun tag => tag.call.BoundedBy n := by
  rw [follows_iff]
  intro c hc
  rw [openTag_eq]
  refine ((bounded_callParts hparam hts).ends hc).bind fun call c₁ hcall => ?_
  refine (follows_blockParams.ends hcall.2).bind fun names c₂ hnames => ?_
  refine ((follows_expect .close).ends hnames.2).map fun closed c' hclosed => ?_
  exact ⟨hcall.1, hclosed.2⟩

/-- A tag does not count itself. -/
theorem bounded_mustache (hts : Proper ts) :
    Follows ts (mustache param) fun s => s.depth (opensRaw ts) ≤ n := by
  rw [follows_iff]
  intro c hc
  rw [mustache_eq]
  refine ((bounded_callParts hparam hts).ends hc.advance).bind fun call c₁ hcall => ?_
  refine ((follows_expect _).ends hcall.2).map fun closed c' hclosed => ?_
  exact ⟨hcall.1.expr, hclosed.2⟩

/-- The name and the arguments of a partial are no deeper than `n`. -/
def PartialParts.BoundedBy (n : Nat) (parts : PartialParts) : Prop :=
  max (Expr.depthAll (parts.name :: parts.params)) (Hash.depthOpt parts.hash) ≤ n

theorem bounded_partialParts : Follows ts (partialParts param) (PartialParts.BoundedBy n) := by
  rw [follows_iff]
  intro c hc
  rw [partialParts_eq]
  refine (hparam.ends hc).bind fun name c₁ hname => ?_
  refine ((hparam.many _).ends hname.2).bind fun params c₂ hparams => ?_
  refine .ite (fun _ => trivial) fun _ => ?_
  refine ((bounded_hash? hparam).ends hparams.2).map fun hash c' hhash => ⟨?_, hhash.2⟩
  have hall : ∀ e ∈ name :: params, e.depth ≤ n := List.forall_mem_cons.2 ⟨hname.1, hparams.1⟩
  exact Nat.max_le.2 ⟨Expr.depthAll_le_iff.2 hall, hhash.1⟩

/-- Nor does a partial. -/
theorem bounded_partialCall :
    Follows ts (partialCall param) fun s => s.depth (opensRaw ts) ≤ n := by
  rw [follows_iff]
  intro c hc
  rw [partialCall_eq]
  refine ((bounded_partialParts hparam).ends hc.advance).bind fun parts c₁ hparts => ?_
  refine ((follows_expect .close).ends hparts.2).map fun closed c' hclosed => ?_
  exact ⟨hparts.1, hclosed.2⟩

omit hparam in
/-- The text of a raw block has no depth. -/
theorem bounded_rawBody :
    Follows ts rawBody fun body => Statement.depthAll (opensRaw ts) body = 0 := by
  rw [follows_iff]
  intro c hc
  exact .ite (fun _ => ⟨rfl, hc.advance⟩) fun _ => ⟨rfl, hc⟩

/-- A raw block is no deeper than the expression in its tag. -/
theorem bounded_rawBlock (hts : Proper ts) {c : Cursor} (hc : c.On ts) (hkind : c.kind = .openRaw) :
    Ends (fun s c' => s.depth (opensRaw ts) ≤ n ∧ c'.On ts) (fun _ => True) (rawBlock param c) := by
  rw [rawBlock_eq]
  refine ((bounded_callParts hparam hts).ends hc.advance).bind fun call c₁ hcall => ?_
  refine ((follows_expect .closeRaw).ends hcall.2).bind fun closed c₂ hclosed => ?_
  refine (bounded_rawBody.ends hclosed.2).bind fun body c₃ hbody => ?_
  refine ((follows_expect .endRaw).ends hbody.2).bind fun ending c' hending => ?_
  refine .ite (fun _ => ⟨?_, hending.2⟩) fun _ => trivial
  -- The block itself does not count, and its text has no depth.
  have hraw := opensRaw_of_mem hc.here_mem hkind ending
  have hexpr := hcall.1.expr
  have hbody := hbody.1
  simp only [Statement.depth, rawBlockOf, Block.depth, Program.depthOpt, Program.depth, hraw,
    hbody, if_true]
  omega

omit hparam in
/-- A program is as deep as the deepest of its statements. -/
theorem bounded_program {statement : Reader (Statement Span)}
    (h : Follows ts statement fun s => s.depth (opensRaw ts) ≤ n) (names : List String) :
    Follows ts (program statement names) fun p => p.depth (opensRaw ts) ≤ n := by
  rw [follows_iff]
  intro c hc
  rw [program_eq]
  refine ((h.many _).ends hc).bind fun body c' hbody => ?_
  exact ⟨Program.depth_le_iff.2 hbody.1, hbody.2⟩

end Expressions

/-! ## Levels -/

section Levels

variable {ts : List Token} {n : Nat} (hts : Proper ts)

/-- What the readers of a level read is no deeper than `n`. -/
structure Level.BoundedBy (ts : List Token) (n : Nat) (level : Level) : Prop where
  param : Follows ts level.param fun e => e.depth ≤ n
  statement : Follows ts level.statement fun s => s.depth (opensRaw ts) ≤ n
  otherwise : Follows ts level.otherwise fun section? =>
    ∀ s, section? = some s → s.program.depth (opensRaw ts) ≤ n

include hts

section Below

variable {level : Level} (h : level.BoundedBy ts n)

include h

/-- What is in a block is read by the level below, so the block is one deeper at most. -/
theorem bounded_blockAfter (opened : Token) :
    Follows ts (blockAfter level opened) fun s => s.depth (opensRaw ts) ≤ n + 1 := by
  rw [follows_iff]
  intro c hc
  rw [blockAfter_eq]
  refine ((bounded_openTag h.param hts opened).ends hc).bind fun opening c₁ hopening => ?_
  refine ((bounded_program h.statement _).ends hopening.2).bind fun main c₂ hmain => ?_
  refine (h.otherwise.ends hmain.2).bind fun section? c₃ hsection => ?_
  have hclosing := follows_closingTag (pathRules_origin hts) opening.call.head.spelling opening.span
  refine (hclosing.ends hsection.2).map fun closing c' hclosing => ⟨?_, hclosing.2⟩
  exact depth_blockOf_le hopening.1.expr hmain.1 hsection.1 _ _ opening.strip (some closing.1) _

/-- The same for a partial block. -/
theorem bounded_partialBlockAfter (opened : Token) :
    Follows ts (partialBlockAfter level opened) fun s => s.depth (opensRaw ts) ≤ n + 1 := by
  rw [follows_iff]
  intro c hc
  rw [partialBlockAfter_eq]
  refine ((bounded_partialParts h.param).ends hc).bind fun parts c₁ hparts => ?_
  refine ((follows_expect .close).ends hparts.2).bind fun closed c₂ hclosed => ?_
  refine ((bounded_program h.statement []).ends hclosed.2).bind fun body c₃ hbody => ?_
  refine .ite (fun _ => trivial) fun _ => ?_
  have hclosing := follows_closingTag (pathRules_origin hts) parts.name.spelling (opened.to closed)
  refine (hclosing.ends hbody.2).map fun closing c' hclosing => ⟨?_, hclosing.2⟩
  exact Nat.succ_le_succ (Nat.max_le.2 ⟨hparts.1, hbody.1⟩)

/-- A chained section takes a level of its own. -/
theorem bounded_chainAfter (opened : Token) :
    Follows ts (chainAfter level opened) fun s => s.program.depth (opensRaw ts) ≤ n + 1 := by
  rw [follows_iff]
  intro c hc
  rw [chainAfter_eq]
  refine ((bounded_openTag h.param hts opened).ends hc).bind fun opening c₁ hopening => ?_
  refine ((bounded_program h.statement _).ends hopening.2).bind fun main c₂ hmain => ?_
  refine (h.otherwise.ends hmain.2).bind fun section? c' hsection => ⟨?_, hsection.2⟩
  -- The section holds nothing but the link.
  have hlink :=
    depth_linkOf_le hopening.1.expr hmain.1 hsection.1 opening.strip ⟨opened.start, c'.prev.stop⟩
  exact Nat.max_le.2 ⟨hlink, Nat.zero_le _⟩

end Below

variable {below : Option Level}
  (hbelow : ∀ level, below = some level → ∃ m, n = m + 1 ∧ level.BoundedBy ts m)

include hbelow

/-- An expression of the level is a simple one or parentheses around the level below. -/
theorem bounded_paramOver : Follows ts (paramOver below) fun e => e.depth ≤ n := by
  rw [follows_iff]
  intro c hc
  unfold paramOver
  refine .ite (fun _ => ?_) fun _ => ?_
  · -- The readers below leave one construct more to the call.
    cases below with
    | none => trivial
    | some level =>
      obtain ⟨m, rfl, h⟩ := hbelow level rfl
      exact (bounded_parenthesised h.param hts c.here).ends hc.advance
  · refine ((bounded_simpleExpr hts).ends hc).imp (fun e c' _ he => ⟨?_, he.2⟩) fun _ _ => trivial
    rw [he.1]
    exact Nat.zero_le n

/-- Case by case over the kinds of tokens. Raw blocks do not count, blocks and partial blocks take
the level below. -/
theorem bounded_statementOver :
    Follows ts (statementOver below) fun s => s.depth (opensRaw ts) ≤ n := by
  have hparam := bounded_paramOver hts hbelow
  rw [follows_iff]
  intro c hc
  unfold statementOver
  cases hkind : c.kind with
  | content => exact ⟨Nat.zero_le n, hc.advance⟩
  | comment => exact ⟨Nat.zero_le n, hc.advance⟩
  | openMustache => exact (bounded_mustache hparam hts).ends hc
  | openUnescaped => exact (bounded_mustache hparam hts).ends hc
  | openRaw => exact bounded_rawBlock hparam hts hc hkind
  | openPartial => exact (bounded_partialCall hparam).ends hc
  | openBlock | openInverted =>
    cases below with
    | none => trivial
    | some level =>
      obtain ⟨m, rfl, h⟩ := hbelow level rfl
      exact (bounded_blockAfter hts h c.here).ends hc.advance
  | openPartialBlock =>
    cases below with
    | none => trivial
    | some level =>
      obtain ⟨m, rfl, h⟩ := hbelow level rfl
      exact (bounded_partialBlockAfter hts h c.here).ends hc.advance
  | _ => trivial

theorem bounded_otherwiseOver :
    Follows ts (otherwiseOver below (statementOver below)) fun section? =>
      ∀ s, section? = some s → s.program.depth (opensRaw ts) ≤ n := by
  have hprogram := bounded_program (bounded_statementOver hts hbelow) []
  rw [follows_iff]
  intro c hc
  rw [otherwiseOver_eq]
  cases c.kind with
  | loneElse =>
    refine (hprogram.ends hc.advance).map fun body c' hbody => ⟨?_, hbody.2⟩
    rintro s ⟨⟩
    exact hbody.1
  | openElse =>
    cases below with
    | none => trivial
    | some level =>
      obtain ⟨m, rfl, h⟩ := hbelow level rfl
      refine ((bounded_chainAfter hts h c.here).ends hc.advance).map fun s c' hs => ⟨?_, hs.2⟩
      rintro s ⟨⟩
      exact hs.1
  | _ =>
    refine ⟨?_, hc⟩
    rintro s ⟨⟩

theorem boundedBy_over : (Level.over below).BoundedBy ts n where
  param := bounded_paramOver hts hbelow
  statement := bounded_statementOver hts hbelow
  otherwise := bounded_otherwiseOver hts hbelow

omit hbelow in
/-- What a level reads is no deeper than its number, by induction on that. -/
theorem boundedBy_ofNat (n : Nat) : (Level.ofNat n).BoundedBy ts n := by
  induction n with
  | zero =>
    refine boundedBy_over hts fun level hlevel => ?_
    cases hlevel
  | succ n ih =>
    refine boundedBy_over hts ?_
    rintro level ⟨⟩
    exact ⟨n, rfl, ih⟩

omit hbelow in
/-- The tree of some tokens is no deeper than constructs may be nested. -/
theorem depth_le_of_template? {root : Program Span} (h : template? ts = .ok root) :
    root.depth (opensRaw ts) ≤ maxNesting := by
  have hstart : (Cursor.ofTokens ts).On ts := by
    obtain ⟨t, hlast, -⟩ := hts.ended
    cases ts with
    | nil => cases hlast
    | cons t ts => exact List.suffix_refl _
  have hprogram := bounded_program (boundedBy_ofNat hts maxNesting).statement []
  have hroot : Ends (fun (root : Program Span) _ => root.depth (opensRaw ts) ≤ maxNesting)
      (fun _ => True)
      ((program (Level.ofNat maxNesting).statement []).bind rootOf (Cursor.ofTokens ts)) := by
    refine (hprogram.ends hstart).bind fun root c hroot => ?_
    unfold rootOf
    cases c.kind with
    | eof =>
      obtain ⟨body, names, chained, mark⟩ := root
      exact hroot.1
    | openEnd => exact ((bounded_simpleExpr hts).ends hroot.2.advance).bind fun _ _ _ => trivial
    | _ => trivial
  rw [template?_eq] at h
  obtain ⟨c, hdepth⟩ := hroot.of_map_ok h
  exact hdepth

end Levels

end Stencil.Syntax
