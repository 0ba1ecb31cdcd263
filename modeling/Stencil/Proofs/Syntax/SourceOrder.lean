import Stencil.Proofs.Syntax.Bodies
import Stencil.Proofs.Syntax.PathOrder

/-!
# Walks in the order of the source

Statements are walked in the order in which they are read, and so are the parts of every form of
them. The one exception is an inverted block with a section after an `else`: its sections are
exchanged, so its paths start one after the other only if one of the two sections has none
(`strung_inverted`). The induction over the grammar carries that to whole templates
(`inOrder_of_template?`).

So, with locations, the default walk through the tree of a template comes by paths that start one
strictly after the other exactly if, in every block whose two sections both hold paths, the program
starts before the inverse (`Template.visitsInOrder_iff`). Every form of statement and expression but
the exchanged sections is walked as it is written, at any nesting.
-/

set_option autoImplicit false

namespace Stencil.Syntax

open Stencil.Text
open Stencil.Tree

variable {source : List Char} {ts : List Token} {c c₁ c₂ c' : Cursor}

/-! ## Blocks -/

/-- In every block whose sections both hold paths the program starts before the inverse. -/
abbrev SectionsOrdered : Statement Span → Prop := Statement.SectionsInOrder StartsBefore

section Blocks

variable {expr : Expr Span} {main : Program Span} {other : Option (Program Span)}
  (hexpr : Strung source ts c expr.visited True c₁)
  (hmain : Strung source ts c₁ main.visited (main.Every SectionsOrdered) c₂)
  (hother : Strung source ts c₂ (Program.visitedOpt other)
    (Program.EveryOpt SectionsOrdered other) c')
  (hstart : main.mark.start = c₁.here.start) (hlater : ∀ q ∈ other, c₂.here.start ≤ q.mark.start)

include hexpr hmain hother hstart hlater

/-- The sections of a block are walked as they are read, so they are in order. -/
theorem strung_block (openStrip inverseStrip closeStrip : Strip) (close : Option (Path Span))
    (mark : Span) :
    let b : Block Span := ⟨expr, some main, other, openStrip, inverseStrip, closeStrip, close, mark⟩
    Strung source ts c b.visited ((Statement.block b).Every SectionsOrdered) c' := by
  intro b
  refine ((hexpr.append hmain).append hother).congr ?_
  -- A path of the program lies between the starts of the two sections.
  have hordered : SectionsOrdered (.block b) := by
    rintro _ ⟨⟩ q hq hsome -
    obtain ⟨p, hp⟩ := List.exists_mem_of_ne_nil _ hsome
    show main.mark.start < q.mark.start
    rw [hstart]
    exact Nat.lt_of_lt_of_le (Nat.lt_of_le_of_lt (hmain.le_start p hp) (hmain.start_lt p hp))
      (hlater q hq)
  exact (and_congr_left' (and_iff_right trivial)).trans (and_iff_right hordered).symm

/-- The sections of an inverted block are walked the other way round, so they are in order only if
one of them has no paths. -/
theorem strung_inverted (openStrip inverseStrip closeStrip : Strip) (close : Option (Path Span))
    (mark : Span) :
    let b : Block Span := ⟨expr, other, some main, openStrip, inverseStrip, closeStrip, close, mark⟩
    Strung source ts c b.visited ((Statement.block b).Every SectionsOrdered) c' := by
  intro b
  rw [Block.visited, List.append_assoc]
  refine (hexpr.append (hmain.exchanged hother)).congr ?_
  have hordered : (Program.visitedOpt other ≠ [] → main.visited = []) ↔
      SectionsOrdered (.block b) := by
    cases other with
    | none => exact iff_of_true (fun hsome => absurd rfl hsome) nofun
    | some q =>
      -- The inverse starts right after the opening tag, so the program, which was read after it, is
      -- no earlier.
      have hnot : ¬ StartsBefore q.mark main.mark :=
        Nat.not_lt.2 (by rw [hstart]; exact Nat.le_trans hmain.start_le (hlater q rfl))
      constructor
      · rintro hnone _ ⟨⟩ _ ⟨⟩ hq hsome
        exact absurd (hnone hq) hsome
      · intro hordered hq
        by_contra hsome
        exact hnot (hordered q rfl main rfl hq hsome)
  exact (and_iff_right trivial).trans (and_congr_left' hordered)

end Blocks

/-! ## Chains that meet their closing tag -/

section Closing

variable {P : Statement Span → Prop}

mutual

theorem visited_closeChain (strip : Strip) :
    ∀ p : Program Span, (Program.closeChain strip p).visited = p.visited
  | ⟨body, _, chained, _⟩ => by
    rw [Program.closeChain]
    split
    · exact visitedAll_closeChain strip body
    · rfl

theorem visitedAll_closeChain (strip : Strip) :
    ∀ body : List (Statement Span),
      Statement.visitedAll (Statement.closeChain strip body) = Statement.visitedAll body
  | [] => rfl
  | .block b :: rest => congrArg (· ++ Statement.visitedAll rest) (visited_closeBlock strip b)
  | .mustache _ :: _ | .partialCall _ :: _ | .partialBlock _ :: _ | .content _ :: _
    | .comment _ :: _ => rfl

theorem visited_closeBlock (strip : Strip) :
    ∀ b : Block Span, (Block.closeChain strip b).visited = b.visited
  | ⟨expr, program, inverse, _, _, _, _, _⟩ =>
    congrArg (expr.visited ++ Program.visitedOpt program ++ ·)
      (visitedOpt_closeChainOpt strip inverse)

theorem visitedOpt_closeChainOpt (strip : Strip) :
    ∀ p : Option (Program Span), Program.visitedOpt (Program.closeChainOpt strip p) =
      Program.visitedOpt p
  | none => rfl
  | some p => visited_closeChain strip p

end

theorem sectionsOrdered_closeChain (strip : Strip) :
    ∀ b : Block Span, SectionsOrdered (.block (Block.closeChain strip b)) ↔
      SectionsOrdered (.block b)
  | ⟨_, _, none, _, _, _, _, _⟩ => Iff.rfl
  | ⟨_, program, some q, _, _, _, _, _⟩ => by
    refine forall₂_congr fun p _ => ?_
    have hsame : p.Precedes StartsBefore (Program.closeChain strip q) ↔
        p.Precedes StartsBefore q := by
      rw [Program.Precedes, visited_closeChain, mark_closeChain, Program.Precedes]
    exact ⟨by rintro h _ ⟨⟩; exact hsame.1 (h _ rfl), by rintro h _ ⟨⟩; exact hsame.2 (h _ rfl)⟩

mutual

/-- A property of blocks that the markers of the closing tag do not bear on is as true of a chain
that has met the closing tag as of one that has not. -/
theorem every_closeChain_iff (hP : ∀ strip b, P (.block (Block.closeChain strip b)) ↔ P (.block b))
    (strip : Strip) :
    ∀ p : Program Span, (Program.closeChain strip p).Every P ↔ p.Every P
  | ⟨body, _, chained, _⟩ => by
    rw [Program.closeChain]
    split
    · exact allEvery_closeChain_iff hP strip body
    · exact Iff.rfl

theorem allEvery_closeChain_iff
    (hP : ∀ strip b, P (.block (Block.closeChain strip b)) ↔ P (.block b)) (strip : Strip) :
    ∀ body : List (Statement Span),
      Statement.AllEvery P (Statement.closeChain strip body) ↔ Statement.AllEvery P body
  | [] => Iff.rfl
  | .block b :: _ => and_congr_left' (and_congr (hP strip b) (every_closeBlock_iff hP strip b))
  | .mustache _ :: _ | .partialCall _ :: _ | .partialBlock _ :: _ | .content _ :: _
    | .comment _ :: _ => Iff.rfl

theorem every_closeBlock_iff (hP : ∀ strip b, P (.block (Block.closeChain strip b)) ↔ P (.block b))
    (strip : Strip) :
    ∀ b : Block Span, (Block.closeChain strip b).Every P ↔ b.Every P
  | ⟨_, _, inverse, _, _, _, _, _⟩ => and_congr_right' (everyOpt_closeChainOpt_iff hP strip inverse)

theorem everyOpt_closeChainOpt_iff
    (hP : ∀ strip b, P (.block (Block.closeChain strip b)) ↔ P (.block b)) (strip : Strip) :
    ∀ p : Option (Program Span),
      Program.EveryOpt P (Program.closeChainOpt strip p) ↔ Program.EveryOpt P p
  | none => Iff.rfl
  | some p => every_closeChain_iff hP strip p

end

end Closing

/-! ## Statements -/

/-- The program of a section after an `else`, if there is one. -/
def programOf (section? : Option ElseSection) : Option (Program Span) :=
  Option.map ElseSection.program section?

/-- What a reader of sections after an `else` reads has its paths where they are read, and is marked
from there on. -/
def StringsSections (source : List Char) (ts : List Token)
    (otherwise : Reader (Option ElseSection)) : Prop :=
  ∀ c section? c', c.On ts → otherwise c = .ok (section?, c') →
    Strung source ts c (Program.visitedOpt (programOf section?))
        (Program.EveryOpt SectionsOrdered (programOf section?)) c' ∧
      ∀ q ∈ programOf section?, c.here.start ≤ q.mark.start

/-- The markers of the closing tag change neither the paths of a chain nor where it starts. -/
theorem strung_closeChain (strip : Strip) {section? : Option ElseSection}
    (h : Strung source ts c (Program.visitedOpt (programOf section?))
      (Program.EveryOpt SectionsOrdered (programOf section?)) c')
    (hlater : ∀ q ∈ programOf section?, c.here.start ≤ q.mark.start) :
    let closed := section?.map fun s => Program.closeChain strip s.program
    Strung source ts c (Program.visitedOpt closed) (Program.EveryOpt SectionsOrdered closed) c' ∧
      ∀ q ∈ closed, c.here.start ≤ q.mark.start := by
  cases section? with
  | none => exact ⟨h, nofun⟩
  | some s =>
    refine ⟨?_, ?_⟩
    · show Strung source ts c (Program.closeChain strip s.program).visited _ c'
      rw [visited_closeChain]
      exact h.congr (every_closeChain_iff sectionsOrdered_closeChain strip s.program).symm
    · rintro _ ⟨⟩
      rw [mark_closeChain]
      exact hlater _ rfl

section Statements

variable {statement : Reader (Statement Span)}

theorem start_of_program {names : List String} {p : Program Span}
    (h : program statement names c = .ok (p, c')) :
    p.mark.start = c.here.start := by
  rw [program_eq] at h
  obtain ⟨body, c₁, -, ⟨⟩⟩ := Reader.bind_eq_ok h
  rfl

theorem strings_program
    (h : Strings source ts statement Statement.visited (Statement.Every SectionsOrdered))
    (names : List String) :
    Strings source ts (program statement names) Program.visited
      (Program.Every SectionsOrdered) := by
  intro c p c' hc hp
  rw [program_eq] at hp
  obtain ⟨body, c₁, hbody, ⟨⟩⟩ := Reader.bind_eq_ok hp
  rw [Program.visited, Statement.visitedAll_eq]
  exact (h.many _ _ _ _ hc hbody).congr Statement.allEvery_iff.symm

variable (laid : Laid source ts) {param : Reader (Expr Span)}
  (hparam : Strings source ts param Expr.visited fun _ => True)

include laid hparam

theorem strings_mustache :
    Strings source ts (mustache param) Statement.visited (Statement.Every SectionsOrdered) := by
  intro c s c' hc h
  rw [mustache_eq] at h
  obtain ⟨call, c₁, hcall, h⟩ := Reader.bind_eq_ok h
  obtain ⟨closed, hclosed, rfl⟩ := Reader.map_eq_ok h
  have hopen := strung_advance laid hc
  have hcall := strings_callExpr laid hparam _ _ _ hopen.on hcall
  exact hopen.after (hcall.before (strung_expect laid hcall.on hclosed))

theorem strings_partialCall :
    Strings source ts (partialCall param) Statement.visited (Statement.Every SectionsOrdered) := by
  intro c s c' hc h
  rw [partialCall_eq] at h
  obtain ⟨parts, c₁, hparts, h⟩ := Reader.bind_eq_ok h
  obtain ⟨closed, hclosed, rfl⟩ := Reader.map_eq_ok h
  have hopen := strung_advance laid hc
  have hparts := strings_partialParts laid hparam _ _ _ hopen.on hparts
  exact hopen.after (hparts.before (strung_expect laid hparts.on hclosed))

omit hparam in
/-- The body of a raw block is a text at most, which has no paths. -/
theorem strung_rawBody {body : List (Statement Span)} (hc : c.On ts)
    (h : rawBody c = .ok (body, c')) :
    Strung source ts c (Statement.visitedAll body)
      (Statement.AllEvery SectionsOrdered body) c' := by
  rw [rawBody] at h
  split at h
  · cases h
    exact (strung_advance laid hc).congr (iff_of_true trivial ⟨trivial, trivial⟩)
  · cases h
    exact .nil hc (Nat.le_refl _)

theorem strings_rawBlock :
    Strings source ts (rawBlock param) Statement.visited (Statement.Every SectionsOrdered) := by
  intro c s c' hc h
  rw [rawBlock_eq] at h
  obtain ⟨call, c₁, hcall, h⟩ := Reader.bind_eq_ok h
  obtain ⟨closed, c₂, hclosed, h⟩ := Reader.bind_eq_ok h
  obtain ⟨body, c₃, hbody, h⟩ := Reader.bind_eq_ok h
  obtain ⟨ending, c₄, hending, h⟩ := Reader.bind_eq_ok h
  split at h
  · cases h
    have hopen := strung_advance laid hc
    have hcall := strings_callExpr laid hparam _ _ _ hopen.on hcall
    have hclosed := strung_expect laid hcall.on hclosed
    have hbody := strung_rawBody laid hclosed.on hbody
    have hall :=
      (hopen.after hcall).append
      (hclosed.after (hbody.before (strung_expect laid hbody.on hending)))
    -- There is no section besides the body, so the two are in order.
    show Strung source ts c (call.expr.visited ++ Statement.visitedAll body ++ []) _ c'
    rw [List.append_nil]
    refine hall.congr ⟨fun h => ⟨fun _ _ => nofun, h.2, trivial⟩, fun h => ⟨trivial, h.2.1⟩⟩
  · cases h

end Statements

/-! ## Levels -/

section Levels

variable (laid : Laid source ts) {level : Level} {below : Option Level}

/-- What the readers of a level read has its paths where they are read. -/
structure LevelStrings (source : List Char) (ts : List Token) (level : Level) : Prop where
  param : Strings source ts level.param Expr.visited fun _ => True
  statement : Strings source ts level.statement Statement.visited (Statement.Every SectionsOrdered)
  otherwise : StringsSections source ts level.otherwise

include laid

theorem strings_blockAfter (h : LevelStrings source ts level) (opened : Token) :
    Strings source ts (blockAfter level opened) Statement.visited
      (Statement.Every SectionsOrdered) := by
  intro c s c' hc hs
  rw [blockAfter_eq] at hs
  obtain ⟨tag, c₁, htag, hs⟩ := Reader.bind_eq_ok hs
  obtain ⟨main, c₂, hmain, hs⟩ := Reader.bind_eq_ok hs
  obtain ⟨section?, c₃, hsection, hs⟩ := Reader.bind_eq_ok hs
  obtain ⟨⟨close, strip, ending⟩, hclosing, rfl⟩ := Reader.map_eq_ok hs
  have htag := strings_openTag laid h.param opened _ _ _ hc htag
  have hstart := start_of_program hmain
  have hmain := strings_program h.statement _ _ _ _ htag.on hmain
  obtain ⟨hsection, hlater⟩ := h.otherwise _ _ _ hmain.on hsection
  have hsection := hsection.before (strings_closingTag laid _ _ _ _ _ hsection.on hclosing)
  obtain ⟨hclosed, hlater⟩ := strung_closeChain strip hsection hlater
  cases hinverted : opened.kind == .openInverted with
  | false => exact strung_block htag hmain hclosed hstart hlater _ _ _ _ _
  | true => exact strung_inverted htag hmain hclosed hstart hlater _ _ _ _ _

theorem strings_partialBlockAfter (h : LevelStrings source ts level) (opened : Token) :
    Strings source ts (partialBlockAfter level opened) Statement.visited
      (Statement.Every SectionsOrdered) := by
  intro c s c' hc hs
  rw [partialBlockAfter_eq] at hs
  obtain ⟨parts, c₁, hparts, hs⟩ := Reader.bind_eq_ok hs
  obtain ⟨closed, c₂, hclosed, hs⟩ := Reader.bind_eq_ok hs
  obtain ⟨body, c₃, hbody, hs⟩ := Reader.bind_eq_ok hs
  split at hs
  · cases hs
  obtain ⟨closing, hclosing, rfl⟩ := Reader.map_eq_ok hs
  have hparts := strings_partialParts laid h.param _ _ _ hc hparts
  have hclosed := strung_expect laid hparts.on hclosed
  have hbody := strings_program h.statement _ _ _ _ hclosed.on hbody
  exact (hparts.before hclosed).append
    (hbody.before (strings_closingTag laid _ _ _ _ _ hbody.on hclosing))

/-- A chained section is marked from the delimiter that opens it. -/
theorem strung_chainAfter (h : LevelStrings source ts level) {opened : Token} {s : ElseSection}
    (hc : c.On ts) (hs : chainAfter level opened c = .ok (s, c')) :
    Strung source ts c s.program.visited (s.program.Every SectionsOrdered) c' ∧
      s.program.mark.start = opened.start := by
  rw [chainAfter_eq] at hs
  obtain ⟨tag, c₁, htag, hs⟩ := Reader.bind_eq_ok hs
  obtain ⟨main, c₂, hmain, hs⟩ := Reader.bind_eq_ok hs
  obtain ⟨section?, c₃, hsection, ⟨⟩⟩ := Reader.bind_eq_ok hs
  have htag := strings_openTag laid h.param opened _ _ _ hc htag
  have hstart := start_of_program hmain
  have hmain := strings_program h.statement _ _ _ _ htag.on hmain
  obtain ⟨hsection, hlater⟩ := h.otherwise _ _ _ hmain.on hsection
  refine ⟨?_, rfl⟩
  have hlink :=
    strung_block htag hmain hsection hstart hlater tag.strip
    ((section?.map ElseSection.strip).getD {}) {}
    none ⟨opened.start, c'.prev.stop⟩
  show Strung source ts c (Block.visited _ ++ []) _ c'
  rw [List.append_nil]
  exact hlink.congr (and_iff_left trivial).symm

variable (hbelow : ∀ level, below = some level → LevelStrings source ts level)

include hbelow

theorem strings_paramOver : Strings source ts (paramOver below) Expr.visited fun _ => True := by
  intro c e c' hc h
  unfold paramOver at h
  split at h
  · split at h
    · cases h
    rename_i level
    have hopen := strung_advance laid hc
    exact hopen.after (strings_parenthesised laid (hbelow level rfl).param _ _ _ _ hopen.on h)
  · obtain ⟨hhead, hsub⟩ := strung_simpleExpr laid hc h
    exact hhead.sublist hsub

theorem strings_statementOver :
    Strings source ts (statementOver below) Statement.visited
      (Statement.Every SectionsOrdered) := by
  have hparam := strings_paramOver laid hbelow
  intro c s c' hc h
  have hopen := strung_advance laid hc
  unfold statementOver at h
  dsimp only at h
  split at h
  · cases h
    exact hopen
  · cases h
    exact hopen
  · exact strings_mustache laid hparam _ _ _ hc h
  · exact strings_mustache laid hparam _ _ _ hc h
  · -- A block is read by the level below, and fails where there is none.
    split at h
    · cases h
    rename_i level
    exact hopen.after (strings_blockAfter laid (hbelow level rfl) _ _ _ _ hopen.on h)
  · split at h
    · cases h
    rename_i level
    exact hopen.after (strings_blockAfter laid (hbelow level rfl) _ _ _ _ hopen.on h)
  · exact strings_rawBlock laid hparam _ _ _ hc h
  · exact strings_partialCall laid hparam _ _ _ hc h
  · split at h
    · cases h
    rename_i level
    exact hopen.after (strings_partialBlockAfter laid (hbelow level rfl) _ _ _ _ hopen.on h)
  · cases h

theorem stringsSections_otherwiseOver :
    StringsSections source ts (otherwiseOver below (statementOver below)) := by
  intro c section? c' hc h
  have hopen := strung_advance laid hc
  rw [otherwiseOver_eq] at h
  split at h
  · obtain ⟨body, hbody, rfl⟩ := Reader.map_eq_ok h
    refine ⟨hopen.after
      (strings_program (strings_statementOver laid hbelow) _ _ _ _ hopen.on hbody), ?_⟩
    rintro _ ⟨⟩
    rw [start_of_program hbody]
    exact hopen.start_le
  · split at h
    · cases h
    rename_i level
    obtain ⟨s, hs, rfl⟩ := Reader.map_eq_ok h
    obtain ⟨hchain, hstart⟩ := strung_chainAfter laid (hbelow level rfl) hopen.on hs
    refine ⟨hopen.after hchain, ?_⟩
    rintro _ ⟨⟩
    exact Nat.le_of_eq hstart.symm
  · cases h
    exact ⟨.nil hc (Nat.le_refl _), nofun⟩

omit hbelow in
/-- Every level reads so, by induction on how deep it may nest. -/
theorem levelStrings_ofNat (n : Nat) : LevelStrings source ts (Level.ofNat n) := by
  have step : ∀ {below : Option Level},
      (∀ level, below = some level → LevelStrings source ts level) →
      LevelStrings source ts (Level.over below) := fun hbelow =>
    ⟨strings_paramOver laid hbelow, strings_statementOver laid hbelow,
      stringsSections_otherwiseOver laid hbelow⟩
  induction n with
  | zero =>
    refine step fun level hlevel => ?_
    cases hlevel
  | succ n ih =>
    refine step ?_
    rintro level ⟨⟩
    exact ih

omit hbelow in
/-- The paths of a tree start at characters of the source. They start one after the other exactly if
the sections of all blocks do. -/
theorem inOrder_of_template? {tree : Program Span} (h : template? ts = .ok tree) :
    (∀ p ∈ tree.visited, Boundary source p.mark.start) ∧
      (InOrder tree.visited ↔ tree.Every SectionsOrdered) := by
  rw [template?_eq] at h
  cases hroot : (program (Level.ofNat maxNesting).statement []).bind rootOf
    (Cursor.ofTokens ts) with
  | error f => rw [hroot] at h; cases h
  | ok r =>
    obtain ⟨whole, c'⟩ := r
    rw [hroot] at h
    cases h
    obtain ⟨⟨body, blockParams, chained, mark⟩, c, hread, hend⟩ := Reader.bind_eq_ok hroot
    have hstrung :=
      strings_program (levelStrings_ofNat laid maxNesting).statement _ _ _ _
        (at_ofTokens laid).on hread
    unfold rootOf at hend
    split at hend
    · cases hend
      exact ⟨hstrung.boundary, hstrung.inOrder_iff⟩
    · obtain ⟨name, c₁, -, ⟨⟩⟩ := Reader.bind_eq_ok hend
    all_goals cases hend

end Levels

end Stencil.Syntax

namespace Stencil.Template

open Stencil.Text
open Stencil.Tree
open Stencil.Syntax (read? read?_eq_ok_iff laid_of_tokens? inOrder_of_template?
  arranged_of_template? spans StartsBefore InOrder SectionsOrdered)

/-! ## Order -/

/-- Both places are known, and the first starts strictly before the second. -/
def StartsEarlier (first second : Option Location) : Prop :=
  ∃ a ∈ first, ∃ b ∈ second, a.start < b.start

instance : DecidableRel StartsEarlier := fun first second =>
  inferInstanceAs (Decidable (∃ a ∈ first, ∃ b ∈ second, a.start < b.start))

/-- The default walk comes by every path before those that it comes by later start. -/
def VisitsInOrder (tree : Tree.Located) : Prop :=
  tree.paths.Pairwise fun p q => StartsEarlier p.mark q.mark

instance (tree : Tree.Located) : Decidable (VisitsInOrder tree) :=
  inferInstanceAs (Decidable (List.Pairwise _ _))

/-- Spans between characters of a source start in the order of their places. -/
theorem startsEarlier_locate_iff {source : List Char} (name : Option String) {m n : Span}
    (hm : Boundary source m.start) (hn : Boundary source n.start) :
    StartsEarlier (some ((LineIndex.ofChars source).locate name m))
      (some ((LineIndex.ofChars source).locate name n)) ↔
      StartsBefore m n := by
  simp only [StartsEarlier, Option.mem_some_iff, exists_eq_left', LineIndex.locate]
  exact LineIndex.position_lt_iff hm hn

/-! ## Templates -/

variable {options : ReadOptions} {source : String} {tree : Tree.Located}

/-- The paths of a tree are visited in order before the layout exactly if the sections of all blocks
are in order. -/
theorem visitsInOrder_of_readAsWritten (hlocations : options.trackLocations = true)
    (h : readAsWritten options source = .ok tree) :
    VisitsInOrder tree ↔ tree.Every (Statement.SectionsInOrder StartsEarlier) := by
  obtain ⟨root, hread, rfl⟩ := readAsWritten_eq_ok_iff.1 h
  obtain ⟨ts, hts, hroot⟩ := read?_eq_ok_iff.1 hread
  have laid := laid_of_tokens? hts
  obtain ⟨hboundary, horder⟩ := inOrder_of_template? laid hroot
  obtain ⟨⟨-, harranged⟩, -⟩ := arranged_of_template? laid hroot
  simp only [hlocations, if_true]
  have hpaths : InOrder root.visited ↔ root.visited.Pairwise fun p q =>
      StartsEarlier (some ((LineIndex.ofChars source.toList).locate options.sourceName p.mark))
        (some ((LineIndex.ofChars source.toList).locate options.sourceName q.mark)) :=
    List.Pairwise.iff_of_mem fun hp hq =>
      (startsEarlier_locate_iff _ (hboundary _ hp) (hboundary _ hq)).symm
  have hsections : ∀ s : Statement Span, s.Arranged (spans source.toList) →
      ((s.mapMark fun span =>
        some ((LineIndex.ofChars source.toList).locate options.sourceName span)).SectionsInOrder
        StartsEarlier ↔ SectionsOrdered s) :=
    Statement.Arranged.sectionsInOrder_mapMark fun hm hn => startsEarlier_locate_iff _ hm.2.1 hn.2.1
  rw [VisitsInOrder, Program.paths_eq, Program.visited_mapMark, List.pairwise_map]
  exact (hpaths.symm.trans horder).trans (Program.every_mapMark_iff hsections harranged).symm

/-- What is read is what is written with its white space settled. -/
theorem exists_readAsWritten (h : read options source = .ok tree) :
    ∃ written, readAsWritten options source = .ok written ∧
      tree = written.layout options.ignoreStandalone true := by
  rw [read] at h
  cases hwritten : readAsWritten options source with
  | error e => rw [hwritten] at h; cases h
  | ok written =>
    rw [hwritten] at h
    cases h
    exact ⟨written, rfl, rfl⟩

/-- The paths that the default walk comes by start one strictly after the other exactly if in every
block whose two sections both hold paths the program starts before the inverse. -/
theorem visitsInOrder_iff (hlocations : options.trackLocations = true)
    (h : read options source = .ok tree ∨ readAsWritten options source = .ok tree) :
    VisitsInOrder tree ↔ tree.Every (Statement.SectionsInOrder StartsEarlier) := by
  rcases h with h | h
  · obtain ⟨written, hwritten, rfl⟩ := exists_readAsWritten h
    rw [VisitsInOrder, Program.paths_layout,
      Program.every_layout (Statement.sectionsInOrder_bare StartsEarlier)]
    exact visitsInOrder_of_readAsWritten hlocations hwritten
  · exact visitsInOrder_of_readAsWritten hlocations h

/-- A chain with a call in its head, a partial under a computed name, and two inverted blocks of
which one has a section without paths. -/
def manyForms : String :=
  "\x7b\x7b#if (eq a.b 1 k=c)\x7d\x7d\x7b\x7bd\x7d\x7d\x7b\x7belse if e\x7d\x7d\n" ++
    "\x7b\x7b> (f g) h\x7d\x7d\x7b\x7belse\x7d\x7d" ++
    "\x7b\x7b^i\x7d\x7d\x7b\x7bj\x7d\x7d\x7b\x7b/i\x7d\x7d\n" ++
    "\x7b\x7b^k\x7d\x7dx\x7b\x7belse\x7d\x7d\x7b\x7bl\x7d\x7d\x7b\x7b/k\x7d\x7d\x7b\x7b/if\x7d\x7d"

/-- Its paths are visited in order. -/
theorem visitsInOrder_iff_manyForms :
    ∃ tree, read {} manyForms = .ok tree ∧ VisitsInOrder tree := by
  have hsections : (read {} manyForms).toOption.any (fun tree =>
      decide (tree.Every (Statement.SectionsInOrder StartsEarlier))) = true := by
    decide +kernel
  cases h : read {} manyForms with
  | error e => rw [h] at hsections; cases hsections
  | ok tree =>
    rw [h] at hsections
    exact ⟨tree, rfl, (visitsInOrder_iff rfl (.inl h)).2 (of_decide_eq_true hsections)⟩

/-- An inverted block with a section after an `else`. -/
def invertedElse : String :=
  "\x7b\x7b^a\x7d\x7d\x7b\x7bb\x7d\x7d\x7b\x7belse\x7d\x7d\x7b\x7bc\x7d\x7d\x7b\x7b/a\x7d\x7d"

/-- The walk comes by the paths after its `else` before those of the section before it. -/
theorem not_visitsInOrder :
    ¬ ∀ (options : ReadOptions) (source : String) (tree : Tree.Located),
      options.trackLocations = true →
      read options source = .ok tree → VisitsInOrder tree := by
  intro hall
  have hexchanged : (read {} invertedElse).toOption.any (fun tree =>
      decide (¬ VisitsInOrder tree)) = true := by
    decide +kernel
  cases h : read {} invertedElse with
  | error e => rw [h] at hexchanged; cases hexchanged
  | ok tree =>
    rw [h] at hexchanged
    exact of_decide_eq_true hexchanged (hall {} invertedElse tree rfl h)

end Stencil.Template
