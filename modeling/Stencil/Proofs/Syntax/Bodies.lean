import Stencil.Proofs.Syntax.Extents

/-!
# Where statements and programs lie

The readers of statements, of programs and of the sections of blocks, each from what those it is
made of are known to do, up to the readers of a level of nesting and of whole templates
(`arranged_of_template?`, `sound_of_template?`).

A program without statements is marked with an empty span, at what ends it. That lies in the block
around it because what ends a program stands right behind the tag before it.
-/

set_option autoImplicit false

namespace Stencil.Syntax

open Stencil.Text
open Stencil.Tree

/-! ## Chains that meet their closing tag -/

section Closing

variable {A : Arrangement Span}

/-- Whether a program is in order is a matter of its own mark and of those of its statements. -/
theorem orderly_of_marks {p q : Program Span} (hmark : q.mark = p.mark)
    (hbody : q.body.map Statement.mark = p.body.map Statement.mark) (h : p.Orderly A) :
    q.Orderly A := by
  have hpairwise := h.pairwise
  rw [← List.pairwise_map, ← hbody, List.pairwise_map] at hpairwise
  refine ⟨?_, hpairwise, fun s hs => ?_⟩
  · rw [hmark]
    exact h.proper
  · have hmem : s.mark ∈ p.body.map Statement.mark := by
      rw [← hbody]
      exact List.mem_map_of_mem hs
    obtain ⟨t, ht, hsame⟩ := List.mem_map.1 hmem
    rw [← hsame, hmark]
    exact h.within t ht

theorem mark_closeBlock (strip : Strip) (b : Block Span) :
    (Block.closeChain strip b).mark = b.mark := by
  cases b
  rfl

theorem marks_closeChain (strip : Strip) (body : List (Statement Span)) :
    (Statement.closeChain strip body).map Statement.mark = body.map Statement.mark := by
  cases body with
  | nil => rfl
  | cons s body =>
    cases s with
    | block b =>
      rw [Statement.closeChain, List.map_cons, List.map_cons, Statement.mark, mark_closeBlock]; rfl
    | _ => rfl

theorem mark_closeChain (strip : Strip) (p : Program Span) :
    (Program.closeChain strip p).mark = p.mark := by
  obtain ⟨body, blockParams, chained, mark⟩ := p
  cases chained <;> rfl

/-- The markers of a closing tag move no mark. -/
theorem orderly_closeChain (strip : Strip) {p : Program Span} (h : p.Orderly A) :
    (Program.closeChain strip p).Orderly A := by
  refine orderly_of_marks (mark_closeChain strip p) ?_ h
  obtain ⟨body, blockParams, chained, mark⟩ := p
  cases chained with
  | false => rfl
  | true => exact marks_closeChain strip body

theorem keptByClosing_arranged : KeptByClosing (Statement.Arranged A) := by
  rintro strip ⟨expr, program, inverse, openStrip, inverseStrip, closeStrip, close, mark⟩ h
  obtain ⟨hmark, hexpr, hprogram, hinverse, hclose⟩ := h
  refine ⟨hmark, hexpr, hprogram, ?_, hclose⟩
  rintro q hq
  cases inverse with
  | none => cases hq
  | some p =>
    cases hq
    obtain ⟨hp, hwithin⟩ := hinverse p rfl
    refine ⟨orderly_closeChain strip hp, ?_⟩
    rw [mark_closeChain]
    exact hwithin

end Closing

/-! ## Statements -/

section Statements

variable {source : List Char} {ts opened : List Token} {c c' : Cursor} (laid : Laid source ts)

/-- A statement lies from one cursor to another, and everything in it lies in order. -/
structure StatementFits (source : List Char) (ts opened : List Token) (c : Cursor)
    (s : Statement Span) (c' : Cursor) : Prop where
  moves : Moves ts .outside opened c c'
  mark : s.mark = c.upTo c'
  every : s.Every (Statement.Arranged (spans source))

/-- A reader of statements reads each from its first token on, where so many constructs are open. -/
def ReadsStatements (source : List Char) (ts opened : List Token)
    (statement : Reader (Statement Span)) : Prop :=
  ∀ c, c.At ts .outside opened → atProgramEnd c = false →
    Ends (StatementFits source ts opened c) (Fault.Sound source ts) (statement c)

/-- A program lies from one cursor to another. -/
structure ProgramFits (source : List Char) (ts : List Token) (c : Cursor) (p : Program Span)
    (c' : Cursor) :
    Prop where
  kept : Kept ts c c'
  ended : c'.kind.endsProgram = true
  orderly : p.Orderly (spans source)
  every : p.Every (Statement.Arranged (spans source))
  start : p.mark.start = c.here.start
  stop : p.mark.stop ≤ c'.here.start
  /-- A program after a tag does not go beyond the token passed last, even if it has no
  statements. -/
  tight : c.After ts → c.prev.kind ≠ .content → p.mark.stop ≤ c'.prev.stop

/-- It lies in the span of what goes on after it. -/
theorem ProgramFits.within {p : Program Span} {c₀ c₁ : Cursor} (h : ProgramFits source ts c p c₁)
    (hstart : c₀.here.start ≤ c.here.start) (hmore : Passed ts c₁ c') :
    (spans source).within p.mark (c₀.upTo c') := by
  have hstop := h.stop
  have hreaches := hmore.reaches
  have hhere := c₁.here.start_le_stop
  refine ⟨?_, show p.mark.stop ≤ c'.prev.stop by omega⟩
  rw [h.start]
  exact hstart

theorem atProgramEnd_eq (c : Cursor) : atProgramEnd c = c.kind.endsProgram := by
  unfold atProgramEnd TokenKind.endsProgram
  cases c.kind <;> rfl

theorem kind_ne_eof_of_atProgramEnd (h : atProgramEnd c = false) : c.kind ≠ .eof := by
  intro heof
  rw [atProgramEnd_eq, heof] at h
  cases h

include laid

omit laid in
theorem ends_statements {statement : Reader (Statement Span)}
    (hstatement : ReadsStatements source ts opened statement) (hc : c.At ts .outside opened) :
    Ends (fun body c' => (c'.At ts .outside opened ∧ atProgramEnd c' = true) ∧ Each (fun s c c' =>
        Passed ts c c' ∧ s.mark = c.upTo c' ∧
          s.Every (Statement.Arranged (spans source))) c body c')
      (Fault.Sound source ts) (Cursor.many (fun c => !atProgramEnd c) statement c) := by
  refine (Ends.many (I := fun c => c.At ts .outside opened)
    (Q := fun s c c' => Passed ts c c' ∧ s.mark = c.upTo c' ∧
      s.Every (Statement.Arranged (spans source)))
    ?_ ?_ ?_ hc).imp ?_ fun _ hf => hf
  · intro c hc hmore
    refine (hstatement c hc (by simpa using hmore)).imp ?_ fun _ hf => hf
    exact fun s c' _ h => ⟨h.moves.at_, h.moves.passed, h.mark, h.every⟩
  · exact fun _ _ _ h => h.1.shorter
  · exact fun c hc hmore => hc.rest_ne_nil (kind_ne_eof_of_atProgramEnd (by simpa using hmore))
  · exact fun body c' _ h => ⟨⟨h.1.1, by simpa using h.1.2⟩, h.2⟩

theorem ends_program {statement : Reader (Statement Span)}
    (hstatement : ReadsStatements source ts opened statement) (names : List String)
    (hc : c.At ts .outside opened) :
    Ends (fun p c' => c'.At ts .outside opened ∧ ProgramFits source ts c p c')
      (Fault.Sound source ts)
      (program statement names c) := by
  rw [program_eq]
  refine (ends_statements hstatement hc).bind ?_
  rintro body c' ⟨⟨hc', hended⟩, hbody⟩
  rw [atProgramEnd_eq] at hended
  have hevery : Statement.AllEvery (Statement.Arranged (spans source)) body :=
    Statement.allEvery_iff.2 (hbody.forall_mem fun _ _ _ h => h.2.2)
  refine ⟨hc', ?_⟩
  rcases hbody.passed laid with ⟨rfl, rfl⟩ | ⟨hsome, hpassed⟩
  · have hboundary := (laid.boundary _ hc.here_mem).1
    refine ⟨.inl rfl, hended, ⟨?_, List.Pairwise.nil, nofun⟩, hevery, rfl, Nat.le_refl _, ?_⟩
    · exact ⟨Nat.le_refl _, hboundary, hboundary⟩
    · intro hafter hprev
      exact Nat.le_of_eq (hafter.adjoins laid hended hprev)
  · have hempty : body.isEmpty = false := by simpa using hsome
    simp only [hempty, Bool.false_eq_true, if_false]
    have hmarks := hbody.imp fun s _ _ h => (⟨h.1, h.2.1⟩ : Passed ts _ _ ∧ s.mark = _)
    refine ⟨.inr hpassed, hended, ⟨hpassed.proper laid, hmarks.pairwise laid, ?_⟩, hevery, rfl,
      hpassed.after.prev_le laid, fun _ _ => Nat.le_refl _⟩
    intro s hs
    have hproper := hbody.forall_mem (R := fun s => (spans source).proper s.mark)
      (fun _ _ _ h => Statement.Arranged.proper h.2.2.self) s hs
    exact ⟨hproper, hmarks.within laid s hs⟩

variable {param : Reader (Expr Span)} (hparam : ReadsParams source ts opened param)

theorem ends_openTag (hparam : ReadsParams source ts opened param)
    (hc : c.At ts (.inTag false) opened) (first : Token) :
    Ends (fun tag c' => Moves ts .outside opened c c' ∧ c'.prev.kind = .close ∧
      Fits source (c.upTo c') tag.call.expr ∧ tag.span = first.to c'.prev) (Fault.Sound source ts)
      (openTag param first c) := by
  rw [openTag_eq]
  refine (ends_callParts laid hparam hc).bind ?_
  rintro call c₁ ⟨hmoves, hcall⟩
  refine (ends_blockParams laid hmoves.at_).bind ?_
  rintro names c₂ ⟨hc₂, hkept⟩
  refine (ends_expect_keeping laid hc₂ hc₂.kind_ne_eof_of_inTag .close rfl rfl).map ?_
  rintro _ c' ⟨hclose, hkind, rfl, hprev⟩
  have hpassed : Passed ts c₁ c' := hkept.passed laid hclose.passed
  refine ⟨⟨hclose.at_, hmoves.passed.trans laid hpassed⟩, ?_, ?_, ?_⟩
  · rw [hprev]
    exact hkind
  · exact hcall.expr.mono (within_upTo (Nat.le_refl _) (hpassed.prev_le laid hmoves.passed.after))
  · rw [hprev]

/-- A closing tag closes the innermost block. Another token in its place, or another name in it, is
a fault, and so is the end of the source, about the opening tag. -/
theorem ends_closingTag (hc : c.At ts .outside opened) (name : String) {opening : Span}
    (hopening : (⟨0, source⟩ : Rest).Holds opening) :
    Ends (fun closing c' => Moves ts .outside (closeBlock opened) c c' ∧ closing.2.2 = c'.prev ∧
      (spans source).proper closing.1.mark ∧ (spans source).within closing.1.mark (c.upTo c'))
      (Fault.Sound source ts) (closingTag name opening c) := by
  rw [closingTag_eq]
  refine .ite (fun _ => .plain rfl hopening nofun) fun heof => ?_
  refine .ite (fun _ => sound_unexpected laid hc heof _) fun hopen => ?_
  have hkind : c.kind = .openEnd := Decidable.not_not.1 hopen
  have hfirst := hc.moves (by rw [hkind]; rfl)
  rw [stillOpenWith, show c.here.kind = .openEnd from hkind] at hfirst
  refine (ends_simpleExpr laid hfirst.at_).bind ?_
  rintro closing c₁ ⟨hmoves, hclosing⟩
  refine (ends_expect_keeping laid hmoves.at_ hmoves.at_.kind_ne_eof_of_inTag .close rfl rfl).bind
    ?_
  rintro _ c' ⟨hclose, -, rfl, hprev⟩
  have hpassed := (hfirst.passed.trans laid hmoves.passed).trans laid hclose.passed
  have hstop := hclose.passed.prev_le laid hmoves.passed.after
  refine .ite (fun _ => ?_) fun _ => ?_
  · obtain ⟨hproper, hwithin⟩ := hclosing.headPath
    refine ⟨⟨hclose.at_, hpassed⟩, hprev.symm, hproper, ?_⟩
    exact spans_within_trans hwithin (within_upTo (hfirst.passed.start_le laid) hstop)
  · have hholds := hpassed.holds laid
    rw [hprev] at hholds
    exact .plain rfl hholds (List.forall_mem_singleton.2 hopening)

/-- The statement of one token. -/
theorem moves_alone (hc : c.At ts .outside opened) (hkind : c.kind = .content ∨ c.kind = .comment) :
    Moves ts .outside opened c c.advance ∧ c.here.span = c.upTo c.advance ∧
      (spans source).proper c.here.span := by
  have hmoves : Moves ts .outside opened c c.advance := by
    rcases hkind with hkind | hkind
    · exact hc.moves_keeping (by rw [hkind]; rfl) (by rw [hkind]; rfl)
    · exact hc.moves_keeping (by rw [hkind]; rfl) (by rw [hkind]; rfl)
  have hspan : c.here.span = c.upTo c.advance := by
    rw [Cursor.upTo, hc.advance_prev hmoves.passed.kind]
    rfl
  refine ⟨hmoves, hspan, ?_⟩
  rw [hspan]
  exact hmoves.passed.proper laid

include hparam

omit hparam in
/-- A tag that shows a value is closed as it was opened. -/
theorem ends_mustacheEnd (hc : c.At ts (.inTag false) opened) (unescaped : Bool) :
    Ends (fun t c' => Moves ts .outside opened c c' ∧ c'.prev = t) (Fault.Sound source ts)
      (Cursor.expect (if unescaped then .closeUnescaped else .close) c) := by
  have hkind := hc.kind_ne_eof_of_inTag
  split
  · refine (ends_expect_keeping laid hc hkind .closeUnescaped rfl rfl).imp ?_ fun _ hf => hf
    exact fun t c' _ h => ⟨h.1, h.2.2.2.trans h.2.2.1.symm⟩
  · refine (ends_expect_keeping laid hc hkind .close rfl rfl).imp ?_ fun _ hf => hf
    exact fun t c' _ h => ⟨h.1, h.2.2.2.trans h.2.2.1.symm⟩

theorem ends_mustache (hc : c.At ts .outside opened)
    (hkind : c.kind = .openMustache ∨ c.kind = .openUnescaped) :
    Ends (StatementFits source ts opened c) (Fault.Sound source ts) (mustache param c) := by
  have hfirst : Moves ts (.inTag false) opened c c.advance := by
    rcases hkind with hkind | hkind
    · exact hc.moves_keeping (by rw [hkind]; rfl) (by rw [hkind]; rfl)
    · exact hc.moves_keeping (by rw [hkind]; rfl) (by rw [hkind]; rfl)
  rw [mustache_eq]
  refine (ends_callParts laid hparam hfirst.at_).bind ?_
  rintro call c₁ ⟨hmoves, hcall⟩
  refine (ends_mustacheEnd laid hmoves.at_ _).map ?_
  rintro _ c' ⟨hclose, rfl⟩
  have hpassed := (hfirst.passed.trans laid hmoves.passed).trans laid hclose.passed
  have hstop := hclose.passed.prev_le laid hmoves.passed.after
  refine ⟨⟨hclose.at_, hpassed⟩, rfl, hpassed.proper laid,
    Expr.arrangedIn_iff.2 (List.forall_mem_singleton.2 ?_)⟩
  exact hcall.expr.mono (within_upTo (hfirst.passed.start_le laid) hstop)

theorem ends_partialCall (hc : c.At ts .outside opened) (hkind : c.kind = .openPartial) :
    Ends (StatementFits source ts opened c) (Fault.Sound source ts) (partialCall param c) := by
  have hfirst : Moves ts (.inTag false) opened c c.advance :=
    hc.moves_keeping (by rw [hkind]; rfl) (by rw [hkind]; rfl)
  rw [partialCall_eq]
  refine (ends_partialParts laid hparam hfirst.at_).bind ?_
  rintro parts c₁ ⟨hmoves, hparts⟩
  refine (ends_expect_keeping laid hmoves.at_ hmoves.at_.kind_ne_eof_of_inTag .close rfl rfl).map ?_
  rintro _ c' ⟨hclose, -, rfl, hprev⟩
  have hpassed := (hfirst.passed.trans laid hmoves.passed).trans laid hclose.passed
  have hstop := hclose.passed.prev_le laid hmoves.passed.after
  have hmark : c.here.to c₁.here = c.upTo c' := by rw [Cursor.upTo, hprev]; rfl
  refine ⟨⟨hclose.at_, hpassed⟩, hmark, ?_⟩
  rw [hmark]
  exact ⟨hpassed.proper laid, PartialParts.Fits.arranged
    (hparts.mono (within_upTo (hfirst.passed.start_le laid) hstop))⟩

omit hparam in
/-- The text of a raw block, if it has any, is the only token before its closing tag. -/
theorem ends_rawBody (hc : c.At ts .rawText opened) :
    Ends (fun body c' =>
      (∃ stage, c'.At ts stage opened ∧ c'.kind ≠ .eof ∧ stage.after .endRaw = some .outside) ∧
      Each (fun s c c' => Passed ts c c' ∧ s.mark = c.upTo c' ∧
        s.Every (Statement.Arranged (spans source))) c body c')
      (Fault.Sound source ts) (rawBody c) := by
  unfold rawBody
  refine .ite (fun hkind => ?_) fun _ => ?_
  · have hmoves : Moves ts .rawEnd opened c c.advance :=
      hc.moves_keeping (by rw [hkind]; rfl) (by rw [hkind]; rfl)
    have hspan : c.here.span = c.upTo c.advance := by
      rw [Cursor.upTo, hc.advance_prev hmoves.passed.kind]
      rfl
    have hproper := hmoves.passed.proper laid
    rw [← hspan] at hproper
    exact ⟨⟨.rawEnd, hmoves.at_, hmoves.at_.kind_ne_eof_of_stage (by decide), rfl⟩,
      .cons ⟨hmoves.passed, hspan, hproper⟩ (.nil _)⟩
  · exact ⟨⟨.rawText, hc, hc.kind_ne_eof_of_stage (by decide), rfl⟩, .nil c⟩

/-- The body of a raw block lies between its two tags. -/
theorem ends_rawBlock (hc : c.At ts .outside opened) (hkind : c.kind = .openRaw) :
    Ends (StatementFits source ts opened c) (Fault.Sound source ts) (rawBlock param c) := by
  have hfirst : Moves ts (.inTag true) opened c c.advance :=
    hc.moves_keeping (by rw [hkind]; rfl) (by rw [hkind]; rfl)
  rw [rawBlock_eq]
  refine (ends_callParts laid hparam hfirst.at_).bind ?_
  rintro call c₁ ⟨hmoves, hcall⟩
  refine (ends_expect_keeping laid hmoves.at_ hmoves.at_.kind_ne_eof_of_inTag .closeRaw
    rfl rfl).bind ?_
  rintro _ c₂ ⟨hclose, -, rfl, hprev₂⟩
  have hpassed₂ := (hfirst.passed.trans laid hmoves.passed).trans laid hclose.passed
  refine (ends_rawBody laid hclose.at_).bind ?_
  rintro body c₃ ⟨⟨stage, hc₃, heof, hstage⟩, hbody⟩
  have hpassed₃ := hpassed₂.kept laid (hbody.kept laid)
  have hstop₃ := (hbody.kept laid).prev_le laid hpassed₂.after
  refine (ends_expect_keeping laid hc₃ heof .endRaw hstage rfl).bind ?_
  rintro _ c' ⟨hend, -, rfl, hprev⟩
  have hpassed := hpassed₃.trans laid hend.passed
  refine .ite (fun _ => ?_) fun _ => ?_
  · have hmark : c.here.to c₃.here = c.upTo c' := by rw [Cursor.upTo, hprev]; rfl
    have hstop : c₁.prev.stop ≤ c'.prev.stop := by
      have hstop₂ := hclose.passed.prev_le laid hmoves.passed.after
      have hstop' := hend.passed.prev_le laid hpassed₃.after
      omega
    have hmarks := hbody.imp fun s _ _ h => (⟨h.1, h.2.1⟩ : Passed ts _ _ ∧ s.mark = _)
    -- The two tags have one name. The block is marked from its first token to its last.
    refine ⟨⟨hend.at_, hpassed⟩, hmark, ⟨?_, ?_, ?_, Program.orderlyIn_none _, ?_⟩,
      Statement.allEvery_iff.2 (hbody.forall_mem fun _ _ _ h => h.2.2), trivial⟩
    · show (spans source).proper (c.here.to c₃.here)
      rw [hmark]
      exact hpassed.proper laid
    · show Expr.ArrangedIn (spans source) (c.here.to c₃.here) [call.expr]
      rw [hmark]
      refine Expr.arrangedIn_iff.2 (List.forall_mem_singleton.2 (hcall.expr.mono ?_))
      exact within_upTo (hfirst.passed.start_le laid) hstop
    · -- The text lies between the closing brace of the opening tag and the closing tag.
      have hreaches : c.here.stop ≤ c₁.here.stop := by
        rw [← hprev₂]
        exact hpassed₂.reaches
      have hnext₂ : c₁.here.stop ≤ c₂.here.start := by
        rw [← hprev₂]
        exact hclose.passed.after.prev_le laid
      have hnext₃ := hpassed₃.after.prev_le laid
      have hhere := c.here.start_le_stop
      rw [hprev₂] at hstop₃
      rintro p ⟨⟩
      refine ⟨⟨⟨?_, (laid.boundary _ hclose.passed.here_mem).2,
        (laid.boundary _ hend.passed.here_mem).1⟩, hmarks.pairwise laid, fun s hs => ⟨?_, ?_⟩⟩, ?_⟩
      · exact Nat.le_trans hstop₃ hnext₃
      · exact hbody.forall_mem (R := fun s => (spans source).proper s.mark)
          (fun _ _ _ h => Statement.Arranged.proper h.2.2.self) s hs
      · exact spans_within_trans (hmarks.within laid s hs) ⟨hnext₂, hnext₃⟩
      · exact ⟨Nat.le_trans hhere hreaches, c₃.here.start_le_stop⟩
    · rintro path ⟨⟩
      exact ⟨laid.proper_span hend.passed.here_mem, hpassed₃.start_le laid, Nat.le_refl _⟩
  · -- The names differ, and the fault is at the closing tag, related to the opening one.
    have hholds := hpassed₂.holds laid
    rw [hprev₂] at hholds
    exact .plain rfl (Passed.holds_here laid hc₃ heof) (List.forall_mem_singleton.2 hholds)

end Statements

/-! ## Blocks -/

section Blocks

variable {source : List Char} {mark : Span} {expr : Expr Span} {main : Program Span}
  {section? : Option ElseSection}

/-- A section after an `else` is in order and lies in a span. -/
def SectionIn (source : List Char) (mark : Span) (s : ElseSection) : Prop :=
  s.program.Orderly (spans source) ∧ (spans source).within s.program.mark mark ∧
    s.program.Every (Statement.Arranged (spans source))

variable (hmark : (spans source).proper mark) (hexpr : Fits source mark expr)
  (hmain : main.Orderly (spans source) ∧ (spans source).within main.mark mark)
  (hsection : ∀ s, section? = some s → SectionIn source mark s)

include hmark hexpr hmain hsection

theorem arranged_linkOf (openStrip : Strip) :
    (Statement.block (linkOf main section? expr openStrip mark)).Arranged (spans source) := by
  refine ⟨hmark, Expr.arrangedIn_iff.2 (List.forall_mem_singleton.2 hexpr), ?_, ?_, nofun⟩
  · rintro p ⟨⟩
    exact hmain
  · intro p hp
    obtain ⟨s, hs, rfl⟩ := Option.map_eq_some_iff.1 hp
    exact ⟨(hsection s hs).1, (hsection s hs).2.1⟩

theorem arranged_blockOf (closeStrip : Strip) (inverted : Bool) (openStrip : Strip)
    {close : Path Span}
    (hclose : (spans source).proper close.mark ∧ (spans source).within close.mark mark) :
    (Statement.block
      (blockOf main section? closeStrip inverted expr openStrip (some close) mark)).Arranged
      (spans source) := by
  have hone : Program.OrderlyIn (spans source) mark (some main) := by
    rintro p ⟨⟩
    exact hmain
  have hother : Program.OrderlyIn (spans source) mark
      (section?.map fun s => Program.closeChain closeStrip s.program) := by
    intro p hp
    obtain ⟨s, hs, rfl⟩ := Option.map_eq_some_iff.1 hp
    refine ⟨orderly_closeChain closeStrip (hsection s hs).1, ?_⟩
    rw [mark_closeChain]
    exact (hsection s hs).2.1
  have hexprs : Expr.ArrangedIn (spans source) mark [expr] :=
    Expr.arrangedIn_iff.2 (List.forall_mem_singleton.2 hexpr)
  cases inverted with
  | false => exact ⟨hmark, hexprs, hone, hother, by rintro path ⟨⟩; exact hclose⟩
  | true => exact ⟨hmark, hexprs, hother, hone, by rintro path ⟨⟩; exact hclose⟩

end Blocks

/-! ## Levels -/

section Levels

variable {source : List Char} {ts opened : List Token} {n : Nat} {level : Level} {c c' : Cursor}
  (laid : Laid source ts)

/-- The sections chained to a block are closed with it. -/
theorem closeBlock_links {links : List Token} {t : Token} (hlinks : ∀ u ∈ links, u.kind = .openElse)
    (ht : t.kind ≠ .openElse) : closeBlock (links ++ t :: opened) = opened := by
  have hall : ∀ u ∈ links, (u.kind == .openElse) = true := fun u hu => by rw [hlinks u hu]; rfl
  rw [closeBlock, List.dropWhile_append_of_pos hall, List.dropWhile_cons_of_neg (by simpa using ht),
    List.tail_cons]

/-- A section after an `else`, if there is one, lies from one cursor to another. -/
inductive SectionFits (source : List Char) (ts : List Token) (c : Cursor) :
    Option ElseSection → Cursor → Prop where
  | absent : SectionFits source ts c none c
  | present {s : ElseSection} {c' : Cursor} :
    Passed ts c c' → SectionIn source (c.upTo c') s → SectionFits source ts c (some s) c'

theorem SectionFits.kept {section? : Option ElseSection} (h : SectionFits source ts c section? c') :
    Kept ts c c' := by
  cases h with
  | absent => exact .inl rfl
  | present hpassed => exact .inr hpassed

/-- A reader of the sections after `else` opens a construct more for each that is chained. -/
def ReadsSections (source : List Char) (ts opened : List Token)
    (otherwise : Reader (Option ElseSection)) : Prop :=
  ∀ c, c.At ts .outside opened →
    Ends (fun section? c' =>
      (∃ links, (∀ u ∈ links, u.kind = .openElse) ∧ c'.At ts .outside (links ++ opened)) ∧
      SectionFits source ts c section? c') (Fault.Sound source ts) (otherwise c)

/-- The readers of a level read where so many constructs are open that as many as its number may be
nested. -/
structure LevelEnds (source : List Char) (ts : List Token) (n : Nat) (level : Level) : Prop where
  param : ∀ opened, opened.length + n = maxNesting → ReadsParams source ts opened level.param
  statement : ∀ opened, opened.length + n = maxNesting →
    ReadsStatements source ts opened level.statement
  otherwise : ∀ opened, opened.length + n = maxNesting →
    ReadsSections source ts opened level.otherwise

theorem Cursor.At.moves_opening (hc : c.At ts .outside opened) (hopens : c.kind.opensTag = true)
    (hnests : c.kind.opensNesting = true) :
    Moves ts (.inTag false) (c.here :: opened) c c.advance := by
  have hraw : (c.kind == .openRaw) = false := by
    revert hnests
    cases c.kind <;> decide
  have hmoves := hc.moves (Stage.after_open hopens)
  rw [hraw, stillOpenWith_of_opens opened hnests] at hmoves
  exact hmoves

/-- A section from one cursor to another lies in the span of what it is part of. -/
theorem SectionFits.within {section? : Option ElseSection} {c₀ c₁ : Cursor}
    (h : SectionFits source ts c section? c₁) (hstart : c₀.here.start ≤ c.here.start)
    (hstop : Passed ts c c₁ → c₁.prev.stop ≤ c'.prev.stop) :
    ∀ s, section? = some s → SectionIn source (c₀.upTo c') s := by
  rintro s rfl
  cases h with
  | present hpassed hsection =>
    exact ⟨hsection.1, spans_within_trans hsection.2.1 (within_upTo hstart (hstop hpassed)),
      hsection.2.2⟩

theorem every_of_section {section? : Option ElseSection}
    (h : ∀ s, section? = some s → SectionIn source (c.upTo c') s) :
    ∀ s, section? = some s → s.program.Every (Statement.Arranged (spans source)) :=
  fun s hs => (h s hs).2.2

include laid

/-- A block lies from its opening delimiter to the end of its closing tag. -/
theorem ends_blockAfter (h : LevelEnds source ts n level) (hc : c.At ts .outside opened)
    (hkind : c.kind = .openBlock ∨ c.kind = .openInverted)
    (hlength : opened.length + (n + 1) = maxNesting) :
    Ends (StatementFits source ts opened c) (Fault.Sound source ts)
      (blockAfter level c.here c.advance) := by
  have hfirst : Moves ts (.inTag false) (c.here :: opened) c c.advance := by
    rcases hkind with hkind | hkind
    · exact hc.moves_opening (by rw [hkind]; rfl) (by rw [hkind]; rfl)
    · exact hc.moves_opening (by rw [hkind]; rfl) (by rw [hkind]; rfl)
  have hinner : (c.here :: opened).length + n = maxNesting := by
    rw [List.length_cons]
    omega
  have hblock : c.here.kind ≠ .openElse := by
    intro helse
    rcases hkind with hkind | hkind <;> cases helse.symm.trans hkind
  rw [blockAfter_eq]
  refine (ends_openTag laid (h.param _ hinner) hfirst.at_ c.here).bind ?_
  rintro tag c₁ ⟨hmoves₁, -, hexpr, hspan⟩
  have hpassed₁ := hfirst.passed.trans laid hmoves₁.passed
  refine (ends_program laid (h.statement _ hinner) _ hmoves₁.at_).bind ?_
  rintro main c₂ ⟨hc₂, hmain⟩
  have hpassed₂ := hpassed₁.kept laid hmain.kept
  refine (h.otherwise _ hinner c₂ hc₂).bind ?_
  rintro section? c₃ ⟨⟨links, hlinks, hc₃⟩, hsection⟩
  have hpassed₃ := hpassed₂.kept laid hsection.kept
  have hopening : (⟨0, source⟩ : Rest).Holds tag.span := by
    rw [hspan]
    exact hpassed₁.holds laid
  refine (ends_closingTag laid hc₃ _ hopening).map ?_
  rintro ⟨close, strip, _⟩ c' ⟨hmoves, rfl, hproper, hclose⟩
  dsimp only at hproper hclose ⊢
  have hpassed := hpassed₃.trans laid hmoves.passed
  have hstop := hmoves.passed.prev_le laid hpassed₃.after
  have hat := hmoves.at_
  rw [closeBlock_links hlinks hblock] at hat
  -- The main section ends before the token that ended it, which is passed too.
  have hmainIn : (spans source).within main.mark (c.upTo c') :=
    hmain.within (hpassed₁.start_le laid) (hsection.kept.passed laid hmoves.passed)
  have hsectionIn := hsection.within (hpassed₂.start_le laid) fun _ => hstop
  have hexprIn : Fits source (c.upTo c') tag.call.expr := by
    refine hexpr.mono (within_upTo (hfirst.passed.start_le laid) ?_)
    have hstop₂ := hmain.kept.prev_le laid hpassed₁.after
    have hstop₃ := hsection.kept.prev_le laid hpassed₂.after
    omega
  have hcloseIn :=
    spans_within_trans hclose (within_upTo (hpassed₃.start_le laid) (Nat.le_refl c'.prev.stop))
  exact ⟨⟨hat, hpassed⟩, rfl,
    arranged_blockOf (hpassed.proper laid) hexprIn ⟨hmain.orderly, hmainIn⟩ hsectionIn strip _ _
      ⟨hproper, hcloseIn⟩,
    every_blockOf keptByClosing_arranged hmain.every (every_of_section hsectionIn) strip _ _ _ _ _⟩

/-- A partial block has no section after an `else`. -/
theorem ends_partialBlockAfter (h : LevelEnds source ts n level) (hc : c.At ts .outside opened)
    (hkind : c.kind = .openPartialBlock) (hlength : opened.length + (n + 1) = maxNesting) :
    Ends (StatementFits source ts opened c) (Fault.Sound source ts)
      (partialBlockAfter level c.here c.advance) := by
  have hfirst := hc.moves_opening (by rw [hkind]; rfl) (by rw [hkind]; rfl)
  have hinner : (c.here :: opened).length + n = maxNesting := by
    rw [List.length_cons]
    omega
  have hblock : c.here.kind ≠ .openElse := fun helse => by cases helse.symm.trans hkind
  rw [partialBlockAfter_eq]
  -- The parts of the opening tag, its end, the body and the closing tag are read one after the
  -- other.
  refine (ends_partialParts laid (h.param _ hinner) hfirst.at_).bind ?_
  rintro parts c₁ ⟨hmoves₁, hparts⟩
  have hpassed₁ := hfirst.passed.trans laid hmoves₁.passed
  refine (ends_expect_keeping laid hmoves₁.at_ hmoves₁.at_.kind_ne_eof_of_inTag .close rfl rfl).bind
    ?_
  rintro _ c₂ ⟨hclosed, -, rfl, hprev⟩
  have hpassed₂ := hpassed₁.trans laid hclosed.passed
  refine (ends_program laid (h.statement _ hinner) [] hclosed.at_).bind ?_
  rintro body c₃ ⟨hc₃, hbody⟩
  have hpassed₃ := hpassed₂.kept laid hbody.kept
  refine .ite (fun helse => ?_) fun _ => ?_
  · have hmore : c₃.kind ≠ .eof := by
      rcases helse with helse | helse <;> rw [helse] <;> decide
    exact .plain rfl (Passed.holds_here laid hc₃ hmore) nofun
  have hopening : (⟨0, source⟩ : Rest).Holds (c.here.to c₁.here) := by
    rw [← hprev]
    exact hpassed₂.holds laid
  refine (ends_closingTag laid hc₃ _ hopening).map ?_
  rintro ⟨close, strip, _⟩ c' ⟨hmoves, rfl, -⟩
  have hpassed := hpassed₃.trans laid hmoves.passed
  have hat := hmoves.at_
  -- The closing tag closes this block, since no chained section is open above it.
  rw [show c.here :: opened = [] ++ c.here :: opened from rfl,
    closeBlock_links (List.forall_mem_nil _) hblock] at hat
  have hpartsIn : parts.Fits source (c.upTo c') := by
    have hstop₂ := hclosed.passed.prev_le laid hpassed₁.after
    have hstop₃ := hbody.kept.prev_le laid hpassed₂.after
    have hstop := hmoves.passed.prev_le laid hpassed₃.after
    exact hparts.mono (within_upTo (hfirst.passed.start_le laid) (by omega))
  have hbodyIn : (spans source).within body.mark (c.upTo c') :=
    hbody.within (hpassed₂.start_le laid) hmoves.passed
  exact ⟨⟨hat, hpassed⟩, rfl,
    ⟨hpassed.proper laid, hpartsIn.arranged.1, hpartsIn.arranged.2, hbody.orderly, hbodyIn⟩,
    hbody.every⟩

/-- A chained section ends with the token passed last, and so does the block it holds. -/
theorem ends_chainAfter (h : LevelEnds source ts n level) (hc : c.At ts .outside opened)
    (hkind : c.kind = .openElse) (hlength : opened.length + (n + 1) = maxNesting) :
    Ends (fun s c' =>
      (∃ links, (∀ u ∈ links, u.kind = .openElse) ∧ c'.At ts .outside (links ++ opened)) ∧
      Passed ts c c' ∧ SectionIn source (c.upTo c') s) (Fault.Sound source ts)
      (chainAfter level c.here c.advance) := by
  have hfirst := hc.moves_opening (by rw [hkind]; rfl) (by rw [hkind]; rfl)
  have hinner : (c.here :: opened).length + n = maxNesting := by
    rw [List.length_cons]
    omega
  rw [chainAfter_eq]
  refine (ends_openTag laid (h.param _ hinner) hfirst.at_ c.here).bind ?_
  rintro tag c₁ ⟨hmoves₁, hprev, hexpr, -⟩
  have hpassed₁ := hfirst.passed.trans laid hmoves₁.passed
  refine (ends_program laid (h.statement _ hinner) _ hmoves₁.at_).bind ?_
  rintro main c₂ ⟨hc₂, hmain⟩
  have hpassed₂ := hpassed₁.kept laid hmain.kept
  refine (h.otherwise _ hinner c₂ hc₂).bind ?_
  rintro section? c' ⟨⟨links, hlinks, hc'⟩, hsection⟩
  have hpassed := hpassed₂.kept laid hsection.kept
  have hproper := hpassed.proper laid
  have hstop := hsection.kept.prev_le laid hpassed₂.after
  -- The sections end before the token passed last, so they lie in what was read.
  have hmainIn : (spans source).within main.mark (c.upTo c') := by
    refine ⟨?_, Nat.le_trans (hmain.tight hpassed₁.after (by rw [hprev]; decide)) hstop⟩
    rw [hmain.start]
    exact hpassed₁.start_le laid
  have hsectionIn : ∀ s, section? = some s → SectionIn source (c.upTo c') s :=
    hsection.within (hpassed₂.start_le laid) fun _ => Nat.le_refl c'.prev.stop
  have hexprIn : Fits source (c.upTo c') tag.call.expr := by
    have hstop₂ := hmain.kept.prev_le laid hpassed₁.after
    exact hexpr.mono (within_upTo (hfirst.passed.start_le laid) (by omega))
  have harranged := arranged_linkOf hproper hexprIn ⟨hmain.orderly, hmainIn⟩ hsectionIn tag.strip
  -- The section stays open until the closing tag of the chain, with those that it holds.
  refine ⟨⟨links ++ [c.here], ?_, ?_⟩, hpassed, ?_, ?_, ?_⟩
  · exact List.forall_mem_append.2 ⟨hlinks, List.forall_mem_singleton.2 hkind⟩
  · rw [List.append_assoc]
    exact hc'
  · exact ⟨hproper, List.pairwise_singleton _ _,
      List.forall_mem_singleton.2 ⟨hproper, Nat.le_refl _, Nat.le_refl _⟩⟩
  · exact ⟨Nat.le_refl _, Nat.le_refl _⟩
  · exact ⟨⟨harranged, every_linkOf hmain.every (every_of_section hsectionIn) _ _ _⟩, trivial⟩

/-- Where as many constructs are open as may be, none is opened. -/
theorem sound_tooDeep {stage : Stage} (hc : c.At ts stage opened)
    (hnests : c.kind.opensNesting = true) (hlength : opened.length + 0 = maxNesting) :
    (tooDeep c.here).Sound source ts := by
  have hkind : c.kind ≠ .eof := by
    intro heof
    rw [heof] at hnests
    cases hnests
  obtain ⟨before, hbefore, hopened⟩ := hc.before
  rw [hc.tokens_eq hkind] at hbefore
  refine ⟨nofun, Passed.holds_here laid hc hkind, nofun, ?_⟩
  rintro _ ⟨⟩
  refine ⟨rfl, before, c.here, c.advance.tokens, hbefore, hnests, rfl, ?_⟩
  rw [hopened]
  exact hlength

omit laid in
/-- What is below a level of some number. -/
inductive Below (source : List Char) (ts : List Token) : Nat → Option Level → Prop where
  | lowest : Below source ts 0 none
  | above {n : Nat} {level : Level} :
    LevelEnds source ts n level → Below source ts (n + 1) (some level)

variable {below : Option Level} (hbelow : Below source ts n below)
  (hlength : opened.length + n = maxNesting)

include hbelow hlength

theorem ends_paramOver : ReadsParams source ts opened (paramOver below) := by
  intro raw c hc
  unfold paramOver
  refine .ite (fun hkind => ?_) fun _ => ends_simpleExpr laid hc
  cases hbelow with
  | lowest => exact sound_tooDeep laid hc (by rw [hkind]; rfl) hlength
  | above h =>
    refine ends_parenthesised laid hc hkind (h.param _ ?_)
    rw [List.length_cons]
    omega

theorem ends_statementOver : ReadsStatements source ts opened (statementOver below) := by
  have hparam := ends_paramOver laid hbelow hlength
  intro c hc hmore
  rw [atProgramEnd_eq] at hmore
  unfold statementOver
  dsimp only
  split
  · obtain ⟨hmoves, hspan, hproper⟩ := moves_alone laid hc (.inl ‹_›)
    exact ⟨hmoves, hspan, hproper⟩
  · obtain ⟨hmoves, hspan, hproper⟩ := moves_alone laid hc (.inr ‹_›)
    exact ⟨hmoves, hspan, hproper⟩
  · exact ends_mustache laid hparam hc (.inl ‹_›)
  · exact ends_mustache laid hparam hc (.inr ‹_›)
  · cases hbelow with
    | lowest => exact sound_tooDeep laid hc (by rw [‹c.kind = _›]; rfl) hlength
    | above h => exact ends_blockAfter laid h hc (.inl ‹_›) hlength
  · cases hbelow with
    | lowest => exact sound_tooDeep laid hc (by rw [‹c.kind = _›]; rfl) hlength
    | above h => exact ends_blockAfter laid h hc (.inr ‹_›) hlength
  · exact ends_rawBlock laid hparam hc ‹_›
  · exact ends_partialCall laid hparam hc ‹_›
  · cases hbelow with
    | lowest => exact sound_tooDeep laid hc (by rw [‹c.kind = _›]; rfl) hlength
    | above h => exact ends_partialBlockAfter laid h hc ‹_› hlength
  · refine sound_unexpected laid hc ?_ none
    intro heof
    rw [heof] at hmore
    cases hmore

theorem ends_otherwiseOver :
    ReadsSections source ts opened (otherwiseOver below (statementOver below)) := by
  have hstatement := ends_statementOver laid hbelow hlength
  intro c hc
  rw [otherwiseOver_eq]
  split
  · -- The tag of a lone `else` is one token.
    have hkind : c.kind = .loneElse := ‹_›
    have hfirst : Moves ts .outside opened c c.advance :=
      hc.moves_keeping (by rw [hkind]; rfl) (by rw [hkind]; rfl)
    have hprev : c.advance.prev.kind ≠ .content := by
      rw [hc.advance_prev hfirst.passed.kind, show c.here.kind = _ from hkind]
      decide
    refine (ends_program laid hstatement [] hfirst.at_).map ?_
    rintro body c' ⟨hc', hbody⟩
    refine ⟨⟨[], nofun, hc'⟩, .present (hfirst.passed.kept laid hbody.kept)
      ⟨hbody.orderly, ⟨?_, ?_⟩, hbody.every⟩⟩
    · show c.here.start ≤ body.mark.start
      rw [hbody.start]
      exact hfirst.passed.start_le laid
    · exact hbody.tight hfirst.passed.after hprev
  · cases hbelow with
    | lowest => exact sound_tooDeep laid hc (by rw [‹c.kind = _›]; rfl) hlength
    | above h =>
      refine (ends_chainAfter laid h hc ‹_› hlength).map ?_
      rintro s c' ⟨hlinks, hpassed, hsection⟩
      exact ⟨hlinks, .present hpassed hsection⟩
  · exact ⟨⟨[], nofun, hc⟩, .absent⟩

omit hlength in
theorem levelEnds_over : LevelEnds source ts n (Level.over below) where
  param _ hlength := ends_paramOver laid hbelow hlength
  statement _ hlength := ends_statementOver laid hbelow hlength
  otherwise _ hlength := ends_otherwiseOver laid hbelow hlength

omit hbelow hlength in
theorem levelEnds_ofNat (n : Nat) : LevelEnds source ts n (Level.ofNat n) := by
  induction n with
  | zero => exact levelEnds_over laid .lowest
  | succ n ih => exact levelEnds_over laid (.above ih)

end Levels

/-! ## Templates -/

section Templates

variable {source : List Char} {ts : List Token} {root : Program Span} {f : Fault}
  (laid : Laid source ts)

include laid

theorem at_ofTokens : (Cursor.ofTokens ts).At ts .outside [] := by
  cases ts with
  | nil => cases laid.last
  | cons t ts => exact ⟨⟨[], rfl, rfl⟩, laid.leads⟩

/-- The end of the template is its last token. -/
theorem stop_of_eof {stage : Stage} {opened : List Token} {c : Cursor} (hc : c.At ts stage opened)
    (hkind : c.kind = .eof) : c.here.stop = size source := by
  obtain ⟨before, hbefore, -⟩ := hc.before
  have hrest : c.rest = [] := by
    rcases hc.leads with ⟨-, -, hnone⟩ | ⟨next, hafter, -⟩
    · exact List.map_eq_nil_iff.1 hnone
    · exact absurd hkind (Cursor.At.kind_ne_eof hafter)
  have hlast := laid.last
  rw [hbefore, Cursor.tokens, hrest, List.getLast?_concat] at hlast
  rw [Option.some.inj hlast]
  rfl

/-- After the statements of a template comes its end, or a tag that no block has. -/
theorem ends_rootOf {root : Program Span} {c₀ c : Cursor} (hroot : ProgramFits source ts c₀ root c)
    (hc : c.At ts .outside []) :
    Ends (fun root _ => root.Arranged (spans source) ∧ root.mark = ⟨0, size source⟩)
      (Fault.Sound source ts)
      (rootOf root c) := by
  unfold rootOf
  split
  · rw [stop_of_eof laid hc ‹_›]
    have hevery : ∀ s ∈ root.body, s.Every (Statement.Arranged (spans source)) :=
      Program.every_iff.1 hroot.every
    refine ⟨⟨⟨?_, hroot.orderly.pairwise, fun s hs => ?_⟩, Program.every_iff.2 hevery⟩, rfl⟩
    · exact ⟨Nat.zero_le _, .zero source, .size source⟩
    · obtain ⟨hproper, -, hstop⟩ := hroot.orderly.within s hs
      obtain ⟨-, -, hboundary⟩ := hproper
      exact ⟨(hroot.orderly.within s hs).1, Nat.zero_le _, hboundary.le_size⟩
  · have hkind : c.kind = .openEnd := ‹_›
    have hfirst := hc.moves (by rw [hkind]; rfl)
    refine (ends_simpleExpr laid hfirst.at_).bind fun name _ _ => ?_
    exact .plain rfl (Passed.holds_here laid hc hfirst.passed.kind) nofun
  · exact .plain rfl (Passed.holds_here laid hc (by rw [‹c.kind = _›]; decide)) nofun
  · exact .plain rfl (Passed.holds_here laid hc (by rw [‹c.kind = _›]; decide)) nofun
  · exact sound_unexpected laid hc ‹_› none

theorem ends_template :
    Ends (fun root _ => root.Arranged (spans source) ∧ root.mark = ⟨0, size source⟩)
      (Fault.Sound source ts)
      ((program (Level.ofNat maxNesting).statement []).bind rootOf (Cursor.ofTokens ts)) := by
  have hlevel : LevelEnds source ts maxNesting (Level.ofNat maxNesting) :=
    levelEnds_ofNat laid maxNesting
  refine (ends_program laid (hlevel.statement [] rfl) [] (at_ofTokens laid)).bind ?_
  rintro root c ⟨hc, hroot⟩
  exact ends_rootOf laid hroot hc

/-- A tree lies in order, and its root covers the source. -/
theorem arranged_of_template? (h : template? ts = .ok root) :
    root.Arranged (spans source) ∧ root.mark = ⟨0, size source⟩ := by
  rw [template?_eq] at h
  obtain ⟨c, hroot⟩ := (ends_template laid).of_map_ok h
  exact hroot

/-- A fault of the grammar concerns a piece of the source, and is never that the source ended. -/
theorem sound_of_template? (h : template? ts = .error f) : f.Sound source ts := by
  rw [template?_eq] at h
  exact (ends_template laid).of_map_error h

end Templates

end Stencil.Syntax
