import Stencil.Proofs.Syntax.Passing
import Stencil.Proofs.Tree.Arrangement

/-!
# Where trees and faults lie

Everything that is read from the tokens of a source is marked with a span of it: from the start of
the first token that was passed for it to the end of the last. So the nodes of a tree lie within
each other, and the statements of a program one after the other (`arranged_of_template?`). A fault
of the grammar concerns a piece of the source that starts before its end, and is never that the
source ended where more was expected (`sound_of_template?`).

The readers are taken one by one, each from what those it is made of are known to do. What they do
to the stage and to the constructs that are open is part of it, and where nesting is refused those
are as many as may be.
-/

set_option autoImplicit false

namespace Stencil.Syntax

open Stencil.Text
open Stencil.Tree

/-! ## Spans and faults -/

/-- How spans of a source lie. -/
def spans (source : List Char) : Arrangement Span where
  proper s := s.start ≤ s.stop ∧ Boundary source s.start ∧ Boundary source s.stop
  within inner outer := outer.start ≤ inner.start ∧ inner.stop ≤ outer.stop
  before first second := first.stop ≤ second.start

theorem spans_within_trans {source : List Char} {s s' s'' : Span} (h : (spans source).within s s')
    (h' : (spans source).within s' s'') : (spans source).within s s'' :=
  ⟨Nat.le_trans h'.1 h.1, Nat.le_trans h.2 h'.2⟩

/-- The bytes from the token here to the one that another cursor passed last. -/
def Cursor.upTo (c c' : Cursor) : Span := ⟨c.here.start, c'.prev.stop⟩

/-- Nesting is refused for the token that would open one construct more than may be open. -/
def TooDeep (ts : List Token) (f : Fault) : Prop :=
  ∃ before t after, ts = before ++ t :: after ∧ t.kind.opensNesting = true ∧ f.span = t.span ∧
    (stillOpen before).length = maxNesting

/-- What is known of a fault that the grammar raises. -/
structure Fault.Sound (source : List Char) (ts : List Token) (f : Fault) : Prop where
  notEnd : ∀ expected, f.cause ≠ .unexpectedEnd expected
  span : (⟨0, source⟩ : Rest).Holds f.span
  related : ∀ r ∈ f.related, (⟨0, source⟩ : Rest).Holds r.1
  deep : ∀ limit, f.cause = .nestingTooDeep limit → limit = maxNesting ∧ TooDeep ts f

/-- Whether a cause has to do neither with the end of the source nor with nesting. -/
def Cause.isPlain : Cause → Bool
  | .unexpectedEnd _ | .nestingTooDeep _ => false
  | _ => true

section

variable {source : List Char} {ts opened : List Token} {stage next : Stage} {c c₁ c' : Cursor}

theorem Fault.Sound.plain {f : Fault} (hcause : f.cause.isPlain = true)
    (span : (⟨0, source⟩ : Rest).Holds f.span)
    (related : ∀ r ∈ f.related, (⟨0, source⟩ : Rest).Holds r.1) : f.Sound source ts where
  notEnd expected h := by
    rw [h] at hcause
    cases hcause
  span := span
  related := related
  deep limit h := by
    rw [h] at hcause
    cases hcause

/-- A token in the wrong place is quoted, not the end of the source. -/
theorem sound_unexpected (laid : Laid source ts) (hc : c.At ts stage opened) (hkind : c.kind ≠ .eof)
    (expected : Option String) : (c.unexpected expected).Sound source ts := by
  unfold Cursor.unexpected
  dsimp only
  rw [if_neg hkind]
  split
  · exact .plain rfl (Passed.holds_here laid hc hkind) (by simp)
  · exact .plain rfl (Passed.holds_here laid hc hkind) (by simp)

/-! ## Passing tokens -/

/-- From one cursor to another, with so many constructs open, over one token at least. -/
structure Moves (ts : List Token) (stage : Stage) (opened : List Token) (c c' : Cursor) : Prop where
  at_ : c'.At ts stage opened
  passed : Passed ts c c'

/-- To pass tokens leads on in the source. -/
theorem Passed.start_le (laid : Laid source ts) (h : Passed ts c c') :
    c.here.start ≤ c'.here.start := by
  have hhere := c.here.start_le_stop
  have hreaches := h.reaches
  have hnext := h.after.prev_le laid
  omega

/-- The token after what was passed ends after that starts. -/
theorem Passed.le_stop (laid : Laid source ts) (h : Passed ts c c') : c.here.start ≤ c'.here.stop :=
  Nat.le_trans (h.start_le laid) c'.here.start_le_stop

/-- So does the end of the last token that was passed. -/
theorem Passed.prev_le (laid : Laid source ts) (hc : c.After ts) (h : Passed ts c c') :
    c.prev.stop ≤ c'.prev.stop := by
  have hprev := hc.prev_le laid
  have hhere := c.here.start_le_stop
  have hreaches := h.reaches
  omega

/-- From one cursor to the same or to a later one. -/
def Kept (ts : List Token) (c c' : Cursor) : Prop := c' = c ∨ Passed ts c c'

/-- Where nothing was passed that end stays. -/
theorem Kept.prev_le (laid : Laid source ts) (hc : c.After ts) (h : Kept ts c c') :
    c.prev.stop ≤ c'.prev.stop := by
  rcases h with rfl | hmore
  · exact Nat.le_refl _
  · exact hmore.prev_le laid hc

/-- What may have passed something, followed by what did, did. -/
theorem Kept.passed (laid : Laid source ts) (h : Kept ts c c₁) (hmore : Passed ts c₁ c') :
    Passed ts c c' := by
  rcases h with rfl | hkept
  · exact hmore
  · exact hkept.trans laid hmore

theorem Passed.kept (laid : Laid source ts) (h : Passed ts c c₁) (hkept : Kept ts c₁ c') :
    Passed ts c c' := by
  rcases hkept with rfl | hmore
  · exact h
  · exact h.trans laid hmore

/-- From the first token that was passed to the last one there is a span in the source. -/
theorem Passed.proper (laid : Laid source ts) (h : Passed ts c c') :
    (spans source).proper (c.upTo c') := by
  have hhere := c.here.start_le_stop
  have hreaches := h.reaches
  exact ⟨show c.here.start ≤ c'.prev.stop by omega, (laid.boundary _ h.here_mem).1,
    (laid.boundary _ h.after.prev_mem).2⟩

/-- Passing one token. -/
theorem Cursor.At.moves (hc : c.At ts stage opened) (hnext : stage.after c.kind = some next) :
    Moves ts next (stillOpenWith opened c.here) c c.advance :=
  ⟨hc.advance hnext, Passed.one hc (Cursor.At.kind_ne_eof hnext)⟩

/-- A token that neither opens nor closes a construct is passed to the next stage. -/
theorem Cursor.At.moves_keeping (hc : c.At ts stage opened) (hnext : stage.after c.kind = some next)
    (hkeeps : c.kind.keepsNesting = true) : Moves ts next opened c c.advance := by
  have hmoves := hc.moves hnext
  rwa [stillOpenWith_of_keeps opened hkeeps] at hmoves

theorem Cursor.At.advance_prev (hc : c.At ts stage opened) (hkind : c.kind ≠ .eof) :
    c.advance.prev = c.here :=
  Cursor.advance_prev (hc.tokens_eq hkind)

/-- A token of the expected kind is passed, or another one is quoted. -/
theorem ends_expect (laid : Laid source ts) (hc : c.At ts stage opened) (hkind : c.kind ≠ .eof)
    (kind : TokenKind) (hnext : stage.after kind = some next) :
    Ends (fun t c' => Moves ts next (stillOpenWith opened c.here) c c' ∧ c.kind = kind ∧
      t = c.here ∧
      c'.prev = c.here) (Fault.Sound source ts) (Cursor.expect kind c) := by
  unfold Cursor.expect
  refine .ite (fun hhere => ?_) fun _ => ?_
  · exact ⟨hc.moves (by rw [hhere]; exact hnext), hhere, rfl, hc.advance_prev hkind⟩
  · exact sound_unexpected laid hc hkind _

/-- A token that is asked for by its kind is passed, or there is a fault at the one here. -/
theorem ends_expect_keeping (laid : Laid source ts) (hc : c.At ts stage opened)
    (hkind : c.kind ≠ .eof) (kind : TokenKind) (hnext : stage.after kind = some next)
    (hkeeps : kind.keepsNesting = true) :
    Ends (fun t c' => Moves ts next opened c c' ∧ c.kind = kind ∧ t = c.here ∧ c'.prev = c.here)
      (Fault.Sound source ts) (Cursor.expect kind c) := by
  refine (ends_expect laid hc hkind kind hnext).imp ?_ fun _ hf => hf
  rintro t c' - ⟨hmoves, hthis, ht⟩
  rw [stillOpenWith_of_keeps opened (by rw [show c.here.kind = kind from hthis]; exact hkeeps)]
    at hmoves
  exact ⟨hmoves, hthis, ht⟩

/-- What was read one after the other led from one cursor to the same or to a later one. -/
theorem Each.kept {α : Type} {P : α → Cursor → Cursor → Prop} {as : List α} (laid : Laid source ts)
    (h : Each (fun a c c' => Passed ts c c' ∧ P a c c') c as c') : Kept ts c c' := by
  rcases h.passed laid with ⟨-, hsame⟩ | ⟨-, hmore⟩
  · exact .inl hsame
  · exact .inr hmore

/-- What was read between two places lies in what was read around them. -/
theorem within_upTo {c₂ : Cursor} (hstart : c.here.start ≤ c₁.here.start)
    (hstop : c₂.prev.stop ≤ c'.prev.stop) :
    (spans source).within (c₁.upTo c₂) (c.upTo c') := ⟨hstart, hstop⟩

/-- What is read one after the other lies in the span of it all. -/
theorem Each.inSpan {α : Type} {P : α → Span → Prop} {as : List α} (laid : Laid source ts)
    (mono : ∀ a s s', (spans source).within s s' → P a s → P a s')
    (h : Each (fun a c c' => Passed ts c c' ∧ P a (c.upTo c')) c as c') :
    ∀ a ∈ as, P a (c.upTo c') := by
  induction h with
  | nil c => exact fun a ha => absurd ha List.not_mem_nil
  | @cons c c₁ c' a as hfirst hrest ih =>
    obtain ⟨hpassed, ha⟩ := hfirst
    have hstop : c₁.prev.stop ≤ c'.prev.stop := (hrest.kept laid).prev_le laid hpassed.after
    have hfirst := mono a _ _ (within_upTo (Nat.le_refl c.here.start) hstop) ha
    refine List.forall_mem_cons.2 ⟨hfirst, fun b hb => ?_⟩
    exact mono b _ _ (within_upTo (hpassed.start_le laid) (Nat.le_refl c'.prev.stop)) (ih b hb)

section Marks

variable {α : Type} {mark : α → Span} {as : List α} (laid : Laid source ts)

include laid

/-- Each of the items in a row lies in what was read in all. -/
theorem Each.within (h : Each (fun a c c' => Passed ts c c' ∧ mark a = c.upTo c') c as c') :
    ∀ a ∈ as, (spans source).within (mark a) (c.upTo c') := by
  refine Each.inSpan (P := fun b s => (spans source).within (mark b) s) laid
    (fun _ _ _ hwithin ha => spans_within_trans ha hwithin) (h.imp ?_)
  rintro a c c' ⟨hpassed, ha⟩
  rw [ha]
  exact ⟨hpassed, Nat.le_refl _, Nat.le_refl _⟩

/-- What is read one after the other lies so. -/
theorem Each.pairwise (h : Each (fun a c c' => Passed ts c c' ∧ mark a = c.upTo c') c as c') :
    as.Pairwise fun a b => (spans source).before (mark a) (mark b) := by
  induction h with
  | nil c => exact List.Pairwise.nil
  | @cons c c₁ c' a as hfirst hrest ih =>
    obtain ⟨hpassed, ha⟩ := hfirst
    refine List.pairwise_cons.2 ⟨fun b hb => ?_, ih⟩
    have hnext := hpassed.after.prev_le laid
    have hstart : c₁.here.start ≤ (mark b).start := (hrest.within laid b hb).1
    show (mark a).stop ≤ (mark b).start
    rw [ha]
    exact Nat.le_trans hnext hstart

end Marks

/-- A token is marked properly. -/
theorem Laid.proper_span (laid : Laid source ts) {t : Token} (ht : t ∈ ts) :
    (spans source).proper t.span :=
  ⟨t.start_le_stop, laid.boundary t ht⟩

end

/-! ## Expressions -/

/-- An expression lies in a span with all its parts. -/
def Fits (source : List Char) (s : Span) (e : Expr Span) : Prop :=
  e.Arranged (spans source) ∧ (spans source).within e.mark s

/-- An expression that fits into a span fits into one around it. -/
theorem Fits.mono {source : List Char} {s s' : Span} {e : Expr Span} (h : Fits source s e)
    (hwithin : (spans source).within s s') : Fits source s' e :=
  ⟨h.1, spans_within_trans h.2 hwithin⟩

/-- A named argument lies in a span, and its value in its own. -/
def PairFits (source : List Char) (s : Span) (p : Pair Span) : Prop :=
  (spans source).proper p.mark ∧ (spans source).within p.mark s ∧ p.value.Arranged (spans source) ∧
    (spans source).within p.value.mark p.mark

theorem arrangedIn_mono {source : List Char} {s s' : Span} {h : Option (Hash Span)}
    (hh : Hash.ArrangedIn (spans source) s h) (hwithin : (spans source).within s s') :
    Hash.ArrangedIn (spans source) s' h := by
  cases h with
  | none => trivial
  | some h =>
    obtain ⟨pairs, mark⟩ := h
    exact ⟨⟨hh.1.1, spans_within_trans hh.1.2 hwithin⟩, hh.2⟩

/-- The parts of a call lie in its span. -/
structure CallParts.Fits (source : List Char) (s : Span) (parts : CallParts) : Prop where
  span : parts.span = s
  proper : (spans source).proper s
  head : Syntax.Fits source s parts.head
  params : ∀ e ∈ parts.params, Syntax.Fits source s e
  hash : Hash.ArrangedIn (spans source) s parts.hash

/-- The head of an expression is marked by its path, or by the literal that it is. -/
theorem Fits.headPath {source : List Char} {s : Span} {e : Expr Span} (h : Fits source s e) :
    (spans source).proper e.headPath.mark ∧ (spans source).within e.headPath.mark s := by
  cases e with
  | call call =>
    obtain ⟨path, params, hash, parenthesised, mark⟩ := call
    exact ⟨h.1.2.1.1, spans_within_trans h.1.2.1.2 h.2⟩
  | _ => exact h

namespace CallParts.Fits

variable {source : List Char} {s mark : Span} {parts : CallParts} (h : parts.Fits source s)

include h

/-- A call of the parts, marked around them. -/
theorem call (parenthesised : Option Bool) (hmark : (spans source).proper mark)
    (hwithin : (spans source).within s mark) :
    Syntax.Fits source mark
      (.call ⟨parts.head.headPath, parts.params, parts.hash, parenthesised, mark⟩) := by
  obtain ⟨hproper, hhead⟩ := h.head.headPath
  refine ⟨⟨hmark, ⟨hproper, spans_within_trans hhead hwithin⟩, ?_, arrangedIn_mono h.hash hwithin⟩,
    ?_⟩
  · exact Expr.arrangedIn_iff.2 fun e he => (h.params e he).mono hwithin
  · exact ⟨Nat.le_refl _, Nat.le_refl _⟩

/-- Parts without arguments are their head, and fit as it does. -/
theorem expr : Syntax.Fits source s parts.expr := by
  unfold CallParts.expr
  split
  · exact h.head
  · rw [h.span]
    exact h.call none h.proper ⟨Nat.le_refl _, Nat.le_refl _⟩

end CallParts.Fits

section Expressions

variable {source : List Char} {ts opened : List Token} {raw : Bool} {c c' : Cursor}
  (laid : Laid source ts)

/-- A word of a tag is passed, and the tag goes on. -/
theorem Cursor.At.moves_word (hc : c.At ts (.inTag raw) opened) (hword : c.kind.isWord = true)
    (hkeeps : c.kind.keepsNesting = true) : Moves ts (.inTag raw) opened c c.advance :=
  hc.moves_keeping (Stage.after_word hword) hkeeps

include laid

/-- The segments of a path and the separators between them are words. -/
theorem ends_moreSegments {c₀ : Cursor} (fuel : Nat) :
    ∀ {last : Token} {spelled : List Char} {c : Cursor},
    c.At ts (.inTag raw) opened → Passed ts c₀ c → c.prev = last →
      Ends (fun more c' => c'.At ts (.inTag raw) opened ∧ Passed ts c₀ c' ∧ c'.prev = more.2)
        (Fault.Sound source ts) (moreSegments c₀.here.start fuel last spelled c) := by
  induction fuel with
  | zero =>
    intro last spelled c hc hpassed hprev
    exact ⟨hc, hpassed, hprev⟩
  | succ fuel ih =>
    intro last spelled c hc hpassed hprev
    have hkind := hc.kind_ne_eof_of_inTag
    -- The fault runs from the first segment to the token here, if that is a word.
    have invalid : c.kind.isWord = true → c.kind.keepsNesting = true → ∀ spelled,
        (invalidPath spelled c₀.here.start c.here.stop).Sound source ts := by
      intro hword hkeeps spelled
      have hholds := (hpassed.trans laid (hc.moves_word hword hkeeps).passed).holds laid
      rw [hc.advance_prev hkind] at hholds
      exact .plain rfl hholds nofun
    rw [moreSegments_succ]
    refine .ite (fun _ => ⟨hc, hpassed, hprev⟩) fun _ => .ite (fun hseparator => ?_) fun _ => ?_
    · refine .ite (fun _ => invalid (by rw [hseparator]; rfl) (by rw [hseparator]; rfl) _)
        fun hsegment => ?_
      have hname : c.advance.kind = .name := Decidable.not_not.1 (not_or.1 hsegment).1
      have hfirst := hc.moves_word (by rw [hseparator]; rfl) (by rw [hseparator]; rfl)
      have hnext := hfirst.at_.moves_word (by rw [hname]; rfl) (by rw [hname]; rfl)
      refine (ih hnext.at_ ((hpassed.trans laid hfirst.passed).trans laid hnext.passed)
        (hfirst.at_.advance_prev hfirst.at_.kind_ne_eof_of_inTag)).map ?_
      exact fun more c' hmore => hmore
    · exact .ite (fun hname => invalid (by rw [hname]; rfl) (by rw [hname]; rfl) _) fun _ =>
        ⟨hc, hpassed, hprev⟩

/-- A path is marked from its first token to its last one, and a fault in it is at one of its
tokens. -/
theorem ends_path (hc : c.At ts (.inTag raw) opened) (data : Bool) :
    Ends (fun p c' => Moves ts (.inTag raw) opened c c' ∧ p.mark = c.upTo c')
      (Fault.Sound source ts)
      (path data c) := by
  rw [path_eq]
  refine (ends_expect_keeping laid hc hc.kind_ne_eof_of_inTag .name (Stage.after_word rfl) rfl).bind
    ?_
  rintro _ c₁ ⟨hmoves, -, rfl, hprev⟩
  refine (ends_moreSegments laid _ hmoves.at_ hmoves.passed hprev).bind ?_
  rintro ⟨segments, _⟩ c₂ ⟨hc₂, hpassed, rfl⟩
  dsimp only [Reader.lift, pathOf]
  split
  · exact .plain rfl (hpassed.holds laid) nofun
  · exact ⟨⟨hc₂, hpassed⟩, rfl⟩

/-- What is read as an expression lies where it is read. -/
theorem ends_simpleExpr (hc : c.At ts (.inTag raw) opened) :
    Ends (fun e c' => Moves ts (.inTag raw) opened c c' ∧ Fits source (c.upTo c') e)
      (Fault.Sound source ts)
      (simpleExpr c) := by
  have hkind := hc.kind_ne_eof_of_inTag
  -- A literal is one token.
  have literal : c.kind.isLiteral = true → ∀ e : Expr Span, e.mark = c.here.span →
      e.isLiteral = true →
      Moves ts (.inTag raw) opened c c.advance ∧ Fits source (c.upTo c.advance) e := by
    intro hliteral e hmark he
    have hmoves : Moves ts (.inTag raw) opened c c.advance := by
      refine hc.moves_word ?_ ?_
      · revert hliteral
        cases c.kind <;> decide
      · revert hliteral
        cases c.kind <;> decide
    have hspan : c.here.span = c.upTo c.advance := by
      rw [Cursor.upTo, hc.advance_prev hkind]
      rfl
    have hproper := hmoves.passed.proper laid
    rw [← hspan, ← hmark] at hproper
    refine ⟨hmoves, ?_, ?_⟩
    · cases e with
      | call call => cases he
      | path p => cases he
      | _ => exact hproper
    · rw [hmark, hspan]
      exact ⟨Nat.le_refl _, Nat.le_refl _⟩
  rw [simpleExpr_eq]
  split
  · refine (ends_path laid hc false).map ?_
    rintro p c' ⟨hmoves, hmark⟩
    have hproper := hmoves.passed.proper laid
    rw [← hmark] at hproper
    refine ⟨hmoves, hproper, ?_⟩
    show (spans source).within p.mark _
    rw [hmark]
    exact ⟨Nat.le_refl _, Nat.le_refl _⟩
  · -- The sign of a data path is not in its span.
    rename_i hsign
    have hat := hc.moves_word (by rw [hsign]; rfl) (by rw [hsign]; rfl)
    refine (ends_path laid hat.at_ true).map ?_
    rintro p c' ⟨hmoves, hmark⟩
    have hproper := hmoves.passed.proper laid
    rw [← hmark] at hproper
    refine ⟨⟨hmoves.at_, hat.passed.trans laid hmoves.passed⟩, hproper, ?_⟩
    show (spans source).within p.mark _
    rw [hmark]
    exact within_upTo (hat.passed.start_le laid) (Nat.le_refl _)
  · exact literal (by rw [‹c.kind = _›]; rfl) _ rfl rfl
  · exact literal (by rw [‹c.kind = _›]; rfl) _ rfl rfl
  · exact literal (by rw [‹c.kind = _›]; rfl) _ rfl rfl
  · exact literal (by rw [‹c.kind = _›]; rfl) _ rfl rfl
  · exact literal (by rw [‹c.kind = _›]; rfl) _ rfl rfl
  · exact sound_unexpected laid hc hkind _

/-- A reader of parameters reads expressions where so many constructs are open. -/
def ReadsParams (source : List Char) (ts opened : List Token) (param : Reader (Expr Span)) : Prop :=
  ∀ raw c, c.At ts (.inTag raw) opened →
    Ends (fun e c' => Moves ts (.inTag raw) opened c c' ∧ Fits source (c.upTo c') e)
      (Fault.Sound source ts)
      (param c)

variable {param : Reader (Expr Span)} (hparam : ReadsParams source ts opened param)

omit laid in
/-- Things of a kind in a tag, as many as there are. -/
theorem ends_manyInTag {α : Type} {more : Cursor → Bool} {item : Reader α} {P : α → Span → Prop}
    {E : Fault → Prop} (hitem : ∀ c, c.At ts (.inTag raw) opened → more c = true →
      Ends (fun a c' => Moves ts (.inTag raw) opened c c' ∧ P a (c.upTo c')) E (item c))
    (hc : c.At ts (.inTag raw) opened) :
    Ends (fun as c' => c'.At ts (.inTag raw) opened ∧
      Each (fun a c c' => Passed ts c c' ∧ P a (c.upTo c')) c as c')
      E (Cursor.many more item c) := by
  refine (Ends.many (I := fun c => c.At ts (.inTag raw) opened)
    (Q := fun a c c' => Passed ts c c' ∧ P a (c.upTo c')) ?_ ?_ ?_ hc).imp ?_ fun _ hf => hf
  · intro c hc hmore
    refine (hitem c hc hmore).imp ?_ fun _ hf => hf
    exact fun a c' _ h => ⟨h.1.at_, h.1.passed, h.2⟩
  · exact fun _ _ _ h => h.1.shorter
  · exact fun c hc _ => hc.rest_ne_nil hc.kind_ne_eof_of_inTag
  · exact fun as c' _ h => ⟨h.1.1, h.2⟩

include hparam

omit laid hparam in
/-- A named argument starts with its name and a sign. -/
theorem moves_pair (hc : c.At ts (.inTag raw) opened) (hmore : atPair c = true) :
    Moves ts (.inTag raw) opened c c.advance ∧
      Moves ts (.inTag raw) opened c.advance c.advance.advance := by
  rw [atPair, hc.nextKind_eq, Bool.and_eq_true, beq_iff_eq, beq_iff_eq] at hmore
  obtain ⟨hname, hequals⟩ := hmore
  have hkey := hc.moves_word (by rw [hname]; rfl) (by rw [hname]; rfl)
  exact ⟨hkey, hkey.at_.moves_word (by rw [hequals]; rfl) (by rw [hequals]; rfl)⟩

/-- A named argument lies from its name to the end of its value. -/
theorem ends_pair (hc : c.At ts (.inTag raw) opened) (hmore : atPair c = true) :
    Ends (fun p c' => Moves ts (.inTag raw) opened c c' ∧ PairFits source (c.upTo c') p)
      (Fault.Sound source ts)
      (pair param c) := by
  obtain ⟨hkey, hsign⟩ := moves_pair hc hmore
  have hpassed := hkey.passed.trans laid hsign.passed
  rw [pair_eq]
  refine (hparam raw _ hsign.at_).bind ?_
  rintro value c' ⟨hmoves, hvalue⟩
  have hall := hpassed.trans laid hmoves.passed
  have hinside := hvalue.mono (within_upTo (hpassed.start_le laid) (Nat.le_refl c'.prev.stop))
  exact ⟨⟨hmoves.at_, hall⟩, hall.proper laid, ⟨Nat.le_refl _, Nat.le_refl _⟩, hinside.1, hinside.2⟩

/-- Pairs in a row lie one behind the other. -/
theorem ends_pairs (hc : c.At ts (.inTag raw) opened) :
    Ends (fun ps c' => c'.At ts (.inTag raw) opened ∧
      Each (fun p c c' => Passed ts c c' ∧ PairFits source (c.upTo c') p) c ps c')
        (Fault.Sound source ts)
      (Cursor.many atPair (pair param) c) :=
  ends_manyInTag (P := fun p s => PairFits source s p)
    (fun _ hc hmore => ends_pair laid hparam hc hmore) hc

/-- Named arguments are marked from the first pair to the last one, if there is any. -/
theorem ends_hash? (hc : c.At ts (.inTag raw) opened) :
    Ends (fun h c' => c'.At ts (.inTag raw) opened ∧ Kept ts c c' ∧
      Hash.ArrangedIn (spans source) (c.upTo c') h) (Fault.Sound source ts) (hash? param c) := by
  rw [hash?_eq]
  refine (ends_pairs laid hparam hc).bind ?_
  rintro pairs c' ⟨hc', hpairs⟩
  rcases hpairs.passed laid with ⟨rfl, rfl⟩ | ⟨hsome, hpassed⟩
  · exact ⟨hc', .inl rfl, trivial⟩
  refine ⟨hc', .inr hpassed, ?_⟩
  rw [hashOf, if_neg (by simpa using hsome)]
  refine ⟨⟨hpassed.proper laid, Nat.le_refl _, Nat.le_refl _⟩, Pair.arrangedIn_iff.2 ?_⟩
  exact Each.inSpan (P := fun p s => PairFits source s p) laid
    (fun _ _ _ hwithin h => ⟨h.1, spans_within_trans h.2.1 hwithin, h.2.2⟩) hpairs

omit laid in
/-- Arguments in a row lie one behind the other. -/
theorem ends_params (hc : c.At ts (.inTag raw) opened) :
    Ends (fun es c' => c'.At ts (.inTag raw) opened ∧
      Each (fun e c c' => Passed ts c c' ∧ Fits source (c.upTo c') e) c es c')
        (Fault.Sound source ts)
      (Cursor.many atParam param c) :=
  ends_manyInTag (P := fun e s => Fits source s e) (fun c hc _ => hparam raw c hc) hc

omit hparam in
/-- The arguments after what a tag starts with lie in the span of it all. -/
theorem fits_arguments {c₁ c₂ : Cursor} {params : List (Expr Span)} {hash : Option (Hash Span)}
    (hpassed : Passed ts c c₁)
    (hparams : Each (fun e c c' => Passed ts c c' ∧ Fits source (c.upTo c') e) c₁ params c₂)
    (hkept : Kept ts c₂ c') (hhash : Hash.ArrangedIn (spans source) (c₂.upTo c') hash) :
    (Passed ts c c' ∧ c₁.prev.stop ≤ c'.prev.stop) ∧ (∀ e ∈ params, Fits source (c.upTo c') e) ∧
      Hash.ArrangedIn (spans source) (c.upTo c') hash := by
  have hkept₂ := hparams.kept laid
  have hpassed₂ := hpassed.kept laid hkept₂
  have hstop₂ := hkept₂.prev_le laid hpassed.after
  have hstop := hkept.prev_le laid hpassed₂.after
  refine ⟨⟨hpassed₂.kept laid hkept, Nat.le_trans hstop₂ hstop⟩, fun e he => ?_, ?_⟩
  · have hinside :=
      Each.inSpan (P := fun e s => Fits source s e) laid (fun _ _ _ hwithin h => h.mono hwithin)
        hparams e he
    exact hinside.mono (within_upTo (hpassed.start_le laid) hstop)
  · exact arrangedIn_mono hhash (within_upTo (hpassed₂.start_le laid) (Nat.le_refl _))

/-- The parts of a call lie one behind the other, each where it was read. -/
theorem ends_callParts (hc : c.At ts (.inTag raw) opened) :
    Ends (fun parts c' => Moves ts (.inTag raw) opened c c' ∧ parts.Fits source (c.upTo c'))
      (Fault.Sound source ts)
      (callParts param c) := by
  rw [callParts_eq]
  refine (ends_simpleExpr laid hc).bind ?_
  rintro head c₁ ⟨hmoves, hhead⟩
  refine (ends_params hparam hmoves.at_).bind ?_
  rintro params c₂ ⟨hc₂, hparams⟩
  refine (ends_hash? laid hparam hc₂).bind ?_
  rintro hash c' ⟨hc', hkept, hhash⟩
  obtain ⟨⟨hpassed, hstop⟩, hall, hnamed⟩ := fits_arguments laid hmoves.passed hparams hkept hhash
  exact ⟨⟨hc', hpassed⟩, rfl, hpassed.proper laid, hhead.mono (within_upTo (Nat.le_refl _) hstop),
    hall, hnamed⟩

omit hparam in
/-- A call in parentheses is one construct more that is open in it. -/
theorem ends_parenthesised (hc : c.At ts (.inTag raw) opened) (hopens : c.kind = .openCall)
    (hinner : ReadsParams source ts (c.here :: opened) param) :
    Ends (fun e c' => Moves ts (.inTag raw) opened c c' ∧ Fits source (c.upTo c') e)
      (Fault.Sound source ts)
      (parenthesised param c.here c.advance) := by
  have hparen := hc.moves (Stage.after_word (by rw [hopens]; rfl))
  rw [stillOpenWith_of_opens opened (by rw [show c.here.kind = _ from hopens]; rfl)] at hparen
  rw [parenthesised_eq]
  refine (ends_callParts laid hinner hparen.at_).bind ?_
  rintro parts c₁ ⟨hmoves, hparts⟩
  refine (ends_expect laid hmoves.at_ hmoves.at_.kind_ne_eof_of_inTag .closeCall
    (Stage.after_word rfl)).map ?_
  rintro _ c' ⟨hclose, hkind, rfl, hprev⟩
  have hpassed := hparen.passed.trans laid hmoves.passed
  have hall := hpassed.trans laid hclose.passed
  have hat := hclose.at_
  rw [stillOpenWith, show c₁.here.kind = .closeCall from hkind] at hat
  have hstop := hclose.passed.prev_le laid hmoves.passed.after
  refine ⟨⟨hat, hall⟩, ?_⟩
  rw [Token.to, ← hprev]
  exact hparts.call (some true) (hall.proper laid) (within_upTo (hparen.passed.start_le laid) hstop)

omit laid hparam in
/-- Names in a row can all be read, since each is one token. -/
theorem ends_blockNames (hc : c.At ts (.inTag raw) opened) :
    Ends (fun names c' => c'.At ts (.inTag raw) opened ∧
      Each (fun _ c c' => Passed ts c c' ∧ True) c names c')
      (fun _ => False) (Cursor.many (fun c => c.kind == .name) blockParam c) := by
  refine ends_manyInTag (P := fun _ _ => True) ?_ hc
  intro c hc hmore
  have hname : c.kind = .name := by simpa using hmore
  exact ⟨hc.moves_word (by rw [hname]; rfl) (by rw [hname]; rfl), trivial⟩

omit hparam in
/-- The names of block parameters are words between bars. -/
theorem ends_blockParams (hc : c.At ts (.inTag raw) opened) :
    Ends (fun _ c' => c'.At ts (.inTag raw) opened ∧ Kept ts c c') (Fault.Sound source ts)
      (blockParams c) := by
  rw [blockParams_eq]
  refine .ite (fun _ => ⟨hc, .inl rfl⟩) fun hkind => ?_
  have hbar : c.kind = .openParams := Decidable.not_not.1 hkind
  have hopen := hc.moves_word (by rw [hbar]; rfl) (by rw [hbar]; rfl)
  refine ((ends_blockNames hopen.at_).imp (fun _ _ _ h => h) fun _ hf => hf.elim).bind ?_
  rintro names c₁ ⟨hc₁, hnames⟩
  have hkind₁ := hc₁.kind_ne_eof_of_inTag
  refine .ite (fun _ => sound_unexpected laid hc₁ hkind₁ _) fun _ => ?_
  refine (ends_expect_keeping laid hc₁ hkind₁ .closeParams (Stage.after_word rfl) rfl).map ?_
  rintro _ c' ⟨hclose, -⟩
  exact ⟨hclose.at_, .inr ((hopen.passed.kept laid (hnames.kept laid)).trans laid hclose.passed)⟩

/-- The parts of a partial lie in a span. -/
structure PartialParts.Fits (source : List Char) (s : Span) (parts : PartialParts) : Prop where
  name : Syntax.Fits source s parts.name
  params : ∀ e ∈ parts.params, Syntax.Fits source s e
  hash : Hash.ArrangedIn (spans source) s parts.hash

omit laid hparam in
theorem PartialParts.Fits.mono {s s' : Span} {parts : PartialParts} (h : parts.Fits source s)
    (hwithin : (spans source).within s s') : parts.Fits source s' :=
  ⟨h.name.mono hwithin, fun e he => (h.params e he).mono hwithin, arrangedIn_mono h.hash hwithin⟩

omit laid hparam in
theorem PartialParts.Fits.arranged {s : Span} {parts : PartialParts} (h : parts.Fits source s) :
    Expr.ArrangedIn (spans source) s (parts.name :: parts.params) ∧
      Hash.ArrangedIn (spans source) s parts.hash :=
  ⟨Expr.arrangedIn_iff.2 (List.forall_mem_cons.2 ⟨h.name, h.params⟩), h.hash⟩

/-- A second argument of a partial is a fault, marked from the first one on. -/
theorem ends_partialParts (hc : c.At ts (.inTag raw) opened) :
    Ends (fun parts c' => Moves ts (.inTag raw) opened c c' ∧ parts.Fits source (c.upTo c'))
      (Fault.Sound source ts)
      (partialParts param c) := by
  rw [partialParts_eq]
  refine (hparam raw c hc).bind ?_
  rintro name c₁ ⟨hmoves, hname⟩
  refine (ends_params hparam hmoves.at_).bind ?_
  rintro params c₂ ⟨hc₂, hparams⟩
  refine .ite (fun hmany => ?_) fun _ => ?_
  · -- There are parameters, so tokens were passed for them.
    rcases hparams.passed laid with ⟨rfl, -⟩ | ⟨-, hpassed⟩
    · cases hmany
    · exact .plain rfl (hpassed.holds laid) nofun
  refine (ends_hash? laid hparam hc₂).map ?_
  rintro hash c' ⟨hc', hkept, hhash⟩
  obtain ⟨⟨hpassed, hstop⟩, hall, hnamed⟩ := fits_arguments laid hmoves.passed hparams hkept hhash
  exact ⟨⟨hc', hpassed⟩, hname.mono (within_upTo (Nat.le_refl _) hstop), hall, hnamed⟩

end Expressions

end Stencil.Syntax
