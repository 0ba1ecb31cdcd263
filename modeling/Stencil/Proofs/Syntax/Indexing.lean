import Stencil.Proofs.Syntax.Bodies
import Stencil.Proofs.Syntax.Mirroring

/-!
# Runs over indexed tokens

A run by index mirrors the readers of the grammar, part by part. What is known of a reader from
where a cursor stands tells that there is another token, that a span ends after it starts, and that
rounds enough are left. Constructs are counted on the way, so the readers of a level stand against
runs with so many constructs open (`MirrorsLevel`).

So a run over the tokens of a template does not go wrong (`run_template`), and where it has looked
at the last of them, nothing can be missing but a closing tag. The tokens fall into groups
(`tokens_grouped`): a tag is closed before the template ends, which is why.
-/

set_option autoImplicit false

namespace Stencil.Syntax

open Stencil.Text
open Stencil.Tree
open Indexed (Step State)

/-! ## Expressions -/

section Expressions

variable {source : List Char} {ts opened : List Token} {raw : Bool} {c : Cursor} {depth : Nat}
  (laid : Laid source ts)

/-- In a tag some token has been passed, so fewer are left than there are. -/
theorem Cursor.At.rest_lt (hc : c.At ts (.inTag raw) opened) : c.rest.length < ts.length := by
  obtain ⟨before, hbefore, -⟩ := hc.before
  have hlength := congrArg List.length hbefore
  simp only [List.length_append, Cursor.tokens, List.length_cons] at hlength
  omega

/-- After a word of a tag comes another token of it. -/
theorem Mirrors.peek_afterWord (hc : c.At ts (.inTag raw) opened) (hword : c.kind.isWord = true) :
    Mirrors ts depth c (Step.peek 1) (.ok (c.advance.here, c)) := by
  have hnext := hc.advance (Stage.after_word hword)
  exact .peek_next (hc.tokens_eq hc.kind_ne_eof_of_inTag) hnext.rest_ne_nil_of_inTag

include laid

/-- A closing token is passed, and the span from where something started up to it is made. -/
theorem Mirrors.closing {α : Type} {c₀ : Cursor} (hpassed : Passed ts c₀ c) (hmore : c.rest ≠ [])
    (kind : TokenKind) (g : Token → Span → α) :
    Mirrors ts depth c
      (Step.expect kind >>= fun closed => Step.span c₀.here.start closed.stop >>= fun mark =>
        Pure.pure (g closed mark))
      ((Cursor.expect kind).map (fun closed => g closed (c₀.here.to closed)) c) := by
  refine (Mirrors.expect hmore kind).map fun closed c' hclosed => ?_
  have hclosed : closed = c.here := by
    rw [Cursor.expect] at hclosed
    split at hclosed <;> cases hclosed
    rfl
  subst hclosed
  exact (Mirrors.span (hpassed.le_stop laid)).step (.pure _)

/-- By induction on the rounds: as each takes two tokens, rounds for the tokens left are enough, and
the path only grows. -/
theorem mirrors_moreSegments {c₀ : Cursor} (rounds : Nat) :
    ∀ {fuel : Nat} {last : Token} {spelled : List Char} {c : Cursor}, c.At ts (.inTag raw) opened →
      Passed ts c₀ c → c.rest.length ≤ fuel → c.rest.length < rounds →
        Mirrors ts depth c (Indexed.moreSegments c₀.here.start rounds last spelled)
          (moreSegments c₀.here.start fuel last spelled c) := by
  induction rounds with
  | zero => exact fun _ _ _ h => absurd h (Nat.not_lt_zero _)
  | succ rounds ih =>
    intro fuel last spelled c hc hpassed hfuel hrounds
    have hmore := hc.rest_ne_nil_of_inTag
    obtain ⟨fuel, rfl⟩ : ∃ n, fuel = n + 1 := by
      have hpos := List.length_pos_of_ne_nil hmore
      exact ⟨fuel - 1, by omega⟩
    have hspan := hpassed.le_stop laid
    rw [moreSegments_succ]
    refine Mirrors.peek.step (.ite Iff.rfl (fun _ => .pure _) fun _ =>
      .ite Iff.rfl (fun hseparator => ?_) fun _ => ?_)
    · -- A separator and the segment after it are passed, and the tag goes on.
      have hword : c.kind.isWord = true := by rw [hseparator]; rfl
      have hkeeps : c.kind.keepsNesting = true := by rw [hseparator]; rfl
      have hfirst := hc.moves_word hword hkeeps
      have hmore₁ := hfirst.at_.rest_ne_nil_of_inTag
      refine (Mirrors.advance hmore).step
        (Mirrors.peek.step (.ite Iff.rfl (fun _ => ?_) fun hsegment => ?_))
      · exact (Mirrors.span hspan).step (.fail _ hmore₁)
      · have hname : c.advance.kind = .name := Decidable.not_not.1 (not_or.1 hsegment).1
        have hnext := hfirst.at_.moves_word (by rw [hname]; rfl) (by rw [hname]; rfl)
        have hshorter := hfirst.passed.shorter
        have hshorter' := hnext.passed.shorter
        refine (Mirrors.advance hmore₁).step
          (Mirrors.map (ih hnext.at_ ?_ ?_ ?_) fun more c' _ => .pure _)
        · exact (hpassed.trans laid hfirst.passed).trans laid hnext.passed
        · omega
        · omega
    · exact .ite Iff.rfl (fun _ => (Mirrors.span hspan).step (.fail _ hmore)) fun _ => .pure _

/-- The first segment is asked for by its kind. How many rounds there may be is counted after it. -/
theorem mirrors_path (hc : c.At ts (.inTag raw) opened) (data : Bool) :
    Mirrors ts depth c (Indexed.path data) (path data c) := by
  rw [path_eq]
  refine (Mirrors.expect hc.rest_ne_nil_of_inTag .name).bind ?_
  intro first c₁ hfirst
  obtain ⟨hmoves, -, rfl, hprev⟩ :=
    (ends_expect_keeping laid hc hc.kind_ne_eof_of_inTag .name (Stage.after_word rfl) rfl).of_ok
      hfirst
  have hrounds := hmoves.at_.rest_lt
  refine Mirrors.count.step
    (Mirrors.bind (mirrors_moreSegments laid ts.length hmoves.at_ hmoves.passed
      (Nat.le_refl _) hrounds) ?_)
  rintro ⟨segments, last⟩ c₂ hsegments
  obtain ⟨hc₂, hpassed, rfl⟩ :=
    (ends_moreSegments laid _ hmoves.at_ hmoves.passed hprev).of_ok hsegments
  refine (Mirrors.span (hpassed.proper laid).1).step ?_
  rw [Reader.lift, pathOf]
  cases foldSegments ⟨0, [], if data then ['@'] else []⟩
    (Segment.ofToken none c.here :: segments) with
  | error spelled => exact .fail _ hc₂.rest_ne_nil_of_inTag
  | ok p => exact .pure _

/-- The kind of the token here decides alike in both, and in a tag there is another token behind
it. -/
theorem mirrors_simpleExpr (hc : c.At ts (.inTag raw) opened) :
    Mirrors ts depth c Indexed.simpleExpr (simpleExpr c) := by
  have hmore := hc.rest_ne_nil_of_inTag
  rw [simpleExpr_eq, Indexed.simpleExpr]
  refine Mirrors.peek.step ?_
  rw [show c.kind = c.here.kind from rfl]
  cases hkind : c.here.kind with
  | name => exact (mirrors_path laid hc false).map fun p c' _ => .pure _
  | «at» =>
    have hfirst := hc.moves_word (by rw [show c.kind = _ from hkind]; rfl)
        (by rw [show c.kind = _ from hkind]; rfl)
    exact (Mirrors.advance hmore).step
      ((mirrors_path laid hfirst.at_ true).map fun p c' _ => .pure _)
  | string | number | boolean | undefined | null => exact (Mirrors.advance hmore).step (.pure _)
  | _ => exact .unexpected hmore _

omit laid in
/-- To see a pair takes a look at the next token, which is there since a name does not end a tag. -/
theorem mirrors_atPair (hc : c.At ts (.inTag raw) opened) :
    Mirrors ts depth c Indexed.atPair (.ok (atPair c, c)) := by
  refine Mirrors.peek.step ?_
  rw [atPair, hc.nextKind_eq]
  by_cases hname : c.kind = .name
  · rw [if_pos (show c.here.kind = .name from hname), hname]
    exact (Mirrors.peek_afterWord hc (by rw [hname]; rfl)).step (.pure _)
  · rw [if_neg (show ¬c.here.kind = .name from hname), beq_false_of_ne hname]
    exact .pure _

omit laid in
/-- An argument is told from a pair by the same look at the next token. -/
theorem mirrors_atParam (hc : c.At ts (.inTag raw) opened) :
    Mirrors ts depth c Indexed.atParam (.ok (atParam c, c)) := by
  refine Mirrors.peek.step ?_
  rw [atParam, hc.nextKind_eq, show c.kind = c.here.kind from rfl]
  cases hkind : c.here.kind with
  | name =>
    exact (Mirrors.peek_afterWord hc (by rw [show c.kind = _ from hkind]; rfl)).step (.pure _)
  | _ => exact .pure _

/-- A part of a run reads parameters as a reader does, where so many constructs are open. -/
def MirrorsParams (ts opened : List Token) (param : Step (Expr Span))
    (param' : Reader (Expr Span)) : Prop :=
  ∀ raw c, c.At ts (.inTag raw) opened → Mirrors ts opened.length c param (param' c)

variable {param : Step (Expr Span)} {param' : Reader (Expr Span)}
  (hparam : ReadsParams source ts opened param')
  (hmirrors : MirrorsParams ts opened param param')

include hparam hmirrors

omit laid in
/-- Each argument takes a token at least, so the tokens left are enough rounds. -/
theorem mirrors_params (hc : c.At ts (.inTag raw) opened) :
    Mirrors ts opened.length c (Step.many Indexed.atParam param)
      (Cursor.many atParam param' c) := by
  refine Mirrors.many (I := fun c => c.At ts (.inTag raw) opened) ?_ ?_ ?_ ?_ hc
  · exact fun c hc => mirrors_atParam hc
  · exact fun c hc _ => hmirrors raw c hc
  · intro c e c' hc _ hread
    obtain ⟨hmoves, -⟩ := (hparam raw c hc).of_ok hread
    exact ⟨hmoves.at_, hmoves.passed.shorter⟩
  · exact fun c hc _ => hc.rest_ne_nil_of_inTag

/-- The name and the sign of a pair were seen, so both can be passed. -/
theorem mirrors_pair (hc : c.At ts (.inTag raw) opened) (hmore : atPair c = true) :
    Mirrors ts opened.length c (Indexed.pair param) (pair param' c) := by
  obtain ⟨hkey, hsign⟩ := moves_pair hc hmore
  have hpassed := hkey.passed.trans laid hsign.passed
  rw [pair_eq]
  refine (Mirrors.advance hc.rest_ne_nil_of_inTag).step
    ((Mirrors.advance hkey.at_.rest_ne_nil_of_inTag).step ?_)
  refine (hmirrors raw _ hsign.at_).bind fun value c' hread => ?_
  obtain ⟨hmoves, -⟩ := (hparam raw _ hsign.at_).of_ok hread
  have hproper := (hpassed.trans laid hmoves.passed).proper laid
  exact Mirrors.prev.step ((Mirrors.span hproper.1).step (.pure _))

/-- As arguments are, pairs are read round by round. -/
theorem mirrors_hash? (hc : c.At ts (.inTag raw) opened) :
    Mirrors ts opened.length c (Indexed.hash? param) (hash? param' c) := by
  rw [hash?_eq]
  refine Mirrors.peek.step (Mirrors.bind ?_ fun pairs c' hread => ?_)
  · refine Mirrors.many (I := fun c => c.At ts (.inTag raw) opened) ?_ ?_ ?_ ?_ hc
    · exact fun c hc => mirrors_atPair hc
    · exact fun c hc hmore => mirrors_pair laid hparam hmirrors hc hmore
    · intro c p c' hc hmore hread
      obtain ⟨hmoves, -⟩ := (ends_pair laid hparam hc hmore).of_ok hread
      exact ⟨hmoves.at_, hmoves.passed.shorter⟩
    · exact fun c hc _ => hc.rest_ne_nil_of_inTag
  · obtain ⟨hc', hpairs⟩ := (ends_pairs laid hparam hc).of_ok hread
    rw [hashOf]
    rcases hpairs.passed laid with ⟨rfl, -⟩ | ⟨hsome, hpassed⟩
    · exact .pure _
    · have hempty : pairs.isEmpty = false := by simpa using hsome
      rw [hempty]
      exact Mirrors.prev.step ((Mirrors.span (hpassed.proper laid).1).step (.pure _))

/-- Head, arguments and pairs are read at places that are still in the tag. -/
theorem mirrors_callParts (hc : c.At ts (.inTag raw) opened) :
    Mirrors ts opened.length c (Indexed.callParts param) (callParts param' c) := by
  rw [callParts_eq]
  refine Mirrors.peek.step ((mirrors_simpleExpr laid hc).bind fun head c₁ hhead => ?_)
  obtain ⟨hmoves, -⟩ := (ends_simpleExpr laid hc).of_ok hhead
  refine (mirrors_params hparam hmirrors hmoves.at_).bind fun params c₂ hparams => ?_
  obtain ⟨hc₂, heach⟩ := (ends_params hparam hmoves.at_).of_ok hparams
  refine (mirrors_hash? laid hparam hmirrors hc₂).bind fun hash c' hhash => ?_
  obtain ⟨hc', hkept, -⟩ := (ends_hash? laid hparam hc₂).of_ok hhash
  have hpassed := (hmoves.passed.kept laid (heach.kept laid)).kept laid hkept
  exact Mirrors.prev.step ((Mirrors.span (hpassed.proper laid).1).step (.pure _))

omit hparam hmirrors in
/-- One construct more is open inside the parentheses than around them. -/
theorem mirrors_parenthesised (hc : c.At ts (.inTag raw) opened) (hopens : c.kind = .openCall)
    (hinner : ReadsParams source ts (c.here :: opened) param')
    (hmirrors : MirrorsParams ts (c.here :: opened) param param') :
    Mirrors ts (opened.length + 1) c.advance (Indexed.parenthesised param c.here)
      (parenthesised param' c.here c.advance) := by
  have hparen := hc.moves (Stage.after_word (by rw [hopens]; rfl))
  rw [stillOpenWith_of_opens opened (by rw [show c.here.kind = _ from hopens]; rfl)] at hparen
  rw [parenthesised_eq]
  refine (mirrors_callParts laid hinner hmirrors hparen.at_).bind fun parts c₁ hparts => ?_
  obtain ⟨hmoves, -⟩ := (ends_callParts laid hinner hparen.at_).of_ok hparts
  exact .closing laid (hparen.passed.trans laid hmoves.passed)
    hmoves.at_.rest_ne_nil_of_inTag .closeCall _

omit laid hparam hmirrors in
/-- Between the bars stand names, and a tag does not end at a name. -/
theorem mirrors_blockParams (hc : c.At ts (.inTag raw) opened) :
    Mirrors ts depth c Indexed.blockParams (blockParams c) := by
  rw [blockParams_eq]
  refine Mirrors.peek.step (.ite Iff.rfl (fun _ => .pure _) fun hkind => ?_)
  have hbar : c.kind = .openParams := Decidable.not_not.1 hkind
  have hopen := hc.moves_word (by rw [hbar]; rfl) (by rw [hbar]; rfl)
  refine (Mirrors.advance hc.rest_ne_nil_of_inTag).step (Mirrors.bind ?_ fun names c₁ hnames => ?_)
  · refine Mirrors.many (I := fun c => c.At ts (.inTag raw) opened) ?_ ?_ ?_ ?_ hopen.at_
    · exact fun c _ => Mirrors.peek.step (.pure _)
    · exact fun c hc _ => (Mirrors.advance hc.rest_ne_nil_of_inTag).step (.pure _)
    · rintro c _ _ hc hmore ⟨⟩
      have hname : c.kind = .name := by simpa using hmore
      have hmoves := hc.moves_word (by rw [hname]; rfl) (by rw [hname]; rfl)
      exact ⟨hmoves.at_, hmoves.passed.shorter⟩
    · exact fun c hc _ => hc.rest_ne_nil_of_inTag
  · obtain ⟨hc₁, -⟩ := (ends_blockNames hopen.at_).of_ok hnames
    have hmore := hc₁.rest_ne_nil_of_inTag
    refine .ite Iff.rfl (fun _ => .unexpected hmore _) fun _ => ?_
    exact (Mirrors.expect hmore .closeParams).map fun _ c' _ => .pure _

/-- The fault at a second argument is placed from the first one on, where the run still stands in
the tag. -/
theorem mirrors_partialParts (hc : c.At ts (.inTag raw) opened) :
    Mirrors ts opened.length c (Indexed.partialParts param) (partialParts param' c) := by
  rw [partialParts_eq]
  refine (hmirrors raw c hc).bind fun name c₁ hname => ?_
  obtain ⟨hmoves, -⟩ := (hparam raw c hc).of_ok hname
  refine Mirrors.peek.step
    ((mirrors_params hparam hmirrors hmoves.at_).bind fun params c₂ hparams => ?_)
  obtain ⟨hc₂, heach⟩ := (ends_params hparam hmoves.at_).of_ok hparams
  refine .ite Iff.rfl (fun hmany => ?_) fun _ => ?_
  · -- There are parameters, so tokens were passed for them.
    rcases heach.passed laid with ⟨rfl, -⟩ | ⟨-, hpassed⟩
    · cases hmany
    · exact Mirrors.prev.step
        ((Mirrors.span (hpassed.proper laid).1).step (.fail _ hc₂.rest_ne_nil_of_inTag))
  · exact (mirrors_hash? laid hparam hmirrors hc₂).map fun hash c' _ => .pure _

end Expressions

/-! ## Statements -/

section Statements

variable {source : List Char} {ts opened : List Token} {c : Cursor} {depth : Nat}
  (laid : Laid source ts)

/-- A part of a run reads statements as a reader does, where so many constructs are open. -/
def MirrorsStatements (ts opened : List Token) (statement : Step (Statement Span))
    (statement' : Reader (Statement Span)) : Prop :=
  ∀ c, c.At ts .outside opened → atProgramEnd c = false →
    Mirrors ts opened.length c statement (statement' c)

/-- What ends a program is seen from the token here. -/
theorem mirrors_atStatement :
    Mirrors ts depth c Indexed.atStatement (.ok (!atProgramEnd c, c)) := by
  refine Mirrors.peek.step ?_
  rw [atProgramEnd_eq, show c.kind = c.here.kind from rfl]
  cases c.here.kind with
  | _ => exact .pure _

/-- A program without statements ends where it starts. -/
theorem mirrors_programStop (start : Nat) (body : List (Statement Span)) :
    Mirrors ts depth c (Indexed.programStop start body)
      (.ok (if body.isEmpty then start else c.prev.stop, c)) := by
  unfold Indexed.programStop
  split
  · exact .pure _
  · exact Mirrors.prev.step (.pure _)

include laid

/-- Each statement takes a token, and those that end a program are left alone. -/
theorem mirrors_program {statement : Step (Statement Span)} {statement' : Reader (Statement Span)}
    (hstatement : ReadsStatements source ts opened statement')
    (hmirrors : MirrorsStatements ts opened statement statement') (names : List String)
    (hc : c.At ts .outside opened) :
    Mirrors ts opened.length c (Indexed.program statement names) (program statement' names c) := by
  rw [program_eq]
  refine Mirrors.peek.step (Mirrors.bind ?_ fun body c' hbody => ?_)
  · refine Mirrors.many (I := fun c => c.At ts .outside opened) ?_ ?_ ?_ ?_ hc
    · exact fun c _ => mirrors_atStatement
    · exact fun c hc hmore => hmirrors c hc (by simpa using hmore)
    · intro c s c' hc hmore hread
      obtain ⟨hmoves, -⟩ := (hstatement c hc (by simpa using hmore)).of_ok hread
      exact ⟨hmoves.at_, hmoves.passed.shorter⟩
    · exact fun c hc hmore => hc.rest_ne_nil (kind_ne_eof_of_atProgramEnd (by simpa using hmore))
  · obtain ⟨-, heach⟩ := (ends_statements hstatement hc).of_ok hbody
    have hle : c.here.start ≤ if body.isEmpty then c.here.start else c'.prev.stop := by
      rcases heach.passed laid with ⟨rfl, -⟩ | ⟨hsome, hpassed⟩
      · exact Nat.le_refl _
      · have hempty : body.isEmpty = false := by simpa using hsome
        rw [hempty]
        exact (hpassed.proper laid).1
    exact (mirrors_programStop _ _).step ((Mirrors.span hle).step (.pure _))

/-- The closing tag is read as such wherever a program ended. -/
theorem mirrors_closingTag (hc : c.At ts .outside opened) (name : String) (opening : Span) :
    Mirrors ts depth c (Indexed.closingTag name opening) (closingTag name opening c) := by
  rw [closingTag_eq]
  refine Mirrors.peek.step (.ite Iff.rfl (fun _ => .fail_unclosed name rfl) fun heof => ?_)
  have hmore := hc.rest_ne_nil heof
  refine .ite Iff.rfl (fun _ => .unexpected hmore _) fun hopen => ?_
  have hkind : c.kind = .openEnd := Decidable.not_not.1 hopen
  have hfirst := hc.moves (by rw [hkind]; rfl)
  refine (Mirrors.advance hmore).step
    ((mirrors_simpleExpr laid hfirst.at_).bind fun closing c₁ hclosing => ?_)
  obtain ⟨hmoves, -⟩ := (ends_simpleExpr laid hfirst.at_).of_ok hclosing
  refine Mirrors.expect_bind hmoves.at_.rest_ne_nil_of_inTag fun hend s hs hseen hdepth => ?_
  rw [Mirrors.span_bind ((hfirst.passed.trans laid hmoves.passed).le_stop laid)]
  by_cases hname : closing.spelling = name
  · rw [if_pos hname, if_pos hname]
    exact Mirrors.pure _ s hs hdepth
  · rw [if_neg hname, if_neg hname]
    exact Mirrors.fail_unseen _ hseen hdepth

variable {param : Step (Expr Span)} {param' : Reader (Expr Span)}
  (hparam : ReadsParams source ts opened param')
  (hmirrors : MirrorsParams ts opened param param')

include hparam hmirrors

/-- The tag was opened at a token that was passed before, so its span does not end before it
starts. -/
theorem mirrors_openTag {c₀ : Cursor} (hc : c.At ts (.inTag false) opened)
    (hopened : Passed ts c₀ c) :
    Mirrors ts opened.length c (Indexed.openTag param c₀.here) (openTag param' c₀.here c) := by
  rw [openTag_eq]
  refine (mirrors_callParts laid hparam hmirrors hc).bind fun call c₁ hcall => ?_
  obtain ⟨hmoves, -⟩ := (ends_callParts laid hparam hc).of_ok hcall
  refine (mirrors_blockParams hmoves.at_).bind fun names c₂ hnames => ?_
  obtain ⟨hc₂, hkept⟩ := (ends_blockParams laid hmoves.at_).of_ok hnames
  have hpassed := (hopened.trans laid hmoves.passed).kept laid hkept
  exact .closing laid hpassed hc₂.rest_ne_nil_of_inTag .close _

/-- Which token closes the tag depends on the one that opened it. -/
theorem mirrors_mustache (hc : c.At ts .outside opened)
    (hkind : c.kind = .openMustache ∨ c.kind = .openUnescaped) :
    Mirrors ts opened.length c (Indexed.mustache param) (mustache param' c) := by
  have hfirst : Moves ts (.inTag false) opened c c.advance := by
    rcases hkind with hkind | hkind
    · exact hc.moves_keeping (by rw [hkind]; rfl) (by rw [hkind]; rfl)
    · exact hc.moves_keeping (by rw [hkind]; rfl) (by rw [hkind]; rfl)
  rw [mustache_eq]
  refine (Mirrors.advance (hc.rest_ne_nil hfirst.passed.kind)).step ?_
  refine (mirrors_callParts laid hparam hmirrors hfirst.at_).bind fun call c₁ hcall => ?_
  obtain ⟨hmoves, -⟩ := (ends_callParts laid hparam hfirst.at_).of_ok hcall
  exact .closing laid (hfirst.passed.trans laid hmoves.passed) hmoves.at_.rest_ne_nil_of_inTag _ _

/-- The parts of a partial stand in a tag that is closed as any other. -/
theorem mirrors_partialCall (hc : c.At ts .outside opened) (hkind : c.kind = .openPartial) :
    Mirrors ts opened.length c (Indexed.partialCall param) (partialCall param' c) := by
  have hfirst : Moves ts (.inTag false) opened c c.advance :=
    hc.moves_keeping (by rw [hkind]; rfl) (by rw [hkind]; rfl)
  rw [partialCall_eq]
  refine (Mirrors.advance (hc.rest_ne_nil hfirst.passed.kind)).step ?_
  refine (mirrors_partialParts laid hparam hmirrors hfirst.at_).bind fun parts c₁ hparts => ?_
  obtain ⟨hmoves, -⟩ := (ends_partialParts laid hparam hfirst.at_).of_ok hparts
  exact .closing laid (hfirst.passed.trans laid hmoves.passed)
    hmoves.at_.rest_ne_nil_of_inTag .close _

omit laid hparam hmirrors in
/-- A raw block has one token of text or none. -/
theorem mirrors_rawBody (hc : c.At ts .rawText opened) :
    Mirrors ts depth c Indexed.rawBody (rawBody c) := by
  have hmore := hc.rest_ne_nil (hc.kind_ne_eof_of_stage nofun)
  exact Mirrors.peek.step (.ite Iff.rfl (fun _ => (Mirrors.advance hmore).step (.pure _)) fun _ =>
    .pure _)

/-- The span of the text between the tags runs from the end of one token to the start of a later
one. -/
theorem mirrors_rawBlock (hc : c.At ts .outside opened) (hkind : c.kind = .openRaw) :
    Mirrors ts opened.length c (Indexed.rawBlock param) (rawBlock param' c) := by
  have hfirst : Moves ts (.inTag true) opened c c.advance :=
    hc.moves_keeping (by rw [hkind]; rfl) (by rw [hkind]; rfl)
  rw [rawBlock_eq]
  refine (Mirrors.advance (hc.rest_ne_nil hfirst.passed.kind)).step ?_
  refine (mirrors_callParts laid hparam hmirrors hfirst.at_).bind fun call c₁ hcall => ?_
  obtain ⟨hmoves, -⟩ := (ends_callParts laid hparam hfirst.at_).of_ok hcall
  refine (Mirrors.expect hmoves.at_.rest_ne_nil_of_inTag .closeRaw).bind fun closed c₂ hclosed => ?_
  obtain ⟨hclose, -, rfl, hprev₂⟩ :=
    (ends_expect_keeping laid hmoves.at_ hmoves.at_.kind_ne_eof_of_inTag .closeRaw rfl rfl).of_ok
      hclosed
  have hpassed₁ := hfirst.passed.trans laid hmoves.passed
  have hpassed₂ := hpassed₁.trans laid hclose.passed
  refine (Mirrors.span (hpassed₁.le_stop laid)).step
    ((mirrors_rawBody hclose.at_).bind fun body c₃ hbody => ?_)
  obtain ⟨⟨stage, hc₃, heof, hstage⟩, heach⟩ := (ends_rawBody laid hclose.at_).of_ok hbody
  have hpassed₃ := hpassed₂.kept laid (heach.kept laid)
  refine Mirrors.expect_bind (hc₃.rest_ne_nil heof) fun hend s hs hseen hdepth => ?_
  -- Between the tags is the text, if there is any; otherwise the span is empty.
  have hinner : c₁.here.stop ≤ c₃.here.start := by
    have hstop₃ := (heach.kept laid).prev_le laid hpassed₂.after
    have hnext₃ := hpassed₃.after.prev_le laid
    rw [hprev₂] at hstop₃
    exact Nat.le_trans hstop₃ hnext₃
  -- Both compare the name in the closing tag before they make the block.
  by_cases hname : String.ofList (rawEndName c₃.here.text) = call.head.spelling
  · rw [if_pos hname, if_pos hname, Mirrors.span_bind hinner,
      Mirrors.span_bind (hpassed₃.le_stop laid)]
    exact Mirrors.pure _ s hs hdepth
  · rw [if_neg hname, if_neg hname]
    exact Mirrors.fail_unseen _ hseen hdepth

end Statements

/-! ## Levels -/

section Levels

variable {source : List Char} {ts opened : List Token} {n : Nat} {c : Cursor}
  (laid : Laid source ts)

/-- A part of a run reads the sections after `else` as a reader does, where so many constructs are
open. -/
def MirrorsSections (ts opened : List Token) (otherwise : Step (Option ElseSection))
    (otherwise' : Reader (Option ElseSection)) : Prop :=
  ∀ c, c.At ts .outside opened → Mirrors ts opened.length c otherwise (otherwise' c)

/-- Parts of a run read as the readers of a level do, where so many constructs are open that as many
as its number may be nested. -/
structure MirrorsLevel (ts : List Token) (n : Nat) (below : Indexed.Level) (level : Level) :
    Prop where
  param : ∀ opened, opened.length + n = maxNesting → MirrorsParams ts opened below.param level.param
  statement : ∀ opened, opened.length + n = maxNesting →
    MirrorsStatements ts opened below.statement level.statement
  otherwise : ∀ opened, opened.length + n = maxNesting →
    MirrorsSections ts opened below.otherwise level.otherwise

section Constructs

variable {below : Indexed.Level} {level : Level} (h : LevelEnds source ts n level)
  (hf : MirrorsLevel ts n below level)
  (hc : c.At ts .outside opened) (hlength : opened.length + (n + 1) = maxNesting)

include laid h hf hc hlength

/-- A block is read with itself counted as open, by the readers of the level below. -/
theorem mirrors_block (hkind : c.kind = .openBlock ∨ c.kind = .openInverted) :
    Mirrors ts (opened.length + 1) c.advance (Indexed.block below c.here)
      (blockAfter level c.here c.advance) := by
  have hfirst : Moves ts (.inTag false) (c.here :: opened) c c.advance := by
    rcases hkind with hkind | hkind
    · exact hc.moves_opening (by rw [hkind]; rfl) (by rw [hkind]; rfl)
    · exact hc.moves_opening (by rw [hkind]; rfl) (by rw [hkind]; rfl)
  have hinner : (c.here :: opened).length + n = maxNesting := by
    rw [List.length_cons]
    omega
  rw [blockAfter_eq]
  refine (mirrors_openTag laid (h.param _ hinner) (hf.param _ hinner) hfirst.at_
    (Passed.one hc hfirst.passed.kind)).bind
    fun tag c₁ htag => ?_
  obtain ⟨hmoves₁, -, -, hspan⟩ :=
    (ends_openTag laid (h.param _ hinner) hfirst.at_ c.here).of_ok htag
  have hpassed₁ := hfirst.passed.trans laid hmoves₁.passed
  -- The span of the tag is what an unclosed block is reported at, so it has to be in order.
  have hopening : (⟨0, source⟩ : Rest).Holds tag.span := by
    rw [hspan]
    exact hpassed₁.holds laid
  refine (mirrors_program laid (h.statement _ hinner) (hf.statement _ hinner) _ hmoves₁.at_).bind
    fun main c₂ hmain => ?_
  obtain ⟨hc₂, hfits⟩ := (ends_program laid (h.statement _ hinner) _ hmoves₁.at_).of_ok hmain
  have hpassed₂ := hpassed₁.kept laid hfits.kept
  refine (hf.otherwise _ hinner c₂ hc₂).bind fun section? c₃ hsection => ?_
  obtain ⟨⟨links, -, hc₃⟩, hsection⟩ := (h.otherwise _ hinner c₂ hc₂).of_ok hsection
  have hpassed₃ := hpassed₂.kept laid hsection.kept
  refine (mirrors_closingTag laid hc₃ _ _).map fun closing c' hclosing => ?_
  obtain ⟨hmoves, hclosed, -⟩ := (ends_closingTag laid hc₃ _ hopening).of_ok hclosing
  have hproper := (hpassed₃.trans laid hmoves.passed).proper laid
  rw [Cursor.upTo, ← hclosed] at hproper
  exact (Mirrors.span hproper.1).step (.pure _)

/-- The same for a partial block, where an `else` is a fault at a token that was looked at. -/
theorem mirrors_partialBlock (hkind : c.kind = .openPartialBlock) :
    Mirrors ts (opened.length + 1) c.advance (Indexed.partialBlock below c.here)
      (partialBlockAfter level c.here c.advance) := by
  have hfirst := hc.moves_opening (by rw [hkind]; rfl) (by rw [hkind]; rfl)
  have hinner : (c.here :: opened).length + n = maxNesting := by
    rw [List.length_cons]
    omega
  rw [partialBlockAfter_eq]
  refine (mirrors_partialParts laid (h.param _ hinner) (hf.param _ hinner) hfirst.at_).bind
    fun parts c₁ hparts => ?_
  -- That the readers succeed says where the cursor is, which the next part needs to know.
  obtain ⟨hmoves₁, -⟩ := (ends_partialParts laid (h.param _ hinner) hfirst.at_).of_ok hparts
  have hpassed₁ := hfirst.passed.trans laid hmoves₁.passed
  refine (Mirrors.expect hmoves₁.at_.rest_ne_nil_of_inTag .close).bind fun closed c₂ hclosed => ?_
  obtain ⟨hclose, -, rfl, hprev⟩ :=
    (ends_expect_keeping laid hmoves₁.at_ hmoves₁.at_.kind_ne_eof_of_inTag .close rfl rfl).of_ok
      hclosed
  have hpassed₂ := hpassed₁.trans laid hclose.passed
  have hopening : (⟨0, source⟩ : Rest).Holds (c.here.to c₁.here) := by
    rw [← hprev]
    exact hpassed₂.holds laid
  refine (Mirrors.span (hpassed₁.le_stop laid)).step ?_
  refine (mirrors_program laid (h.statement _ hinner) (hf.statement _ hinner) [] hclose.at_).bind
    fun body c₃ hbody => ?_
  obtain ⟨hc₃, hfits⟩ := (ends_program laid (h.statement _ hinner) [] hclose.at_).of_ok hbody
  have hpassed₃ := hpassed₂.kept laid hfits.kept
  refine Mirrors.peek.step (.ite Iff.rfl (fun helse => .fail _ ?_) fun _ => ?_)
  · refine hc₃.rest_ne_nil ?_
    rcases helse with helse | helse <;> rw [helse] <;> decide
  · refine (mirrors_closingTag laid hc₃ _ _).map fun closing c' hclosing => ?_
    obtain ⟨hmoves, hended, -⟩ := (ends_closingTag laid hc₃ _ hopening).of_ok hclosing
    have hproper := (hpassed₃.trans laid hmoves.passed).proper laid
    rw [Cursor.upTo, ← hended] at hproper
    exact (Mirrors.span hproper.1).step (.pure _)

/-- A chained section is counted too, though no closing tag of its own closes it. -/
theorem mirrors_chain (hkind : c.kind = .openElse) :
    Mirrors ts (opened.length + 1) c.advance (Indexed.chain below c.here)
      (chainAfter level c.here c.advance) := by
  have hfirst := hc.moves_opening (by rw [hkind]; rfl) (by rw [hkind]; rfl)
  have hinner : (c.here :: opened).length + n = maxNesting := by
    rw [List.length_cons]
    omega
  rw [chainAfter_eq]
  refine (mirrors_openTag laid (h.param _ hinner) (hf.param _ hinner) hfirst.at_
    (Passed.one hc hfirst.passed.kind)).bind
    fun tag c₁ htag => ?_
  obtain ⟨hmoves₁, -⟩ := (ends_openTag laid (h.param _ hinner) hfirst.at_ c.here).of_ok htag
  refine (mirrors_program laid (h.statement _ hinner) (hf.statement _ hinner) _ hmoves₁.at_).bind
    fun main c₂ hmain => ?_
  obtain ⟨hc₂, hfits⟩ := (ends_program laid (h.statement _ hinner) _ hmoves₁.at_).of_ok hmain
  have hpassed₂ := (hfirst.passed.trans laid hmoves₁.passed).kept laid hfits.kept
  refine (hf.otherwise _ hinner c₂ hc₂).bind fun section? c' hsection => ?_
  obtain ⟨-, hsection⟩ := (h.otherwise _ hinner c₂ hc₂).of_ok hsection
  have hproper := (hpassed₂.kept laid hsection.kept).proper laid
  exact Mirrors.prev.step ((Mirrors.span hproper.1).step (.pure _))

end Constructs

/-- What is below a level of some number, and below the parts of a run that read as it does. -/
inductive MirrorsBelow (source : List Char) (ts : List Token) :
    Nat → Indexed.Level → Option Level → Prop where
  | lowest (below : Indexed.Level) : MirrorsBelow source ts 0 below none
  | above {n : Nat} {below : Indexed.Level} {level : Level} :
    LevelEnds source ts n level → MirrorsLevel ts n below level →
      MirrorsBelow source ts (n + 1) below (some level)

theorem MirrorsBelow.below {below : Indexed.Level} {below' : Option Level}
    (h : MirrorsBelow source ts n below below') :
    Below source ts n below' := by
  cases h with
  | lowest => exact .lowest
  | above h _ => exact .above h

variable {below : Indexed.Level} {below' : Option Level}
  (hbelow : MirrorsBelow source ts n below below')
  (hlength : opened.length + n = maxNesting)

/-- A construct is opened with the readers below, or refused where there are none. -/
theorem MirrorsBelow.nested {α : Type} {c : Cursor} {x : Step α}
    {read : Level → Except Fault (α × Cursor)} (hbelow : MirrorsBelow source ts n below below')
    (hlength : opened.length + n = maxNesting) (t : Token) (hmore : c.rest ≠ [])
    (h : ∀ m level, n = m + 1 → LevelEnds source ts m level → MirrorsLevel ts m below level →
      Mirrors ts (opened.length + 1) c x (read level)) :
    Mirrors ts opened.length c (Step.nested t x) (match below' with
      | none => .error (tooDeep t)
      | some level => read level) := by
  cases hbelow with
  | lowest => exact .nested_tooDeep x t (by omega) hmore
  | above hends hmirrors => exact .nested t (by omega) (h _ _ rfl hends hmirrors)

/-- So is a construct that starts with a tag. -/
theorem MirrorsBelow.opening {α : Type} {c : Cursor} {x : Token → Step α}
    {read : Level → Except Fault (α × Cursor)} (hbelow : MirrorsBelow source ts n below below')
    (hlength : opened.length + n = maxNesting) (hc : c.At ts .outside opened)
    (htag : c.kind.opensTag = true) (hnests : c.kind.opensNesting = true)
    (h : ∀ m level, n = m + 1 → LevelEnds source ts m level → MirrorsLevel ts m below level →
      Mirrors ts (opened.length + 1) c.advance (x c.here) (read level)) :
    Mirrors ts opened.length c (Step.advance >>= fun t => Step.nested t (x t)) (match below' with
      | none => .error (tooDeep c.here)
      | some level => read level) := by
  have hfirst := hc.moves_opening htag hnests
  have hmore := hc.rest_ne_nil hfirst.passed.kind
  exact (Mirrors.advance hmore).step
    (hbelow.nested hlength c.here hfirst.at_.rest_ne_nil_of_inTag h)

include laid hbelow hlength

/-- Where no level is left below, so many constructs are open that the run refuses too. -/
theorem mirrors_paramOver :
    MirrorsParams ts opened (Indexed.paramOver below) (paramOver below') := by
  intro raw c hc
  have hmore := hc.rest_ne_nil_of_inTag
  unfold paramOver
  refine Mirrors.peek.step (.ite Iff.rfl (fun hkind => ?_) fun _ => mirrors_simpleExpr laid hc)
  have hfirst := hc.moves (Stage.after_word (by rw [hkind]; rfl))
  refine (Mirrors.expect_here hmore hkind).step
    (hbelow.nested hlength c.here hfirst.at_.rest_ne_nil_of_inTag ?_)
  rintro m level rfl hends hmirrors
  have hinner : (c.here :: opened).length + m = maxNesting := by
    rw [List.length_cons]
    omega
  exact mirrors_parenthesised laid hc hkind (hends.param _ hinner) (hmirrors.param _ hinner)

/-- Case by case over the kinds of tokens, each of which starts its own form of statement. -/
theorem mirrors_statementOver :
    MirrorsStatements ts opened (Indexed.statementOver below) (statementOver below') := by
  have hparam := ends_paramOver laid hbelow.below hlength
  have hmirrors := mirrors_paramOver laid hbelow hlength
  intro c hc hstatement
  have heof := kind_ne_eof_of_atProgramEnd hstatement
  have hmore := hc.rest_ne_nil heof
  unfold statementOver
  refine Mirrors.peek.step ?_
  rw [show c.kind = c.here.kind from rfl]
  cases hkind : c.here.kind with
  | content | comment => exact (Mirrors.advance hmore).step (.pure _)
  | openMustache => exact mirrors_mustache laid hparam hmirrors hc (.inl hkind)
  | openUnescaped => exact mirrors_mustache laid hparam hmirrors hc (.inr hkind)
  | openRaw => exact mirrors_rawBlock laid hparam hmirrors hc hkind
  | openPartial => exact mirrors_partialCall laid hparam hmirrors hc hkind
  -- A construct is opened, if one more may be open, and read by the level below.
  | openBlock =>
    refine hbelow.opening hlength hc (by rw [show c.kind = _ from hkind]; rfl)
      (by rw [show c.kind = _ from hkind]; rfl) ?_
    rintro m level rfl hends hmirrors
    exact mirrors_block laid hends hmirrors hc hlength (.inl hkind)
  | openInverted =>
    refine hbelow.opening hlength hc (by rw [show c.kind = _ from hkind]; rfl)
      (by rw [show c.kind = _ from hkind]; rfl) ?_
    rintro m level rfl hends hmirrors
    exact mirrors_block laid hends hmirrors hc hlength (.inr hkind)
  | openPartialBlock =>
    refine hbelow.opening hlength hc (by rw [show c.kind = _ from hkind]; rfl)
      (by rw [show c.kind = _ from hkind]; rfl) ?_
    rintro m level rfl hends hmirrors
    exact mirrors_partialBlock laid hends hmirrors hc hlength hkind
  | _ => exact .unexpected hmore _

/-- A lone `else` is followed by a program at the same level, one with a head by a chained
section. -/
theorem mirrors_otherwiseOver :
    MirrorsSections ts opened (Indexed.otherwiseOver below)
      (otherwiseOver below' (statementOver below')) := by
  have hstatement := ends_statementOver laid hbelow.below hlength
  have hstatements := mirrors_statementOver laid hbelow hlength
  intro c hc
  rw [otherwiseOver_eq]
  refine Mirrors.peek.step ?_
  rw [show c.kind = c.here.kind from rfl]
  cases hkind : c.here.kind with
  | loneElse =>
    have hfirst : Moves ts .outside opened c c.advance :=
      hc.moves_keeping (by rw [show c.kind = _ from hkind]; rfl)
        (by rw [show c.kind = _ from hkind]; rfl)
    refine (Mirrors.advance (hc.rest_ne_nil hfirst.passed.kind)).step ?_
    exact (mirrors_program laid hstatement hstatements [] hfirst.at_).map fun body c' _ => .pure _
  | openElse =>
    have hfirst := hc.moves_opening (by rw [show c.kind = _ from hkind]; rfl)
        (by rw [show c.kind = _ from hkind]; rfl)
    refine (Mirrors.advance (hc.rest_ne_nil hfirst.passed.kind)).step ?_
    cases hbelow with
    | lowest =>
      exact (Mirrors.nested_tooDeep _ c.here (by omega) hfirst.at_.rest_ne_nil_of_inTag).error_bind
    | above hends hmirrors =>
      exact (Mirrors.nested c.here (by omega)
        (mirrors_chain laid hends hmirrors hc hlength hkind)).map fun s c' _ => .pure _
  | _ => exact .pure _

omit hlength in
theorem mirrorsLevel_over :
    MirrorsLevel ts n (Indexed.Level.over below) (Level.over below') where
  param _ hlength := mirrors_paramOver laid hbelow hlength
  statement _ hlength := mirrors_statementOver laid hbelow hlength
  otherwise _ hlength := mirrors_otherwiseOver laid hbelow hlength

omit hbelow hlength in
/-- Every level mirrors the one of its number, by induction: the lowest has none below. -/
theorem mirrorsLevel_ofNat (n : Nat) :
    MirrorsLevel ts n (Indexed.Level.ofNat (n + 1)) (Level.ofNat n) := by
  induction n with
  | zero => exact mirrorsLevel_over laid (.lowest _)
  | succ n ih => exact mirrorsLevel_over laid (.above (levelEnds_ofNat laid n) ih)

end Levels

/-! ## Templates -/

section Templates

variable {source : List Char} {ts : List Token} (laid : Laid source ts)

include laid

/-- What ends the root program decides alike in both. -/
theorem mirrors_rootOf {c : Cursor} (hc : c.At ts .outside []) (root : Program Span) :
    Mirrors ts 0 c (Indexed.rootOf root) (rootOf root c) := by
  refine Mirrors.peek.step ?_
  rw [rootOf, show c.kind = c.here.kind from rfl]
  cases hkind : c.here.kind with
  | eof => exact .pure _
  | openEnd =>
    have hfirst := hc.moves (by rw [show c.kind = _ from hkind]; rfl)
    refine (Mirrors.advance (hc.rest_ne_nil hfirst.passed.kind)).step ?_
    refine (mirrors_simpleExpr laid hfirst.at_).bind fun name c' hname => ?_
    obtain ⟨hmoves, -⟩ := (ends_simpleExpr laid hfirst.at_).of_ok hname
    exact .fail _ hmoves.at_.rest_ne_nil_of_inTag
  | loneElse | openElse =>
    exact .fail _ (hc.rest_ne_nil (by rw [show c.kind = _ from hkind]; decide))
  | _ => exact .unexpected (hc.rest_ne_nil (by rw [show c.kind = _ from hkind]; decide)) none

/-- The template is read by the topmost level with nothing open. -/
theorem mirrors_template :
    Mirrors ts 0 (Cursor.ofTokens ts) Indexed.template
      ((program (Level.ofNat maxNesting).statement []).bind rootOf (Cursor.ofTokens ts)) := by
  have hlevel : LevelEnds source ts maxNesting (Level.ofNat maxNesting) :=
    levelEnds_ofNat laid maxNesting
  have hmirrors : MirrorsLevel ts maxNesting (Indexed.Level.ofNat (maxNesting + 1))
      (Level.ofNat maxNesting) :=
    mirrorsLevel_ofNat laid maxNesting
  have hstatement := hlevel.statement [] rfl
  have hc := at_ofTokens laid
  refine (mirrors_program laid hstatement (hmirrors.statement [] rfl) [] hc).bind
    fun root c hroot => ?_
  obtain ⟨hend, -⟩ := (ends_program laid hstatement [] hc).of_ok hroot
  exact mirrors_rootOf laid hend root

theorem standsAt_start : StandsAt ts (Cursor.ofTokens ts) {} := by
  cases ts with
  | nil => cases laid.last
  | cons t ts => exact ⟨rfl, rfl, Nat.zero_le _, nofun⟩

/-- A run over the tokens of a template does not go wrong, leaves no construct open, and comes to
what the grammar says of them. At their end only a block that is not closed is a fault. -/
theorem run_template :
    ∃ s, Indexed.template ts {} = some (template? ts, s) ∧ s.depth = 0 ∧
      ∀ f, template? ts = .error f → s.seen = ts.length →
        ∃ name, f.cause = .unclosedBlock name := by
  obtain ⟨⟨r, s⟩, hrun, hcomes⟩ := mirrors_template laid {} (standsAt_start laid) rfl
  rw [template?_eq]
  generalize (program (Level.ofNat maxNesting).statement []).bind rootOf (Cursor.ofTokens ts) =
    result at hcomes ⊢
  cases hcomes with
  | ok hdepth hs => exact ⟨s, hrun, hdepth, nofun⟩
  | error hdepth hseen =>
    refine ⟨s, hrun, hdepth, ?_⟩
    rintro _ ⟨⟩
    exact hseen

end Templates

end Stencil.Syntax

namespace Stencil.Template

open Stencil.Syntax

/-- The tokens of a template fall into groups, and then comes the end. A run over them does not go
wrong: it looks at no token beyond the last one, never passes that, and makes no span that ends
before it starts. It comes to what the grammar says of the tokens. That the source ended where more
was expected is never what it comes to, and where it has looked at the end, its fault is that a
block is not closed. Nor do other errors say that the source ended. -/
theorem tokens_grouped (source : String) :
    (∀ ts, tokens? source.toList = .ok ts →
        (∃ tokens ending, ts = tokens ++ [⟨.eof, ending, []⟩] ∧ InGroups tokens) ∧
          ∃ s, Indexed.template ts {} = some (template? ts, s) ∧
            ∀ f, template? ts = .error f → (∀ expected, f.cause ≠ .unexpectedEnd expected) ∧
              (s.seen = ts.length → ∃ name, f.cause = .unclosedBlock name)) ∧
      ∀ options e, readAsWritten options source = .error e →
        ∀ expected, e.cause ≠ .unexpectedEnd expected := by
  constructor
  · intro ts htokens
    have laid := laid_of_tokens? htokens
    refine ⟨(grouped_of_tokens? htokens).groups, ?_⟩
    obtain ⟨s, hrun, -, hseen⟩ := run_template laid
    exact ⟨s, hrun, fun f hfault => ⟨(sound_of_template? laid hfault).notEnd, hseen f hfault⟩⟩
  · intro options e h
    obtain ⟨f, hread, rfl⟩ := readAsWritten_eq_error_iff.1 h
    rcases read?_eq_error_iff.1 hread with htokens | ⟨ts, htokens, htree⟩
    · -- What the scanner cannot go on with has a cause of its own.
      have hlexical := (faults_of_tokens? htokens).cause
      rintro expected hcause
      rw [show f.cause = _ from hcause] at hlexical
      cases hlexical
    · exact (sound_of_template? (laid_of_tokens? htokens) htree).notEnd

/-- A block with a raw block in it that is not closed. -/
theorem tokens_grouped_unclosed :
    let source :=
      "\x7b\x7b#if a\x7d\x7d\x7b\x7b\x7b\x7br\x7d\x7d\x7d\x7dx\x7b\x7b\x7b\x7b/r\x7d\x7d\x7d\x7d"
    ∃ ts tokens ending s f e, tokens? source.toList = .ok ts ∧ ts = tokens ++ [⟨.eof, ending, []⟩] ∧
      InGroups tokens ∧
      template? ts = .error f ∧ Indexed.template ts {} = some (.error f, s) ∧ s.seen = ts.length ∧
      (∃ name, f.cause = .unclosedBlock name) ∧ readAsWritten {} source = .error e ∧
      ∀ expected, e.cause ≠ .unexpectedEnd expected := by
  intro source
  have hrun : ((tokens? source.toList).toOption.bind fun ts => (Indexed.template ts {}).map fun r =>
      (r.1.map fun _ => (), r.2.seen == ts.length)) =
        some (.error ⟨.unclosedBlock "if", ⟨0, 9⟩, []⟩, true) := by decide +kernel
  cases htokens : tokens? source.toList with
  | error f =>
    rw [htokens] at hrun
    cases hrun
  | ok ts =>
    obtain ⟨⟨tokens, ending, hts, hgroups⟩, s, hindexed, hfaults⟩ :=
      (tokens_grouped source).1 ts htokens
    rw [htokens] at hrun
    change ((Indexed.template ts {}).map _) = _ at hrun
    rw [hindexed] at hrun
    cases htree : template? ts with
    | ok root =>
      rw [htree] at hrun
      cases hrun
    | error f =>
      rw [htree] at hrun hindexed
      obtain ⟨-, hseen⟩ := Prod.mk.inj (Option.some.inj hrun)
      have hlast : s.seen = ts.length := by simpa using hseen
      have hread : ∃ e, readAsWritten {} source = .error e :=
        ⟨_, readAsWritten_eq_error_iff.2 ⟨f, read?_eq_error_iff.2 (.inr ⟨ts, htokens, htree⟩), rfl⟩⟩
      obtain ⟨e, herror⟩ := hread
      exact ⟨ts, tokens, ending, s, f, e, rfl, hts, hgroups, htree, hindexed, hlast,
        (hfaults f htree).2 hlast, herror, (tokens_grouped source).2 {} e herror⟩

end Stencil.Template
