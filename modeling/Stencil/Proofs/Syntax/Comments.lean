import Mathlib.Data.List.Infix
import Stencil.Proofs.Syntax.Mustaches

/-!
# Comments

A comment has two forms. The short one ends at the first closing braces (`commentFrom_short`), the
long one at the first closing braces with two dashes before them (`commentFrom_long`), so that it
may hold closing braces of its own. What the tree keeps is the text between the delimiters
(`commentText_shortTag`, `commentText_longTag`), except that two dashes are taken from the end of
either form: in the short one they are no delimiter, and part of the text is lost
(`Template.read_comments_iff`).
-/

set_option autoImplicit false

namespace Stencil.Syntax

open Stencil.Text
open Stencil.Tree (Comment Statement Program)

/-- The two dashes between which a long comment stands. -/
def dashes : List Char := ['-', '-']

/-- The comment of a text in the short form. -/
def shortTag (text : List Char) : List Char := openBraces ++ ['!'] ++ text ++ closeBraces

/-- The comment of a text in the long form. -/
def longTag (text : List Char) : List Char :=
  openBraces ++ '!' :: dashes ++ (text ++ dashes) ++ closeBraces

/-- The text has no closing braces and does not touch the delimiters of the short form: it does not
start with the dashes of the long one, and it does not end with a brace or a strip marker. -/
structure FitsShort (text : List Char) : Prop where
  noBraces : ¬ closeBraces <:+: text
  noDashes : ¬ dashes <+: text
  noBrace : ¬ ['\x7d'] <:+ text
  noStrip : ¬ ['~'] <:+ text

instance (text : List Char) : Decidable (FitsShort text) :=
  decidable_of_iff (¬ closeBraces <:+: text ∧ ¬ dashes <+: text ∧ ¬ ['\x7d'] <:+ text ∧
    ¬ ['~'] <:+ text)
    ⟨fun h => ⟨h.1, h.2.1, h.2.2.1, h.2.2.2⟩,
      fun h => ⟨h.noBraces, h.noDashes, h.noBrace, h.noStrip⟩⟩

/-- The text has no closing braces that would end a comment in the long form. -/
structure FitsLong (text : List Char) : Prop where
  noEnd : ¬ dashes ++ closeBraces <:+: text
  noStripEnd : ¬ dashes ++ ['~'] ++ closeBraces <:+: text

instance (text : List Char) : Decidable (FitsLong text) :=
  decidable_of_iff (¬ dashes ++ closeBraces <:+: text ∧ ¬ dashes ++ ['~'] ++ closeBraces <:+: text)
    ⟨fun h => ⟨h.1, h.2⟩, fun h => ⟨h.noEnd, h.noStripEnd⟩⟩

theorem FitsLong.of_noBraces {text : List Char} (h : ¬ closeBraces <:+: text) : FitsLong text where
  noEnd hin := h ((List.suffix_append _ _).isInfix.trans hin)
  noStripEnd hin := h ((List.suffix_append _ _).isInfix.trans hin)

variable {r : Rest} {text body rest : List Char}

/-! ## Where a comment ends -/

/-- Closing braces are found after a text in which they do not occur, also not with the first of
those found. -/
theorem breakOn_closeBraces (h : ¬ closeBraces <:+: text ++ ['\x7d']) (rest : List Char) :
    breakOn closeBraces (text ++ (closeBraces ++ rest)) = (text, closeBraces ++ rest) := by
  -- Braces found earlier would lie in the text and the first brace after it.
  induction text with
  | nil => rfl
  | cons c text ih =>
    have hlater : ¬ closeBraces <:+: text ++ ['\x7d'] := fun hin => h (List.infix_cons hin)
    have hhere : ¬ closeBraces <+: c :: (text ++ (closeBraces ++ rest)) := by
      intro hfront
      have hshort : c :: (text ++ ['\x7d']) <+: c :: (text ++ (closeBraces ++ rest)) :=
        ⟨'\x7d' :: rest, by simp [closeBraces]⟩
      have hlength : closeBraces.length ≤ (c :: (text ++ ['\x7d'])).length := by simp [closeBraces]
      exact h (List.prefix_of_prefix_length_le hfront hshort hlength).isInfix
    rw [List.cons_append, breakOn, if_neg (startsWith_iff.not.2 hhere), ih hlater]

theorem FitsShort.noBraces_concat (h : FitsShort text) : ¬ closeBraces <:+: text ++ ['\x7d'] := by
  rw [List.infix_concat_iff]
  rintro (⟨front, hfront⟩ | hin)
  · have hlast : front ++ ['\x7d'] ++ ['\x7d'] = text ++ ['\x7d'] := by
      rw [← hfront]; simp [closeBraces]
    exact h.noBrace ⟨front, List.append_cancel_right hlast⟩
  · exact h.noBraces hin

theorem FitsShort.noDashes_append (h : FitsShort text) (rest : List Char) :
    ¬ dashes <+: text ++ (closeBraces ++ rest) := by
  match text, h.noDashes with
  | [], _ => intro hfront; cases (List.cons_prefix_cons.1 hfront).1
  | [c], _ => intro hfront; cases (List.cons_prefix_cons.1 (List.cons_prefix_cons.1 hfront).2).1
  | c :: d :: text, hdashes =>
    intro hfront
    exact hdashes (List.prefix_of_prefix_length_le hfront (List.prefix_append _ _)
      (by simp [dashes]))

theorem tag_short (h : r.chars = openBraces ++ ['!'] ++ body) (hbody : ¬ dashes <+: body) :
    tag r = commentFrom r (openBraces ++ ['!']) false := by
  rw [tag, h]
  show (if startsWith dashes body then commentFrom r (openBraces ++ '!' :: dashes) true
    else commentFrom r (openBraces ++ ['!']) false) = _
  exact if_neg (startsWith_iff.not.2 hbody)

theorem tag_long (h : r.chars = openBraces ++ '!' :: dashes ++ body) :
    tag r = commentFrom r (openBraces ++ '!' :: dashes) true := by
  rw [tag, h]
  rfl

/-- A short comment ends at the first closing braces. -/
theorem commentFrom_short {opener : List Char}
    (h : r.chars = opener ++ (text ++ (closeBraces ++ rest))) (htext : FitsShort text) :
    commentFrom r opener false =
      .ok ([r.token .comment (opener ++ text ++ closeBraces)],
        r.skip (opener ++ text ++ closeBraces)) := by
  rw [commentFrom, h, List.drop_left]
  dsimp only
  rw [if_neg Bool.false_ne_true, breakOn_closeBraces htext.noBraces_concat]
  rfl

/-- The text of a long comment goes on to the first closing braces that may end it. -/
theorem longComment?_append {seen : List Char} (hends : endsComment (text.reverse ++ seen) = true)
    (hfirst : ∀ before after, text = before ++ after → after ≠ [] →
      closeBraces <+: after ++ (closeBraces ++ rest) →
      endsComment (before.reverse ++ seen) = false) :
    longComment? seen (text ++ (closeBraces ++ rest)) = some (seen.reverse ++ text) := by
  -- What was passed over is kept in `seen`, so a character goes there and the rest of the text is a
  -- text again.
  induction text generalizing seen with
  | nil =>
    have hhere : startsWith closeBraces (closeBraces ++ rest) = true :=
      startsWith_iff.2 (List.prefix_append _ _)
    show (if startsWith closeBraces (closeBraces ++ rest) &&
      endsComment seen then some seen.reverse else _) = _
    rw [List.append_nil]
    exact if_pos (Bool.and_eq_true_iff.2 ⟨hhere, hends⟩)
  | cons c text ih =>
    have hhere :
        ¬ (startsWith closeBraces (c :: (text ++ (closeBraces ++ rest))) && endsComment seen) =
        true := by
      rw [Bool.and_eq_true_iff]
      rintro ⟨hfront, hdashes⟩
      have hnot := hfirst [] (c :: text) rfl (List.cons_ne_nil _ _) (startsWith_iff.1 hfront)
      exact Bool.eq_false_iff.1 hnot hdashes
    have hlater : endsComment (text.reverse ++ c :: seen) = true := by simpa using hends
    have hmore := ih hlater fun before after hsplit hsome hfront => by
      simpa using hfirst (c :: before) after (by rw [hsplit]; rfl) hsome hfront
    rw [List.cons_append, longComment?, if_neg hhere, hmore]
    simp

theorem endsComment_reverse_iff :
    endsComment text.reverse = true ↔ dashes <:+ text ∨ dashes ++ ['~'] <:+ text := by
  rw [← List.reverse_prefix, ← List.reverse_prefix, endsComment, Bool.or_eq_true_iff,
    startsWith_iff, startsWith_iff]
  rfl

/-- Closing braces do not start at the dashes after a text or before them. -/
theorem exists_closeBraces {before after more : List Char}
    (hsplit : text ++ dashes = before ++ after) (hsome : after ≠ [])
    (hfront : closeBraces <+: after ++ more) :
    ∃ rest, text = before ++ (closeBraces ++ rest) := by
  -- The place is among the dashes, or it is in the text with at least the two braces between it and
  -- the dashes.
  rcases List.append_eq_append_iff.1 hsplit with ⟨dash, -, hdash⟩ | ⟨inner, rfl, rfl⟩
  · obtain ⟨c, after, rfl⟩ := List.exists_cons_of_ne_nil hsome
    obtain rfl : c = '-' := by
      have hmem : c ∈ dashes := hdash ▸ by simp
      simpa [dashes] using hmem
    cases (List.cons_prefix_cons.1 hfront).1
  · match inner, hfront with
    | [], hfront => cases (List.cons_prefix_cons.1 hfront).1
    | [c], hfront => cases (List.cons_prefix_cons.1 (List.cons_prefix_cons.1 hfront).2).1
    | c :: d :: inner, hfront =>
      obtain ⟨rfl, hnext⟩ := List.cons_prefix_cons.1 hfront
      obtain ⟨rfl, -⟩ := List.cons_prefix_cons.1 hnext
      exact ⟨inner, rfl⟩

/-- A long comment ends at the first closing braces after two dashes, perhaps with a strip marker
between. -/
theorem commentFrom_long {opener : List Char}
    (h : r.chars = opener ++ (text ++ dashes ++ (closeBraces ++ rest)))
    (htext : FitsLong text) :
    commentFrom r opener true =
      .ok ([r.token .comment (opener ++ (text ++ dashes) ++ closeBraces)],
        r.skip (opener ++ (text ++ dashes) ++ closeBraces)) := by
  have hfound : longComment? [] (text ++ dashes ++ (closeBraces ++ rest)) =
      some (text ++ dashes) := by
    refine longComment?_append ?_ fun before after hsplit hsome hfront => ?_
    · rw [List.append_nil]
      exact endsComment_reverse_iff.2 (.inl (List.suffix_append _ _))
    · -- Braces that end the comment earlier stand in the text, and so do the dashes before them.
      obtain ⟨inner, rfl⟩ := exists_closeBraces hsplit hsome hfront
      rw [List.append_nil, Bool.eq_false_iff, Ne, endsComment_reverse_iff]
      rintro (⟨front, rfl⟩ | ⟨front, rfl⟩)
      · exact htext.noEnd ⟨front, inner, by simp⟩
      · exact htext.noStripEnd ⟨front, inner, by simp⟩
  rw [commentFrom, h, List.drop_left]
  dsimp only
  rw [if_pos rfl, hfound]

/-! ## What is kept of a comment -/

/-- A text without a pattern at its start. -/
def dropFront (pat cs : List Char) : List Char :=
  if startsWith pat cs then cs.drop pat.length else cs

/-- A text without a pattern at its end. -/
def dropBack (pat cs : List Char) : List Char :=
  if endsWith pat cs then cs.take (cs.length - pat.length) else cs

theorem dropFront_append (pat cs : List Char) : dropFront pat (pat ++ cs) = cs := by
  rw [dropFront, if_pos (startsWith_iff.2 (List.prefix_append _ _)), List.drop_left]

theorem dropFront_of_not {pat cs : List Char} (h : ¬ pat <+: cs) : dropFront pat cs = cs :=
  if_neg (startsWith_iff.not.2 h)

theorem dropBack_append (pat cs : List Char) : dropBack pat (cs ++ pat) = cs := by
  rw [dropBack, if_pos (endsWith_iff.2 (List.suffix_append _ _)), List.length_append,
    Nat.add_sub_cancel, List.take_left]

theorem dropBack_of_not {pat cs : List Char} (h : ¬ pat <:+ cs) : dropBack pat cs = cs :=
  if_neg (endsWith_iff.not.2 h)

/-- The delimiters are taken away one after the other, those of both forms from every comment. -/
theorem commentText_eq (text : List Char) : commentText text =
    dropBack dashes (dropBack ['~'] (dropBack closeBraces
      (dropFront dashes (dropFront ['!'] (dropFront ['~'] (dropFront openBraces text)))))) := rfl

/-- A comment that opens without a strip marker loses its opening delimiter and perhaps the dashes
after it. -/
theorem commentText_opened (body : List Char) : commentText (openBraces ++ (['!'] ++ body)) =
    dropBack dashes (dropBack ['~'] (dropBack closeBraces (dropFront dashes body))) := by
  have hnone : ¬ ['~'] <+: ['!'] ++ body := by
    intro h
    cases (List.cons_prefix_cons.1 h).1
  rw [commentText_eq, dropFront_append, dropFront_of_not hnone, dropFront_append]

theorem commentText_shortTag (h : FitsShort text) :
    commentText (shortTag text) = dropBack dashes text := by
  have hplain : ¬ dashes <+: text ++ closeBraces := h.noDashes_append []
  -- No dashes were taken at the start, and yet those at the end are.
  rw [shortTag, List.append_assoc, List.append_assoc, commentText_opened, dropFront_of_not hplain,
    dropBack_append, dropBack_of_not h.noStrip]

theorem not_strip_suffix_dashes (text : List Char) : ¬ ['~'] <:+ text ++ dashes := by
  rintro ⟨front, hfront⟩
  simpa [dashes] using congrArg List.getLast? hfront

theorem commentText_longTag (text : List Char) : commentText (longTag text) = text := by
  have hsource : longTag text = openBraces ++
      (['!'] ++ (dashes ++ (text ++ dashes ++ closeBraces))) := by
    simp [longTag]
  rw [hsource, commentText_opened, dropFront_append, dropBack_append,
    dropBack_of_not (not_strip_suffix_dashes text), dropBack_append]

/-! ## Reading a comment -/

/-- A comment has no strip markers if it opens without one and its text does not end with one. -/
theorem stripOf_comment {t : Token} (h : t.text = openBraces ++ '!' :: text ++ closeBraces)
    (hlast : ¬ ['~'] <:+ '!' :: text) : stripOf t t = {} := by
  have hbefore : t.stripsBefore = false := by rw [Token.stripsBefore, h]; rfl
  -- The marker at the end is looked for as the third character from the back.
  have hthird : t.text.reverse[2]? = ('!' :: text).getLast? := by
    have hreverse : t.text.reverse = closeBraces ++ (('!' :: text).reverse ++ openBraces) := by
      rw [h, List.reverse_append, List.reverse_append]
      rfl
    rw [hreverse, List.getElem?_append_right (by decide), List.getLast?_eq_head?_reverse,
      List.head?_eq_getElem?]
    exact List.getElem?_append_left (by simp [closeBraces])
  have hafter : t.stripsAfter = false := by
    rw [Token.stripsAfter, hthird, beq_eq_false_iff_ne]
    intro hmark
    obtain ⟨front, hfront⟩ := List.getLast?_eq_some_iff.1 hmark
    exact hlast ⟨front, hfront.symm⟩
  rw [stripOf, hbefore, hafter]

/-- The tokens of a template that is one comment. -/
theorem tokens?_of_comment {source : List Char} (h : source = openBraces ++ body)
    (htag : tag ⟨0, source⟩ = .ok ([⟨.comment, 0, source⟩], (⟨0, source⟩ : Rest).skip source)) :
    tokens? source = .ok [⟨.comment, 0, source⟩, ⟨.eof, size source, []⟩] := by
  have hpiece : piece ⟨0, source⟩ =
      .ok ([⟨.comment, 0, source⟩], (⟨0, source⟩ : Rest).skip source) :=
    (piece_of_openBraces h).trans htag
  have hend : ((⟨0, source⟩ : Rest).skip source).chars = [] := List.drop_length
  have hlength : source.length = body.length + 1 + 1 := by rw [h]; rfl
  have hsome : source.isEmpty = false := by rw [h]; rfl
  rw [tokens?, hlength, pieces, hsome, if_neg Bool.false_ne_true, hpiece]
  dsimp only
  rw [pieces_nil hend]
  simp [Rest.token, Rest.skip]

/-- The statement of a comment at any level. -/
theorem statement_comment (n : Nat) {c : Cursor} (h : c.kind = .comment) :
    (Level.ofNat n).statement c =
      .ok (.comment ⟨String.ofList (commentText c.here.text), stripOf c.here c.here, c.here.span⟩,
        c.advance) := by
  have reads : ∀ below, statementOver below c =
      .ok (.comment ⟨String.ofList (commentText c.here.text), stripOf c.here c.here, c.here.span⟩,
        c.advance) := by
    intro below
    unfold statementOver
    rw [h]
  cases n with
  | zero => exact reads none
  | succ n => exact reads _

/-- The tree of a template that is one comment. -/
theorem template?_of_comment {t eof : Token} (hkind : t.kind = .comment) (heof : eof.kind = .eof) :
    template? [t, eof] =
      .ok ⟨[.comment ⟨String.ofList (commentText t.text), stripOf t t, t.span⟩], [], false,
        ⟨0, eof.stop⟩⟩ := by
  let c : Cursor := Cursor.ofTokens [t, eof]
  have hcomment : c.kind = .comment := hkind
  have hstart : atProgramEnd c = false := by rw [atProgramEnd, hcomment]
  have hrest : c.advance.tokens = [] ++ [eof] := rfl
  have hnone : ∀ t ∈ ([] : List Token), t.kind = .content := fun _ ht => absurd ht List.not_mem_nil
  exact template?_of_statement hstart (statement_comment maxNesting hcomment)
    hrest Nat.zero_lt_one hnone heof

end Stencil.Syntax

namespace Stencil.Tree

variable {ℓ : Type}

/-- Nothing is cut for a comment on its own. -/
theorem Program.layout_of_comment (ignoreStandalone root : Bool) (c : Comment ℓ)
    (blockParams : List String) (chained : Bool) (mark : ℓ) :
    Program.layout ignoreStandalone root ⟨[.comment c], blockParams, chained, mark⟩ =
      ⟨[.comment c], blockParams, chained, mark⟩ := by
  obtain ⟨value, ⟨before, after⟩, place⟩ := c
  -- Whether the comment stands alone and whether it strips decide what is looked for, and there is
  -- no text to cut.
  cases before <;> cases ignoreStandalone <;> cases root <;> rfl

end Stencil.Tree

namespace Stencil.Template

open Stencil.Syntax
open Stencil.Tree (Statement Program)

/-- The template is read as one comment of this text, and the comment has no strip markers. -/
def ReadsComment (options : ReadOptions) (source text : List Char) : Prop :=
  ∃ tree c, read options (String.ofList source) = .ok tree ∧ tree.body = [.comment c] ∧
    c.value = String.ofList text ∧ c.strip = {}

variable {options : ReadOptions} {source text : List Char}

theorem ReadsComment.text_eq {other : List Char} (h : ReadsComment options source text)
    (hother : ReadsComment options source other) : text = other := by
  obtain ⟨tree, c, hread, hbody, hvalue, -⟩ := h
  obtain ⟨tree', c', hread', hbody', hvalue', -⟩ := hother
  obtain rfl := Except.ok.inj (hread.symm.trans hread')
  obtain rfl : c = c' := by simpa using hbody.symm.trans hbody'
  exact String.ofList_injective (hvalue.symm.trans hvalue')

/-- A template that is one token of a comment is read as this comment. -/
theorem readsComment_of_token (options : ReadOptions) {stop : Token} (hstop : stop.kind = .eof)
    (h : tokens? source = .ok [⟨.comment, 0, source⟩, stop])
    (hstrip : stripOf ⟨.comment, 0, source⟩ ⟨.comment, 0, source⟩ = {}) :
    ReadsComment options source (commentText source) := by
  let t : Token := ⟨.comment, 0, source⟩
  let f := locate options (String.ofList source)
  let c : Tree.Comment Text.Span := ⟨String.ofList (commentText source), stripOf t t, t.span⟩
  have htree : read? (String.ofList source).toList = .ok
      ⟨[.comment c], [], false, ⟨0, stop.stop⟩⟩ := by
    rw [String.toList_ofList, read?, h]
    exact template?_of_comment (t := t) rfl hstop
  refine ⟨⟨[.comment (c.mapMark f)], [], false, f ⟨0, stop.stop⟩⟩, c.mapMark f, ?_, rfl,
    rfl, hstrip⟩
  rw [read_eq, htree]
  exact congrArg Except.ok (Program.layout_of_comment _ _ (c.mapMark f) _ _ _)

/-- The short form is read as a comment of the text, less two dashes at its end. -/
theorem readsComment_shortTag (options : ReadOptions) (h : FitsShort text) :
    ReadsComment options (shortTag text) (dropBack dashes text) := by
  have hsource : shortTag text = openBraces ++ ['!'] ++ (text ++ (closeBraces ++ [])) := by
    simp [shortTag]
  have hlast : ¬ ['~'] <:+ '!' :: text := by
    rw [List.suffix_cons_iff]
    rintro (hwhole | hback)
    · cases (List.cons.inj hwhole).1
    · exact h.noStrip hback
  have htext : shortTag text = openBraces ++ '!' :: text ++ closeBraces := by simp [shortTag]
  rw [← commentText_shortTag h]
  refine readsComment_of_token options rfl (tokens?_of_comment hsource ?_)
    (stripOf_comment htext hlast)
  rw [tag_short hsource (h.noDashes_append []), commentFrom_short hsource h]
  rfl

/-- The long form is read as a comment of the text. -/
theorem readsComment_longTag (options : ReadOptions) (h : FitsLong text) :
    ReadsComment options (longTag text) text := by
  have hsource : longTag text = openBraces ++ '!' :: dashes ++
      (text ++ dashes ++ (closeBraces ++ [])) := by
    simp [longTag]
  have hlast : ¬ ['~'] <:+ '!' :: (dashes ++ (text ++ dashes)) :=
    not_strip_suffix_dashes ('!' :: dashes ++ text)
  have hread : ReadsComment options (longTag text) (commentText (longTag text)) := by
    refine readsComment_of_token options rfl (tokens?_of_comment hsource ?_)
      (stripOf_comment ?_ hlast)
    · rw [tag_long hsource, commentFrom_long hsource h]
      rfl
    · rfl
  rwa [commentText_longTag] at hread

/-- A text without closing braces that does not touch the delimiters of the short form is read back
from it exactly if it does not end with two dashes, and one that does is read without them. From the
long form every text is read back that has no closing braces, or none that would end the comment. -/
theorem read_comments_iff (options : ReadOptions) (text : List Char) :
    (FitsShort text → (ReadsComment options (shortTag text) text ↔ ¬ dashes <:+ text) ∧
      ∀ shorter, text = shorter ++ dashes → ReadsComment options (shortTag text) shorter) ∧
    (¬ closeBraces <:+: text ∨ FitsLong text → ReadsComment options (longTag text) text) := by
  refine ⟨fun h => ?_, ?_⟩
  · have hread := readsComment_shortTag options h
    refine ⟨⟨fun hback hdashes => ?_, fun hnone => ?_⟩, ?_⟩
    · obtain ⟨shorter, rfl⟩ := hdashes
      rw [dropBack_append] at hread
      simpa [dashes] using hread.text_eq hback
    · rwa [dropBack_of_not hnone] at hread
    · rintro shorter rfl
      rwa [dropBack_append] at hread
  · rintro (hnone | h)
    · exact readsComment_longTag options (.of_noBraces hnone)
    · exact readsComment_longTag options h

/-- Dashes and strip markers inside a text and at its edges, and a text with braces of its own. -/
theorem read_comments_iff_dashes :
    FitsShort " a -- ~ b-".toList ∧
      shortTag " a -- ~ b-".toList = "\x7b\x7b! a -- ~ b-\x7d\x7d".toList ∧
      ReadsComment {} (shortTag " a -- ~ b-".toList) " a -- ~ b-".toList ∧
    FitsShort "a---".toList ∧ ReadsComment {} (shortTag "a---".toList) "a-".toList ∧
    ¬ closeBraces <:+: "--a~".toList ∧ longTag "--a~".toList = "\x7b\x7b!----a~--\x7d\x7d".toList ∧
      ReadsComment {} (longTag "--a~".toList) "--a~".toList ∧
    FitsLong " \x7b\x7ba\x7d\x7d ".toList ∧
      ReadsComment {} (longTag " \x7b\x7ba\x7d\x7d ".toList) " \x7b\x7ba\x7d\x7d ".toList := by
  have hplain : FitsShort " a -- ~ b-".toList := by decide +kernel
  have hdashes : FitsShort "a---".toList := by decide +kernel
  have hlong : ¬ closeBraces <:+: "--a~".toList := by decide
  have hbraces : FitsLong " \x7b\x7ba\x7d\x7d ".toList := by decide +kernel
  exact ⟨hplain, by decide, ((read_comments_iff {} _).1 hplain).1.2 (by decide), hdashes,
    ((read_comments_iff {} _).1 hdashes).2 "a-".toList (by decide), hlong, by decide,
    (read_comments_iff {} _).2 (.inl hlong), hbraces, (read_comments_iff {} _).2 (.inr hbraces)⟩

/-- The dashes at the end of a short comment are part of its text, and they are lost. -/
theorem shortTag_dashes_lost :
    FitsShort "a--".toList ∧ shortTag "a--".toList = "\x7b\x7b!a--\x7d\x7d".toList ∧
      ¬ ReadsComment {} (shortTag "a--".toList) "a--".toList := by
  have hfits : FitsShort "a--".toList := by decide +kernel
  refine ⟨hfits, by decide, fun hread => ?_⟩
  have hshorter : "a--".toList = dropBack dashes "a--".toList :=
    hread.text_eq (readsComment_shortTag {} hfits)
  exact absurd hshorter (by decide)

end Stencil.Template
