import Stencil.Proofs.Syntax.Mustaches

/-!
# Escaped tags

A text is written as a template with a backslash before each pair of opening braces, so that no tag
opens there (`escapeTags`). The scanner takes such a template apart at these backslashes: each piece
of plain text goes from one pair of braces to the backslash before the next, and the pieces are the
text again (`pieces_escapeTags`). It matters that no pair of braces in the text itself has a
backslash before it, since two backslashes stand for one backslash before a live tag.
-/

set_option autoImplicit false

namespace Stencil.Syntax

open Stencil.Text
open Stencil.Tree (Content Program Statement)

/-- The text with a backslash before every pair of opening braces, read from the left. -/
def escapeTags : List Char → List Char
  | c :: d :: cs =>
    if c = '\x7b' ∧ d = '\x7b' then backslash :: c :: d :: escapeTags cs else c ::
      escapeTags (d :: cs)
  | cs => cs

theorem escapeTags_openBraces (cs : List Char) :
    escapeTags (openBraces ++ cs) = backslash :: (openBraces ++ escapeTags cs) := by
  show escapeTags ('\x7b' :: '\x7b' :: cs) = _
  rw [escapeTags, if_pos ⟨rfl, rfl⟩]
  rfl

theorem startsWith_openBraces_cons {c : Char} {cs : List Char} :
    startsWith openBraces (c :: cs) = true ↔ c = '\x7b' ∧ cs.head? = some '\x7b' := by
  rw [startsWith_iff]
  cases cs with
  | nil => simp [openBraces]
  | cons d cs => simp [openBraces, eq_comm]

/-- The first pair of braces of a text is that of the escaped text, after a backslash. -/
theorem escapeTags_cases (text : List Char) :
    (breakOn openBraces text = (text, []) ∧ escapeTags text = text) ∨
      ∃ before after, text = before ++ (openBraces ++ after) ∧
        escapeTags text = before ++ escapeTags (openBraces ++ after) ∧
          breakOn openBraces (escapeTags text) =
            (before ++ [backslash], openBraces ++ escapeTags after) := by
  fun_induction escapeTags text with
  | case1 c d cs hpair ih =>
    obtain ⟨rfl, rfl⟩ := hpair
    refine .inr ⟨[], cs, rfl, (escapeTags_openBraces cs).symm, rfl⟩
  | case2 c d cs hpair ih =>
    have hfront : startsWith openBraces (c :: d :: cs) = false :=
      Bool.eq_false_iff.2 fun h => hpair
        ((startsWith_openBraces_cons.1 h).imp_right Option.some.inj)
    rcases ih with ⟨hbreak, hsame⟩ | ⟨before, after, htext, hescaped, hbreak⟩
    · refine .inl ⟨?_, by rw [hsame]⟩
      rw [breakOn, if_neg (Bool.eq_false_iff.1 hfront), hbreak]
    · refine .inr ⟨c :: before, after, by rw [htext]; rfl, by rw [hescaped]; rfl, ?_⟩
      have hfront' : startsWith openBraces (c :: escapeTags (d :: cs)) = false := by
        refine Bool.eq_false_iff.2 fun h => ?_
        obtain ⟨hc, hhead⟩ := startsWith_openBraces_cons.1 h
        -- The escaped text starts as the text does, or with a backslash.
        rw [hescaped] at hhead
        cases before with
        | nil =>
          rw [List.nil_append, escapeTags_openBraces] at hhead
          cases hhead
        | cons b before => exact hpair ⟨hc, (List.cons.inj htext).1.trans (Option.some.inj hhead)⟩
      rw [breakOn, if_neg (Bool.eq_false_iff.1 hfront'), hbreak]
      rfl
  | case3 cs hshort =>
    refine .inl ⟨?_, rfl⟩
    cases cs with
    | nil => rfl
    | cons c cs =>
      cases cs with
      | nil =>
        have hfront : startsWith openBraces [c] = false :=
          Bool.eq_false_iff.2 fun h => nomatch (startsWith_openBraces_cons.1 h).2
        rw [breakOn, if_neg (Bool.eq_false_iff.1 hfront)]
        rfl
      | cons d cs => exact absurd rfl (hshort c d cs)

theorem eq_nil_of_escapeTags {text : List Char} (h : escapeTags text = []) : text = [] := by
  rcases escapeTags_cases text with ⟨-, hsame⟩ | ⟨before, after, -, hescaped, -⟩
  · exact hsame.symm.trans h
  · rw [hescaped, escapeTags_openBraces] at h
    cases (List.append_eq_nil_iff.1 h).2

/-- A text without tags needs no escaping. -/
theorem escapeTags_of_noTag {text : List Char} (h : NoTag text) : escapeTags text = text := by
  rcases escapeTags_cases text with ⟨-, hsame⟩ | ⟨before, after, rfl, -, -⟩
  · exact hsame
  · exact absurd ⟨before, after, List.append_assoc ..⟩ h

/-- No pair of opening braces has a backslash before it. -/
def NoEscape (text : List Char) : Prop := ¬ backslash :: openBraces <:+: text

instance (text : List Char) : Decidable (NoEscape text) := inferInstanceAs (Decidable (¬ _))

theorem NoEscape.of_infix {text part : List Char} (h : NoEscape text) (hpart : part <:+: text) :
    NoEscape part :=
  fun hescape => h (hescape.trans hpart)

/-- What stands before a pair of braces does not end with a backslash. -/
theorem NoEscape.not_endsWith {before after : List Char}
    (h : NoEscape (before ++ (openBraces ++ after))) :
    endsWith [backslash, backslash] (before ++ [backslash]) = false := by
  refine Bool.eq_false_iff.2 fun hends => ?_
  obtain ⟨front, hfront⟩ := endsWith_iff.1 hends
  have hbefore : front ++ [backslash] = before := by
    have hconcat : front ++ [backslash] ++ [backslash] = before ++ [backslash] := by
      rw [List.append_assoc]
      exact hfront
    exact List.append_cancel_right hconcat
  refine h ⟨front, after, ?_⟩
  rw [← hbefore]
  simp

theorem endsWith_concat (cs : List Char) (c : Char) : endsWith [c] (cs ++ [c]) = true :=
  endsWith_iff.2 (List.suffix_append cs [c])

/-- An escaped tag stands for the braces and the text up to the backslash before the next pair of
braces. -/
theorem verbatim_escapeTags {after : List Char} (h : NoEscape after) :
    ∃ text more, after = text ++ more ∧ escapeTags after = text ++ escapeTags more ∧
      verbatim (openBraces ++ escapeTags after) = openBraces ++ text := by
  have hdrop : (openBraces ++ escapeTags after).drop 2 = escapeTags after := rfl
  rcases escapeTags_cases after with ⟨hbreak, hsame⟩ | ⟨before, rest, rfl, hescaped, hbreak⟩
  · refine ⟨after, [], (List.append_nil _).symm, by rw [hsame]; exact (List.append_nil _).symm, ?_⟩
    unfold verbatim
    rw [hdrop, hsame, hbreak]
    rfl
  · refine ⟨before, openBraces ++ rest, rfl, hescaped, ?_⟩
    unfold verbatim
    rw [hdrop, hbreak]
    dsimp only
    rw [if_neg (by simp [openBraces]), h.not_endsWith, if_neg Bool.false_ne_true, endsWith_concat,
      if_pos rfl, List.dropLast_concat]

theorem flatMap_contentOf (r : Rest) (text : List Char) :
    (contentOf r text).flatMap Token.text = text := by
  unfold contentOf
  split
  · rename_i hempty
    exact (List.isEmpty_iff.1 hempty).symm
  · exact List.append_nil text

/-- Where a single backslash stands before a tag, the piece goes on with the verbatim text of the
tag. -/
theorem piece_of_escaped_tag {r : Rest} {before after : List Char}
    (h : breakOn openBraces r.chars = (before ++ [backslash], openBraces ++ after))
    (hends : endsWith [backslash, backslash] (before ++ [backslash]) = false) :
    let opened := r.skip (before ++ [backslash])
    let shown := verbatim (openBraces ++ after)
    piece r = .ok (contentOf r before ++ [opened.token .content shown], opened.skip shown) := by
  rw [piece, h]
  dsimp only
  rw [if_neg (by simp [openBraces]), hends, if_neg Bool.false_ne_true, endsWith_concat, if_pos rfl,
    List.dropLast_concat]

/-- The first piece of an escaped text is plain text, up to the end or to a backslash. -/
theorem piece_escapeTags {text : List Char} (h : NoEscape text) (some_ : text ≠ []) {r : Rest}
    (hchars : r.chars = escapeTags text) :
    ∃ ts left front more, piece r = .ok (ts, left) ∧ (∀ t ∈ ts, t.kind = .content) ∧
      text = front ++ more ∧
      ts.flatMap Token.text = front ∧ left.chars = escapeTags more ∧
        left.chars.length < r.chars.length := by
  have hsplit := breakOn_append openBraces r.chars
  rcases escapeTags_cases text with ⟨hbreak, hsame⟩ | ⟨before, after, rfl, hescaped, hbreak⟩
  · -- No tag is left.
    rw [hsame] at hchars
    have hpiece : piece r = .ok (contentOf r text, r.skip text) := by
      subst hchars
      exact piece_of_breakOn hbreak
    have hleft : (r.skip text).chars = [] := by
      rw [Rest.skip, hchars]
      exact List.drop_length
    refine ⟨_, _, text, [], hpiece, kind_of_mem_contentOf,
      (List.append_nil _).symm, flatMap_contentOf r text, hleft, ?_⟩
    rw [hleft, hchars]
    exact List.length_pos_iff.2 some_
  · -- A backslash stands before the next tag, so the piece goes on over the braces as text.
    rw [hchars, hbreak] at hsplit
    have hafter : NoEscape after := h.of_infix ⟨before ++ openBraces, [], by simp⟩
    obtain ⟨shown, more, hmore, hescapedMore, hverbatim⟩ := verbatim_escapeTags hafter
    let opened : Rest := r.skip (before ++ [backslash])
    have hopened : opened.chars = (openBraces ++ shown) ++ escapeTags more := by
      rw [List.append_assoc, ← hescapedMore]
      exact skip_chars (hchars.trans hsplit.symm)
    have hleft : (opened.skip (openBraces ++ shown)).chars = escapeTags more := skip_chars hopened
    have hpiece :
        piece r = .ok (contentOf r before ++ [opened.token .content (openBraces ++ shown)],
          opened.skip (openBraces ++ shown)) := by
      rw [← hchars] at hbreak
      rw [piece_of_escaped_tag hbreak h.not_endsWith, hverbatim]
    refine ⟨_, _, before ++ (openBraces ++ shown), more, hpiece, ?_, by simp [hmore], ?_, hleft, ?_⟩
    · refine List.forall_mem_append.2 ⟨kind_of_mem_contentOf, ?_⟩
      exact List.forall_mem_singleton.2 rfl
    · rw [List.flatMap_append, flatMap_contentOf, List.flatMap_singleton]
      rfl
    · -- The braces are passed over, so less is left.
      have hlength := congrArg List.length hopened
      have hskipped : opened.chars.length ≤ r.chars.length := by
        rw [show opened.chars = r.chars.drop _ from rfl, List.length_drop]
        exact Nat.sub_le _ _
      rw [hleft]
      simp only [List.length_append, openBraces, List.length_cons, List.length_nil] at hlength
      omega

/-- The pieces of an escaped text are plain texts that make up the text. -/
theorem pieces_escapeTags {fuel : Nat} :
    ∀ {text : List Char} {r : Rest}, NoEscape text → r.chars = escapeTags text →
      r.chars.length ≤ fuel →
      ∃ ts eof, pieces fuel r = .ok (ts ++ [eof]) ∧ (∀ t ∈ ts, t.kind = .content) ∧
        eof.kind = .eof ∧
        ts.flatMap Token.text = text := by
  induction fuel with
  | zero =>
    intro text r h hchars hfuel
    have hnone := List.eq_nil_of_length_eq_zero (Nat.le_zero.1 hfuel)
    obtain rfl := eq_nil_of_escapeTags (hchars.symm.trans hnone)
    exact ⟨[], _, pieces_nil hnone 0, nofun, rfl, rfl⟩
  | succ fuel ih =>
    intro text r h hchars hfuel
    by_cases hnone : text = []
    · subst hnone
      exact ⟨[], _, pieces_nil hchars _, nofun, rfl, rfl⟩
    · -- A first piece is taken off, and the rest is an escaped text as well.
      obtain ⟨first, left, front, more, hpiece, hfirst, rfl, hfront, hleft, hlength⟩ :=
        piece_escapeTags h hnone hchars
      obtain ⟨ts, eof, hpieces, hkinds, heof, hmore⟩ :=
        ih (h.of_infix (List.suffix_append front more).isInfix) hleft (by omega)
      have hsome : r.chars.isEmpty = false :=
        List.isEmpty_eq_false_iff.2 fun hempty =>
          hnone (eq_nil_of_escapeTags (hchars.symm.trans hempty))
      refine ⟨first ++ ts, eof, ?_, List.forall_mem_append.2 ⟨hfirst, hkinds⟩, heof, ?_⟩
      · rw [pieces, hsome, if_neg Bool.false_ne_true, hpiece]
        dsimp only
        rw [hpieces, List.append_assoc]
      · rw [List.flatMap_append, hfront, hmore]

/-- The contents of tokens have the texts of these. -/
theorem texts_contentStatements (ts : List Token) :
    ∃ contents : List (Content Span), contentStatements ts = contents.map .content ∧
      (contents.flatMap fun c => c.value.toList) = ts.flatMap Token.text := by
  refine ⟨ts.map contentOfToken, (List.map_map ..).symm, ?_⟩
  rw [List.flatMap_map]
  refine List.flatMap_congr fun t _ => ?_
  exact String.toList_ofList

/-- An escaped text is read as contents that make up the text. -/
theorem read?_escapeTags {text : List Char} (h : NoEscape text) :
    ∃ (contents : List (Content Span)) (root : Span),
      read? (escapeTags text) = .ok ⟨contents.map .content, [], false, root⟩ ∧
        (contents.flatMap fun c => c.value.toList) = text := by
  obtain ⟨ts, eof, htokens, hkinds, heof, htext⟩ :=
    pieces_escapeTags (r := ⟨0, escapeTags text⟩) h rfl (Nat.le_refl _)
  obtain ⟨contents, hcontents, hsame⟩ := texts_contentStatements ts
  refine ⟨contents, ⟨0, eof.stop⟩, ?_, hsame.trans htext⟩
  rw [read?, tokens?, htokens, ← hcontents]
  exact template?_of_contents heof hkinds

end Stencil.Syntax

namespace Stencil.Template

open Stencil.Syntax
open Stencil.Text (Location Span)
open Stencil.Tree (Content Statement)

/-- Whatever the options are, an escaped text is read as contents that make up the text, and no
other statements. -/
theorem exists_contents_of_escapeTags (options : ReadOptions) {text : List Char}
    (h : NoEscape text) :
    ∃ (tree : Tree.Located) (contents : List (Content (Option Location))),
      read options (String.ofList (escapeTags text)) = .ok tree ∧
        tree.body = contents.map .content ∧
        tree.blockParams = [] ∧ (contents.flatMap fun c => c.value.toList) = text := by
  obtain ⟨contents, root, hread, htext⟩ := read?_escapeTags h
  rw [← String.toList_ofList (l := escapeTags text)] at hread
  have hunmarked : ∀ s ∈ contents.map Statement.content, s.Unmarked :=
    List.forall_mem_map.2 fun _ _ => trivial
  let f : Span → Option Location := locate options (String.ofList (escapeTags text))
  refine ⟨_, contents.map (Content.mapMark f), read_of_unmarked hread hunmarked, ?_, rfl, ?_⟩
  · show Tree.Statement.mapMarks f (contents.map .content) = _
    rw [Tree.mapMarks_eq_map, List.map_map, List.map_map]
    rfl
  · rw [List.flatMap_map]
    exact htext

end Stencil.Template
