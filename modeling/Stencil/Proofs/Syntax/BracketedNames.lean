import Stencil.Proofs.Syntax.Escapes
import Stencil.Proofs.Syntax.NameTags

/-!
# Names between brackets

Any name can be written as a segment between brackets, with a backslash before each of its
backslashes and closing brackets, and the reader of segments undoes this (`segment_bracketed`). The
scanner does not quite know of it: for it a backslash escapes a bracket whatever stands before the
backslash. So the bracket after a name that ends with a backslash does not close the segment, and a
tag around such a name never shows it (`Template.read_bracketed_iff`).
-/

set_option autoImplicit false

namespace Stencil.Syntax

open Stencil.Text
open Stencil.Tree (Mustache Path Statement)

/-- The segment of a name: the name between brackets, with a backslash before each backslash and
each closing bracket. -/
def bracketed (name : List Char) : List Char := '[' :: escaped [backslash, ']'] name ++ [']']

variable {name text : List Char}

/-- A text between brackets names what it is without its escapes. -/
theorem segment_of_brackets (start : Nat) (inner : List Char) :
    Token.segment ⟨.name, start, '[' :: inner ++ [']']⟩ = unescape inner := by
  have htail : ('[' :: inner ++ [']']).tail.dropLast = inner := List.dropLast_concat
  show (if Token.isBracketed ⟨.name, start, '[' :: inner ++ [']']⟩ then unescape _ else _) = _
  rw [htail]
  rfl

theorem segment_bracketed (start : Nat) (name : List Char) :
    Token.segment ⟨.name, start, bracketed name⟩ = name := by
  have hname := unescape_escaped_append name []
  rw [List.append_nil] at hname
  rw [bracketed, segment_of_brackets, hname]
  exact List.append_nil name

/-- A segment between brackets makes one part. -/
theorem parts_of_brackets (start : Nat) (inner : List Char) :
    ((Steps.written start ('[' :: inner ++ [']']) []).path false).parts =
      [String.ofList (unescape inner)] := by
  rw [← segment_of_brackets start inner]
  rfl

/-- Nothing but words starts as a segment between brackets does. -/
theorem readsAs_brackets {inner rest : List Char}
    (h : throughUnescaped? ']' (inner ++ ']' :: rest) = some (inner ++ [']'], rest)) :
    ReadsAs .name ('[' :: inner ++ [']']) rest := by
  refine ⟨⟨'[', rfl, by decide⟩, .fixed .name, ?_, rfl⟩
  rw [List.append_assoc, List.cons_append, List.singleton_append, word?_of_bracket, h]
  rfl

theorem opensValue_bracket (rest : List Char) : OpensValue ('[' :: rest) :=
  ⟨⟨'[', rfl, by decide⟩, fun _ hword => absurd (List.cons.inj hword).1 (by decide)⟩

/-- A tag around a bracketed name that does not end with a backslash is read as the path of this
name. -/
theorem exists_read?_of_bracketed (h : StandsAfterTag text)
    (hname : name.getLast? ≠ some backslash) :
    ∃ m p stop mark, read? (openBraces ++ (bracketed name ++ (closeBraces ++ text))) =
        .ok ⟨.mustache m :: Statement.ofText text mark, [], false, ⟨0, stop⟩⟩ ∧
      m.strip = {} ∧ m.expr = .path p ∧ p.parts = [String.ofList name] := by
  have hword : ReadsAs .name (bracketed name) (closeBraces ++ text) :=
    readsAs_brackets (throughUnescaped?_escaped (by decide) (by decide) hname _)
  have hwords : ReadsAll (closeBraces ++ text) (Steps.words [] (bracketed name)) := .cons hword .nil
  have hvalue : OpensValue (Steps.text [] (bracketed name) ++ (closeBraces ++ text)) :=
    opensValue_bracket _
  have horderly : (Steps.written 2 (bracketed name) []).Orderly := List.pairwise_singleton _ _
  obtain ⟨m, stop, mark, hread, hstrip, hexpr⟩ :=
    Steps.exists_read?_of_words h hvalue hwords horderly
  refine ⟨m, _, stop, mark, hread, hstrip, hexpr, ?_⟩
  show [String.ofList (Token.segment ⟨.name, 2, bracketed name⟩)] = _
  rw [segment_bracketed]

/-- A tag is not scanned if no word starts where one should. -/
theorem inside_of_word?_none {opened : Nat} {r : Rest} {c : Char} {cs : List Char}
    (hchars : r.chars = c :: cs) (hblank : isBlank c = false) (hbrace : c ≠ '\x7d')
    (htilde : c ≠ '~') (hword : word? (c :: cs) = none) (fuel : Nat) :
    ∃ f, inside opened false (fuel + 1) r = .error f := by
  rw [inside]
  dsimp only
  rw [hchars, leadingBlanks_cons hblank, Rest.skip_nil, hchars, closer?_eq_none hbrace htilde]
  dsimp only
  rw [if_neg htilde, hword]
  split <;> exact ⟨_, rfl⟩

/-- A segment that no bracket closes is not scanned. -/
theorem read?_of_unclosed {rest : List Char} (h : throughUnescaped? ']' rest = none) :
    ∃ f, read? (openBraces ++ '[' :: rest) = .error f := by
  have hword : word? ('[' :: rest) = none := by
    rw [word?_of_bracket, h]
    rfl
  obtain ⟨f, hinside⟩ : ∃ f, inside 0 false (('[' :: rest).length + 1)
      ⟨2, '[' :: rest⟩ = .error f :=
    inside_of_word?_none rfl (by decide) (by decide) (by decide) hword _
  refine ⟨f, ?_⟩
  rw [read?, tokens?_value (opensValue_bracket rest), hinside]
  rfl

/-- In a tag that starts with a segment between brackets, the parts of a path start with that of the
segment. -/
theorem parts_prefix_of_brackets {inner left : List Char}
    (h : throughUnescaped? ']' (inner ++ ']' :: left) = some (inner ++ [']'], left))
    {tree : Tree.Program Span}
    (hread : read? (openBraces ++ ('[' :: inner ++ ']' :: left)) = .ok tree) {m : Mustache Span}
    {more : List (Statement Span)} (hbody : tree.body = .mustache m :: more) {p : Path Span}
    (hexpr : m.expr = .path p) : [String.ofList (unescape inner)] <+: p.parts := by
  have hwords : ReadsAll left (Steps.words [] ('[' :: inner ++ [']'])) :=
    .cons (readsAs_brackets h) .nil
  have hvalue : OpensValue (Steps.text [] ('[' :: inner ++ [']']) ++ left) := opensValue_bracket _
  have hfront : '[' :: inner ++ ']' :: left = Steps.text [] ('[' :: inner ++ [']']) ++ left :=
    List.append_cons ('[' :: inner) ']' left
  rw [hfront] at hread
  have hprefix := Steps.parts_prefix_of_read? hvalue hwords hread hbody hexpr
  rw [parts_of_brackets] at hprefix
  exact hprefix

/-- A tag around a bracketed name that ends with a backslash is not read as a path of this name. -/
theorem parts_ne_of_backslash (hname : name.getLast? = some backslash) {rest : List Char}
    {tree : Tree.Program Span} (hread : read? (openBraces ++ (bracketed name ++ rest)) = .ok tree)
    {m : Mustache Span} {more : List (Statement Span)} (hbody : tree.body = .mustache m :: more)
    {p : Path Span} (hexpr : m.expr = .path p) : p.parts ≠ [String.ofList name] := by
  have hscan : throughUnescaped? ']' (escaped [backslash, ']'] name ++ ']' :: rest) =
      (throughUnescaped? ']' rest).map fun r =>
        (escaped [backslash, ']'] name ++ ']' :: r.1, r.2) :=
    throughUnescaped?_escaped_backslash (by decide) (by decide) (by decide) hname rest
  have hsource : bracketed name ++ rest = '[' ::
      (escaped [backslash, ']'] name ++ ']' :: rest) := by
    simp [bracketed]
  rw [hsource] at hread
  cases hmore : throughUnescaped? ']' rest with
  | none =>
    rw [hmore] at hscan
    obtain ⟨f, hfault⟩ := read?_of_unclosed hscan
    cases hfault.symm.trans hread
  | some found =>
    -- The segment goes on to another bracket, and names more than the name.
    obtain ⟨passed, left⟩ := found
    obtain ⟨between, hpassed⟩ := throughUnescaped?_getLast hmore
    dsimp only at hpassed
    subst hpassed
    have hrest : between ++ [']'] ++ left = rest := throughUnescaped?_append hmore
    let inner : List Char := escaped [backslash, ']'] name ++ ']' :: between
    have hwhole : escaped [backslash, ']'] name ++ ']' :: rest = inner ++ ']' :: left := by
      rw [← hrest]
      simp [inner]
    have hthrough : throughUnescaped? ']' (inner ++ ']' :: left) = some (inner ++ [']'], left) := by
      rw [← hwhole, hscan, hmore]
      simp [inner]
    rw [hwhole] at hread
    have hprefix := parts_prefix_of_brackets hthrough hread hbody hexpr
    have hnamed : unescape inner = name ++ ']' :: unescape between := by
      rw [unescape_escaped_append, unescape_cons_of_ne (by decide)]
    rw [hnamed] at hprefix
    intro hparts
    rw [hparts] at hprefix
    have hsame := String.ofList_injective (List.cons_prefix_cons.1 hprefix).1
    have hlength := congrArg List.length hsame
    rw [List.length_append, List.length_cons] at hlength
    omega

end Stencil.Syntax

namespace Stencil.Template

open Stencil.Syntax
open Stencil.Text

/-- A tag around a name between brackets, with a backslash before each backslash and each closing
bracket of the name, and with plain text after it, is read as a path whose only part is the name,
and as this text, exactly if the name does not end with a backslash. -/
theorem read_bracketed_iff (options : ReadOptions) (name : List Char) {text : List Char}
    (h : StandsAfterTag text) :
    (∃ tree m p mark, read options
      (String.ofList (openBraces ++ (bracketed name ++ (closeBraces ++ text)))) =
        .ok tree ∧
      tree.body = .mustache m :: Tree.Statement.ofText text mark ∧ m.expr = .path p ∧
        p.parts = [String.ofList name]) ↔ name.getLast? ≠ some backslash := by
  constructor
  · rintro ⟨located, n, p, mark, hread, hshown, hpath, hparts⟩ hname
    obtain ⟨tree, m, more, q, htree, hbody, -, hexpr, hmarks⟩ :=
      read?_of_read_cons hread hshown hpath
    rw [String.toList_ofList] at htree
    refine parts_ne_of_backslash hname htree hbody hexpr ?_
    rw [← hparts, ← hmarks]
    rfl
  · intro hname
    obtain ⟨m, p, stop, mark, htree, hstrip, hexpr, hparts⟩ := exists_read?_of_bracketed h hname
    obtain ⟨located, mark', hread, hbody⟩ := read_of_mustache options htree hstrip
    refine ⟨located, _, _, mark', hread, hbody, congrArg (Tree.Expr.mapMark _) hexpr, hparts⟩

/-- A name with a backslash and two brackets in it, and a bracket in the text after the tag. -/
theorem read_bracketed_iff_brackets :
    StandsAfterTag " ]\x7d\x7d".toList ∧ bracketed "a\\b]]".toList = "[a\\\\b\\]\\]]".toList ∧
    ∃ tree m p mark, read {} "\x7b\x7b[a\\\\b\\]\\]]\x7d\x7d ]\x7d\x7d" = .ok tree ∧
      tree.body = .mustache m :: Tree.Statement.ofText " ]\x7d\x7d".toList mark ∧ m.expr = .path p ∧
        p.parts = ["a\\b]]"] := by
  have stands : StandsAfterTag " ]\x7d\x7d".toList := by decide
  have hread := (read_bracketed_iff {} "a\\b]]".toList stands).2 (by decide)
  exact ⟨stands, by decide, hread⟩

/-- The bracket after a name that ends with a backslash does not close its segment, and no other
does. -/
theorem bracketed_backslash_unread :
    bracketed ['a', backslash] = "[a\\\\]".toList ∧ StandsAfterTag [] ∧
      ¬ ∃ tree, read {} "\x7b\x7b[a\\\\]\x7d\x7d" = .ok tree := by
  have hnone : (read {} "\x7b\x7b[a\\\\]\x7d\x7d").toOption.isSome = false := by decide +kernel
  refine ⟨by decide, by decide, ?_⟩
  rintro ⟨tree, hread⟩
  rw [hread] at hnone
  cases hnone

end Stencil.Template
