import Stencil.Proofs.Syntax.Mustaches
import Stencil.Proofs.Syntax.NamePaths

/-!
# Tags around paths of names

A template that is one tag around a path of names shows this path: it climbs as often as it is
written to, and its parts are the names. There is one exception, and no other
(`Template.read_names_iff`). Where a name is an integer, and a point and a name that starts with a
digit follow it, the point is read as that of a number, and the number is one part.
-/

set_option autoImplicit false

namespace Stencil.Syntax

open Stencil.Text
open Stencil.Tree (Path)

namespace Steps

variable {steps : Steps} {last tail : List Char}

/-- The names that may stand in a path: none is the word `this`, the first one is not `else`, and
the last one is no literal. -/
structure Identifies (steps : Steps) (last : List Char) : Prop where
  named : Named steps
  isName : IsName last
  noThis : ∀ name ∈ names steps last, name ≠ "this".toList
  noElse : (names steps last).head? ≠ some "else".toList
  noLiteral : isLiteralName last = false

instance (steps : Steps) (last : List Char) : Decidable (Identifies steps last) :=
  decidable_of_iff (Named steps ∧ IsName last ∧ (∀ name ∈ names steps last, name ≠ "this".toList) ∧
      (names steps last).head? ≠ some "else".toList ∧ isLiteralName last = false)
    ⟨fun h => ⟨h.1, h.2.1, h.2.2.1, h.2.2.2.1, h.2.2.2.2⟩,
      fun h => ⟨h.named, h.isName, h.noThis, h.noElse, h.noLiteral⟩⟩

/-- An integer is followed by a point and a name that starts with a digit. -/
def RunsOn (steps : Steps) (last : List Char) : Prop :=
  ∃ before name after, steps = before ++ (name, '.') :: after ∧ isInteger name = true ∧
    ∃ c ∈ (text after last).head?, c.isDigit = true

theorem Identifies.plain (h : Identifies steps last) : ∀ name ∈ names steps last, Plain name := by
  intro name hname
  have isName : IsName name := by
    rcases List.mem_append.1 hname with hstep | hlast
    · obtain ⟨s, hs, rfl⟩ := List.mem_map.1 hstep
      exact h.named.names s hs
    · rw [List.mem_singleton.1 hlast]
      exact h.isName
  have hstarts := isName.starts []
  rw [List.append_nil] at hstarts
  exact hstarts.plain (h.noThis name hname)

/-! ## The words of a tag -/

/-- A path of names begins with one, and it is stopped. -/
theorem exists_first (named : Named steps) (hlast : IsName last) (hstops : StopsName tail) :
    ∃ first rest, text steps last ++ tail = first ++ rest ∧ StopsName rest ∧ IsName first ∧
      (names steps last).head? = some first := by
  cases steps with
  | nil => exact ⟨last, tail, rfl, hstops, hlast, rfl⟩
  | cons s steps =>
    refine ⟨s.1, s.2 :: (text steps last ++ tail), ?_, named.stops _,
      named.names s List.mem_cons_self, rfl⟩
    rw [text_cons, List.append_assoc]
    rfl

theorem opensValue_of_isName {first rest : List Char} (h : IsName first) (hstops : StopsName rest)
    (hne : first ≠ "else".toList) : OpensValue (first ++ rest) := by
  constructor
  · obtain ⟨c, cs, rfl⟩ := List.exists_cons_of_ne_nil h.some_
    obtain ⟨hname, hblank⟩ := h.chars c List.mem_cons_self
    refine ⟨c, rfl, hblank, fun hsign => ?_⟩
    -- None of the signs that tell tags apart is a character of names.
    have hnone : ("~#*>/^!\x7b&".toList.all fun d => !isNameChar d) = true := by decide
    have hother := List.all_eq_true.1 hnone c hsign
    rw [hname] at hother
    cases hother
  · -- After the word `else` the name goes on.
    intro more hmore
    -- Either the name ends within the word, or it goes on behind it.
    rcases List.append_eq_append_iff.1 hmore with ⟨left, hword, hleft⟩ | ⟨left, hword, hleft⟩
    · obtain ⟨c, hc, hstop⟩ := hstops
      cases left with
      | nil => exact absurd (by rw [hword, List.append_nil]) hne
      | cons d left =>
        rw [hleft] at hc
        obtain rfl : d = c := Option.some.inj hc
        have hletters : "else".toList.all isNameChar = true := by decide
        have hd :=
          List.all_eq_true.1 hletters d (by
            rw [hword]; exact List.mem_append_right _ List.mem_cons_self)
        rcases hstop with rfl | rfl | rfl <;> cases hd
    · cases left with
      | nil => exact absurd (by rw [hword, List.append_nil]) hne
      | cons d left =>
        obtain ⟨hname, hblank⟩ :=
          h.chars d (by rw [hword]; exact List.mem_append_right _ List.mem_cons_self)
        exact ⟨d, by rw [hleft]; rfl, hblank, ne_of_isNameChar hname (by decide),
          ne_of_isNameChar hname (by decide)⟩

theorem stopsName_closeBraces : StopsName closeBraces := ⟨'\x7d', rfl, .inr (.inr rfl)⟩

/-- A tag around a path of names shows a value. -/
theorem Identifies.opensValue (h : Identifies steps last) (count : Nat) :
    OpensValue (text (climbing count ++ steps) last ++ closeBraces) := by
  cases count with
  | zero =>
    obtain ⟨first, rest, htext, hrest, hname, hhead⟩ :=
      exists_first h.named h.isName stopsName_closeBraces
    rw [show climbing 0 ++ steps = steps from rfl, htext]
    exact opensValue_of_isName hname hrest fun helse => h.noElse (by rw [hhead, helse])
  | succ count =>
    rw [show climbing (count + 1) ++ steps = (['.', '.'], '/') ::
      (climbing count ++ steps) from rfl, text_cons]
    exact ⟨⟨'.', rfl, by decide⟩, fun rest hrest => absurd (List.cons.inj hrest).1 (by decide)⟩

/-! ## The path of a tag -/

/-- The path at the start of a tag is read, if it goes on no more after its words. -/
theorem path_of_tokens? {source : List Char} {after : List Token}
    (htokens : tokens? source =
      .ok (⟨.openMustache, 0, openBraces⟩ :: ((written 2 last steps).tokens ++ after)))
    (horderly : (written 2 last steps).Orderly) (hstops : Stops (written 2 last steps).last after) :
    ∃ c', path false
        (Cursor.ofTokens (⟨.openMustache, 0, openBraces⟩ ::
          ((written 2 last steps).tokens ++ after))).advance =
          .ok ((written 2 last steps).path false, c') ∧ c'.tokens = after := by
  let c : Cursor :=
    Cursor.ofTokens (⟨.openMustache, 0, openBraces⟩ :: ((written 2 last steps).tokens ++ after))
  have hproper : Proper c.advance.tokens :=
    (proper_of_tokens? htokens).of_suffix (List.suffix_cons _ _) (List.cons_ne_nil _ _)
  exact path_of_stops false hproper (runs_written steps last 2) horderly rfl hstops

/-- A tag around the words of a path is read as the path, and plain text after it as this text. -/
theorem exists_read?_of_words {text : List Char} (h : StandsAfterTag text)
    (hvalue : OpensValue (Steps.text steps last ++ (closeBraces ++ text)))
    (hwords : ReadsAll (closeBraces ++ text) (words steps last))
    (horderly : (written 2 last steps).Orderly) :
    ∃ m stop mark, read? (openBraces ++ (Steps.text steps last ++ (closeBraces ++ text))) =
        .ok ⟨.mustache m :: Tree.Statement.ofText text mark, [], false, ⟨0, stop⟩⟩ ∧
      m.strip = {} ∧ m.expr = .path ((written 2 last steps).path false) := by
  rw [← textOfWords_words] at hvalue
  obtain ⟨close, left, hclose, hbraces, -, htokens⟩ := tokens?_closed h hvalue hwords
  rw [← tokens_written, textOfWords_words] at htokens
  let eof : Token := (left.skip text).token .eof []
  let after : List Token := close :: (contentOf left text ++ [eof])
  let c : Cursor :=
    Cursor.ofTokens (⟨.openMustache, 0, openBraces⟩ :: ((written 2 last steps).tokens ++ after))
  have hname : c.advance.kind = .name := (first_written steps last 2).1
  have hstops : Stops (written 2 last steps).last after := by
    rintro next ⟨⟩ -
    rw [hclose]
    exact ⟨TokenKind.noConfusion, TokenKind.noConfusion⟩
  obtain ⟨c', hpath, hafter⟩ := path_of_tokens? htokens horderly hstops
  -- There is fuel enough for the content behind the tag.
  have hlength : (contentOf left text).length < c.rest.length := by
    simp only [c, after, Cursor.ofTokens, List.length_append, List.length_cons]
    omega
  obtain ⟨m, htree, hexpr, hstrip⟩ :=
    template?_of_path rfl hname hpath hclose kind_of_mem_contentOf rfl hafter hlength
  refine ⟨m, eof.stop, (left.token .content text).span, ?_, ?_, hexpr⟩
  · rw [read?, htokens, ← contentStatements_contentOf]
    exact htree
  · rw [hstrip, stripOf, Token.stripsAfter, hbraces]
    rfl

/-- A path of names is read, unless a name goes on as a number. -/
theorem exists_read?_of_whole (h : Identifies steps last) (count : Nat)
    (whole : Whole (last ++ closeBraces) steps) :
    ∃ tree m p, read? (openBraces ++ (text (climbing count ++ steps) last ++ closeBraces)) =
      .ok tree ∧
      tree.body = [.mustache m] ∧ m.expr = .path p ∧
        p.Spells count (names steps last) (text (climbing count ++ steps) last) := by
  have hword : ReadsAs .name last closeBraces :=
    readsAs_name h.isName stopsName_closeBraces (fun _ => rfl) fun hliteral => by
      rw [h.noLiteral] at hliteral
      cases hliteral
  have hwords := readsAll_climbing count (readsAll_words h.named whole (h.isName.starts _) hword)
  have hnothing : StandsAfterTag [] := by decide
  obtain ⟨horderly, hspells⟩ := written_spells count h.plain 2
  obtain ⟨m, stop, mark, hread, -, hexpr⟩ :=
    exists_read?_of_words hnothing (h.opensValue count) hwords horderly
  exact ⟨⟨[.mustache m], [], false, ⟨0, stop⟩⟩, m, _, hread, rfl, hexpr, hspells⟩

/-! ## Names that go on as numbers -/

/-- Either no integer goes on as a number, or there is a first one that does. -/
theorem whole_or_first (rest : List Char) (steps : Steps) : Whole rest steps ∨
    ∃ before name after, steps = before ++ (name, '.') :: after ∧ isInteger name = true ∧
      (∃ c ∈ (text after rest).head?, c.isDigit = true) ∧
        Whole (name ++ '.' :: text after rest) before := by
  induction steps with
  | nil => exact .inl trivial
  | cons s steps ih =>
    obtain ⟨name, sep⟩ := s
    by_cases hruns : isInteger name = true ∧ fraction (sep :: text steps rest) ≠ []
    · -- This one goes on, and nothing comes before it.
      obtain ⟨rfl, hdigit⟩ := exists_digit_of_fraction hruns.2
      exact .inr ⟨[], name, steps, rfl, hruns.1, hdigit, trivial⟩
    · have hname : isInteger name = true → fraction (sep :: text steps rest) = [] :=
        fun hinteger => Decidable.not_not.1 fun hgoes => hruns ⟨hinteger, hgoes⟩
      rcases ih with hwhole | ⟨before, found, after, rfl, hinteger, hdigit, hwhole⟩
      · exact .inl ⟨hname, hwhole⟩
      · refine .inr ⟨(name, sep) :: before, found, after, rfl, hinteger, hdigit, ?_, hwhole⟩
        rw [text_append_steps, text_cons] at hname
        exact hname

theorem Whole.fraction_eq {rest : List Char} {before after : Steps} {s : List Char × Char}
    (h : Whole rest (before ++ s :: after)) (integer : isInteger s.1 = true) :
    fraction (s.2 :: text after rest) = [] := by
  induction before with
  | nil => exact h.1 integer
  | cons _ before ih => exact ih h.2

theorem head?_text (h : last ≠ []) (tail : List Char) :
    (text steps (last ++ tail)).head? = (text steps last).head? := by
  have hsome : text steps last ≠ [] := List.append_ne_nil_of_right_ne_nil _ h
  obtain ⟨c, cs, hcs⟩ := List.exists_cons_of_ne_nil hsome
  rw [← text_append, hcs]
  rfl

/-- An integer goes on as a number exactly if one is followed by a point and a digit. -/
theorem whole_iff (h : last ≠ []) (tail : List Char) :
    Whole (last ++ tail) steps ↔ ¬ RunsOn steps last := by
  constructor
  · -- The point and the digit would be a fraction.
    rintro hwhole ⟨before, name, after, rfl, hinteger, c, hc, hdigit⟩
    have hnone := hwhole.fraction_eq hinteger
    rw [← head?_text h tail] at hc
    cases htext : text after (last ++ tail) with
    | nil =>
      rw [htext] at hc
      cases hc
    | cons d cs =>
      rw [htext] at hc hnone
      cases hc
      rw [fraction_point_of_digit hdigit] at hnone
      cases hnone
  · intro hnot
    rcases whole_or_first (last ++ tail) steps with hwhole |
        ⟨before, name, after, hsteps, hinteger, hdigit, -⟩
    · exact hwhole
    · rw [head?_text h] at hdigit
      exact absurd ⟨before, name, after, hsteps, hinteger, hdigit⟩ hnot

/-- After its digits a path of names goes on, since its last name is no number. -/
theorem not_endsBefore_text (named : Named steps) (hlast : IsName last)
    (noLiteral : isLiteralName last = false) :
    endsBefore "~\x7d)".toList ((text steps (last ++ closeBraces)).dropWhile Char.isDigit) =
      false := by
  cases steps with
  | nil =>
    refine hlast.not_endsBefore (.inl (Bool.eq_false_iff.2 fun hdigits => ?_))
    rw [isLiteralName, isInteger_of_digits hlast.some_ hdigits] at noLiteral
    cases noLiteral
  | cons s steps =>
    rw [text_cons]
    exact (named.names s List.mem_cons_self).not_endsBefore
      (.inr ⟨s.2, _, rfl, named.separators s List.mem_cons_self⟩)

/-- The parts of what is written start with those of any path at its front. -/
theorem parts_prefix {w whole : Written} (hfirst : w.first = whole.first)
    (hmore : w.more <+: whole.more) :
    (w.path false).parts <+: (whole.path false).parts := by
  have hsegments : w.segments <+: whole.segments := by
    rw [Written.segments, Written.segments, hfirst]
    exact List.cons_prefix_cons.2 ⟨rfl, hmore.map _⟩
  exact (hsegments.filter _).map _

/-- Whatever path is read in a tag, its parts start with those of the words that the tag starts
with. -/
theorem parts_prefix_of_read? (hvalue : OpensValue (text steps last ++ tail))
    (hwords : ReadsAll tail (words steps last)) {tree : Tree.Program Span}
    (hread : read? (openBraces ++ (text steps last ++ tail)) = .ok tree) {m : Tree.Mustache Span}
    {more : List (Tree.Statement Span)} (hbody : tree.body = .mustache m :: more) {p : Path Span}
    (hexpr : m.expr = .path p) : ((written 2 last steps).path false).parts <+: p.parts := by
  rw [← textOfWords_words] at hvalue hread
  cases htokens : tokens? (openBraces ++ (textOfWords (words steps last) ++ tail)) with
  | error f =>
    rw [read?, htokens] at hread
    cases hread
  | ok ts =>
    rw [read?, htokens] at hread
    obtain ⟨left, rfl⟩ := exists_tokens_of_words hvalue hwords htokens
    rw [← tokens_written] at htokens hread
    let w : Written := written 2 last steps
    let c : Cursor := Cursor.ofTokens (⟨.openMustache, 0, openBraces⟩ :: (w.tokens ++ left))
    have hproper : Proper c.advance.tokens :=
      (proper_of_tokens? htokens).of_suffix (List.suffix_cons _ _) (List.cons_ne_nil _ _)
    have hruns := runs_written steps last 2
    have hfirst : c.advance.kind = .name := hruns.first
    obtain ⟨c', hpath⟩ := path_of_template? rfl hfirst hread hbody hexpr
    -- The path starts at the same token, and goes on at least as far.
    obtain ⟨⟨first, rest⟩, hgoes, -, hsame, hstops, rfl⟩ := path_ok false hproper hpath
    obtain ⟨hhere, hrest⟩ :=
      List.cons.inj (show w.tokens ++ left = first :: tokensOf rest ++ c'.tokens from hsame)
    obtain rfl : first = w.first := hhere.symm
    exact parts_prefix rfl (hruns.more.prefix_of_stops hgoes.more hstops hrest)

/-- If a path of names is read with these names for its parts, no name went on as a number. -/
theorem whole_of_read? (h : Identifies steps last) (count : Nat) {tree : Tree.Program Span}
    (hread : read? (openBraces ++ (text (climbing count ++ steps) last ++ closeBraces)) = .ok tree)
    {m : Tree.Mustache Span} (hbody : tree.body = [.mustache m]) {p : Path Span}
    (hexpr : m.expr = .path p) (hparts : p.parts = (names steps last).map String.ofList) :
    Whole (last ++ closeBraces) steps := by
  refine (whole_or_first _ _).resolve_right ?_
  rintro ⟨before, name, after, rfl, integer, digit, hwhole⟩
  obtain ⟨hbefore, hafter⟩ := h.named.of_append
  have hname : IsName name := hafter.names _ List.mem_cons_self
  -- The first such integer is read together with its fraction, after the words before it.
  obtain ⟨number, more, hnumber, hreads, hplain, hne⟩ :=
    exists_number hname integer digit (not_endsBefore_text hafter.of_cons h.isName h.noLiteral)
  have hwords : ReadsAll more (words (climbing count ++ before) number) :=
    readsAll_climbing count (readsAll_words hbefore (by rw [hnumber]; exact hwhole)
      (by rw [hnumber]; exact hname.starts _) hreads)
  have htext : text (climbing count ++ (before ++ (name, '.') :: after)) last ++ closeBraces =
      text (climbing count ++ before) number ++ more := by
    rw [text_append, text_append, ← List.append_assoc, text_append_steps _ (_ :: _),
      text_cons, hnumber]
  have hvalue := h.opensValue count
  rw [htext] at hvalue hread
  have hprefix := parts_prefix_of_read? hvalue hwords hread hbody hexpr
  have hnames : ∀ found ∈ names before number, Plain found := by
    refine List.forall_mem_append.2 ⟨fun found hfound => ?_, List.forall_mem_singleton.2 hplain⟩
    refine h.plain found (List.mem_append_left _ ?_)
    rw [List.map_append]
    exact List.mem_append_left _ hfound
  -- So the number is the part that stands where the name should.
  rw [hparts, (written_spells count hnames 2).2.parts] at hprefix
  simp only [names, List.map_append, List.map_cons, List.append_assoc, List.prefix_append_right_inj,
    List.map_nil, List.cons_append, List.cons_prefix_cons] at hprefix
  exact hne (String.ofList_injective hprefix.1)

/-- A path of names is read as it is written exactly if no name goes on as a number. -/
theorem exists_read?_iff (h : Identifies steps last) (count : Nat) :
    (∃ tree m p, read? (openBraces ++ (text (climbing count ++ steps) last ++ closeBraces)) =
      .ok tree ∧
      tree.body = [.mustache m] ∧ m.expr = .path p ∧
        p.Spells count (names steps last) (text (climbing count ++ steps) last)) ↔
          ¬ RunsOn steps last := by
  rw [← whole_iff h.isName.some_ closeBraces]
  constructor
  · rintro ⟨tree, m, p, hread, hbody, hexpr, hspells⟩
    exact whole_of_read? h count hread hbody hexpr hspells.parts
  · exact exists_read?_of_whole h count

end Steps

end Stencil.Syntax

namespace Stencil.Tree

/-- Marks do not matter to what a path spells. -/
theorem Path.spells_mapMark {ℓ μ : Type} {f : ℓ → μ} {p : Path ℓ} {climbs : Nat}
    {names : List (List Char)} {text : List Char} :
    (p.mapMark f).Spells climbs names text ↔ p.Spells climbs names text :=
  ⟨fun h => ⟨h.data, h.depth, h.parts, h.spelling⟩, fun h => ⟨h.data, h.depth, h.parts, h.spelling⟩⟩

end Stencil.Tree

namespace Stencil.Template

open Stencil.Syntax
open Stencil.Text

/-- A tag around names that are joined by points or slashes, after any number of steps up, is read
as a path that climbs as often and has the names for its parts, spelled as it is written, exactly if
no name that is an integer is followed by a point and a name that starts with a digit. -/
theorem read_names_iff (options : ReadOptions) (climbs : Nat) {steps : Steps} {last : List Char}
    (h : steps.Identifies last) :
    (∃ tree m p, read options (String.ofList
        (openBraces ++ ((Steps.climbing climbs ++ steps).text last ++ closeBraces))) = .ok tree ∧
      tree.body = [.mustache m] ∧ m.expr = .path p ∧
        p.Spells climbs (steps.names last) ((Steps.climbing climbs ++ steps).text last)) ↔
      ¬ steps.RunsOn last := by
  rw [← Steps.exists_read?_iff h climbs]
  constructor
  · rintro ⟨located, n, p, hread, hshown, hpath, hspells⟩
    obtain ⟨tree, m, q, htree, hbody, hexpr, hmarks⟩ := read?_of_read hread hshown hpath
    rw [String.toList_ofList] at htree
    exact ⟨tree, m, q, htree, hbody, hexpr, Tree.Path.spells_mapMark.1 (hmarks ▸ hspells)⟩
  · rintro ⟨tree, m, q, htree, hbody, hexpr, hspells⟩
    rw [← String.toList_ofList (l := openBraces ++ _)] at htree
    obtain ⟨located, n, hread, hshown, hpath⟩ := @read_of_read? options _ _ htree _ hbody _ hexpr
    exact ⟨located, n, _, hread, hshown, hpath, Tree.Path.spells_mapMark.2 hspells⟩

/-- The names `2nd`, `10` and `name` after a step up. -/
theorem read_names_iff_climbing :
    Steps.Identifies [("2nd".toList, '.'), ("10".toList, '/')] "name".toList ∧
    ∃ tree m p, read {} (String.ofList (openBraces ++
        ((Steps.climbing 1 ++ [("2nd".toList, '.'), ("10".toList, '/')]).text "name".toList ++
          closeBraces))) = .ok tree ∧
      tree.body = [.mustache m] ∧ m.expr = .path p ∧
        p.Spells 1 ["2nd".toList, "10".toList, "name".toList] "../2nd.10/name".toList := by
  have identifies : Steps.Identifies [("2nd".toList, '.'), ("10".toList, '/')] "name".toList := by
    decide
  -- The only integer has a slash after it.
  refine ⟨identifies, (read_names_iff {} 1 identifies).2 ?_⟩
  rintro ⟨before, name, after, hsteps, hinteger, -⟩
  have hmem : (name, '.') ∈ [("2nd".toList, '.'), ("10".toList, '/')] := by
    rw [hsteps]
    exact List.mem_append_right _ List.mem_cons_self
  have hnone : ∀ s ∈ [("2nd".toList, '.'), ("10".toList, '/')],
      s.2 = '.' → isInteger s.1 = false := by decide
  rw [hnone _ hmem rfl] at hinteger
  cases hinteger

/-- The names `a`, `0`, `1` and `b`, joined by points, are read as three parts. -/
theorem read_integers_joined :
    Steps.Identifies [(['a'], '.'), (['0'], '.'), (['1'], '.')] ['b'] ∧
    String.ofList
      (openBraces ++ (Steps.text [(['a'], '.'), (['0'], '.'), (['1'], '.')] ['b'] ++ closeBraces)) =
      "\x7b\x7ba.0.1.b\x7d\x7d" ∧
    ((read {} "\x7b\x7ba.0.1.b\x7d\x7d").toOption.map fun tree =>
      tree.body.flatMap fun s => s.pathsWithin.map Tree.Path.parts) = some [["a", "0.1", "b"]] ∧
    ¬ ∃ tree m p, read {} "\x7b\x7ba.0.1.b\x7d\x7d" = .ok tree ∧ tree.body = [.mustache m] ∧
      m.expr = .path p ∧
      p.Spells 0 [['a'], ['0'], ['1'], ['b']] "a.0.1.b".toList := by
  have hparts : ((read {} "\x7b\x7ba.0.1.b\x7d\x7d").toOption.map fun tree =>
      tree.body.flatMap fun s => s.pathsWithin.map Tree.Path.parts) = some [["a", "0.1", "b"]] := by
    decide +kernel
  refine ⟨by decide, by decide, hparts, ?_⟩
  rintro ⟨tree, m, p, hread, hbody, hexpr, hspells⟩
  have hshown : (tree.body.flatMap fun s => s.pathsWithin.map Tree.Path.parts) = [p.parts] := by
    rw [hbody, List.flatMap_singleton, Tree.Statement.pathsWithin, Tree.Statement.paths, hexpr]
    rfl
  rw [hread] at hparts
  have hsame : p.parts = ["a", "0.1", "b"] :=
    List.singleton_injective (hshown.symm.trans (Option.some.inj hparts))
  rw [hspells.parts] at hsame
  revert hsame
  decide

end Stencil.Template
