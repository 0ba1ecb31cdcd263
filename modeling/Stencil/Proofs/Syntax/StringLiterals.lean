import Stencil.Proofs.Syntax.Escapes
import Stencil.Proofs.Syntax.NameTags

/-!
# Strings in tags

Any text that does not end with a backslash can be written as a string, in quotes of either kind,
with a backslash before each quote of this kind in it. What else it holds does not matter: blanks,
braces and the other quotes are characters like any others there. A tag that calls `f` with the
string has the text for the only parameter of the call, whatever plain text comes after the tag
(`Template.read_string`).
-/

set_option autoImplicit false

namespace Stencil.Syntax

open Stencil.Text
open Stencil.Tree (Expr Statement)

/-- The string of a text: the text between two quotes, with a backslash before each of these quotes
in it. -/
def quoted (quote : Char) (value : List Char) : List Char :=
  quote :: escaped [quote] value ++ [quote]

variable {quote : Char} {value text : List Char}

theorem ne_backslash_of_quote (h : quote = singleQuote ∨ quote = doubleQuote) :
    quote ≠ backslash := by
  rcases h with rfl | rfl <;> decide

/-- The value of a string is the text that it was made of. -/
theorem stringValue_quoted (h : quote ≠ backslash) (value : List Char) :
    stringValue (quoted quote value) = value := by
  show contract backslash quote quote (escaped [quote] value ++ [quote]).dropLast = value
  rw [List.dropLast_concat, contract_escaped h]

/-- A string is one word, if its text does not end with a backslash. -/
theorem readsAs_quoted (h : quote = singleQuote ∨ quote = doubleQuote)
    (hvalue : value.getLast? ≠ some backslash) (rest : List Char) :
    ReadsAs .string (quoted quote value) rest := by
  constructor
  · refine ⟨quote, rfl, ?_⟩
    rcases h with rfl | rfl <;> decide
  · refine ⟨.fixed .string, ?_, rfl⟩
    have hscan : throughUnescaped? quote (escaped [quote] value ++ quote :: rest) =
        some (escaped [quote] value ++ [quote], rest) :=
      throughUnescaped?_escaped List.mem_cons_self (ne_backslash_of_quote h) hvalue rest
    rw [quoted, List.append_assoc, List.cons_append, List.singleton_append, word?_of_quote h, hscan]
    rfl

/-- The letter `f` before a blank is a name. -/
theorem readsAs_f (rest : List Char) : ReadsAs .name ['f'] (' ' :: rest) :=
  ⟨⟨'f', rfl, by decide⟩, .fixed .name, rfl, rfl⟩

/-- The tokens of a tag that calls `f` with a string, and of plain text after it. -/
theorem tokens?_call (h : quote = singleQuote ∨ quote = doubleQuote)
    (hvalue : value.getLast? ≠ some backslash) (htext : StandsAfterTag text) :
    ∃ (close : Token) (left : Rest), close.kind = .close ∧ close.text = closeBraces ∧
      tokens? (openBraces ++ ("f ".toList ++ (quoted quote value ++ (closeBraces ++ text)))) =
        .ok (⟨.openMustache, 0, openBraces⟩ :: ⟨.name, 2, ['f']⟩ ::
          ⟨.string, 4, quoted quote value⟩ ::
          close :: (contentOf left text ++ [(left.skip text).token .eof []])) := by
  let rest : List Char := quoted quote value ++ (closeBraces ++ text)
  have hword := readsAs_quoted h hvalue (closeBraces ++ text)
  have hblank : ∀ c ∈ rest.head?, isBlank c = false := by
    rintro c ⟨⟩
    rcases h with rfl | rfl <;> rfl
  have hopens : OpensValue ('f' :: ' ' :: rest) :=
    ⟨⟨'f', rfl, by decide⟩, fun _ hword => absurd (List.cons.inj hword).1 (by decide)⟩
  let r : Rest := ⟨4, rest⟩
  let left : Rest := r.skip (quoted quote value)
  have hleft : left.chars = closeBraces ++ text := skip_chars rfl
  have hafter : (left.skip closeBraces).chars = text := skip_chars hleft
  -- Inside the tag come a blank, the string and the closing braces: three rounds at most.
  have hinside : ∀ fuel, (' ' :: rest).length < fuel → inside 0 false fuel ⟨3, ' ' :: rest⟩ =
      .ok ([r.token .string (quoted quote value), left.token .close closeBraces],
        left.skip closeBraces) := by
    intro fuel hfuel
    rw [List.length_cons] at hfuel
    obtain ⟨fuel, rfl⟩ : ∃ n, fuel = n + 1 + 1 := ⟨fuel - 2, by omega⟩
    have hgap : ∀ c ∈ [' '], isBlank c = true := List.forall_mem_singleton.2 rfl
    rw [inside_skip (show (⟨3, ' ' :: rest⟩ : Rest).chars = [' '] ++ rest from rfl) hgap hblank]
    show inside 0 false (fuel + 1 + 1) r = _
    rw [inside_word hword rfl, inside_close hleft htext.noBrace]
    rfl
  refine ⟨left.token .close closeBraces, left.skip closeBraces, rfl, rfl, ?_⟩
  -- What follows the tag is shorter, so the rounds for it are enough.
  have hlength : (left.skip closeBraces).chars.length ≤ (' ' :: rest).length := by
    rw [hafter]
    simp only [rest, List.length_cons, List.length_append]
    omega
  have hwords : ReadsAll (' ' :: rest) [(.name, ['f'])] := .cons (readsAs_f rest) .nil
  have htokens := tokens?_of_inside hopens hwords hinside (hafter ▸ htext.noTag) hlength
  rw [hafter] at htokens
  exact htokens

/-- A string before the closing braces is the only parameter. -/
theorem many_of_string {prev string close : Token} {rest : List Token}
    (hstring : string.kind = .string) (hclose : close.kind = .close) (below : Option Level) :
    (⟨prev, string, close :: rest⟩ : Cursor).many atParam (paramOver below) =
      .ok
        ([.string (String.ofList (stringValue string.text))
          (String.ofList (stringValue string.text)) string.span],
        ⟨string, close, rest⟩) := by
  let c : Cursor := ⟨prev, string, close :: rest⟩
  have hkind : c.kind = .string := hstring
  have hparam : atParam c = true := by rw [atParam, hkind]; rfl
  have hread : paramOver below c =
      .ok (.string (String.ofList (stringValue string.text))
        (String.ofList (stringValue string.text)) string.span, ⟨string, close, rest⟩) := by
    have hcall : c.kind ≠ .openCall := by rw [hkind]; exact TokenKind.noConfusion
    show (if c.kind = .openCall then _ else simpleExpr c) = _
    rw [if_neg hcall]
    simp only [simpleExpr]
    rw [hkind]
    rfl
  have hmore : Cursor.readWhile atParam (paramOver below) rest.length ⟨string, close, rest⟩ =
      .ok ([], ⟨string, close, rest⟩) :=
        Cursor.readWhile_of_not (atParam_of_close (c := ⟨_, close, _⟩) hclose) _
  show Cursor.readWhile atParam (paramOver below) (rest.length + 1) c = _
  rw [Cursor.readWhile, hparam, if_pos rfl, hread]
  dsimp only
  rw [hmore]

/-- A tag that calls `f` with a string is read as this call. -/
theorem exists_read?_of_call (h : quote = singleQuote ∨ quote = doubleQuote)
    (hvalue : value.getLast? ≠ some backslash) (htext : StandsAfterTag text) :
    ∃ m call root mark span,
      read? (openBraces ++ ("f ".toList ++ (quoted quote value ++ (closeBraces ++ text)))) =
        .ok ⟨.mustache m :: Statement.ofText text mark, [], false, root⟩ ∧
      m.strip = {} ∧ m.expr = .call call ∧ call.path.Spells 0 [['f']] ['f'] ∧
        call.params = [.string (String.ofList value) (String.ofList value) span] ∧
          call.hash = none := by
  obtain ⟨close, left, hclose, hbraces, htokens⟩ := tokens?_call h hvalue htext
  let w : Written := Steps.written 2 ['f'] []
  let string : Token := ⟨.string, 4, quoted quote value⟩
  let eof : Token := (left.skip text).token .eof []
  let after : List Token := string :: close :: (contentOf left text ++ [eof])
  let c : Cursor := Cursor.ofTokens (⟨.openMustache, 0, openBraces⟩ :: (w.tokens ++ after))
  have hplain : ∀ name ∈ Steps.names [] ['f'], Steps.Plain name :=
    List.forall_mem_singleton.2 ⟨by decide, by decide⟩
  obtain ⟨horderly, hspells⟩ := Steps.written_spells 0 hplain 2
  -- The blank keeps the string apart from the path.
  have hstops : Stops w.last after := by
    rintro next ⟨⟩ hstart
    cases hstart
  obtain ⟨⟨prev, here, rest⟩, hpath, hrest⟩ := Steps.path_of_tokens? htokens horderly hstops
  obtain ⟨rfl, rfl⟩ := List.cons.inj (show here :: rest = after from hrest)
  have hlength : (contentOf left text).length < c.rest.length := by
    simp only [c, after, Cursor.ofTokens, List.length_append, List.length_cons]
    omega
  have hkind : string.kind = .string := rfl
  obtain ⟨m, span, htree, hexpr, hstrip⟩ := template?_of_parts rfl (simpleExpr_of_path rfl hpath)
    (many_of_string hkind hclose) hclose kind_of_mem_contentOf (rfl : eof.kind = .eof) rfl hlength
  have hshown : stringValue string.text = value :=
    stringValue_quoted (ne_backslash_of_quote h) value
  rw [hshown] at hexpr
  refine ⟨m, _, ⟨0, eof.stop⟩, (left.token .content text).span, string.span, ?_, ?_, hexpr,
    hspells, rfl, rfl⟩
  · rw [read?, htokens, ← contentStatements_contentOf]
    exact htree
  · rw [hstrip, stripOf, Token.stripsAfter, hbraces]
    rfl

end Stencil.Syntax

namespace Stencil.Template

open Stencil.Syntax
open Stencil.Text
open Stencil.Tree (Expr Statement)

/-- For each of the two quotes, a text that does not end with a backslash is written as a string
with a backslash before each such quote in it. A tag that calls `f` with the string, and plain text
after it, are read as a call of `f` whose only parameter is the string literal with the text for its
value, and as the text after it. -/
theorem read_string (options : ReadOptions) {quote : Char}
    (hquote : quote = singleQuote ∨ quote = doubleQuote) {value : List Char}
    (hvalue : value.getLast? ≠ some backslash) {text : List Char} (htext : StandsAfterTag text) :
    ∃ tree m call mark span,
      read options (String.ofList
          (openBraces ++ ("f ".toList ++ (quoted quote value ++ (closeBraces ++ text))))) =
            .ok tree ∧
        tree.body = .mustache m :: Statement.ofText text mark ∧ m.expr = .call call ∧
          call.path.Spells 0 [['f']] ['f'] ∧
            call.params = [.string (String.ofList value) (String.ofList value) span] ∧
              call.hash = none := by
  obtain ⟨m, call, root, mark, span, hread, hstrip, hexpr, hspells, hparams, hhash⟩ :=
    exists_read?_of_call hquote hvalue htext
  obtain ⟨tree, mark', htree, hbody⟩ := read_of_mustache options hread hstrip
  let f := locate options
    (String.ofList (openBraces ++ ("f ".toList ++ (quoted quote value ++ (closeBraces ++ text)))))
  obtain ⟨path, params, hash, parenthesised, place⟩ := call
  dsimp only at hspells hparams hhash
  subst hparams hhash
  exact ⟨tree, m.mapMark f, ⟨path.mapMark f, _, none, parenthesised, f place⟩, mark', f span,
    htree, hbody, congrArg (Expr.mapMark f) hexpr, Tree.Path.spells_mapMark.2 hspells, rfl, rfl⟩

/-- Quotes of both kinds, a backslash, a line break and braces in a string, and a quote in the text
after it. -/
theorem read_string_mixed :
    (singleQuote = singleQuote ∨ singleQuote = doubleQuote) ∧
    "\\'\"\n\x7b\x7ba\x7d\x7d".toList.getLast? ≠ some backslash ∧
      StandsAfterTag " '\x7d\x7d".toList ∧
    quoted singleQuote "\\'\"\n\x7b\x7ba\x7d\x7d".toList = "'\\\\'\"\n\x7b\x7ba\x7d\x7d'".toList ∧
    ∃ tree m call mark span,
      read {} "\x7b\x7bf '\\\\'\"\n\x7b\x7ba\x7d\x7d'\x7d\x7d '\x7d\x7d" = .ok tree ∧
        tree.body = .mustache m :: Statement.ofText " '\x7d\x7d".toList mark ∧ m.expr = .call call ∧
          call.path.Spells 0 [['f']] ['f'] ∧
            call.params = [.string "\\'\"\n\x7b\x7ba\x7d\x7d" "\\'\"\n\x7b\x7ba\x7d\x7d" span] ∧
              call.hash = none := by
  have hvalue : "\\'\"\n\x7b\x7ba\x7d\x7d".toList.getLast? ≠ some backslash := by decide
  have htext : StandsAfterTag " '\x7d\x7d".toList := by decide
  exact ⟨.inl rfl, hvalue, htext, by decide, read_string {} (.inl rfl) hvalue htext⟩

end Stencil.Template
