import Stencil.Proofs.Syntax.Covering
import Stencil.Proofs.Syntax.Names

/-!
# Scanning a tag

A text that is put together from words is scanned into the tokens of these words, if each is the
longest word where it stands (`inside_words`). A template that is one tag has the tokens of the tag
and the end (`tokens?_value`).
-/

set_option autoImplicit false

namespace Stencil.Syntax

open Stencil.Text

/-! ## Words one after the other -/

/-- The text of some words. -/
def textOfWords (words : List (TokenKind × List Char)) : List Char := words.flatMap Prod.snd

/-- The tokens of words that stand one after the other from an offset on. -/
def wordTokens (start : Nat) : List (TokenKind × List Char) → List Token
  | [] => []
  | (kind, text) :: rest => ⟨kind, start, text⟩ :: wordTokens (start + size text) rest

/-- Words that are read one after the other, before a text. -/
inductive ReadsAll (tail : List Char) : List (TokenKind × List Char) → Prop
  | nil : ReadsAll tail []
  | cons {kind : TokenKind} {text : List Char} {rest : List (TokenKind × List Char)}
    (word : ReadsAs kind text (textOfWords rest ++ tail)) (more : ReadsAll tail rest) :
    ReadsAll tail ((kind, text) :: rest)

/-- No pattern that starts otherwise stands at the front of a text. -/
theorem startsWith_cons_of_ne {p c : Char} (h : c ≠ p) (ps cs : List Char) :
    startsWith (p :: ps) (c :: cs) = false := by
  rw [startsWith, List.isPrefixOf_cons_cons, beq_false_of_ne h.symm, Bool.false_and]

theorem closer?_eq_none {c : Char} (hbrace : c ≠ '\x7d') (htilde : c ≠ '~') (cs : List Char) :
    closer? false (c :: cs) = none := by
  simp [closer?, closeBraces, startsWith_cons_of_ne hbrace, startsWith_cons_of_ne htilde]

theorem leadingBlanks_cons {c : Char} (h : isBlank c = false) (cs : List Char) :
    leadingBlanks (c :: cs) = [] := by
  rw [leadingBlanks, List.takeWhile_cons_of_neg (by rw [h]; exact Bool.false_ne_true)]

variable {opened : Nat} {r : Rest}

theorem Rest.skip_nil (r : Rest) : r.skip [] = r := rfl

/-- The next word of a tag is its next token. -/
theorem inside_word {kind : TokenKind} {text rest : List Char} (h : ReadsAs kind text rest)
    (hchars : r.chars = text ++ rest) (fuel : Nat) :
    inside opened false (fuel + 1) r =
      (inside opened false fuel (r.skip text)).map fun s => (r.token kind text :: s.1, s.2) := by
  obtain ⟨⟨c, hc, hblank, hbrace, htilde, hopen⟩, sort, hword, hkind⟩ := h
  obtain ⟨cs, rfl⟩ := List.head?_eq_some_iff.1 hc
  have hskip : (r.skip (c :: cs)).chars = rest := by
    rw [Rest.skip, hchars]
    exact List.drop_left
  have hblanks : leadingBlanks r.chars = [] := by
    rw [hchars, List.cons_append]
    exact leadingBlanks_cons hblank _
  have hnotOpen : startsWith openBraces (c :: (cs ++ rest)) = false :=
    startsWith_cons_of_ne hopen _ _
  have hplain : r.chars = c :: (cs ++ rest) := hchars
  rw [inside]
  dsimp only
  rw [hblanks, Rest.skip_nil, hplain, closer?_eq_none hbrace htilde]
  dsimp only
  rw [if_neg htilde, hnotOpen, if_neg Bool.false_ne_true,
    show word? (c :: (cs ++ rest)) = _ from hword]
  dsimp only
  rw [hskip, hkind]
  cases inside opened false fuel (r.skip (c :: cs)) <;> rfl

theorem skip_chars {text rest : List Char} (h : r.chars = text ++ rest) :
    (r.skip text).chars = rest := by
  rw [Rest.skip, h]
  exact List.drop_left

/-- Words that are read one after the other are the next tokens of a tag. -/
theorem inside_words {tail : List Char} {words : List (TokenKind × List Char)}
    (h : ReadsAll tail words) :
    ∀ {r : Rest} {fuel : Nat}, r.chars = textOfWords words ++ tail → r.chars.length < fuel →
      ∃ fuel', tail.length < fuel' ∧
        inside opened false fuel r =
          (inside opened false fuel' (r.skip (textOfWords words))).map fun s =>
            (wordTokens r.at_ words ++ s.1, s.2) := by
  induction h with
  | nil =>
    intro r fuel hchars hfuel
    rw [hchars] at hfuel
    refine ⟨fuel, hfuel, ?_⟩
    show _ = (inside opened false fuel r).map _
    cases inside opened false fuel r <;> rfl
  | @cons kind text rest word _ ih =>
    intro r fuel hchars hfuel
    have hword : r.chars = text ++ (textOfWords rest ++ tail) := by
      rw [hchars, textOfWords, List.flatMap_cons, List.append_assoc]
      rfl
    have hnext := skip_chars hword
    have hsome : text ≠ [] := by
      obtain ⟨c, hc, -⟩ := word.head
      rintro rfl
      cases hc
    obtain ⟨fuel, rfl⟩ : ∃ n, fuel = n + 1 := ⟨fuel - 1, by omega⟩
    -- A word takes up something, so there is fuel for those after it.
    have hshorter : (r.skip text).chars.length < fuel := by
      have hpos := List.length_pos_iff.2 hsome
      rw [hword, List.length_append] at hfuel
      rw [hnext]
      omega
    obtain ⟨fuel', hfuel', hmore⟩ := ih hnext hshorter
    refine ⟨fuel', hfuel', ?_⟩
    rw [inside_word word hword, hmore, Rest.skip_skip]
    show _ = (inside opened false fuel' (r.skip (text ++ textOfWords rest))).map _
    cases inside opened false fuel' (r.skip (text ++ textOfWords rest)) <;> rfl

/-- Closing braces are the last token of a tag, unless a brace goes on with them. -/
theorem inside_close {text : List Char} (h : r.chars = closeBraces ++ text)
    (htext : text.head? ≠ some '\x7d') (fuel : Nat) :
    inside opened false (fuel + 1) r = .ok ([r.token .close closeBraces], r.skip closeBraces) := by
  have hcloser : closer? false (closeBraces ++ text) = some (.close, closeBraces) := by
    have hthree : startsWith ['\x7d', '\x7d', '\x7d'] (closeBraces ++ text) = false := by
      show startsWith ['\x7d'] text = false
      cases text with
      | nil => rfl
      | cons c text => exact startsWith_cons_of_ne (fun hc => htext (congrArg some hc)) _ _
    unfold closer?
    rw [hthree]
    rfl
  rw [inside]
  dsimp only
  rw [h, show leadingBlanks (closeBraces ++ text) = [] from rfl, Rest.skip_nil, h, hcloser]

/-- Blanks before a word or the end of a tag are skipped. -/
theorem inside_skip {gap rest : List Char} (h : r.chars = gap ++ rest)
    (hgap : ∀ c ∈ gap, isBlank c = true) (hrest : ∀ c ∈ rest.head?, isBlank c = false)
    (fuel : Nat) :
    inside opened false (fuel + 1) r = inside opened false (fuel + 1) (r.skip gap) := by
  have hleading : leadingBlanks r.chars = gap := by
    rw [h]
    exact takeWhile_append_of_head? hgap hrest
  have hnone : leadingBlanks (r.skip gap).chars = [] := by
    rw [skip_chars h]
    exact takeWhile_append_of_head? (fun c hc => absurd hc List.not_mem_nil) hrest
  rw [inside, inside, hleading, hnone]
  rfl

/-! ## Templates that start with a tag -/

/-- The text after opening braces is that of a tag that shows a value: no other sign of a tag stands
at its front, and no `else` without a further letter. -/
structure OpensValue (body : List Char) : Prop where
  head : ∃ c ∈ body.head?, isBlank c = false ∧ c ∉ "~#*>/^!\x7b&".toList
  noElse : ∀ rest, body = "else".toList ++ rest →
    ∃ c ∈ rest.head?, isBlank c = false ∧ c ≠ '~' ∧ c ≠ '\x7d'

theorem emptyTagEnd?_eq_none {c : Char} (hblank : isBlank c = false) (htilde : c ≠ '~')
    (hbrace : c ≠ '\x7d') (cs : List Char) : emptyTagEnd? (c :: cs) = none := by
  simp [emptyTagEnd?, leadingBlanks_cons hblank, closeBraces, startsWith_cons_of_ne htilde,
    startsWith_cons_of_ne hbrace]

/-- The word `else` does not stand at the front, or goes on with what neither ends it nor the
tag. -/
theorem elseWord?_cases {c : Char} {cs : List Char} (hblank : isBlank c = false)
    (noElse : ∀ rest, c :: cs = "else".toList ++ rest →
      ∃ c ∈ rest.head?, isBlank c = false ∧ c ≠ '~' ∧ c ≠ '\x7d') :
    elseWord? (c :: cs) = none ∨ elseWord? (c :: cs) = some "else".toList ∧
      ∃ d ds, (c :: cs).drop "else".toList.length = d :: ds ∧ isBlank d = false ∧
        emptyTagEnd? (d :: ds) = none := by
  cases helse : startsWith "else".toList (c :: cs) with
  | false =>
    rw [elseWord?, leadingBlanks_cons hblank]
    exact .inl (if_neg (Bool.eq_false_iff.1 helse))
  | true =>
    obtain ⟨rest, hrest⟩ := startsWith_iff.1 helse
    obtain ⟨d, hd, hdblank, htilde, hbrace⟩ := noElse rest hrest.symm
    obtain ⟨ds, rfl⟩ := List.head?_eq_some_iff.1 hd
    refine .inr ⟨?_, d, ds, by rw [← hrest, List.drop_left], hdblank,
      emptyTagEnd?_eq_none hdblank htilde hbrace ds⟩
    rw [elseWord?, leadingBlanks_cons hblank]
    exact if_pos helse

/-- A tag that shows a value. -/
theorem tag_value {body : List Char} (h : OpensValue body) (hchars : r.chars = openBraces ++ body) :
    tag r = tagFrom r .openMustache openBraces := by
  obtain ⟨⟨c, hc, hblank, hsign⟩, noElse⟩ := h
  obtain ⟨cs, rfl⟩ := List.head?_eq_some_iff.1 hc
  -- None of the signs of other tags stands here.
  have hne : ∀ p ∈ "~#*>/^!\x7b&".toList, ∀ ps, startsWith (p :: ps) (c :: cs) = false := by
    intro p hp ps
    refine startsWith_cons_of_ne ?_ ps cs
    rintro rfl
    exact hsign hp
  have hraw : startsWith rawBraces r.chars = false := by
    rw [hchars]
    show startsWith ['\x7b', '\x7b'] (c :: cs) = false
    exact hne _ (by decide) _
  have hafter : r.chars.drop openBraces.length = c :: cs := by rw [hchars, List.drop_left]
  have hstrip : startsWith ['~'] (r.chars.drop 2) = false := by
    rw [show r.chars.drop 2 = c :: cs from hafter]
    exact hne _ (by decide) _
  unfold tag
  simp only [hraw, hstrip, hafter, Bool.false_eq_true, if_false,
    hne _ (by decide : '#' ∈ "~#*>/^!\x7b&".toList),
    hne _ (by decide : '*' ∈ "~#*>/^!\x7b&".toList),
    hne _ (by decide : '>' ∈ "~#*>/^!\x7b&".toList),
    hne _ (by decide : '/' ∈ "~#*>/^!\x7b&".toList),
    hne _ (by decide : '^' ∈ "~#*>/^!\x7b&".toList),
    hne _ (by decide : '!' ∈ "~#*>/^!\x7b&".toList),
    hne _ (by decide : '\x7b' ∈ "~#*>/^!\x7b&".toList),
    hne _ (by decide : '&' ∈ "~#*>/^!\x7b&".toList),
    Bool.or_false]
  rcases elseWord?_cases hblank noElse with hnone | ⟨hsome, d, ds, hdrop, hdblank, hends⟩
  · rw [hnone]
  · rw [hsome]
    dsimp only
    rw [hdrop, hends]
    dsimp only
    rw [hdblank, if_neg Bool.false_ne_true]

theorem tagFrom_eq (r : Rest) (kind : TokenKind) (taken : List Char) :
    tagFrom r kind taken =
      (inside r.at_ false ((r.skip taken).chars.length + 1) (r.skip taken)).map fun s =>
        (r.token kind taken :: s.1, s.2) := by
  rw [tagFrom]
  cases inside r.at_ false ((r.skip taken).chars.length + 1) (r.skip taken) <;> rfl

theorem piece_of_openBraces {body : List Char} (h : r.chars = openBraces ++ body) :
    piece r = tag r := by
  have hbreak : breakOn openBraces r.chars = ([], openBraces ++ body) := by rw [h]; rfl
  have hsome : (openBraces ++ body).isEmpty = false := rfl
  have hplain : endsWith [backslash, backslash] [] = false ∧ endsWith [backslash] [] = false :=
    ⟨rfl, rfl⟩
  unfold piece
  simp only [hbreak, hsome, hplain, Bool.false_eq_true, if_false, Rest.skip_nil]
  cases tag r <;> rfl

/-- The tokens of a template that starts with a tag that shows a value. -/
theorem tokens?_value {body : List Char} (h : OpensValue body) :
    tokens? (openBraces ++ body) =
      (inside 0 false (body.length + 1) ⟨2, body⟩).bind fun s =>
        (pieces (body.length + 1) s.2).map fun more =>
          ⟨.openMustache, 0, openBraces⟩ :: s.1 ++ more := by
  let r : Rest := ⟨0, openBraces ++ body⟩
  have hpiece : piece r = (inside 0 false (body.length + 1) ⟨2, body⟩).map fun s =>
      (⟨.openMustache, 0, openBraces⟩ :: s.1, s.2) := by
    rw [piece_of_openBraces (show r.chars = openBraces ++ body from rfl), tag_value h rfl,
      tagFrom_eq]
    rfl
  show pieces (body.length + 1 + 1) r = _
  rw [pieces, hpiece]
  cases inside 0 false (body.length + 1) ⟨2, body⟩ with
  | error f => rfl
  | ok s =>
    dsimp only [Except.map, Except.bind]
    cases pieces (body.length + 1) s.2 <;> rfl

/-- The tokens of a tag start with those of its words. -/
theorem tokens?_words {tail : List Char} {words : List (TokenKind × List Char)}
    (hvalue : OpensValue (textOfWords words ++ tail)) (hwords : ReadsAll tail words) :
    ∃ fuel, tail.length < fuel ∧ tokens? (openBraces ++ (textOfWords words ++ tail)) =
      (inside 0 false fuel ⟨2 + size (textOfWords words), tail⟩).bind fun s =>
        (pieces ((textOfWords words ++ tail).length + 1) s.2).map fun more =>
          ⟨.openMustache, 0, openBraces⟩ :: (wordTokens 2 words ++ s.1) ++ more := by
  obtain ⟨fuel, hfuel, hinside⟩ :=
    @inside_words 0 tail words hwords ⟨2, textOfWords words ++ tail⟩ _ rfl
      (Nat.lt_succ_self _)
  have hskip : (⟨2, textOfWords words ++ tail⟩ : Rest).skip (textOfWords words) =
      ⟨2 + size (textOfWords words), tail⟩ := by
    rw [Rest.skip, List.drop_left]
  refine ⟨fuel, hfuel, ?_⟩
  rw [tokens?_value hvalue, hinside, hskip]
  cases inside 0 false fuel ⟨2 + size (textOfWords words), tail⟩ <;> rfl

/-- The tokens of a tag that starts with words start with those of the words. -/
theorem exists_tokens_of_words {tail : List Char} {words : List (TokenKind × List Char)}
    (hvalue : OpensValue (textOfWords words ++ tail)) (hwords : ReadsAll tail words)
    {ts : List Token} (h : tokens? (openBraces ++ (textOfWords words ++ tail)) = .ok ts) :
    ∃ more, ts = ⟨.openMustache, 0, openBraces⟩ :: (wordTokens 2 words ++ more) := by
  obtain ⟨fuel, -, htokens⟩ := tokens?_words hvalue hwords
  rw [htokens] at h
  cases hinside : inside 0 false fuel ⟨2 + size (textOfWords words), tail⟩ with
  | error f =>
    rw [hinside] at h
    cases h
  | ok s =>
    rw [hinside] at h
    dsimp only [Except.bind] at h
    cases hpieces : pieces ((textOfWords words ++ tail).length + 1) s.2 with
    | error f =>
      rw [hpieces] at h
      cases h
    | ok left =>
      rw [hpieces] at h
      cases h
      exact ⟨s.1 ++ left, by simp⟩

theorem pieces_nil (h : r.chars = []) (fuel : Nat) : pieces fuel r = .ok [r.token .eof []] := by
  cases fuel with
  | zero => rfl
  | succ fuel =>
    rw [pieces, h]
    rfl

end Stencil.Syntax
