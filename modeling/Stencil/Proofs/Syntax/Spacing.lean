import Stencil.Proofs.Syntax.Segments
import Stencil.Proofs.Syntax.Names

/-!
# Blanks between words

Blanks are skipped between the words of a tag, and these are all white space of Unicode (`isBlank`).
What ends an identifier is a list of its own (`nameStops`), and of the blanks it has only the space,
the tab, the line feed, the carriage return and the form feed. The other blanks go on with an
identifier that stands before them. Strings, bracketed segments and the opening of a parameter list
may hold any blanks (`Token.isDelimited`); in every other word there is a blank exactly where an
identifier runs over one (`Template.words_spaced_iff`).
-/

set_option autoImplicit false

namespace Stencil.Syntax

open Stencil.Text

/-- Whether the token is a string, a bracketed segment, or the opening of a parameter list: a word
that may hold blanks. -/
def Token.isDelimited (t : Token) : Bool :=
  t.kind == .string || t.kind == .openParams || t.kind == .name && t.isBracketed

/-- An identifier at the front of a text has a blank after it that may stand in an identifier. -/
def RunsOverBlank (cs : List Char) : Prop :=
  ∃ name blank rest, cs = name ++ blank :: rest ∧ IsName name ∧ isBlank blank = true ∧
    isNameChar blank = true

/-- The token stands where an identifier runs over a blank. -/
def Token.RunsOverBlank (source : List Char) (t : Token) : Prop :=
  ∃ before after, source = before ++ after ∧ t.start = size before ∧ Syntax.RunsOverBlank after

/-! ## Blanks in words -/

theorem mem_of_mem_unsignedChars {c : Char} {cs : List Char} (h : c ∈ unsignedChars cs) :
    c.isDigit = true ∨ c = '.' := by
  have hdigit : ∀ {ds : List Char}, c ∈ ds.takeWhile Char.isDigit → c.isDigit = true :=
    fun hmem => List.all_eq_true.1 List.all_takeWhile c hmem
  unfold unsignedChars fraction at h
  split at h
  · cases h
  rcases List.mem_append.1 h with hwhole | hfraction
  · exact .inl (hdigit hwhole)
  split at hfraction
  · split at hfraction
    · cases hfraction
    · rcases List.mem_cons.1 hfraction with hpoint | hmore
      · exact .inr hpoint
      · exact .inl (hdigit hmore)
  · cases hfraction

/-- No digit is a blank. -/
theorem not_isBlank_of_isDigit {c : Char} (h : c.isDigit = true) : isBlank c = false := by
  simp only [Char.isDigit, Bool.and_eq_true, decide_eq_true_eq, ge_iff_le, UInt32.le_iff_toNat_le]
    at h
  change 48 ≤ c.toNat ∧ c.toNat ≤ 57 at h
  simp only [isBlank, Bool.or_eq_false_iff, Bool.and_eq_false_iff, decide_eq_false_iff_not,
    beq_eq_false_iff_ne]
  omega

/-- A number has no blanks. -/
theorem not_isBlank_of_mem_numberChars {c : Char} {cs : List Char} (h : c ∈ numberChars cs) :
    isBlank c = false := by
  have hunsigned : ∀ {ds : List Char}, c ∈ unsignedChars ds → isBlank c = false := by
    intro ds hmem
    rcases mem_of_mem_unsignedChars hmem with hdigit | rfl
    · exact not_isBlank_of_isDigit hdigit
    · rfl
  by_cases hminus : cs.head? = some '-'
  · obtain ⟨ds, rfl⟩ := List.head?_eq_some_iff.1 hminus
    rw [numberChars_minus] at h
    split at h
    · cases h
    · rcases List.mem_cons.1 h with rfl | hmore
      · rfl
      · exact hunsigned hmore
  · rw [numberChars_of_not_minus hminus] at h
    exact hunsigned h

/-- A word takes up all characters of names at the front, and has no blanks but among them. -/
structure Word.Spaced (w : Word) (cs : List Char) : Prop where
  takes : cs.takeWhile isNameChar <+: w.text
  blanks : ∀ d ∈ w.text, isBlank d = true → d ∈ cs.takeWhile isNameChar

theorem plainWord?_spaced {cs : List Char} {w : Word} (h : plainWord? cs = some w)
    (hopen : w.sort ≠ .fixed .openParams) : w.Spaced cs := by
  have run : ∀ sort, Word.Spaced ⟨sort, cs.takeWhile isNameChar⟩ cs :=
    fun _ => ⟨List.prefix_refl _, fun _ hd _ => hd⟩
  unfold plainWord? at h
  dsimp only at h
  split at h
  · cases h
  split at h
  · -- The number is at least as long as the characters of names, and both stand at the front.
    rename_i hlength
    cases h
    refine ⟨List.prefix_of_prefix_length_le (List.takeWhile_prefix _)
      (numberChars_isPrefix cs) hlength, ?_⟩
    intro d hd hblank
    rw [not_isBlank_of_mem_numberChars hd] at hblank
    cases hblank
  split at h
  · split at h
    · cases h
      exact absurd rfl hopen
    · cases h
  split at h
  · cases h
    exact run _
  split at h
  · cases h
    exact run _
  split at h
  · cases h
    exact run _
  · cases h
    exact run _

/-- The sign that is a word by itself is no character of names. -/
theorem Word.Spaced.of_sign {c : Char} {cs : List Char} {w : Word} (hname : isNameChar c = false)
    (hblanks : w.text.any isBlank = false) : w.Spaced (c :: cs) := by
  constructor
  · rw [List.takeWhile_cons_of_neg (by rw [hname]; exact Bool.false_ne_true)]
    exact List.nil_prefix
  · intro d hd hblank
    exact absurd hblank (List.any_eq_false.1 hblanks d hd)

theorem word?_spaced {c : Char} {cs : List Char} {w : Word} (h : word? (c :: cs) = some w)
    (hquote : ¬(c = singleQuote ∨ c = doubleQuote)) (hbracket : c ≠ '[')
    (hopen : w.sort ≠ .fixed .openParams) : w.Spaced (c :: cs) := by
  unfold word? at h
  dsimp only at h
  rw [if_neg hquote, if_neg hbracket] at h
  iterate 6
    split at h
    · rename_i hc
      cases h
      subst hc
      exact .of_sign rfl rfl
  split at h
  · rename_i hc
    subst hc
    split at h
    · cases h
      exact .of_sign rfl rfl
    · cases h
      exact .of_sign rfl rfl
  · exact plainWord?_spaced h hopen

/-! ## Identifiers that run over blanks -/

/-- The characters of names at the front of a text have a blank among them exactly if an identifier
runs over one. -/
theorem runsOverBlank_iff {c : Char} {cs : List Char} (hc : isBlank c = false) :
    RunsOverBlank (c :: cs) ↔ ∃ d ∈ (c :: cs).takeWhile isNameChar, isBlank d = true := by
  constructor
  · rintro ⟨name, blank, rest, heq, hname, hblank, hchar⟩
    refine ⟨blank, ?_, hblank⟩
    rw [heq, List.takeWhile_append_of_pos fun d hd => (hname.chars d hd).1,
      List.takeWhile_cons_of_pos hchar]
    exact List.mem_append_right _ List.mem_cons_self
  · rintro ⟨d, hd, hblank⟩
    -- The identifier ends at the first blank.
    obtain ⟨blank, hfound⟩ := Option.isSome_iff_exists.1 (List.find?_isSome.2 ⟨d, hd, hblank⟩)
    obtain ⟨hfirst, name, more, hrun, hnone⟩ := List.find?_eq_some_iff_append.1 hfound
    have hchars : ∀ e ∈ name ++ blank :: more, isNameChar e = true :=
      fun e he => List.all_eq_true.1 List.all_takeWhile e (hrun ▸ he)
    obtain ⟨rest, hrest⟩ := hrun ▸ List.takeWhile_prefix (l := c :: cs) isNameChar
    rw [List.append_assoc, List.cons_append] at hrest
    have hname : ∀ e ∈ name, isNameChar e = true ∧ isBlank e = false :=
      fun e he => ⟨hchars e (List.mem_append_left _ he), by simpa using hnone e he⟩
    refine ⟨name, blank, more ++ rest, hrest.symm, ⟨?_, hname⟩, hfirst,
      hchars blank (List.mem_append_right _ List.mem_cons_self)⟩
    rintro rfl
    rw [(List.cons.inj hrest).1, hc] at hfirst
    cases hfirst

/-- A word without delimiters has a blank exactly if an identifier runs over one where it stands. -/
theorem ReadsAs.exists_blank_iff {t : Token} {after : List Char} (h : ReadsAs t.kind t.text after)
    (hbare : t.isDelimited = false) :
    (∃ c ∈ t.text, isBlank c = true) ↔ RunsOverBlank (t.text ++ after) := by
  obtain ⟨⟨c, hc, hblank, -⟩, sort, hword, hkind⟩ := h
  obtain ⟨cs, htext⟩ := List.head?_eq_some_iff.1 hc
  simp only [Token.isDelimited, Bool.or_eq_false_iff, beq_eq_false_iff_ne, Bool.and_eq_false_iff]
    at hbare
  obtain ⟨⟨hstring, hparams⟩, hsegment⟩ := hbare
  rw [htext, List.cons_append] at hword ⊢
  rw [runsOverBlank_iff hblank]
  -- The word is none of those with delimiters, so it is made of characters of names.
  have hspaced : Word.Spaced ⟨sort, c :: cs⟩ (c :: (cs ++ after)) := by
    refine word?_spaced hword ?_ ?_ ?_
    · -- After a quote the word would be a string.
      intro hquote
      rw [word?_of_quote hquote] at hword
      obtain ⟨r, -, hr⟩ := Option.map_eq_some_iff.1 hword
      obtain rfl : .fixed .string = sort := congrArg Word.sort hr
      exact hstring hkind.symm
    · rintro rfl
      rw [word?_of_bracket] at hword
      obtain ⟨r, -, hr⟩ := Option.map_eq_some_iff.1 hword
      obtain rfl : .fixed .name = sort := congrArg Word.sort hr
      rcases hsegment with hname | hbracket
      · exact hname hkind.symm
      · rw [Token.isBracketed, htext] at hbracket
        cases hbracket
    · rintro rfl
      exact hparams hkind.symm
  constructor
  · rintro ⟨d, hd, hdblank⟩
    exact ⟨d, hspaced.blanks d hd hdblank, hdblank⟩
  · rintro ⟨d, hd, hdblank⟩
    exact ⟨d, hspaced.takes.subset hd, hdblank⟩

end Stencil.Syntax

namespace Stencil.Template

open Stencil.Syntax
open Stencil.Text

/-- A word of a tag that is neither a string nor a bracketed segment nor the opening of a parameter
list holds a blank exactly if an identifier runs over one where the word stands: it goes on with a
blank that is not among the characters that end identifiers. -/
theorem words_spaced_iff {sourceName : Option String} {source : String} {ts : List Token}
    (h : tokens sourceName source = .ok ts) :
    ∀ t ∈ ts, t.kind.isWord = true → t.isDelimited = false →
      ((∃ c ∈ t.text, isBlank c = true) ↔ t.RunsOverBlank source.toList) := by
  unfold tokens at h
  split at h
  · cases h
  rename_i ts' hts
  cases h
  intro t ht hword hbare
  obtain ⟨before, after, hsource, hstart, hreads⟩ := readsAs_of_tokens? hts t ht hword
  rw [hreads.exists_blank_iff hbare]
  constructor
  · intro hruns
    exact ⟨before, _, hsource, hstart, hruns⟩
  · rintro ⟨before', after', hsource', hstart', hruns⟩
    -- A start determines where the source is split.
    rw [(append_inj_of_size (hsource.symm.trans hsource') (hstart.symm.trans hstart')).2]
    exact hruns

/-- Blanks in a string, a bracketed segment and the opening of a parameter list, and an identifier
that runs over a line tabulation. -/
theorem words_spaced_iff_mixed :
    let source := "\x7b\x7b#f 'x y' [a b] c\x0bd as |e|\x7d\x7d"
    let ts : List Token :=
      [⟨.openBlock, 0, openBraces ++ ['#']⟩, ⟨.name, 3, ['f']⟩, ⟨.string, 5, "'x y'".toList⟩,
        ⟨.name, 11, "[a b]".toList⟩, ⟨.name, 17, ['c', '\x0b', 'd']⟩,
        ⟨.openParams, 21, "as |".toList⟩, ⟨.name, 25, ['e']⟩, ⟨.closeParams, 26, ['|']⟩,
        ⟨.close, 27, closeBraces⟩, ⟨.eof, 29, []⟩]
    tokens none source = .ok ts ∧ ∀ t ∈ ts, t.kind.isWord = true → t.isDelimited = false →
      ((∃ c ∈ t.text, isBlank c = true) ↔ t.RunsOverBlank source.toList) := by
  intro source ts
  have h : tokens none source = .ok ts := eq_ok_of_toOption (by decide +kernel)
  exact ⟨h, words_spaced_iff h⟩

/-- Two identifiers with a no-break space between them are read as one. -/
theorem words_joined_by_blank :
    let joined : Token := ⟨.name, 2, ['a', '\xa0', 'b']⟩
    tokens none "\x7b\x7ba\xa0b\x7d\x7d" =
      .ok [⟨.openMustache, 0, openBraces⟩, joined, ⟨.close, 6, closeBraces⟩, ⟨.eof, 8, []⟩] ∧
    joined.kind.isWord = true ∧ joined.isDelimited = false ∧ ∃ c ∈ joined.text, isBlank c = true :=
  ⟨eq_ok_of_toOption (by decide +kernel), rfl, rfl, '\xa0', by decide, rfl⟩

end Stencil.Template
