import Stencil.Proofs.Syntax.Origins
import Stencil.Proofs.Syntax.Scanning

/-!
# Paths of names

The text of a path that climbs some times and goes on with names, joined by points or slashes. The
tokens of its names and separators make up a path that climbs as often and has the names for its
parts (`Steps.written_spells`). They are the words of the text, one after the other, as long as no
name is an integer that a point and a digit follow (`Steps.readsAll_words`).
-/

set_option autoImplicit false

namespace Stencil.Tree

/-- The path is no data path, climbs so often, has the names for its parts, and is spelled so. -/
structure Path.Spells {ℓ : Type} (p : Path ℓ) (climbs : Nat) (names : List (List Char))
    (text : List Char) :
    Prop where
  data : p.data = false
  depth : p.depth = climbs
  parts : p.parts = names.map String.ofList
  spelling : p.spelling = String.ofList text

end Stencil.Tree

namespace Stencil.Syntax

open Stencil.Text
open Stencil.Tree (Path)

/-! ## The text of a path -/

/-- Segments, each with the separator after it. -/
abbrev Steps : Type := List (List Char × Char)

namespace Steps

/-- So many steps up. -/
def climbing (count : Nat) : Steps := List.replicate count (['.', '.'], '/')

/-- The names of some steps and a last name. -/
def names (steps : Steps) (last : List Char) : List (List Char) := steps.map Prod.fst ++ [last]

/-- The text of a path: segments with their separators, and a last segment. -/
def text (steps : Steps) (last : List Char) : List Char :=
  (steps.flatMap fun s => s.1 ++ [s.2]) ++ last

theorem text_cons (s : List Char × Char) (steps : Steps) (last : List Char) :
    text (s :: steps) last = s.1 ++ s.2 :: text steps last := by
  simp [text]

theorem text_append_steps (before after : Steps) (last : List Char) :
    text (before ++ after) last = text before (text after last) := by
  simp [text]

theorem text_append (steps : Steps) (last tail : List Char) :
    text steps last ++ tail = text steps (last ++ tail) :=
  List.append_assoc _ _ _

/-- The words of a path. -/
def words : Steps → List Char → List (TokenKind × List Char)
  | [], last => [(.name, last)]
  | s :: steps, last => (.name, s.1) :: (.separator, [s.2]) :: words steps last

/-- The text of a path is that of its words. -/
theorem textOfWords_words (steps : Steps) (last : List Char) :
    textOfWords (words steps last) = text steps last := by
  induction steps with
  | nil => simp [words, textOfWords, text]
  | cons s steps ih =>
    rw [text_cons, ← ih, words]
    simp [textOfWords]

/-- The path as it is written from an offset on. -/
def written (start : Nat) (last : List Char) : Steps → Written
  | [] => ⟨⟨.name, start, last⟩, []⟩
  | s :: steps =>
    let after := written (start + size s.1 + size [s.2]) last steps
    ⟨⟨.name, start, s.1⟩, (⟨.separator, start + size s.1, [s.2]⟩, after.first) :: after.more⟩

variable (steps : Steps) (last : List Char)

theorem tokens_written (start : Nat) :
    (written start last steps).tokens = wordTokens start (words steps last) := by
  induction steps generalizing start with
  | nil => rfl
  | cons s steps ih =>
    rw [words, wordTokens, wordTokens, ← ih]
    rfl

theorem first_written (start : Nat) :
    (written start last steps).first.kind = .name ∧
      (written start last steps).first.start = start := by
  cases steps with
  | nil => exact ⟨rfl, rfl⟩
  | cons s steps => exact ⟨rfl, rfl⟩

/-- The words of a path adjoin each other. -/
theorem runs_written (start : Nat) : (written start last steps).Runs := by
  refine ⟨(first_written steps last start).1, ?_⟩
  induction steps generalizing start with
  | nil => exact .nil _
  | cons s steps ih =>
    obtain ⟨kind, hstart⟩ := first_written steps last (start + size s.1 + size [s.2])
    exact .cons rfl rfl kind hstart (ih _)

/-- Its segments are the names that were given. -/
theorem texts_written (start : Nat) :
    (written start last steps).segments.map Token.text = names steps last := by
  induction steps generalizing start with
  | nil => rfl
  | cons s steps ih =>
    rw [show names (s :: steps) last = s.1 :: names steps last from rfl, ← ih
      (start + size s.1 + size [s.2])]
    rfl

end Steps

/-- A segment that does not start with a bracket names itself. -/
theorem Token.segment_of_head {t : Token} (h : t.text.head? ≠ some '[') : t.segment = t.text := by
  have hplain : t.isBracketed = false := by
    rw [Token.isBracketed]
    exact beq_false_of_ne h
  rw [Token.segment, hplain, if_neg Bool.false_ne_true]

namespace Steps

variable {steps : Steps} {last : List Char}

/-- A name that does not begin with a bracket is spelled as it is written, so the path is spelled as
its text. -/
theorem spelling_written (h : ∀ name ∈ names steps last, name.head? ≠ some '[') (start : Nat) :
    (written start last steps).spelling false = text steps last := by
  induction steps generalizing start with
  | nil =>
    have hlast := Token.segment_of_head (t := ⟨.name, start, last⟩) (h last List.mem_cons_self)
    show (⟨.name, start, last⟩ : Token).segment ++ [] = text [] last
    rw [hlast, List.append_nil]
    rfl
  | cons s steps ih =>
    have hfirst := Token.segment_of_head (t := ⟨.name, start, s.1⟩) (h s.1 List.mem_cons_self)
    rw [text_cons, ← ih (fun name hname => h name (List.mem_cons_of_mem _ hname))
      (start + size s.1 + size [s.2])]
    show (⟨.name, start, s.1⟩ : Token).segment ++ _ = _
    rw [hfirst]
    simp [written, Written.spelling]

/-- Steps up come first. -/
theorem names_climbing (count : Nat) :
    names (climbing count ++ steps) last = List.replicate count ['.', '.'] ++ names steps last := by
  rw [names, names, climbing, List.map_append, List.map_replicate, List.append_assoc]

/-- A text that names a segment: neither a word that stands for a context, nor in brackets. -/
def Plain (name : List Char) : Prop := isScopeWord name = false ∧ name.head? ≠ some '['

/-- The parts of segments that are not in brackets. -/
theorem parts_of_texts {segments : List Token} (h : ∀ t ∈ segments, t.text.head? ≠ some '[') :
    ((segments.filter fun t => !t.isScope).map fun t => String.ofList t.segment) =
      ((segments.map Token.text).filter fun name => !isScopeWord name).map String.ofList := by
  rw [List.filter_map, List.map_map]
  refine List.map_congr_left fun t ht => ?_
  exact congrArg String.ofList (Token.segment_of_head (h t (List.mem_of_mem_filter ht)))

/-- Steps up before names come in order, since only they stand for contexts. -/
theorem pairwise_climbing (count : Nat) {names : List (List Char)}
    (h : ∀ name ∈ names, Plain name) :
    (List.replicate count ['.', '.'] ++ names).Pairwise fun before after =>
      isScopeWord after = true → isScopeWord before = true := by
  have hnone : ∀ name ∈ names, isScopeWord name ≠ true := fun name hname => by
    rw [(h name hname).1]
    exact Bool.false_ne_true
  refine List.pairwise_append.2 ⟨List.pairwise_replicate.2 (.inr id), ?_, ?_⟩
  · refine List.pairwise_iff_forall_sublist.2 fun {before after} hsublist hscope => ?_
    exact absurd hscope (hnone after (hsublist.subset (List.mem_cons_of_mem _ List.mem_cons_self)))
  · exact fun before _ after hafter hscope => absurd hscope (hnone after hafter)

/-- A path climbs as often as there are steps up, since no plain name is one. -/
theorem countP_climbing (count : Nat) {names : List (List Char)} (h : ∀ name ∈ names, Plain name) :
    (List.replicate count ['.', '.'] ++ names).countP (· == ['.', '.']) = count := by
  have hnone : names.countP (· == ['.', '.']) = 0 := by
    refine List.countP_eq_zero.2 fun name hname hup => ?_
    have hplain := (h name hname).1
    rw [eq_of_beq hup] at hplain
    cases hplain
  have hall : (['.', '.'] == ['.', '.']) = true := rfl
  rw [List.countP_append, List.countP_replicate, if_pos hall, hnone, Nat.add_zero]

/-- Its parts are the plain names. -/
theorem filter_climbing (count : Nat) {names : List (List Char)} (h : ∀ name ∈ names, Plain name) :
    (List.replicate count ['.', '.'] ++ names).filter (fun name => !isScopeWord name) = names := by
  rw [List.filter_append, List.filter_replicate_of_neg (by decide), List.nil_append]
  exact List.filter_eq_self.2 fun name hname => by rw [(h name hname).1]; rfl

/-- Steps up come before names, and each of them counts. -/
theorem written_spells (count : Nat) (h : ∀ name ∈ names steps last, Plain name) (start : Nat) :
    let w := written start last (climbing count ++ steps)
    w.Orderly ∧ (w.path false).Spells count (names steps last)
      (text (climbing count ++ steps) last) := by
  intro w
  -- No segment is bracketed, so texts are all there is to know of the segments.
  have htexts : w.segments.map Token.text =
      List.replicate count ['.', '.'] ++ names steps last := by
    rw [texts_written, names_climbing]
  have hheads : ∀ name ∈ names (climbing count ++ steps) last, name.head? ≠ some '[' := by
    rw [names_climbing]
    refine List.forall_mem_append.2 ⟨fun name hname => ?_, fun name hname => (h name hname).2⟩
    rw [List.eq_of_mem_replicate hname]
    decide
  have hplain : ∀ t ∈ w.segments, t.text.head? ≠ some '[' := by
    intro t ht
    refine hheads _ ?_
    rw [names_climbing, ← htexts]
    exact List.mem_map_of_mem ht
  refine ⟨?_, rfl, ?_, ?_, congrArg String.ofList (spelling_written hheads start)⟩
  · -- Whether segments are in order is a matter of their texts, and so is what they climb and name.
    have hpairwise := pairwise_climbing count h
    rw [← htexts] at hpairwise
    exact List.pairwise_map.1 hpairwise
  · have hcount := countP_climbing count h
    rw [← htexts, List.countP_map] at hcount
    exact hcount
  · show (w.segments.filter fun t => !t.isScope).map (fun t => String.ofList t.segment) = _
    rw [parts_of_texts hplain, htexts, filter_climbing count h]

end Steps

/-! ## The words of a path -/

/-- A name starts here. -/
def StartsName (rest : List Char) : Prop :=
  ∃ c ∈ rest.head?, isNameChar c = true ∧ isBlank c = false

theorem IsName.starts {name : List Char} (h : IsName name) (rest : List Char) :
    StartsName (name ++ rest) := by
  obtain ⟨c, cs, rfl⟩ := List.exists_cons_of_ne_nil h.some_
  exact ⟨c, rfl, h.chars c List.mem_cons_self⟩

/-- Nothing in a tag but a word starts as a name does. -/
theorem StartsName.head {rest : List Char} (h : StartsName rest) :
    ∃ c ∈ rest.head?, isBlank c = false ∧ c ≠ '\x7d' ∧ c ≠ '~' ∧ c ≠ '\x7b' := by
  obtain ⟨c, hc, hname, hblank⟩ := h
  exact ⟨c, hc, hblank, ne_of_isNameChar hname (by decide), ne_of_isNameChar hname (by decide),
    ne_of_isNameChar hname (by decide)⟩

/-- A text that starts as a name does names a segment, unless it is the word `this`. -/
theorem StartsName.plain {name : List Char} (h : StartsName name) (noThis : name ≠ "this".toList) :
    Steps.Plain name := by
  obtain ⟨c, hc, hname, -⟩ := h
  have hne : ∀ d, isNameChar d = false → ∀ cs, name ≠ d :: cs := by
    rintro d hd cs rfl
    exact ne_of_isNameChar hname hd (Option.some.inj hc).symm
  refine ⟨?_, fun hbracket => ?_⟩
  · rw [isScopeWord, beq_false_of_ne (hne '.' (by decide) _),
      beq_false_of_ne (hne '.' (by decide) _), beq_false_of_ne noThis]
    rfl
  · exact ne_of_isNameChar hname (d := '[') (by decide) (Option.some.inj (hc.symm.trans hbracket))

/-- A name that could be a literal is read as a name if no brace closes the tag right behind it, and
one that is a number if no fraction follows. -/
theorem readsAs_name {name rest : List Char} (h : IsName name) (stops : StopsName rest)
    (whole : isInteger name = true → fraction rest = [])
    (goes : isLiteralName name = true → rest.head? ≠ some '\x7d') : ReadsAs .name name rest := by
  have hstarts := h.starts []
  rw [List.append_nil] at hstarts
  exact ⟨hstarts.head, word?_name h stops whole goes⟩

/-- An integer and the fraction after it are read as a name if the tag goes on with what ends no
literal. -/
theorem exists_number {name cs : List Char} (h : IsName name) (integer : isInteger name = true)
    (digit : ∃ c ∈ cs.head?, c.isDigit = true)
    (goes : endsBefore "~\x7d)".toList (cs.dropWhile Char.isDigit) = false) :
    ∃ number more, number ++ more = name ++ '.' :: cs ∧ ReadsAs .name number more ∧
      Steps.Plain number ∧
      number ≠ name := by
  obtain ⟨c, hc, hdigit⟩ := digit
  obtain ⟨cs, rfl⟩ := List.head?_eq_some_iff.1 hc
  let digits := (c :: cs).takeWhile Char.isDigit
  let more := (c :: cs).dropWhile Char.isDigit
  have hwhole : (name ++ '.' :: digits) ++ more = name ++ '.' :: c :: cs := by
    rw [List.append_assoc, List.cons_append, List.takeWhile_append_dropWhile]
  -- The longest word here is the number with its fraction, which no delimiter ends.
  have hword : word? (name ++ '.' :: c :: cs) = some ⟨.literal .number, name ++ '.' :: digits⟩ := by
    rw [word?_eq_plainWord? h, plainWord?_integer h ⟨'.', rfl, .inl rfl⟩ integer,
      fraction_point_of_digit hdigit]
  have hstarts := h.starts ('.' :: digits)
  refine ⟨name ++ '.' :: digits, more, hwhole, ⟨hstarts.head, _, by rw [hwhole, hword], ?_⟩,
    hstarts.plain ?_, ?_⟩
  · rw [WordClass.kind, goes, if_neg Bool.false_ne_true]
  · intro hthis
    have hpoint : '.' ∈ "this".toList := by
      rw [← hthis]
      exact List.mem_append_right _ List.mem_cons_self
    revert hpoint
    decide
  · intro hsame
    have hlength := congrArg List.length hsame
    rw [List.length_append, List.length_cons] at hlength
    omega

theorem readsAs_up (rest : List Char) : ReadsAs .name ['.', '.'] rest :=
  ⟨⟨'.', rfl, by decide⟩, _, rfl, rfl⟩

theorem readsAs_slash (rest : List Char) : ReadsAs .separator ['/'] rest :=
  ⟨⟨'/', rfl, by decide⟩, _, rfl, rfl⟩

/-- A point is a separator where a name follows it. -/
theorem readsAs_point {rest : List Char} (h : StartsName rest) : ReadsAs .separator ['.'] rest := by
  obtain ⟨c, hc, hname, hblank⟩ := h
  obtain ⟨cs, rfl⟩ := List.head?_eq_some_iff.1 hc
  refine ⟨⟨'.', rfl, by decide⟩, .dot, ?_, ?_⟩
  · show word? ('.' :: c :: cs) = _
    unfold word?
    simp only [Char.reduceEq, if_false, if_true]
    split
    · rename_i heq
      exact absurd (List.cons.inj heq).1 (ne_of_isNameChar hname (by decide))
    · rfl
  · rw [WordClass.kind, endsBefore_of_isNameChar hname hblank (by decide),
      if_neg Bool.false_ne_true]

namespace Steps

/-- No name is an integer that a fraction follows, before what comes after the steps. -/
def Whole (rest : List Char) : Steps → Prop
  | [] => True
  | s :: steps => (isInteger s.1 = true → fraction (s.2 :: text steps rest) = []) ∧ Whole rest steps

/-- What may stand in a path beside steps up: names, with a point or a slash after each but the last
one. -/
structure Named (steps : Steps) : Prop where
  names : ∀ s ∈ steps, IsName s.1
  separators : ∀ s ∈ steps, s.2 = '.' ∨ s.2 = '/'

instance (steps : Steps) : Decidable (Named steps) :=
  decidable_of_iff ((∀ s ∈ steps, IsName s.1) ∧ ∀ s ∈ steps, s.2 = '.' ∨ s.2 = '/')
    ⟨fun h => ⟨h.1, h.2⟩, fun h => ⟨h.names, h.separators⟩⟩

variable {steps : Steps} {last rest : List Char}

theorem Named.of_cons {s : List Char × Char} (h : Named (s :: steps)) : Named steps where
  names t ht := h.names t (List.mem_cons_of_mem _ ht)
  separators t ht := h.separators t (List.mem_cons_of_mem _ ht)

theorem Named.of_append {before after : Steps} (h : Named (before ++ after)) :
    Named before ∧ Named after :=
  ⟨⟨fun t ht => h.names t (List.mem_append_left _ ht),
    fun t ht => h.separators t (List.mem_append_left _ ht)⟩, ⟨fun t ht =>
      h.names t (List.mem_append_right _ ht), fun t ht =>
      h.separators t (List.mem_append_right _ ht)⟩⟩

/-- A separator ends a name. -/
theorem Named.stops {s : List Char × Char} (h : Named (s :: steps)) (rest : List Char) :
    StopsName (s.2 :: rest) :=
  ⟨s.2, rfl, (h.separators s List.mem_cons_self).imp id .inl⟩

/-- Where a path of names goes on, a name starts. -/
theorem startsName_text (named : Named steps) (h : StartsName rest) :
    StartsName (text steps rest) := by
  cases steps with
  | nil => exact h
  | cons s steps =>
    rw [text_cons]
    exact (named.names s List.mem_cons_self).starts _

/-- The words of names with their separators are read one after the other. -/
theorem readsAll_words {tail : List Char} (named : Named steps) (whole : Whole (last ++ tail) steps)
    (hstart : StartsName (last ++ tail)) (hlast : ReadsAs .name last tail) :
    ReadsAll tail (words steps last) := by
  induction steps with
  | nil => exact .cons hlast .nil
  | cons s steps ih =>
    obtain ⟨hwhole, hmore⟩ := whole
    rw [← text_append] at hwhole
    have hseparators := named.separators s List.mem_cons_self
    have hname : ReadsAs .name s.1 (s.2 :: (text steps last ++ tail)) := by
      refine readsAs_name (named.names s List.mem_cons_self) (named.stops _) hwhole fun _ hbrace =>
        ?_
      have hsame : s.2 = '\x7d' := Option.some.inj hbrace
      rcases hseparators with h | h
      · cases h.symm.trans hsame
      · cases h.symm.trans hsame
    have hseparator : ReadsAs .separator [s.2] (text steps last ++ tail) := by
      rcases hseparators with h | h
      · rw [h, text_append]
        exact readsAs_point (startsName_text named.of_cons hstart)
      · rw [h]
        exact readsAs_slash _
    rw [← textOfWords_words] at hname hseparator
    exact .cons hname (.cons hseparator (ih named.of_cons hmore))

/-- So are steps up before them. -/
theorem readsAll_climbing {tail : List Char} (count : Nat) (h : ReadsAll tail (words steps last)) :
    ReadsAll tail (words (climbing count ++ steps) last) := by
  induction count with
  | zero => exact h
  | succ count ih => exact .cons (readsAs_up _) (.cons (readsAs_slash _) ih)

end Steps

end Stencil.Syntax
