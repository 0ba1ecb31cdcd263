import Stencil.Syntax.Tokens

/-!
# What stands at the front of a text

The readers of words, delimiters, comments and raw blocks are given a text and say what they take.
Each is shown to take no other characters than those at the front of its text, and, where a token is
made of them, at least one. The order of the tests in a reader does not matter here: every branch
takes a prefix.
-/

set_option autoImplicit false

namespace Stencil.Text

/-! ## Searching -/

theorem startsWith_iff {pat cs : List Char} : startsWith pat cs = true ↔ pat <+: cs :=
  List.isPrefixOf_iff_prefix

theorem endsWith_iff {pat cs : List Char} : endsWith pat cs = true ↔ pat <:+ cs := by
  rw [endsWith, List.isPrefixOf_iff_prefix, List.reverse_prefix]

/-- A pattern that is found stands at the front of the second part. -/
theorem prefix_breakOn (pat cs : List Char) :
    pat <+: (breakOn pat cs).2 ∨ (breakOn pat cs).2 = [] := by
  induction cs with
  | nil => exact .inr rfl
  | cons c cs ih =>
    unfold breakOn
    split
    · rename_i h
      exact .inl (startsWith_iff.1 h)
    · exact ih

/-- What stands before a pattern that is found, and the pattern. -/
theorem breakOn_isPrefix {pat cs : List Char} (h : (breakOn pat cs).2.isEmpty = false) :
    (breakOn pat cs).1 ++ pat <+: cs := by
  have hfront := (prefix_breakOn pat cs).resolve_right fun hnone => by simp [hnone] at h
  conv => rhs; rw [← breakOn_append pat cs]
  exact (List.prefix_append_right_inj _).2 hfront

/-- What stands at the front of the rest of a text goes on what stands at the front of the text. -/
theorem prefix_append_of_drop {as bs cs : List Char} (has : as <+: cs)
    (hbs : bs <+: cs.drop as.length) :
    as ++ bs <+: cs := by
  obtain ⟨ds, rfl⟩ := has
  rw [List.drop_left] at hbs
  exact (List.prefix_append_right_inj as).2 hbs

theorem lt_size_of_ne_nil {cs : List Char} (h : cs ≠ []) : 0 < size cs := by
  obtain ⟨c, rest, rfl⟩ := List.exists_cons_of_ne_nil h
  exact Nat.lt_of_lt_of_le (Char.utf8Size_pos c) (Nat.le_add_right _ _)

/-- Two splits of a text at one offset are the same. -/
theorem append_inj_of_size {as bs cs ds : List Char} (h : as ++ bs = cs ++ ds)
    (hsize : size as = size cs) :
    as = cs ∧ bs = ds := by
  have hnil : ∀ es, size es = 0 → es = [] := fun es hes =>
    Decidable.not_not.1 fun hne => Nat.ne_of_gt (lt_size_of_ne_nil hne) hes
  rcases List.append_eq_append_iff.1 h with ⟨es, rfl, rfl⟩ | ⟨es, rfl, rfl⟩
  · rw [size_append] at hsize
    rw [hnil es (by omega)]
    exact ⟨(List.append_nil _).symm, rfl⟩
  · rw [size_append] at hsize
    rw [hnil es (by omega)]
    exact ⟨List.append_nil _, rfl⟩

/-- What satisfies a test up to a character that does not is taken as a whole. -/
theorem takeWhile_append_of_head? {test : Char → Bool} {cs rest : List Char}
    (hcs : ∀ c ∈ cs, test c) (hrest : ∀ c ∈ rest.head?, test c = false) :
    (cs ++ rest).takeWhile test = cs := by
  rw [List.takeWhile_append_of_pos hcs]
  cases rest with
  | nil => simp
  | cons c rest => simp [hrest c rfl]

theorem dropWhile_append_of_head? {test : Char → Bool} {cs rest : List Char}
    (hcs : ∀ c ∈ cs, test c) (hrest : ∀ c ∈ rest.head?, test c = false) :
    (cs ++ rest).dropWhile test = rest := by
  rw [List.dropWhile_append_of_pos hcs]
  cases rest with
  | nil => rfl
  | cons c rest => simp [hrest c rfl]

theorem leadingBlanks_isPrefix (cs : List Char) : leadingBlanks cs <+: cs := List.takeWhile_prefix _

theorem isBlank_of_mem_leadingBlanks {c : Char} {cs : List Char} (h : c ∈ leadingBlanks cs) :
    isBlank c = true :=
  List.all_eq_true.1 List.all_takeWhile c h

/-- After its leading blanks a text goes on with none. -/
theorem not_isBlank_of_drop {c : Char} {cs rest : List Char}
    (h : cs.drop (leadingBlanks cs).length = c :: rest) : isBlank c = false := by
  induction cs with
  | nil => cases h
  | cons d cs ih =>
    cases hd : isBlank d with
    | true =>
      rw [leadingBlanks, List.takeWhile_cons_of_pos hd] at h
      exact ih h
    | false =>
      rw [leadingBlanks, List.takeWhile_cons_of_neg (by rw [hd]; exact Bool.false_ne_true)] at h
      rw [← (List.cons.inj h).1]
      exact hd

end Stencil.Text

namespace Stencil.Syntax

open Stencil.Text

/-- A result that holds a value is that value. -/
theorem eq_ok_of_toOption {ε α : Type} {result : Except ε α} {a : α}
    (h : result.toOption = some a) :
    result = .ok a := by
  cases result with
  | error e => cases h
  | ok b => exact congrArg _ (Option.some.inj h)

/-! ## Kinds of tokens -/

/-- Whether a token of this kind stands outside of tags, or is a tag of its own. -/
def TokenKind.standsAlone : TokenKind → Bool
  | .content | .comment | .loneElse | .endRaw => true
  | _ => false

/-- Whether a token of this kind opens a tag. -/
def TokenKind.opensTag : TokenKind → Bool
  | .openMustache | .openUnescaped | .openBlock | .openEnd | .openInverted | .openElse
    | .openPartial
  | .openPartialBlock | .openRaw => true
  | _ => false

/-- Whether a token of this kind closes a tag. -/
def TokenKind.closesTag : TokenKind → Bool
  | .close | .closeUnescaped | .closeRaw => true
  | _ => false

/-- Whether a token of this kind is a word inside a tag. -/
def TokenKind.isWord : TokenKind → Bool
  | .openCall | .closeCall | .equals | .at | .separator | .name | .string | .number | .boolean
  | .undefined | .null | .openParams | .closeParams => true
  | _ => false

/-- What stands alone or is a delimiter of a tag is no word. -/
theorem TokenKind.isWord_eq_false {kind : TokenKind}
    (h : kind.standsAlone = true ∨ kind.opensTag = true ∨ kind.closesTag = true) :
    kind.isWord = false := by
  revert h
  cases kind <;> decide

/-! ## Words -/

/-- A string or a segment up to its end is the front of the text. -/
theorem throughUnescaped?_append {stop : Char} {cs : List Char} :
    ∀ {r}, throughUnescaped? stop cs = some r → r.1 ++ r.2 = cs := by
  fun_induction throughUnescaped? stop cs with
  | case1 => intro r h; cases h
  | case2 => intro r h; cases h; rfl
  | case3 c hc d ds hpair ih =>
    intro r h
    obtain ⟨r', hr', rfl⟩ := Option.map_eq_some_iff.1 h
    simpa using ih hr'
  | case4 c hc d ds hpair ih =>
    intro r h
    obtain ⟨r', hr', rfl⟩ := Option.map_eq_some_iff.1 h
    simpa using ih hr'
  | case5 => intro r h; cases h

theorem numberChars_isPrefix (cs : List Char) : numberChars cs <+: cs := by
  unfold numberChars
  split
  rename_i sign body hsplit
  have hcs : cs = sign ++ body := by
    split at hsplit <;> cases hsplit <;> rfl
  dsimp only
  split
  · exact List.nil_prefix
  rw [hcs, List.append_assoc]
  refine (List.prefix_append_right_inj sign).2 ?_
  have hbody := List.takeWhile_append_dropWhile (p := Char.isDigit) (l := body)
  generalize body.dropWhile Char.isDigit = after at hbody ⊢
  conv => rhs; rw [← hbody]
  refine (List.prefix_append_right_inj _).2 ?_
  split
  · split
    · exact List.nil_prefix
    · exact List.cons_prefix_cons.2 ⟨rfl, List.takeWhile_prefix _⟩
  · exact List.nil_prefix

/-- A word that some characters at the front of a text make. -/
structure Word.Fronts (w : Word) (cs : List Char) : Prop where
  some_ : w.text ≠ []
  stands : w.text <+: cs
  isWord : ∀ rest, (w.sort.kind rest).isWord = true

theorem isWord_of_literal {kind : TokenKind} (h : kind.isWord = true) (rest : List Char) :
    ((WordClass.literal kind).kind rest).isWord = true := by
  rw [WordClass.kind]
  split
  · exact h
  · rfl

theorem isWord_of_dot (rest : List Char) : (WordClass.dot.kind rest).isWord = true := by
  rw [WordClass.kind]
  split <;> rfl

theorem plainWord?_fronts {cs : List Char} {w : Word} (h : plainWord? cs = some w) :
    w.Fronts cs := by
  unfold plainWord? at h
  dsimp only at h
  have hrun := List.takeWhile_prefix (l := cs) isNameChar
  split at h
  · cases h
  rename_i hsome
  have hne : cs.takeWhile isNameChar ≠ [] := fun heq => hsome (List.isEmpty_iff.2 heq)
  split at h
  · -- The number is as long as the run, which is not empty.
    rename_i hlength
    cases h
    refine ⟨fun hnone => ?_, numberChars_isPrefix cs, isWord_of_literal rfl⟩
    rw [show numberChars cs = [] from hnone] at hlength
    exact hne (List.eq_nil_of_length_eq_zero (Nat.le_zero.1 hlength))
  -- An `as` goes on over the blanks after it and a bar, or there is no word.
  split at h
  · split at h
    · rename_i rest hbar
      cases h
      refine ⟨by simp, ?_, fun _ => rfl⟩
      refine prefix_append_of_drop (prefix_append_of_drop hrun (List.takeWhile_prefix _)) ?_
      rw [List.length_append, hbar]
      exact List.cons_prefix_cons.2 ⟨rfl, List.nil_prefix⟩
    · cases h
  split at h
  · cases h
    exact ⟨hne, hrun, isWord_of_literal rfl⟩
  split at h
  · cases h
    exact ⟨hne, hrun, isWord_of_literal rfl⟩
  split at h
  · cases h
    exact ⟨hne, hrun, isWord_of_literal rfl⟩
  · cases h
    exact ⟨hne, hrun, fun _ => rfl⟩

theorem word?_fronts {cs : List Char} {w : Word} (h : word? cs = some w) : w.Fronts cs := by
  cases cs with
  | nil => cases h
  | cons c cs =>
    have single : ∀ {sort : WordClass}, (∀ rest, (sort.kind rest).isWord = true) →
        Word.Fronts ⟨sort, [c]⟩ (c :: cs) := fun hword =>
      ⟨List.cons_ne_nil _ _, List.cons_prefix_cons.2 ⟨rfl, List.nil_prefix⟩, hword⟩
    have quoted : ∀ {stop : Char} {kind : TokenKind}, kind.isWord = true →
        ((throughUnescaped? stop cs).map fun r => (⟨.fixed kind, c :: r.1⟩ : Word)) = some w →
          w.Fronts (c :: cs) := by
      intro stop kind hkind h
      obtain ⟨r, hr, rfl⟩ := Option.map_eq_some_iff.1 h
      refine ⟨List.cons_ne_nil _ _, ?_, fun _ => hkind⟩
      rw [← throughUnescaped?_append hr]
      exact List.prefix_append (c :: r.1) r.2
    unfold word? at h
    dsimp only at h
    -- Signs of one character come first, then points, texts in quotes or brackets, and plain words.
    iterate 6
      split at h
      · cases h
        exact single fun _ => rfl
    split at h
    · split at h
      · cases h
        exact ⟨List.cons_ne_nil _ _, List.prefix_append [c, '.'] _, fun _ => rfl⟩
      · cases h
        exact single isWord_of_dot
    split at h
    · exact quoted rfl h
    split at h
    · exact quoted rfl h
    · exact plainWord?_fronts h

theorem Word.Fronts.head?_eq {w : Word} {cs : List Char} (h : w.Fronts cs) :
    w.text.head? = cs.head? := by
  obtain ⟨rest, hrest⟩ := h.stands
  obtain ⟨c, text, htext⟩ := List.exists_cons_of_ne_nil h.some_
  rw [← hrest, htext]
  rfl

/-- No word starts with a brace or with a strip marker. -/
theorem word?_eq_none {c : Char} (h : c = '\x7d' ∨ c = '~' ∨ c = '\x7b') (cs : List Char) :
    word? (c :: cs) = none := by
  rcases h with rfl | rfl | rfl <;> rfl

/-- A text is the next word of a tag, before another text, and makes a token of the kind. -/
structure ReadsAs (kind : TokenKind) (text rest : List Char) : Prop where
  head : ∃ c ∈ text.head?, isBlank c = false ∧ c ≠ '\x7d' ∧ c ≠ '~' ∧ c ≠ '\x7b'
  word : ∃ sort : WordClass, word? (text ++ rest) = some ⟨sort, text⟩ ∧ sort.kind rest = kind

/-- What is taken for a word where no blank stands is the next word there. -/
theorem ReadsAs.of_word? {c : Char} {cs : List Char} {w : Word} (h : word? (c :: cs) = some w)
    (hblank : isBlank c = false) :
    ReadsAs (w.sort.kind ((c :: cs).drop w.text.length)) w.text ((c :: cs).drop w.text.length) := by
  have hfronts := word?_fronts h
  have happend : w.text ++ (c :: cs).drop w.text.length = c :: cs :=
    List.prefix_iff_eq_append.1 hfronts.stands
  -- No word would start with a brace or a strip marker.
  have hother : ∀ d, d = '\x7d' ∨ d = '~' ∨ d = '\x7b' → c ≠ d := by
    rintro d hd rfl
    rw [word?_eq_none hd] at h
    cases h
  exact ⟨⟨c, hfronts.head?_eq, hblank, hother _ (.inl rfl), hother _ (.inr (.inl rfl)),
    hother _ (.inr (.inr rfl))⟩, w.sort, by rw [happend, h], rfl⟩

/-! ## Delimiters -/

theorem closer?_fronts {raw : Bool} {cs taken : List Char} {kind : TokenKind}
    (h : closer? raw cs = some (kind, taken)) :
    taken ≠ [] ∧ taken <+: cs ∧ kind.closesTag = true := by
  unfold closer? at h
  split at h
  · rename_i hfront
    cases h
    exact ⟨by decide, startsWith_iff.1 (Bool.and_eq_true_iff.1 hfront).2, rfl⟩
  repeat
    split at h
    · rename_i hfront
      cases h
      exact ⟨by decide, startsWith_iff.1 hfront, rfl⟩
  cases h

theorem emptyTagEnd?_isPrefix {cs closing : List Char} (h : emptyTagEnd? cs = some closing) :
    closing <+: cs := by
  unfold emptyTagEnd? at h
  dsimp only at h
  split at h
  · rename_i hfront
    cases h
    exact prefix_append_of_drop (leadingBlanks_isPrefix cs) (startsWith_iff.1 hfront)
  split at h
  · rename_i hfront
    cases h
    exact prefix_append_of_drop (leadingBlanks_isPrefix cs) (startsWith_iff.1 hfront)
  · cases h

theorem elseWord?_isPrefix {cs word : List Char} (h : elseWord? cs = some word) : word <+: cs := by
  unfold elseWord? at h
  dsimp only at h
  split at h
  · rename_i hfront
    cases h
    exact prefix_append_of_drop (leadingBlanks_isPrefix cs) (startsWith_iff.1 hfront)
  · cases h

/-! ## Comments, raw blocks and escaped tags -/

/-- The text of a long comment goes on what was passed over, and closing braces follow it. -/
theorem longComment?_eq {cs : List Char} :
    ∀ {seen text : List Char}, longComment? seen cs = some text →
      ∃ more, text = seen.reverse ++ more ∧ more ++ closeBraces <+: cs := by
  induction cs with
  | nil => intro seen text h; cases h
  | cons c cs ih =>
    intro seen text h
    unfold longComment? at h
    split at h
    · rename_i hends
      cases h
      exact ⟨[], (List.append_nil _).symm, startsWith_iff.1 (Bool.and_eq_true_iff.1 hends).1⟩
    · obtain ⟨more, rfl, hmore⟩ := ih h
      exact ⟨c :: more, by simp, List.cons_prefix_cons.2 ⟨rfl, hmore⟩⟩

theorem rawEnd?_isPrefix {cs closing : List Char} (h : rawEnd? cs = some closing) :
    closing <+: cs := by
  unfold rawEnd? at h
  split at h
  · rename_i hopens
    dsimp only at h
    split at h
    · rename_i hcloses
      cases h
      have hname := prefix_append_of_drop (startsWith_iff.1 hopens)
        (List.takeWhile_prefix (l := cs.drop 5) fun c => !endsRawName c)
      have hbraces := startsWith_iff.1 (Bool.and_eq_true_iff.1 hcloses).2
      have hall := prefix_append_of_drop hname
        (show closeRawBraces <+: _ by rw [List.length_append]; exact hbraces)
      simpa using hall
    · cases h
  · cases h

theorem rawEnd?_ne_nil {cs closing : List Char} (h : rawEnd? cs = some closing) : closing ≠ [] := by
  unfold rawEnd? at h
  dsimp only at h
  split at h
  · split at h
    · cases h
      simp
    · cases h
  · cases h

/-- The text of a raw block and its closing tag stand at the front, one after the other. -/
theorem rawBody?_fronts (fuel : Nat) :
    ∀ {depth : Nat} {cs text closing : List Char}, rawBody? fuel depth cs = some (text, closing) →
      text ++ closing <+: cs ∧ closing ≠ [] := by
  induction fuel with
  | zero => intro depth cs text closing h; cases h
  | succ fuel ih =>
    intro depth cs text closing h
    have hcs := breakOn_append rawBraces cs
    have hfront := prefix_breakOn rawBraces cs
    unfold rawBody? at h
    dsimp only at h
    rcases hbreak : breakOn rawBraces cs with ⟨before, rest⟩
    rw [hbreak] at h hcs hfront
    dsimp only at h hcs hfront
    split at h
    · cases h
    rename_i hsome
    have hbraces : rawBraces <+: rest :=
      hfront.resolve_right fun hnone => hsome (List.isEmpty_iff.2 hnone)
    -- However deep the braces found here lead, what comes before them is text of the body.
    have deeper : ∀ depth, ((rawBody? fuel depth (rest.drop 4)).map fun r =>
        (before ++ rawBraces ++ r.1, r.2)) = some (text, closing) →
          text ++ closing <+: cs ∧ closing ≠ [] := by
      intro depth h
      obtain ⟨⟨text', closing'⟩, hbody, heq⟩ := Option.map_eq_some_iff.1 h
      cases heq
      obtain ⟨hstands, hne⟩ := ih hbody
      refine ⟨?_, hne⟩
      rw [← hcs, List.append_assoc, List.append_assoc]
      exact (List.prefix_append_right_inj before).2 (prefix_append_of_drop hbraces hstands)
    split at h
    · rename_i found hend
      split at h
      · cases h
        refine ⟨?_, rawEnd?_ne_nil hend⟩
        rw [← hcs]
        exact (List.prefix_append_right_inj _).2 (rawEnd?_isPrefix hend)
      · exact deeper _ h
    · split at h
      · exact deeper _ h
      · exact deeper _ h

/-- The plain text of an escaped tag stands at its front. -/
theorem verbatim_isPrefix {cs : List Char} (h : openBraces <+: cs) : verbatim cs <+: cs := by
  unfold verbatim
  refine prefix_append_of_drop h ?_
  have htext := breakOn_append openBraces (cs.drop 2)
  generalize breakOn openBraces (cs.drop 2) = broken at htext
  show _ <+: cs.drop 2
  rw [← htext]
  refine List.IsPrefix.trans ?_ (List.prefix_append broken.1 broken.2)
  split
  · exact List.prefix_refl _
  split
  · exact (List.dropLast_prefix _).trans (List.dropLast_prefix _)
  split
  · exact List.dropLast_prefix _
  · exact List.prefix_refl _

end Stencil.Syntax
