import Stencil.Proofs.Syntax.Fronts

/-!
# Names in tags

What is read where a name stands. A name is a text of characters that identifiers are made of; a
digit is one, and so is the sign of a number, but the point in a number is none. So a name that ends
before a separator or a closing brace is read as one word (`word?_name`), unless it is an integer
and a point and a digit follow it: then the number goes on after the point (`plainWord?_integer`).
-/

set_option autoImplicit false

namespace Stencil.Syntax

open Stencil.Text

/-! ## Numbers -/

/-- Whether a text is an integer: digits, perhaps after a sign. -/
def isInteger : List Char → Bool
  | '-' :: digits => !digits.isEmpty && digits.all Char.isDigit
  | digits => !digits.isEmpty && digits.all Char.isDigit

/-- The point and the digits that a number goes on with. -/
def fraction : List Char → List Char
  | '.' :: cs =>
    if (cs.takeWhile Char.isDigit).isEmpty then [] else '.' :: cs.takeWhile Char.isDigit
  | _ => []

/-- The number without a sign at the start of a text. -/
def unsignedChars (cs : List Char) : List Char :=
  if (cs.takeWhile Char.isDigit).isEmpty then []
  else cs.takeWhile Char.isDigit ++ fraction (cs.dropWhile Char.isDigit)

theorem numberChars_minus (cs : List Char) :
    numberChars ('-' :: cs) = if (cs.takeWhile Char.isDigit).isEmpty then [] else '-' ::
      unsignedChars cs := by
  show (if (cs.takeWhile Char.isDigit).isEmpty then []
    else ['-'] ++ cs.takeWhile Char.isDigit ++ fraction (cs.dropWhile Char.isDigit)) = _
  split
  · rfl
  · rename_i hsome
    rw [unsignedChars, if_neg hsome]
    rfl

theorem numberChars_of_not_minus {cs : List Char} (h : cs.head? ≠ some '-') :
    numberChars cs = unsignedChars cs := by
  unfold numberChars
  split
  rename_i sign body hsplit
  have hplain : (sign, body) = ([], cs) := by
    rw [← hsplit]
    split
    · exact absurd rfl h
    · rfl
  cases hplain
  rfl

theorem isInteger_of_digits {digits : List Char} (some_ : digits ≠ [])
    (h : digits.all Char.isDigit = true) :
    isInteger digits = true := by
  unfold isInteger
  split
  · cases h
  · rw [h, List.isEmpty_eq_false_iff.2 some_]
    rfl

/-- Digits are a number, with what the number goes on with. -/
theorem unsignedChars_digits {digits rest : List Char} (some_ : digits ≠ [])
    (h : ∀ c ∈ digits, c.isDigit = true) (hrest : ∀ c ∈ rest.head?, c.isDigit = false) :
    unsignedChars (digits ++ rest) = digits ++ fraction rest := by
  rw [unsignedChars, takeWhile_append_of_head? h hrest, dropWhile_append_of_head? h hrest, if_neg]
  exact fun hnone => some_ (List.isEmpty_iff.1 hnone)

/-- A point and a digit are the start of a fraction. -/
theorem fraction_point_of_digit {c : Char} (h : c.isDigit = true) (cs : List Char) :
    fraction ('.' :: c :: cs) = '.' :: (c :: cs).takeWhile Char.isDigit := by
  rw [fraction, List.takeWhile_cons_of_pos h]
  rfl

/-- Nothing else is. -/
theorem exists_digit_of_fraction {sep : Char} {cs : List Char} (h : fraction (sep :: cs) ≠ []) :
    sep = '.' ∧ ∃ c ∈ cs.head?, c.isDigit = true := by
  unfold fraction at h
  split at h
  · rename_i ds heq
    obtain ⟨rfl, rfl⟩ := List.cons.inj heq
    refine ⟨rfl, ?_⟩
    cases cs with
    | nil => exact absurd rfl h
    | cons c cs =>
      refine ⟨c, rfl, ?_⟩
      cases hc : c.isDigit with
      | true => rfl
      | false =>
        rw [List.takeWhile_cons_of_neg (by rw [hc]; exact Bool.false_ne_true)] at h
        exact absurd rfl h
  · exact absurd rfl h

theorem exists_not_digit {name : List Char} (h : name.all Char.isDigit = false) :
    ∃ digits c more, name = digits ++ c :: more ∧ (∀ d ∈ digits, d.isDigit = true) ∧
      c.isDigit = false := by
  induction name with
  | nil => cases h
  | cons d name ih =>
    cases hd : d.isDigit with
    | false => exact ⟨[], d, name, rfl, nofun, hd⟩
    | true =>
      rw [List.all_cons, hd, Bool.true_and] at h
      obtain ⟨digits, c, more, rfl, hdigits, hc⟩ := ih h
      exact ⟨d :: digits, c, more, rfl, List.forall_mem_cons.2 ⟨hd, hdigits⟩, hc⟩

/-- The number at the start of a name is shorter if there are other characters than digits. -/
theorem length_unsignedChars_lt {name rest : List Char} (hname : ∀ c ∈ name, c ≠ '.')
    (h : name.all Char.isDigit = false) : (unsignedChars (name ++ rest)).length < name.length := by
  obtain ⟨digits, c, more, rfl, hdigits, hc⟩ := exists_not_digit h
  have hhead : ∀ d ∈ (c :: more ++ rest).head?, d.isDigit = false := by
    rintro d ⟨⟩
    exact hc
  have hfraction : fraction (c :: more ++ rest) = [] := by
    unfold fraction
    split
    · rename_i cs heq
      cases heq
      exact absurd rfl (hname '.' (List.mem_append_right _ List.mem_cons_self))
    · rfl
  rw [List.append_assoc, unsignedChars, takeWhile_append_of_head? hdigits hhead,
    dropWhile_append_of_head? hdigits hhead, hfraction, List.append_nil]
  split
  · exact Nat.lt_of_lt_of_le (Nat.zero_lt_succ more.length) (by simp)
  · simp

/-- The number at the start of an integer is the integer, with what the number goes on with. -/
theorem numberChars_integer {name rest : List Char} (h : isInteger name = true)
    (hrest : ∀ c ∈ rest.head?, c.isDigit = false) :
    numberChars (name ++ rest) = name ++ fraction rest := by
  unfold isInteger at h
  split at h
  · rename_i digits
    obtain ⟨hsome, hdigits⟩ := Bool.and_eq_true_iff.1 h
    have some_ : digits ≠ [] := fun hnone => by rw [hnone] at hsome; cases hsome
    have hall := List.all_eq_true.1 hdigits
    rw [List.cons_append, numberChars_minus, takeWhile_append_of_head? hall hrest,
      unsignedChars_digits some_ hall hrest, if_neg fun hnone => some_ (List.isEmpty_iff.1 hnone)]
    rfl
  · rename_i hminus
    obtain ⟨hsome, hdigits⟩ := Bool.and_eq_true_iff.1 h
    have some_ : name ≠ [] := fun hnone => by rw [hnone] at hsome; cases hsome
    rw [numberChars_of_not_minus, unsignedChars_digits some_ (List.all_eq_true.1 hdigits) hrest]
    intro hhead
    obtain ⟨c, cs, rfl⟩ := List.exists_cons_of_ne_nil some_
    exact hminus cs (congrArg (· :: cs) (Option.some.inj hhead))

/-- The number at the start of a name that is no integer is shorter than the name. -/
theorem length_numberChars_lt {name rest : List Char} (some_ : name ≠ [])
    (hname : ∀ c ∈ name, c ≠ '.') (h : isInteger name = false)
    (hrest : ∀ c ∈ rest.head?, c.isDigit = false) :
    (numberChars (name ++ rest)).length < name.length := by
  unfold isInteger at h
  split at h
  · rename_i digits
    rw [List.cons_append, numberChars_minus]
    cases digits with
    | nil =>
      -- A sign alone is no number.
      have hnone : ([] ++ rest).takeWhile Char.isDigit = [] :=
        takeWhile_append_of_head? (fun c hc => absurd hc List.not_mem_nil) hrest
      rw [hnone]
      exact Nat.zero_lt_one
    | cons d digits =>
      split
      · exact Nat.zero_lt_succ _
      · exact Nat.succ_lt_succ
          (length_unsignedChars_lt (fun c hc => hname c (List.mem_cons_of_mem _ hc)) h)
  · rename_i hminus
    obtain ⟨c, cs, rfl⟩ := List.exists_cons_of_ne_nil some_
    rw [numberChars_of_not_minus]
    · exact length_unsignedChars_lt hname h
    · intro hhead
      exact hminus cs (congrArg (· :: cs) (Option.some.inj hhead))

/-! ## Words -/

/-- A text that may be a name: characters that identifiers are made of, and no blanks. -/
structure IsName (name : List Char) : Prop where
  some_ : name ≠ []
  chars : ∀ c ∈ name, isNameChar c = true ∧ isBlank c = false

instance (name : List Char) : Decidable (IsName name) :=
  decidable_of_iff (name ≠ [] ∧ (name.all fun c => isNameChar c && !isBlank c) = true) (by
    simp only [List.all_eq_true, Bool.and_eq_true, Bool.not_eq_true']
    exact ⟨fun h => ⟨h.1, h.2⟩, fun h => ⟨h.some_, h.chars⟩⟩)

theorem ne_of_isNameChar {c d : Char} (hc : isNameChar c = true) (hd : isNameChar d = false) :
    c ≠ d := by
  rintro rfl
  rw [hc] at hd
  cases hd

/-- A separator or a closing brace comes next. -/
def StopsName (rest : List Char) : Prop := ∃ c ∈ rest.head?, c = '.' ∨ c = '/' ∨ c = '\x7d'

/-- Whether a name is a literal where literals may stand. -/
def isLiteralName (name : List Char) : Bool :=
  isInteger name || name == "true".toList || name == "false".toList || name == "undefined".toList ||
    name == "null".toList

variable {name rest : List Char}

theorem IsName.ne_point (h : IsName name) : ∀ c ∈ name, c ≠ '.' := by
  rintro c hc rfl
  cases (h.chars _ hc).1

/-- No test that separators and closing braces do not pass goes on after a name. -/
theorem StopsName.head {test : Char → Bool} (h : StopsName rest) (hpoint : test '.' = false)
    (hslash : test '/' = false) (hbrace : test '\x7d' = false) :
    ∀ c ∈ rest.head?, test c = false := by
  obtain ⟨d, hd, hstops⟩ := h
  intro c hc
  obtain rfl : d = c := Option.some.inj (hd.symm.trans hc)
  rcases hstops with rfl | rfl | rfl
  · exact hpoint
  · exact hslash
  · exact hbrace

theorem StopsName.not_digit (h : StopsName rest) : ∀ c ∈ rest.head?, c.isDigit = false :=
  h.head rfl rfl rfl

/-- The characters of a name up to what stops it. -/
theorem IsName.takeWhile (h : IsName name) (stops : StopsName rest) :
    (name ++ rest).takeWhile isNameChar = name :=
  takeWhile_append_of_head? (fun c hc => (h.chars c hc).1) (stops.head rfl rfl rfl)

theorem IsName.isEmpty (h : IsName name) : name.isEmpty = false :=
  List.isEmpty_eq_false_iff.2 h.some_

/-- An integer is read as a number, together with the fraction after it. -/
theorem plainWord?_integer (h : IsName name) (stops : StopsName rest)
    (integer : isInteger name = true) :
    plainWord? (name ++ rest) = some ⟨.literal .number, name ++ fraction rest⟩ := by
  have hnumber := numberChars_integer integer stops.not_digit
  unfold plainWord?
  simp only [h.takeWhile stops, hnumber, h.isEmpty, Bool.false_eq_true, if_false]
  rw [if_pos (by rw [List.length_append]; exact Nat.le_add_right _ _)]

/-- A name is one word, unless it is an integer with a fraction after it. -/
theorem plainWord?_name (h : IsName name) (stops : StopsName rest)
    (whole : isInteger name = true → fraction rest = []) :
    ∃ sort, plainWord? (name ++ rest) = some ⟨sort, name⟩ ∧
      (sort = .fixed .name ∨ isLiteralName name = true ∧ ∃ kind, sort = .literal kind) := by
  cases integer : isInteger name with
  | true =>
    refine ⟨_, by rw [plainWord?_integer h stops integer, whole integer, List.append_nil],
      .inr ⟨?_, _, rfl⟩⟩
    rw [isLiteralName, integer]
    rfl
  | false =>
    have hgap : ([] ++ rest).takeWhile isParamsGap = [] :=
      takeWhile_append_of_head? (fun c hc => absurd hc List.not_mem_nil) (stops.head rfl rfl rfl)
    rw [List.nil_append] at hgap
    -- The name is longer than any number at its start, and so it is what is read.
    have hnumber := length_numberChars_lt h.some_ h.ne_point integer stops.not_digit
    unfold plainWord?
    simp only [h.takeWhile stops, List.drop_left, hgap, h.isEmpty, Bool.false_eq_true, if_false,
      List.isEmpty_nil, Bool.not_true, and_false]
    rw [if_neg (Nat.not_le.2 hnumber)]
    split
    · rename_i hword
      refine ⟨_, rfl, .inr ⟨?_, _, rfl⟩⟩
      rcases hword with rfl | rfl <;> rfl
    split
    · rename_i hword
      exact ⟨_, rfl, .inr ⟨by rw [hword]; rfl, _, rfl⟩⟩
    split
    · rename_i hword
      exact ⟨_, rfl, .inr ⟨by rw [hword]; rfl, _, rfl⟩⟩
    · exact ⟨_, rfl, .inl rfl⟩

/-- Characters of names start no word but plain ones. -/
theorem word?_eq_plainWord? (h : IsName name) :
    word? (name ++ rest) = plainWord? (name ++ rest) := by
  obtain ⟨c, cs, rfl⟩ := List.exists_cons_of_ne_nil h.some_
  have hne : ∀ d, isNameChar d = false → c ≠ d :=
    fun d => ne_of_isNameChar (h.chars c List.mem_cons_self).1
  rw [List.cons_append]
  unfold word?
  dsimp only
  rw [if_neg (hne _ (by decide)), if_neg (hne _ (by decide)), if_neg (hne _ (by decide)),
    if_neg (hne _ (by decide)), if_neg (hne _ (by decide)), if_neg (hne _ (by decide)),
    if_neg (hne _ (by decide)), if_neg (not_or.2 ⟨hne _ (by decide), hne _ (by decide)⟩),
    if_neg (hne _ (by decide))]

/-- Nothing that ends only before other characters ends before a name. -/
theorem endsBefore_of_isNameChar {c : Char} {stops : List Char} (hname : isNameChar c = true)
    (hblank : isBlank c = false) (hstops : (stops.all fun d => !isNameChar d) = true)
    (cs : List Char) :
    endsBefore stops (c :: cs) = false := by
  rw [endsBefore, hblank, Bool.false_or]
  refine Bool.eq_false_iff.2 fun hcontains => ?_
  have hstop := List.all_eq_true.1 hstops c (List.contains_iff_mem.1 hcontains)
  rw [hname] at hstop
  cases hstop

/-- No literal ends before a name goes on, or before a separator. -/
theorem endsBefore_eq_false {c : Char}
    (h : (isNameChar c = true ∧ isBlank c = false) ∨ c = '.' ∨ c = '/') (cs : List Char) :
    endsBefore "~\x7d)".toList (c :: cs) = false := by
  rcases h with ⟨hname, hblank⟩ | rfl | rfl
  · exact endsBefore_of_isNameChar hname hblank (by decide) cs
  · rfl
  · rfl

/-- A name is read as one, unless it is an integer with a fraction after it, or a literal at the end
of a tag. -/
theorem word?_name (h : IsName name) (stops : StopsName rest)
    (whole : isInteger name = true → fraction rest = [])
    (goes : isLiteralName name = true → rest.head? ≠ some '\x7d') :
    ∃ sort : WordClass, word? (name ++ rest) = some ⟨sort, name⟩ ∧ sort.kind rest = .name := by
  obtain ⟨sort, hword, hsort⟩ := plainWord?_name h stops whole
  refine ⟨sort, by rw [word?_eq_plainWord? h, hword], ?_⟩
  rcases hsort with rfl | ⟨hliteral, kind, rfl⟩
  · rfl
  · obtain ⟨c, hc, hstops⟩ := stops
    have hbrace : c ≠ '\x7d' := by
      rintro rfl
      exact goes hliteral hc
    obtain ⟨cs, rfl⟩ := List.head?_eq_some_iff.1 hc
    have hseparator : c = '.' ∨ c = '/' := (or_assoc.2 hstops).resolve_right hbrace
    have hends : endsBefore "~\x7d)".toList (c :: cs) = false :=
      endsBefore_eq_false (.inr hseparator) cs
    rw [WordClass.kind, hends, if_neg Bool.false_ne_true]

/-- After its digits a name goes on if it is no number, or if a separator follows. -/
theorem IsName.not_endsBefore (h : IsName name)
    (left : name.all Char.isDigit = false ∨ ∃ c cs, rest = c :: cs ∧ (c = '.' ∨ c = '/')) :
    endsBefore "~\x7d)".toList ((name ++ rest).dropWhile Char.isDigit) = false := by
  cases hall : name.all Char.isDigit with
  | false =>
    obtain ⟨digits, c, more, rfl, hdigits, hc⟩ := exists_not_digit hall
    have hhead : ∀ d ∈ (c :: more ++ rest).head?, d.isDigit = false := by
      rintro d ⟨⟩
      exact hc
    rw [List.append_assoc, dropWhile_append_of_head? hdigits hhead]
    exact endsBefore_eq_false (.inl (h.chars c (List.mem_append_right _ List.mem_cons_self))) _
  | true =>
    rw [hall] at left
    obtain ⟨c, cs, rfl, hc⟩ := left.resolve_left nofun
    have hhead : ∀ d ∈ (c :: cs).head?, d.isDigit = false := by
      rintro d ⟨⟩
      rcases hc with rfl | rfl <;> rfl
    rw [dropWhile_append_of_head? (List.all_eq_true.1 hall) hhead]
    exact endsBefore_eq_false (.inr hc) cs

end Stencil.Syntax
