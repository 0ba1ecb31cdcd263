import Mathlib.Data.List.TakeWhile
import Stencil.Json.Reader
import Stencil.Proofs.Syntax.Fronts

/-!
# Reading literals that were written

A string literal is read back, whatever its characters are (`stringBody?_afterQuote`): each
character is written as itself or as an escape, and read as one character. An integer of 64 bits is
read back from its digits (`number?_intText`). Of a floating point number this is not said:
`ReadsBack x` is the property that it is. Numerals end at the first character that cannot stand in
one (`value?_numeral`).
-/

set_option autoImplicit false

namespace Stencil.Json

/-! ## Strings -/

/-- A character is found back from its number. -/
theorem eq_ofNat_of_toNat {c : Char} {n : Nat} (h : c.toNat = n) : c = Char.ofNat n := by
  rw [← h, Char.ofNat_toNat]

theorem hexDigit?_digitChar : ∀ n < 16, hexDigit? (Nat.digitChar n) = some n := by decide

/-- A control character is read back from its number. -/
theorem unicodeEscape?_hexPair {n : Nat} (h : n < 0x20) (rest : List Char) :
    unicodeEscape? ('0' :: '0' :: (hexPair n ++ rest)) = some (Char.ofNat n, rest) := by
  have hzero : hexDigit? '0' = some 0 := rfl
  have hhigh := hexDigit?_digitChar (n / 16 % 16) (Nat.mod_lt _ (by decide))
  have hlow := hexDigit?_digitChar (n % 16) (Nat.mod_lt _ (by decide))
  have hvalue : ((0 * 16 + 0) * 16 + n / 16 % 16) * 16 + n % 16 = n := by omega
  have hquad : hexQuad? ('0' :: '0' :: (hexPair n ++ rest)) = some (n, rest) := by
    rw [hexPair, List.cons_append, List.cons_append, List.nil_append, hexQuad?, hzero, hhigh, hlow]
    dsimp only
    rw [hvalue]
  rw [unicodeEscape?, hquad]
  dsimp only
  rw [if_neg (by omega), if_neg (by omega)]

/-- An escape by number is one character. -/
theorem stringBody?_unicode {fuel : Nat} {cs rest : List Char} {d : Char}
    (h : unicodeEscape? cs = some (d, rest)) :
    stringBody? (fuel + 1) ('\\' :: 'u' :: cs) =
      (stringBody? fuel rest).map fun r => (d :: r.1, r.2) := by
  simp [stringBody?, h]

/-- However a character is written, it is read as that one character. -/
theorem stringBody?_escapeChar (fuel : Nat) (c : Char) (rest : List Char) :
    stringBody? (fuel + 1) (escapeChar c ++ rest) =
      (stringBody? fuel rest).map fun r => (c :: r.1, r.2) := by
  unfold escapeChar
  split
  iterate 7 next h => rw [eq_ofNat_of_toNat h]; rfl
  next hquote hslash _ _ _ _ _ =>
    split
    next h =>
      -- Other control characters are written by number.
      rw [List.append_assoc]
      show stringBody? (fuel + 1) ('\\' :: 'u' :: '0' :: '0' :: (hexPair c.toNat ++ rest)) = _
      rw [stringBody?_unicode (unicodeEscape?_hexPair h rest), Char.ofNat_toNat]
    next h =>
      have hc : c ≠ '"' := fun hc => hquote (congrArg Char.toNat hc)
      have hc' : c ≠ '\\' := fun hc => hslash (congrArg Char.toNat hc)
      show stringBody? (fuel + 1) (c :: rest) = _
      rw [stringBody?, if_neg hc, if_neg hc', if_neg h]

/-- A string literal is read up to its closing quote. -/
theorem stringBody?_escaped (cs rest : List Char) {fuel : Nat} (h : cs.length < fuel) :
    stringBody? fuel (cs.flatMap escapeChar ++ '"' :: rest) = some (cs, rest) := by
  induction cs generalizing fuel with
  | nil =>
    obtain ⟨fuel, rfl⟩ := Nat.exists_eq_succ_of_ne_zero (Nat.ne_of_gt h)
    rfl
  | cons c cs ih =>
    obtain ⟨fuel, rfl⟩ := Nat.exists_eq_succ_of_ne_zero (Nat.ne_of_gt (Nat.zero_lt_of_lt h))
    rw [List.flatMap_cons, List.append_assoc, stringBody?_escapeChar, ih (Nat.lt_of_succ_lt_succ h)]
    rfl

theorem escapeChar_ne_nil (c : Char) : escapeChar c ≠ [] := by
  unfold escapeChar
  split
  iterate 7 exact List.cons_ne_nil _ _
  split
  · exact List.cons_ne_nil _ _
  · exact List.cons_ne_nil _ _

/-- To escape makes a text no shorter, so the fuel for the escaped text suffices. -/
theorem length_le_flatMap_escapeChar (cs : List Char) :
    cs.length ≤ (cs.flatMap escapeChar).length := by
  induction cs with
  | nil => exact Nat.zero_le _
  | cons c cs ih =>
    have hc := List.length_pos_iff.2 (escapeChar_ne_nil c)
    rw [List.flatMap_cons, List.length_append, List.length_cons]
    omega

/-- What follows the opening quote of a literal. -/
def afterQuote (s : String) (rest : List Char) : List Char :=
  s.toList.flatMap escapeChar ++ '"' :: rest

theorem toList_quote (s : String) (rest : List Char) :
    (quote s).toList ++ rest = '"' :: afterQuote s rest := by
  simp [quote, afterQuote]

/-- By induction on the text: each character is read back from its escape. -/
theorem stringBody?_afterQuote (s : String) (rest : List Char) :
    stringBody? ((afterQuote s rest).length + 1) (afterQuote s rest) = some (s.toList, rest) := by
  have hlength := length_le_flatMap_escapeChar s.toList
  refine stringBody?_escaped _ _ ?_
  rw [afterQuote, List.length_append]
  omega

/-! ## Numerals -/

/-- The text does not go on with a numeral. -/
def EndsNumeral (rest : List Char) : Prop := ∀ c ∈ rest.head?, isNumeralChar c = false

theorem isDigit_toDigits (n : Nat) : ∀ c ∈ Nat.toDigits 10 n, c.isDigit := fun _ h =>
  Nat.isDigit_of_mem_toDigits (by decide) (by decide) h

/-- The digits of a number have it for their value. -/
theorem digitsValue_toDigits (n : Nat) : Decimal.digitsValue 0 (Nat.toDigits 10 n) = n := by
  rw [Decimal.digitsValue, ← Nat.ofDigitChars_eq_foldl, Nat.ofDigitChars_ten_toDigits]

/-- Only zero is written with a leading zero. -/
theorem head?_toDigits {n : Nat} (hn : n ≠ 0) : (Nat.toDigits 10 n).head? ≠ some '0' := by
  induction n using Nat.strongRecOn with
  | ind n ih =>
    rcases Nat.lt_or_ge n 10 with hsmall | hlarge
    · rw [Nat.toDigits_of_lt_base hsmall]
      have hdigit : ∀ m < 10, m ≠ 0 → [Nat.digitChar m].head? ≠ some '0' := by decide
      exact hdigit n hsmall hn
    · rw [Nat.toDigits_of_base_le (by decide) hlarge, List.head?_append,
        List.head?_eq_some_head Nat.toDigits_ne_nil, Option.some_or, ← List.head?_eq_some_head]
      exact ih (n / 10) (by omega) (by omega)

/-- The digits of a number are the whole part of a numeral, and all of it. -/
theorem whole_toDigits (n : Nat) :
    (Nat.toDigits 10 n).takeWhile Char.isDigit = Nat.toDigits 10 n ∧
      (Nat.toDigits 10 n).dropWhile Char.isDigit = [] ∧
      ((Nat.toDigits 10 n).isEmpty ||
        ((Nat.toDigits 10 n).head? == some '0' && (Nat.toDigits 10 n).length != 1)) = false := by
  have hdigits := isDigit_toDigits n
  refine ⟨List.takeWhile_eq_self_iff.2 hdigits, List.dropWhile_eq_nil_iff.2 hdigits, ?_⟩
  rw [List.isEmpty_eq_false_iff.2 Nat.toDigits_ne_nil, Bool.false_or]
  by_cases hn : n = 0
  · rw [hn]; rfl
  · rw [beq_false_of_ne (head?_toDigits hn), Bool.false_and]

/-- An integer of 64 bits is read back from its digits. -/
theorem number?_intText {n : Int} (hlow : Int64.minValue.toInt ≤ n) (hhigh : n < UInt64.size) :
    number? (Decimal.intText n) = some (.int n) := by
  obtain ⟨htake, hdrop, hlead⟩ := whole_toDigits n.natAbs
  have hvalue := digitsValue_toDigits n.natAbs
  have hdigits := isDigit_toDigits n.natAbs
  unfold Decimal.intText
  generalize Nat.toDigits 10 n.natAbs = ds at htake hdrop hlead hvalue hdigits
  split
  next h =>
    have hn : -(n.natAbs : Int) = n := by omega
    have hpos : (0 : Int) < n.natAbs := by omega
    simp only [number?, htake, hdrop, hlead, hvalue, hn, hpos, hlow]
    rfl
  next h =>
    have hn : (n.natAbs : Int) = n := by omega
    unfold number?
    dsimp only
    split
    next => exact absurd (hdigits '-' List.mem_cons_self) (by decide)
    next =>
      simp only [htake, hdrop, hlead, hvalue, hn, hhigh]
      rfl

/-- A floating point number has a numeral, and is read back from it. -/
def ReadsBack (x : Float) : Prop :=
  ∃ text, Decimal.json? x = some text ∧ number? text.toList = some (.float x)

/-! ### Characters of numerals -/

theorem isNumeralChar_of_isDigit {c : Char} (h : c.isDigit) : isNumeralChar c := by
  simp [isNumeralChar, h]

theorem isNumeralChar_toDigits (n : Nat) : ∀ c ∈ Nat.toDigits 10 n, isNumeralChar c := fun c h =>
  isNumeralChar_of_isDigit (isDigit_toDigits n c h)

theorem isNumeralChar_intText (n : Int) : ∀ c ∈ Decimal.intText n, isNumeralChar c := by
  unfold Decimal.intText
  split
  · exact List.forall_mem_cons.2 ⟨rfl, isNumeralChar_toDigits _⟩
  · exact isNumeralChar_toDigits _

/-- Wherever the point is placed, the numeral has digits, zeros and the point. -/
theorem isNumeralChar_placePoint {ds : List Char} (hds : ∀ c ∈ ds, isNumeralChar c) (point : Int) :
    ∀ c ∈ Decimal.placePoint ds point, isNumeralChar c := by
  have hzeros (n : Nat) : ∀ c ∈ List.replicate n '0', isNumeralChar c := fun c h => by
    rw [List.eq_of_mem_replicate h]; rfl
  unfold Decimal.placePoint
  split
  · refine List.forall_mem_cons.2 ⟨rfl, List.forall_mem_cons.2 ⟨rfl, ?_⟩⟩
    exact List.forall_mem_append.2 ⟨hzeros _, hds⟩
  split
  · exact List.forall_mem_append.2 ⟨hds, hzeros _⟩
  · exact List.forall_mem_append.2 ⟨fun c h => hds c (List.mem_of_mem_take h),
      List.forall_mem_cons.2 ⟨rfl, fun c h => hds c (List.mem_of_mem_drop h)⟩⟩

theorem isNumeralChar_mantissa (d : Decimal.Scientific) : ∀ c ∈ d.mantissa, isNumeralChar c := by
  have hds : ∀ c ∈ d.chars, isNumeralChar c := isNumeralChar_toDigits _
  unfold Decimal.Scientific.mantissa
  split
  · exact fun _ h => absurd h List.not_mem_nil
  next heq => rwa [heq] at hds
  next heq =>
    rw [heq] at hds
    obtain ⟨hc, hcs⟩ := List.forall_mem_cons.1 hds
    exact List.forall_mem_cons.2 ⟨hc, List.forall_mem_cons.2 ⟨rfl, hcs⟩⟩

/-- A number is written with the characters of numerals only. -/
theorem isNumeralChar_json? {x : Float} {text : String} (h : Decimal.json? x = some text) :
    ∀ c ∈ text.toList, isNumeralChar c := by
  have hsigned {negative : Bool} {cs : List Char} (hcs : ∀ c ∈ cs, isNumeralChar c) :
      ∀ c ∈ (Decimal.signed negative cs).toList, isNumeralChar c := by
    rw [Decimal.signed, String.toList_ofList]
    cases negative with
    | false => exact hcs
    | true => exact List.forall_mem_cons.2 ⟨rfl, hcs⟩
  have hpositional (d : Decimal.Scientific) : ∀ c ∈ d.positional, isNumeralChar c :=
    isNumeralChar_placePoint (isNumeralChar_toDigits _) _
  have hfraction : ∀ c ∈ ['.', '0'], isNumeralChar c :=
    List.forall_mem_cons.2 ⟨rfl, List.forall_mem_singleton.2 rfl⟩
  unfold Decimal.json? at h
  split at h
  · cases h
    refine hsigned ?_
    split
    · exact List.forall_mem_cons.2 ⟨rfl, hfraction⟩
    split
    · exact List.forall_mem_append.2 ⟨hpositional _, hfraction⟩
    split
    · exact hpositional _
    · refine List.forall_mem_append.2 ⟨isNumeralChar_mantissa _, ?_⟩
      exact List.forall_mem_cons.2 ⟨rfl, isNumeralChar_intText _⟩
  · cases h

theorem isSpace_of_isNumeralChar {c : Char} (h : isNumeralChar c) : isSpace c = false := by
  unfold isSpace
  by_contra hspace
  simp only [Bool.not_eq_false, Bool.or_eq_true, beq_iff_eq] at hspace
  rcases hspace with ((rfl | rfl) | rfl) | rfl <;> exact absurd h (by decide)

theorem skip_cons_of_not_isSpace {c : Char} (h : isSpace c = false) (cs : List Char) :
    skip (c :: cs) = c :: cs := by
  rw [skip, List.dropWhile_cons_of_neg (by rw [h]; exact Bool.false_ne_true)]

/-- A numeral is read up to the first character that cannot stand in one. -/
theorem value?_numeral {cs rest : List Char} {j : Json} (fuel : Nat) (hread : number? cs = some j)
    (hcs : ∀ c ∈ cs, isNumeralChar c) (hrest : EndsNumeral rest) :
    value? (fuel + 1) (cs ++ rest) = some (j, rest) := by
  obtain _ | ⟨c, cs⟩ := cs
  · cases hread
  have hc : isNumeralChar c := hcs c List.mem_cons_self
  have htake : (c :: (cs ++ rest)).takeWhile isNumeralChar = c :: cs :=
    Text.takeWhile_append_of_head? hcs hrest
  rw [List.cons_append, value?, skip_cons_of_not_isSpace (isSpace_of_isNumeralChar hc)]
  split
  next heq => cases heq
  iterate 5 next heq => cases heq; exact absurd hc (by decide)
  next heq =>
    cases heq
    rw [if_neg (by rintro rfl; exact absurd hc (by decide)), htake]
    dsimp only
    rw [hread, ← List.cons_append, List.drop_left]
    rfl

end Stencil.Json
