import Stencil.Proofs.Text.Escaping

/-!
# Reading escaped texts back

An escaped text has no `&` but those of its entities, and none of the seven entities begins another,
so the text that was escaped is read back from the front (`decode_flatMap_escapeChar`), also where
it looks like an entity itself. So texts that differ are never escaped to the same
(`escape_injective`).
-/

set_option autoImplicit false

namespace Stencil.Text

/-! ## Decoding -/

/-- The text with each of the seven entities replaced by the character that it stands for, read from
the front. An `&` that begins none of them stands for itself. -/
def decode : List Char → List Char
  | '&' :: 'a' :: 'm' :: 'p' :: ';' :: rest => Char.ofNat 0x26 :: decode rest
  | '&' :: 'l' :: 't' :: ';' :: rest => Char.ofNat 0x3C :: decode rest
  | '&' :: 'g' :: 't' :: ';' :: rest => Char.ofNat 0x3E :: decode rest
  | '&' :: 'q' :: 'u' :: 'o' :: 't' :: ';' :: rest => Char.ofNat 0x22 :: decode rest
  | '&' :: '#' :: 'x' :: '2' :: '7' :: ';' :: rest => Char.ofNat 0x27 :: decode rest
  | '&' :: '#' :: 'x' :: '6' :: '0' :: ';' :: rest => Char.ofNat 0x60 :: decode rest
  | '&' :: '#' :: 'x' :: '3' :: 'D' :: ';' :: rest => Char.ofNat 0x3D :: decode rest
  | c :: rest => c :: decode rest
  | [] => []

theorem decode_cons_of_ne {c : Char} (h : c ≠ '&') (rest : List Char) :
    decode (c :: rest) = c :: decode rest := by
  -- The equations before the last but one are about texts that begin with `&`.
  rw [decode] <;> exact fun _ hc => absurd hc h

theorem decode_entity_append {c : Char} {entity : String} (h : entity? c = some entity)
    (rest : List Char) :
    decode (entity.toList ++ rest) = c :: decode rest := by
  have hchar {n : Nat} (hn : c.toNat = n) : c = Char.ofNat n := by rw [← hn, Char.ofNat_toNat]
  -- One case for each of the seven: the character is known, and so are all characters of its
  -- entity.
  unfold entity? at h
  split at h <;> cases h <;> rename_i hn <;> rw [hchar hn] <;> rfl

/-- The escaped form of a character is read back as this character, whatever comes after it. -/
theorem decode_escapeChar_append (c : Char) (rest : List Char) :
    decode (escapeChar c ++ rest) = c :: decode rest := by
  unfold escapeChar
  split
  next entity h => exact decode_entity_append h rest
  next h =>
    have hne : c ≠ '&' := by
      rintro rfl
      cases h
    exact decode_cons_of_ne hne rest

theorem decode_flatMap_escapeChar (text : List Char) : decode (text.flatMap escapeChar) = text := by
  induction text with
  | nil => rfl
  | cons c text ih => rw [List.flatMap_cons, decode_escapeChar_append, ih]

/-- The text with its entities decoded. -/
def unescape (text : String) : String := String.ofList (decode text.toList)

theorem unescape_escape (text : String) : unescape (escape text) = text := by
  rw [unescape, toList_escape, decode_flatMap_escapeChar, String.ofList_toList]

theorem escape_injective : Function.Injective escape :=
  Function.LeftInverse.injective unescape_escape

/-! ## Escaping as a whole -/

theorem escape_append (s t : String) : escape (s ++ t) = escape s ++ escape t := by
  rw [← String.toList_inj, String.toList_append, toList_escape, toList_escape, toList_escape,
    String.toList_append, List.flatMap_append]

/-- The characters that could open or close a tag or an attribute value: `<`, `>`, `"`, the single
quote, the backtick and `=`. -/
def rawSpecials : List Char := [0x3C, 0x3E, 0x22, 0x27, 0x60, 0x3D].map Char.ofNat

/-- No such character stands in an escaped text. -/
theorem Escaped.not_mem_rawSpecials {text : List Char} (h : Escaped text) :
    ∀ c ∈ text, c ∉ rawSpecials := by
  intro c hc hraw
  have hspecial : (rawSpecials.all fun r => needsEntity r && r != '&') = true := by decide
  obtain ⟨hneeds, hne⟩ := Bool.and_eq_true_iff.1 (List.all_eq_true.1 hspecial c hraw)
  exact bne_iff_ne.1 hne (h.special c hc hneeds)

/-- The characters of a text are escaped one by one. The result has no characters left that are
special in HTML but `&`, and the text is read back from it, so texts that differ have different
results. Two texts together are escaped to the result of the one followed by that of the other. -/
theorem escape_each (text : String) :
    escape text = String.ofList (text.toList.flatMap escapeChar) ∧
      (∀ c ∈ (escape text).toList, c ∉ rawSpecials) ∧ unescape (escape text) = text ∧
      (∀ other, escape text = escape other → text = other) ∧
      ∀ other, escape (text ++ other) = escape text ++ escape other := by
  refine ⟨?_, (escaped_escape text).not_mem_rawSpecials, unescape_escape text,
    fun other h => escape_injective h, escape_append text⟩
  rw [← toList_escape, String.ofList_toList]

/-- A text that looks like an entity is told from the character that the entity stands for. -/
example : escape "&lt;<" = "&amp;lt;&lt;" ∧ unescape "&amp;lt;&lt;" = "&lt;<" := by decide

end Stencil.Text
