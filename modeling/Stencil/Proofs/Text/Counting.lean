import Stencil.Proofs.Text.Places

/-!
# Positions by counting

In UTF-8 the byte of a line feed stands for the line feed alone (`count_utf8`), so the lines of a
text may be counted in its bytes. The position that the index of a text finds for a place between
two characters is the one that counting gives: the line feeds among the bytes before it, and the
characters since the last of them. It is the position of no other place
(`LineIndex.position_counted`).
-/

set_option autoImplicit false

namespace Stencil.Text

/-! ## Bytes of a text -/

/-- The bytes of a text in UTF-8. -/
def utf8 (cs : List Char) : List UInt8 := cs.flatMap String.utf8EncodeChar

/-- The byte of a line feed. -/
def lineFeed : UInt8 := 10

theorem utf8_append (as bs : List Char) : utf8 (as ++ bs) = utf8 as ++ utf8 bs :=
  List.flatMap_append

theorem length_utf8 (cs : List Char) : (utf8 cs).length = size cs := by
  induction cs with
  | nil => rfl
  | cons c cs ih =>
    rw [utf8, List.flatMap_cons, List.length_append, String.length_utf8EncodeChar, ← utf8, ih,
      size_cons]

/-- The bytes before the end of a first part are those of this part. -/
theorem take_utf8 (before after : List Char) :
    (utf8 (before ++ after)).take (size before) = utf8 before := by
  rw [utf8_append, ← length_utf8, List.take_left']
  rfl

/-- A character beyond the first 128 has no byte among the first 128. -/
theorem le_toNat_of_mem_utf8EncodeChar {c : Char} (h : 127 < c.val.toNat) :
    ∀ b ∈ String.utf8EncodeChar c, 128 ≤ b.toNat := by
  unfold String.utf8EncodeChar
  dsimp only
  rw [if_neg (Nat.not_le.2 h)]
  -- Each byte of the three longer forms is what it carries of the character, with a mark of 128 or
  -- more added.
  split_ifs <;>
    simp only [List.forall_mem_cons, List.not_mem_nil, false_imp_iff, implies_true, and_true,
      UInt8.toNat_ofNat'] <;>
    omega

/-- The byte of a line feed stands in no other character. -/
theorem count_utf8EncodeChar (c : Char) :
    (String.utf8EncodeChar c).count lineFeed = if c = '\n' then 1 else 0 := by
  have hfeed : c = '\n' ↔ c.val.toNat = 10 := by
    rw [Char.ext_iff, ← UInt32.toNat_inj]
    rfl
  by_cases hsmall : c.val.toNat ≤ 127
  · have hbyte : UInt8.ofNat c.val.toNat = lineFeed ↔ c = '\n' := by
      rw [hfeed, ← UInt8.toNat_inj, UInt8.toNat_ofNat_of_lt' (hsmall.trans_lt (by decide))]
      rfl
    simp only [String.utf8EncodeChar, if_pos hsmall, List.count_singleton, beq_iff_eq, hbyte]
  · have hother : c ≠ '\n' := fun heq => hsmall (by rw [hfeed.1 heq]; decide)
    rw [if_neg hother, List.count_eq_zero]
    intro hmem
    exact absurd (le_toNat_of_mem_utf8EncodeChar (Nat.not_le.1 hsmall) _ hmem) (by decide)

theorem count_utf8 (cs : List Char) : (utf8 cs).count lineFeed = cs.count '\n' := by
  induction cs with
  | nil => rfl
  | cons c cs ih =>
    rw [utf8, List.flatMap_cons, List.count_append, count_utf8EncodeChar, ← utf8, ih,
      List.count_cons, Nat.add_comm]
    simp only [beq_iff_eq]

/-! ## Positions -/

theorem Position.ne_of_lt {p q : Position} (h : p < q) : p ≠ q := by
  rintro rfl
  rw [Position.lt_iff] at h
  omega

/-- The position that the index finds for a place between two characters of a text is the counted
one: its line is one more than the number of bytes before the place that are line feeds, its column
the number of characters between the last line feed before the place, or the start, and the place.
So a later place has a later position, and different places have different positions. -/
theorem LineIndex.position_counted (source : List Char) :
    (∀ before after, source = before ++ after →
      (LineIndex.ofChars source).position (size before) =
        ⟨1 + ((utf8 source).take (size before)).count lineFeed, (lastLine before).length⟩) ∧
    (∀ start stop, Boundary source start → Boundary source stop → start < stop →
      (LineIndex.ofChars source).position start < (LineIndex.ofChars source).position stop) ∧
    (∀ start stop, Boundary source start → Boundary source stop → start ≠ stop →
      (LineIndex.ofChars source).position start ≠ (LineIndex.ofChars source).position stop) := by
  refine ⟨?_, fun start stop hstart hstop => (LineIndex.position_lt_iff hstart hstop).2, ?_⟩
  · rintro before after rfl
    rw [LineIndex.position_size, Position.after, take_utf8, count_utf8, Nat.add_comm]
  · intro start stop hstart hstop hne heq
    rcases Nat.lt_or_gt_of_ne hne with hlt | hlt
    · exact Position.ne_of_lt ((LineIndex.position_lt_iff hstart hstop).2 hlt) heq
    · exact Position.ne_of_lt ((LineIndex.position_lt_iff hstop hstart).2 hlt) heq.symm

/-- A character of two bytes before a line feed and one after it. -/
theorem LineIndex.position_counted_accents :
    "é\né".toList = "é\n".toList ++ "é".toList ∧ size "é\n".toList = 3 ∧
      (LineIndex.ofChars "é\né".toList).position 3 =
        ⟨1 + ((utf8 "é\né".toList).take 3).count lineFeed, (lastLine "é\n".toList).length⟩ ∧
      Boundary "é\né".toList 3 ∧ Boundary "é\né".toList 5 ∧
        (LineIndex.ofChars "é\né".toList).position 3 <
          (LineIndex.ofChars "é\né".toList).position 5 ∧
          (LineIndex.ofChars "é\né".toList).position 3 ≠
            (LineIndex.ofChars "é\né".toList).position 5 := by
  have hsplit : "é\né".toList = "é\n".toList ++ "é".toList := by decide
  have hstart : Boundary "é\né".toList 3 := ⟨"é\n".toList, by decide, by decide⟩
  have hstop : Boundary "é\né".toList 5 := ⟨"é\né".toList, by decide, by decide⟩
  obtain ⟨hcounted, hlater, hother⟩ := LineIndex.position_counted "é\né".toList
  exact ⟨hsplit, by decide, hcounted _ _ hsplit, hstart, hstop, hlater 3 5 hstart hstop (by decide),
    hother 3 5 hstart hstop (by decide)⟩

end Stencil.Text
