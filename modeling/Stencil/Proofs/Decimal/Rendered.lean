import Stencil.Proofs.Json.Literals
import Stencil.Proofs.Text.Escaping

/-!
# Numbers as they are shown

Floating point numbers that are equal are shown alike (`rendered_eq_of_beq`). Equality of two
numbers is that of their signs, mantissas and exponents, except that zero is equal to its negative.
How a number is read from its fields (`read`) is what it is unpacked to for comparisons (`read_eq`),
and both zeros are shown without a sign.

Nothing that is shown of a number needs to be escaped (`clean_rendered`, `clean_intText`).
-/

set_option autoImplicit false

namespace Stencil.Decimal

open Stencil.Text (Clean entity?)
open Float.Model (UnpackedFloat Format)
open Float.Model.UnpackedFloat (Sign unpackMantissa unpackExponent unpackSign)

/-- The reading of a number that was unpacked. -/
def Reading.ofUnpacked : UnpackedFloat → Reading
  | .notANumber => .nan
  | .infinity s => .infinite (s == .negative)
  | .zero s => .finite (s == .negative) ⟨0, -1074, false⟩
  | .finite s m e _ => .finite (s == .negative) ⟨m, e, m == leadingBit && e != -1074⟩

theorem Reading.ofUnpacked_zero (s : Sign) :
    Reading.ofUnpacked (.zero s) = .finite (s == .negative) ⟨0, -1074, false⟩ := rfl

theorem Reading.ofUnpacked_finite (s : Sign) {m : Nat} (e : Int) (hm : 0 < m) :
    Reading.ofUnpacked (.finite s m e hm) =
      .finite (s == .negative) ⟨m, e, m == leadingBit && e != -1074⟩ := rfl

section Fields

variable (b : BitVec 64)

theorem toNat_unpackMantissa :
    (@unpackMantissa Format.binary64 b).toNat = b.toNat % leadingBit := by
  simp [unpackMantissa, leadingBit]

theorem toNat_unpackExponent :
    (@unpackExponent Format.binary64 b).toNat = b.toNat / leadingBit % 2048 := by
  simp [unpackExponent, leadingBit, Nat.shiftRight_eq_div_pow]

theorem toNat_unpackSign :
    (@unpackSign Format.binary64 b).toNat = b.toNat / (leadingBit * 2048) % 2 := by
  show (BitVec.extractLsb 63 63 b).toNat = _
  rw [BitVec.extractLsb_toNat, Nat.shiftRight_eq_div_pow]
  rfl

theorem sign_eq :
    (b.toNat / (leadingBit * 2048) % 2 == 1) =
      (Sign.ofBitVec (@unpackSign Format.binary64 b) == .negative) := by
  rw [← toNat_unpackSign]
  generalize @unpackSign Format.binary64 b = v
  revert v
  decide

theorem toNat_one_append (v : BitVec 52) : (1#1 ++ v).toNat = leadingBit + v.toNat := by
  rw [BitVec.toNat_append, ← Nat.shiftLeft_add_eq_or_of_lt v.isLt]
  rfl

/-- The fields of a number of 64 bits are read as they are unpacked. -/
theorem readBits_eq :
    readBits b.toNat = Reading.ofUnpacked (UnpackedFloat.unpack Format.binary64 b) := by
  rw [readBits]
  delta UnpackedFloat.unpack
  dsimp only
  rw [sign_eq, ← toNat_unpackMantissa, ← toNat_unpackExponent]
  have hzero : (@unpackMantissa Format.binary64 b).toNat = 0 ↔
      @unpackMantissa Format.binary64 b = 0#52 :=
    BitVec.toNat_eq_nat.trans (and_iff_right (by decide))
  have hlast : (@unpackExponent Format.binary64 b).toNat = 2047 ↔
      @unpackExponent Format.binary64 b = -1#11 :=
    BitVec.toNat_eq_nat.trans (and_iff_right (by decide))
  have hfirst : (@unpackExponent Format.binary64 b).toNat = 0 ↔
      @unpackExponent Format.binary64 b = 0#11 :=
    BitVec.toNat_eq_nat.trans (and_iff_right (by decide))
  by_cases h2047 : @unpackExponent Format.binary64 b = -1#11
  · -- What is not finite.
    rw [if_pos (hlast.2 h2047), if_pos h2047]
    by_cases h0 : @unpackMantissa Format.binary64 b = 0#52
    · rw [if_pos (hzero.2 h0), if_pos h0]
      rfl
    · rw [if_neg (mt hzero.1 h0), if_neg h0]
      rfl
  rw [if_neg (mt hlast.1 h2047), if_neg h2047]
  by_cases hsmall : @unpackExponent Format.binary64 b = 0#11
  · rw [if_pos (hfirst.2 hsmall), if_pos hsmall]
    by_cases h0 : @unpackMantissa Format.binary64 b = 0#52
    · rw [dif_pos h0, hzero.2 h0]
      rfl
    · rw [dif_neg h0]
      -- The smallest numbers share the exponent of the smallest binade.
      have hexponent : ((@unpackExponent Format.binary64 b).toNat : Int) -
          (((Format.binary64.exponentBias : Nat) : Int) + ((52 : Nat) : Int)) + 1 = -1074 := by
        rw [hfirst.2 hsmall]
        rfl
      rw [Reading.ofUnpacked_finite, hexponent]
      simp
  · rw [if_neg (mt hfirst.1 hsmall), if_neg hsmall, Reading.ofUnpacked_finite, toNat_one_append]
    have hexponent : ((@unpackExponent Format.binary64 b).toNat : Int) -
        (((Format.binary64.exponentBias : Nat) : Int) + ((52 : Nat) : Int)) =
          ((@unpackExponent Format.binary64 b).toNat : Int) - 1075 := rfl
    have hedge : ((@unpackMantissa Format.binary64 b).toNat == 0 &&
        (@unpackExponent Format.binary64 b).toNat != 1) =
          (leadingBit + (@unpackMantissa Format.binary64 b).toNat == leadingBit &&
            ((@unpackExponent Format.binary64 b).toNat : Int) - 1075 != -1074) := by
      rw [Bool.eq_iff_iff]
      simp only [Bool.and_eq_true, beq_iff_eq, bne_iff_ne]
      omega
    rw [hexponent, hedge]

end Fields

theorem read_eq (x : Float) : read x = Reading.ofUnpacked x.toModel.unpack :=
  readBits_eq x.toBits.toBitVec

theorem eq_of_compare_then {e e' : Int} {m m' : Nat}
    (h : (compare e e').then (compare m m') = .eq) : e = e' ∧ m = m' := by
  obtain ⟨hexponent, hmantissa⟩ := Ordering.then_eq_eq.1 h
  exact ⟨Std.LawfulEqCmp.eq_of_compare hexponent, Std.LawfulEqCmp.eq_of_compare hmantissa⟩

/-- Numbers that are equal have the same reading, unless they are zeros. -/
theorem reading_of_beq {a b : UnpackedFloat} (h : a.beq b = true) :
    Reading.ofUnpacked a = Reading.ofUnpacked b ∨ ∃ s t, a = .zero s ∧ b = .zero t := by
  have hcompare : a.compare b = some .eq := eq_of_beq h
  cases a with
  | notANumber => cases hcompare
  | infinity s =>
    cases b with
    | infinity t => cases s <;> cases t <;> first | exact .inl rfl | cases hcompare
    | _ => cases s <;> cases hcompare
  | zero s =>
    cases b with
    | zero t => exact .inr ⟨s, t, rfl, rfl⟩
    | notANumber => cases hcompare
    | infinity t => cases t <;> cases hcompare
    | finite t m e _ => cases t <;> cases hcompare
  | finite s m e _ =>
    cases b with
    | finite t m' e' _ =>
      cases s <;> cases t
      case negative.negative =>
        have hsame := Ordering.swap_eq_eq.1 (Option.some.inj hcompare)
        obtain ⟨rfl, rfl⟩ := eq_of_compare_then hsame
        exact .inl rfl
      case positive.positive =>
        obtain ⟨rfl, rfl⟩ := eq_of_compare_then (Option.some.inj hcompare)
        exact .inl rfl
      all_goals cases hcompare
    | notANumber => cases s <;> cases hcompare
    | infinity t => cases s <;> cases t <;> cases hcompare
    | zero t => cases s <;> cases hcompare

/-- Zero is shown without a sign. -/
theorem rendered_of_zero {x : Float} {s : Sign} (h : x.toModel.unpack = .zero s) :
    rendered x = "0" := by
  have hwhole : Magnitude.whole? ⟨0, -1074, false⟩ = some 0 := by
    simp [Magnitude.whole?]
  rw [rendered, read_eq, h, Reading.ofUnpacked_zero]
  simp only [hwhole]

/-- Numbers that are equal are shown alike. -/
theorem rendered_eq_of_beq {x y : Float} (h : (x == y) = true) : rendered x = rendered y := by
  rcases reading_of_beq (a := x.toModel.unpack) (b := y.toModel.unpack) h with hsame |
      ⟨s, t, hx, hy⟩
  · rw [rendered, rendered, read_eq, read_eq, hsame]
  · rw [rendered_of_zero hx, rendered_of_zero hy]

/-! ## Characters -/

/-- No character of a numeral is in need of an entity. -/
theorem clean_of_numeral {cs : List Char} (h : ∀ c ∈ cs, Json.isNumeralChar c) : Clean cs := by
  intro c hc
  have hnumeral := h c hc
  rw [Bool.eq_false_iff]
  intro hneeds
  rw [Text.needsEntity_eq] at hneeds
  obtain ⟨entity, hentity⟩ := Option.isSome_iff_exists.1 hneeds
  have hchar : c = Char.ofNat c.toNat := c.ofNat_toNat.symm
  unfold entity? at hentity
  split at hentity
  case h_8 => cases hentity
  all_goals
    next hcode =>
      rw [hcode] at hchar
      rw [hchar] at hnumeral
      exact absurd hnumeral (by decide)

theorem clean_intText (n : Int) : Clean (intText n) :=
  clean_of_numeral (Json.isNumeralChar_intText n)

theorem clean_signed {negative : Bool} {cs : List Char} (h : ∀ c ∈ cs, Json.isNumeralChar c) :
    Clean (signed negative cs).toList := by
  rw [signed, String.toList_ofList]
  refine clean_of_numeral ?_
  cases negative with
  | false => exact h
  | true => exact List.forall_mem_cons.2 ⟨rfl, h⟩

/-- No number is shown with a character in need of an entity. -/
theorem clean_rendered (x : Float) : Clean (rendered x).toList := by
  rw [rendered]
  cases read x with
  | nan => decide
  | infinite negative => cases negative <;> decide
  | finite negative m =>
    dsimp only
    have hpositional : ∀ c ∈ m.shortest.positional, Json.isNumeralChar c :=
      Json.isNumeralChar_placePoint (Json.isNumeralChar_toDigits _) _
    split
    · decide
    · split
      · refine clean_signed (List.forall_mem_append.2 ⟨Json.isNumeralChar_mantissa _, ?_⟩)
        exact List.forall_mem_cons.2 ⟨rfl,
          List.forall_mem_cons.2 ⟨rfl, Json.isNumeralChar_intText _⟩⟩
      · exact clean_signed (Json.isNumeralChar_toDigits _)
    · split
      · refine clean_signed (List.forall_mem_append.2 ⟨Json.isNumeralChar_mantissa _, ?_⟩)
        exact List.forall_mem_cons.2 ⟨rfl, Json.isNumeralChar_intText _⟩
      · exact clean_signed hpositional

end Stencil.Decimal
