import PolyIdeal.Proofs.Scalar.Packing
import PolyIdeal.Scalar.Text

/-!
# Coefficients that can be told from their texts

The text of a polynomial shows the sign of a coefficient and the text of its magnitude, or just the
sign if the magnitude is one. Of floating-point numbers that are numbers other than zero nothing
gets lost in this way: `legible_float` and `legible_float32`.
-/

namespace PolyIdeal

open Float.Model (Format UnpackedFloat)
open Float.Model.UnpackedFloat

/-- What the text of a polynomial relies on, for the coefficients that are `regular`. -/
structure Legible (K : Type) [Scalar K] [ScalarText K] (regular : K → Prop) : Prop where
  /-- The text of a magnitude is plain, -/
  isPlain : ∀ {c : K}, regular c → Decimal.IsPlain (ScalarText.text (Scalar.abs c)).toList
  /-- and no other magnitude has it. -/
  abs_eq_of_text : ∀ {c d : K}, regular c → regular d →
    ScalarText.text (Scalar.abs c) = ScalarText.text (Scalar.abs d) → Scalar.abs c = Scalar.abs d
  /-- There is one magnitude that counts as one, -/
  abs_eq_of_isUnit : ∀ {c d : K}, regular c → regular d →
    ScalarText.isUnit (Scalar.abs c) = true → ScalarText.isUnit (Scalar.abs d) = true →
      Scalar.abs c = Scalar.abs d
  /-- and the sign is all that a magnitude leaves open. -/
  eq_of_abs_eq : ∀ {c d : K}, regular c → regular d →
    ScalarText.isNegative c = ScalarText.isNegative d → Scalar.abs c = Scalar.abs d → c = d

namespace Packing

/-- Coefficients that are bit patterns of a format. -/
structure Packed (K : Type) [Scalar K] [ScalarText K] (spec : Format)
    (bits : K → BitVec spec.numBits) : Prop where
  /-- There are exponents for numbers with and without an implicit leading bit, -/
  two_le_exponentBits : 2 ≤ spec.exponentBits
  /-- and the numbers are not too precise for the search for their texts. -/
  covered : (format spec).Covered
  injective : Function.Injective bits
  valid : ∀ c, spec.Valid (bits c)
  bits_abs : ∀ c, bits (Scalar.abs c) = pack spec (unpack spec (bits c)).abs
  isNegative_eq : ∀ c, ScalarText.isNegative c = (unpack spec (bits c)).lt (.zero .positive)
  exists_isUnit_eq : ∃ unit, ∀ c, ScalarText.isUnit c = (unpack spec (bits c)).beq unit
  text_eq : ∀ c, ScalarText.text c = (format spec).magnitudeText (bits c).toNat

namespace Packed

variable {K : Type} [Scalar K] [ScalarText K] {spec : Format} {bits : K → BitVec spec.numBits}

/-- Taking the magnitude clears the sign bit. -/
theorem bits_abs_eq (h : Packed K spec bits) (c : K) :
    bits (Scalar.abs c) = clearSign (bits c) := by
  rw [h.bits_abs, pack_abs_unpack h.two_le_exponentBits (h.valid c)]

theorem text_abs_eq (h : Packed K spec bits) (c : K) : ScalarText.text (Scalar.abs c) =
    (format spec).magnitudeText (clearSign (bits c)).toNat := by
  rw [h.text_eq, h.bits_abs_eq]

theorem unpack_abs_eq (h : Packed K spec bits) (c : K) :
    unpack spec (bits (Scalar.abs c)) = (unpack spec (bits c)).abs := by
  rw [h.bits_abs_eq, unpack_clearSign]

/-- Valid patterns are told apart by what they unpack to. -/
theorem eq_of_unpack_eq (h : Packed K spec bits) {c d : K}
    (heq : unpack spec (bits c) = unpack spec (bits d)) : c = d :=
  h.injective ((unpack_inj_of_valid (h.valid c) (h.valid d) h.two_le_exponentBits).mp heq)

/-- Numbers other than zero can be told from their texts. -/
theorem legible (h : Packed K spec bits) {regular : K → Prop}
    (hregular : ∀ {c}, regular c → IsNonzero (unpack spec (bits c))) : Legible K regular := by
  constructor
  case isPlain =>
    intro c hc
    rw [h.text_abs_eq]
    exact (hregular hc).isPositive_clearSign.isPlain h.covered
  case abs_eq_of_text =>
    intro c d hc hd heq
    rw [h.text_abs_eq, h.text_abs_eq] at heq
    have hbits := Decimal.BinaryFormat.magnitudeText_injective h.covered
      (hregular hc).isPositive_clearSign (hregular hd).isPositive_clearSign heq
    refine h.injective ?_
    rw [h.bits_abs_eq, h.bits_abs_eq, BitVec.toNat_inj.mp hbits]
  case abs_eq_of_isUnit =>
    intro c d hc hd hcunit hdunit
    obtain ⟨unit, hunit⟩ := h.exists_isUnit_eq
    rw [hunit, h.unpack_abs_eq] at hcunit hdunit
    refine h.eq_of_unpack_eq ?_
    rw [h.unpack_abs_eq, h.unpack_abs_eq, (hregular hc).abs_eq_of_beq hcunit,
      (hregular hd).abs_eq_of_beq hdunit]
  case eq_of_abs_eq =>
    intro c d hc hd hsign heq
    rw [h.isNegative_eq, h.isNegative_eq] at hsign
    refine h.eq_of_unpack_eq ((hregular hc).eq_of_abs_eq (hregular hd) hsign ?_)
    rw [← h.unpack_abs_eq, ← h.unpack_abs_eq, heq]

end Packed

/-! ## The two formats

Magnitudes and comparisons are defined on unpacked patterns, so most of this holds by definition. -/

/-- Numbers of 64 bits. -/
theorem packed_float : Packed Float .binary64 fun c => c.toBits.toBitVec where
  two_le_exponentBits := by decide
  covered := Decimal.BinaryFormat.covered_double
  injective _ _ h := Float.toBits_inj.mp (UInt64.toBitVec_inj.mp h)
  valid c := c.toModel.valid
  bits_abs _ := rfl
  isNegative_eq _ := Bool.eq_iff_iff.mpr (decide_eq_true_iff.trans decide_eq_true_iff)
  exists_isUnit_eq := ⟨(1 : Float).toModel.unpack, fun _ => rfl⟩
  text_eq _ := rfl

/-- Numbers of 32 bits. -/
theorem packed_float32 : Packed Float32 .binary32 fun c => c.toBits.toBitVec where
  two_le_exponentBits := by decide
  covered := Decimal.BinaryFormat.covered_single
  injective _ _ h := Float32.toBits_inj.mp (UInt32.toBitVec_inj.mp h)
  valid c := c.toModel.valid
  bits_abs _ := rfl
  isNegative_eq _ := Bool.eq_iff_iff.mpr (decide_eq_true_iff.trans decide_eq_true_iff)
  exists_isUnit_eq := ⟨(1 : Float32).toModel.unpack, fun _ => rfl⟩
  text_eq _ := rfl

end Packing

/-- Floating-point numbers of 64 bits that are numbers other than zero. -/
theorem legible_float : Legible Float fun c => c.isNaN = false ∧ (c == 0) = false :=
  Packing.packed_float.legible fun ⟨hnumber, hzero⟩ => ⟨hnumber, hzero⟩

/-- Floating-point numbers of 32 bits that are numbers other than zero. -/
theorem legible_float32 : Legible Float32 fun c => c.isNaN = false ∧ (c == 0) = false :=
  Packing.packed_float32.legible fun ⟨hnumber, hzero⟩ => ⟨hnumber, hzero⟩

end PolyIdeal
