import Mathlib
import PolyIdeal.Proofs.Decimal.MagnitudeText

/-!
# Bit patterns of floating-point numbers

A bit pattern consists of a sign, an exponent and a fraction. The magnitude of a number has the same
exponent and fraction, and a positive sign (`pack_abs_unpack`): what is left is the pattern as a
natural number below `2 ^ (fraction bits + exponent bits)`. It is that of a positive number, unless
the number is zero or no number at all (`isPositive_clearSign`).
-/

namespace PolyIdeal.Packing

open Float.Model (Format UnpackedFloat)
open Float.Model.UnpackedFloat

variable {spec : Format} {b : BitVec spec.numBits} {u v w : UnpackedFloat}

/-! ## Magnitudes -/

/-- The pattern with a positive sign. -/
def clearSign (b : BitVec spec.numBits) : BitVec spec.numBits :=
  packComponents spec .positive (unpackExponent b) (unpackMantissa b)

theorem unpack_clearSign (b : BitVec spec.numBits) :
    unpack spec (clearSign b) = (unpack spec b).abs := by
  unfold unpack clearSign
  simp only [unpackMantissa_packComponents, unpackExponent_packComponents,
    unpackSign_packComponents, Sign.ofBitVec_toBitVec]
  split
  case isTrue hspecial => split <;> rfl
  case isFalse hspecial =>
    split
    case isTrue hexponent => split <;> rfl
    case isFalse hexponent => rfl

/-- Clearing the sign of a valid pattern leaves a valid one. -/
theorem valid_clearSign (hb : spec.Valid b) : spec.Valid (clearSign b) := by
  constructor
  intro hspecial hfraction
  simp only [clearSign, unpackExponent_packComponents, unpackMantissa_packComponents] at *
  rw [hb.eq_packedNaN hspecial hfraction]
  simp [packedNaN]

/-- The magnitude of a number differs from it in the sign bit only. -/
theorem pack_abs_unpack (hspec : 2 ≤ spec.exponentBits) (hb : spec.Valid b) :
    pack spec (unpack spec b).abs = clearSign b := by
  rw [← unpack_clearSign, pack_unpack_of_valid (valid_clearSign hb) hspec]

/-! ## Numbers other than zero -/

/-- Neither zero nor a value that is not a number. -/
structure IsNonzero (u : UnpackedFloat) : Prop where
  isNaN : u.isNaN = false
  ne_zero : u.beq (.zero .positive) = false

/-- Sign and magnitude make up the number. -/
theorem IsNonzero.eq_abs (h : IsNonzero u) :
    u = if u.lt (.zero .positive) then u.abs.neg else u.abs := by
  cases u with
  | notANumber => cases h.isNaN
  | zero s => cases h.ne_zero
  | infinity s => cases s <;> rfl
  | finite s m e hm => cases s <;> rfl

/-- A number is told by its sign and its magnitude. -/
theorem IsNonzero.eq_of_abs_eq (hu : IsNonzero u) (hv : IsNonzero v)
    (hsign : u.lt (.zero .positive) = v.lt (.zero .positive)) (habs : u.abs = v.abs) : u = v :=
  calc u
    _ = if u.lt (.zero .positive) then u.abs.neg else u.abs := hu.eq_abs
    _ = if v.lt (.zero .positive) then v.abs.neg else v.abs := by rw [hsign, habs]
    _ = v := hv.eq_abs.symm

/-- Magnitudes that compare as equal to a number are that number. -/
theorem IsNonzero.abs_eq_of_beq (h : IsNonzero u) (hw : u.abs.beq w = true) : u.abs = w := by
  obtain ⟨-, -, heq⟩ := (beq_iff_ne_notANumber_and_eq _ _).mp hw
  rcases heq with heq | hzero
  · exact heq
  · cases u with
    | notANumber => cases h.isNaN
    | zero s => cases h.ne_zero
    | infinity s => rcases hzero with ⟨hzero, -⟩ | ⟨hzero, -⟩ <;> cases hzero
    | finite s m e hm => rcases hzero with ⟨hzero, -⟩ | ⟨hzero, -⟩ <;> cases hzero

/-- The format by the widths of its fields. -/
def format (spec : Format) : Decimal.BinaryFormat :=
  ⟨spec.mantissaBitsWithoutImplicit, spec.exponentBits⟩

/-- Without its sign a pattern is the exponent field followed by the mantissa field. -/
theorem toNat_clearSign (b : BitVec spec.numBits) : (clearSign b).toNat =
    (unpackExponent b).toNat * 2 ^ spec.mantissaBitsWithoutImplicit + (unpackMantissa b).toNat := by
  rw [clearSign, packComponents, BitVec.toNat_append, BitVec.toNat_append, Sign.toBitVec,
    BitVec.toNat_zero, Nat.zero_shiftLeft, Nat.zero_or,
    ← Nat.shiftLeft_add_eq_or_of_lt (unpackMantissa b).isLt, Nat.shiftLeft_eq]

theorem unpack_of_fields_zero (he : (unpackExponent b).toNat = 0)
    (hm : (unpackMantissa b).toNat = 0) :
    unpack spec b = .zero (Sign.ofBitVec (unpackSign b)) := by
  have hexponent : unpackExponent b = 0#_ := BitVec.toNat_inj.mp he
  have hmantissa : unpackMantissa b = 0#_ := BitVec.toNat_inj.mp hm
  simp [unpack, hexponent, hmantissa, Nat.ne_of_gt spec.he]

theorem unpack_of_special (he : (unpackExponent b).toNat = 2 ^ spec.exponentBits - 1)
    (hm : (unpackMantissa b).toNat ≠ 0) : unpack spec b = .notANumber := by
  have hexponent : unpackExponent b = -1#_ := by
    rw [BitVec.neg_one_eq_allOnes, ← BitVec.toNat_inj, BitVec.toNat_allOnes, he]
  have hmantissa : unpackMantissa b ≠ 0#_ := fun h => hm (congrArg BitVec.toNat h)
  simp [unpack, hexponent, hmantissa]

/-- The magnitude of a number other than zero is the pattern of a positive number. -/
theorem IsNonzero.isPositive_clearSign (h : IsNonzero (unpack spec b)) :
    (format spec).IsPositive (clearSign b).toNat := by
  have hmantissa := (unpackMantissa b).isLt
  have hexponent := (unpackExponent b).isLt
  have hpow : 0 < 2 ^ spec.mantissaBitsWithoutImplicit := Nat.two_pow_pos _
  rw [toNat_clearSign]
  constructor
  case pos =>
    by_contra hzero
    rw [Nat.not_lt, Nat.le_zero, Nat.add_eq_zero_iff, Nat.mul_eq_zero,
      or_iff_left hpow.ne'] at hzero
    have hne := h.ne_zero
    rw [unpack_of_fields_zero hzero.1 hzero.2] at hne
    cases hne
  case lt =>
    show _ < 2 ^ spec.mantissaBitsWithoutImplicit * 2 ^ spec.exponentBits
    calc (unpackExponent b).toNat * 2 ^ spec.mantissaBitsWithoutImplicit + (unpackMantissa b).toNat
      _ < ((unpackExponent b).toNat + 1) * 2 ^ spec.mantissaBitsWithoutImplicit := by
        rw [Nat.succ_mul]
        omega
      _ ≤ 2 ^ spec.exponentBits * 2 ^ spec.mantissaBitsWithoutImplicit :=
        Nat.mul_le_mul_right _ hexponent
      _ = _ := Nat.mul_comm _ _
  case fraction_eq_zero =>
    show (_ / 2 ^ spec.mantissaBitsWithoutImplicit = 2 ^ spec.exponentBits - 1 →
      _ % 2 ^ spec.mantissaBitsWithoutImplicit = 0)
    rw [Nat.mul_comm, Nat.mul_add_div hpow, Nat.mul_add_mod, Nat.div_eq_of_lt hmantissa,
      Nat.mod_eq_of_lt hmantissa, Nat.add_zero]
    intro hspecial
    by_contra hne
    have hnumber := h.isNaN
    rw [unpack_of_special hspecial hne] at hnumber
    cases hnumber

end PolyIdeal.Packing
