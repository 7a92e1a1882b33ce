import Mathlib.Tactic
import PolyIdeal.Decimal.BinaryFormat

/-!
# Which reals round to a binary number

The numbers of a binary format, in the order of their bit patterns, are lined up without gaps: the
interval of the reals that round to a number ends where that of the next one begins
(`lowerEnd_succ`). The end that two intervals share belongs to the number with the even mantissa,
and of two neighbours exactly one is even. So no real rounds to two numbers: `eq_of_rounds`.
-/

namespace PolyIdeal.Decimal

namespace Binary

/-- The number itself. -/
def value (b : Binary) : ℚ := b.mantissa * 2 ^ b.exponent

/-- The half of the gap to the next smaller number. -/
def marginBelow (b : Binary) : ℚ := (if b.narrowBelow then 1 / 4 else 1 / 2) * 2 ^ b.exponent

/-- The half of the gap to the next larger number. -/
def marginAbove (b : Binary) : ℚ := 1 / 2 * 2 ^ b.exponent

/-- Where the reals that round to the number begin. -/
def lowerEnd (b : Binary) : ℚ := b.value - b.marginBelow

/-- Where the reals that round to the number end. -/
def upperEnd (b : Binary) : ℚ := b.value + b.marginAbove

/-- A real rounds to the number to which it is nearest, and on the border to an even mantissa. -/
def Rounds (b : Binary) (x : ℚ) : Prop :=
  if b.mantissa % 2 = 0 then b.lowerEnd ≤ x ∧ x ≤ b.upperEnd
  else b.lowerEnd < x ∧ x < b.upperEnd

variable {b : Binary} {x : ℚ}

theorem marginBelow_pos (b : Binary) : 0 < b.marginBelow := by
  unfold marginBelow
  split <;> positivity

/-- There is no more room below a number than above it. -/
theorem marginBelow_le (b : Binary) : b.marginBelow ≤ b.marginAbove := by
  unfold marginBelow marginAbove
  gcongr
  split <;> norm_num

/-- Some numbers round to the given one. -/
theorem lowerEnd_lt_upperEnd (b : Binary) : b.lowerEnd < b.upperEnd := by
  have hbelow := b.marginBelow_pos
  have habove := b.marginBelow_le
  unfold lowerEnd upperEnd
  linarith

theorem Rounds.lowerEnd_le (h : b.Rounds x) : b.lowerEnd ≤ x := by
  unfold Rounds at h
  split at h
  · exact h.1
  · exact h.1.le

theorem Rounds.le_upperEnd (h : b.Rounds x) : x ≤ b.upperEnd := by
  unfold Rounds at h
  split at h
  · exact h.2
  · exact h.2.le

/-- An end belongs to the interval of an even number only. -/
theorem Rounds.even_of_eq (h : b.Rounds x) (hx : x = b.lowerEnd ∨ x = b.upperEnd) :
    b.mantissa % 2 = 0 := by
  by_contra hodd
  rw [Rounds, if_neg hodd] at h
  rcases hx with rfl | rfl
  · exact lt_irrefl _ h.1
  · exact lt_irrefl _ h.2

/-- What lies strictly between the ends rounds to the number. -/
theorem rounds_of_lt (h : b.lowerEnd < x) (h' : x < b.upperEnd) : b.Rounds x := by
  unfold Rounds
  split
  · exact ⟨h.le, h'.le⟩
  · exact ⟨h, h'⟩

/-- What rounds to a positive number is positive. -/
theorem Rounds.pos (h : b.Rounds x) (hb : 0 < b.mantissa) : 0 < x := by
  have hmargin : b.marginBelow < b.value := by
    have hone : (1 : ℚ) ≤ b.mantissa := by exact_mod_cast hb
    unfold marginBelow value
    gcongr
    split <;> linarith
  have hlower := h.lowerEnd_le
  unfold lowerEnd at hlower
  linarith

end Binary

namespace BinaryFormat

open Binary

variable {f : BinaryFormat} {m n : ℕ} {x : ℚ}

/-- The number with the given bit pattern. -/
def number (f : BinaryFormat) (n : ℕ) : Binary :=
  f.decode (n / twoTo f.fractionBits) (n % twoTo f.fractionBits)

/-- The next bit pattern has the next fraction, or the next exponent and the fraction zero. -/
theorem next_fields (n k : ℕ) (hk : 0 < k) :
    (n + 1) / k = n / k ∧ (n + 1) % k = n % k + 1 ∨
      (n + 1) / k = n / k + 1 ∧ (n + 1) % k = 0 ∧ n % k + 1 = k := by
  have hlt := Nat.mod_lt n hk
  have hn := Nat.div_add_mod n k
  rcases Nat.lt_or_ge (n % k + 1) k with h | h
  · have hsum : n + 1 = k * (n / k) + (n % k + 1) := by omega
    refine .inl ⟨?_, ?_⟩
    · rw [hsum, Nat.mul_add_div hk, Nat.div_eq_of_lt h, Nat.add_zero]
    · rw [hsum, Nat.mul_add_mod, Nat.mod_eq_of_lt h]
  · have heq : n % k + 1 = k := by omega
    have hsum : n + 1 = k * (n / k + 1) := by rw [Nat.mul_add]; omega
    refine .inr ⟨?_, ?_, heq⟩
    · rw [hsum, Nat.mul_div_cancel_left _ hk]
    · rw [hsum, Nat.mul_mod_right]

theorem decode_zero (f : BinaryFormat) (fraction : ℕ) :
    f.decode 0 fraction = ⟨fraction, f.minExponent, false⟩ := rfl

/-- A number with an implicit leading bit; its margin below is narrow if the fraction is zero,
unless the exponent is the least. -/
theorem decode_succ (f : BinaryFormat) (e fraction : ℕ) : f.decode (e + 1) fraction =
    ⟨twoTo f.fractionBits + fraction, f.minExponent + e, fraction == 0 && e != 0⟩ := by
  unfold decode
  rw [if_neg (Nat.succ_ne_zero e)]
  simp only [Binary.mk.injEq, Nat.cast_add, Nat.cast_one, true_and, bne]
  exact ⟨by omega, by simp⟩

/-- The interval of a number begins where that of the number before it ends. -/
theorem lowerEnd_succ (f : BinaryFormat) (n : ℕ) :
    (f.number (n + 1)).lowerEnd = (f.number n).upperEnd := by
  unfold number lowerEnd upperEnd value marginBelow marginAbove
  rcases next_fields n (twoTo f.fractionBits) (Nat.two_pow_pos _) with
    ⟨hdiv, hmod⟩ | ⟨hdiv, hmod, hlast⟩
  · rw [hdiv, hmod]
    cases n / twoTo f.fractionBits with
    | zero =>
      simp only [decode_zero, Nat.cast_add, Nat.cast_one, Bool.false_eq_true, if_false]
      ring
    | succ e =>
      simp only [decode_succ, Nat.cast_add, Nat.cast_one,
        beq_eq_false_iff_ne.mpr (Nat.succ_ne_zero _), Bool.false_and, Bool.false_eq_true, if_false]
      ring
  · rw [hdiv, hmod]
    have hfraction : (twoTo f.fractionBits : ℚ) = (n % twoTo f.fractionBits : ℕ) + 1 := by
      exact_mod_cast hlast.symm
    cases n / twoTo f.fractionBits with
    | zero =>
      simp only [zero_add, decode_zero, decode_succ, add_zero, Nat.cast_zero, BEq.rfl,
        bne_self_eq_false, Bool.and_false, Bool.false_eq_true, if_false, hfraction]
      ring
    | succ e =>
      have hnarrow : (e + 1 != 0) = true := bne_iff_ne.mpr (Nat.succ_ne_zero e)
      simp only [decode_succ, add_zero, BEq.rfl, hnarrow, Bool.and_self, if_true, hfraction,
        Nat.cast_add, Nat.cast_one]
      rw [zpow_add₀ two_ne_zero, zpow_add₀ two_ne_zero, zpow_add₀ two_ne_zero]
      ring

/-- The intervals are in the order of the bit patterns. -/
theorem strictMono_upperEnd (f : BinaryFormat) : StrictMono fun n => (f.number n).upperEnd :=
  strictMono_nat_of_lt_succ fun n => by
    rw [← lowerEnd_succ]
    exact lowerEnd_lt_upperEnd _

/-- A mantissa is even if the bit pattern is. -/
theorem mantissa_number_mod_two (hf : 0 < f.fractionBits) (n : ℕ) :
    (f.number n).mantissa % 2 = n % 2 := by
  have heven : 2 ∣ twoTo f.fractionBits := dvd_pow_self 2 hf.ne'
  have hfraction : n % twoTo f.fractionBits % 2 = n % 2 := Nat.mod_mod_of_dvd n heven
  unfold number
  cases n / twoTo f.fractionBits with
  | zero => exact hfraction
  | succ e =>
    rw [decode_succ]
    show (twoTo f.fractionBits + n % twoTo f.fractionBits) % 2 = n % 2
    omega

/-- No real rounds to two numbers. -/
theorem eq_of_rounds (hf : 0 < f.fractionBits) (hm : (f.number m).Rounds x)
    (hn : (f.number n).Rounds x) : m = n := by
  wlog hlt : m < n generalizing m n
  · rcases Nat.lt_or_eq_of_le (Nat.le_of_not_lt hlt) with h | h
    · exact (this hn hm h).symm
    · exact h.symm
  obtain ⟨k, rfl⟩ := Nat.exists_eq_add_one_of_ne_zero (Nat.ne_zero_of_lt hlt)
  have hmono := f.strictMono_upperEnd
  have hle : (f.number m).upperEnd ≤ (f.number k).upperEnd :=
    hmono.monotone (Nat.le_of_lt_succ hlt)
  have hbegin := hn.lowerEnd_le
  rw [lowerEnd_succ] at hbegin
  -- all ends between the two are where `x` is, so there is just one
  have hsame : (f.number m).upperEnd = (f.number k).upperEnd :=
    le_antisymm hle (hbegin.trans hm.le_upperEnd)
  have hmk : m = k := hmono.injective hsame
  subst hmk
  have hx : x = (f.number m).upperEnd := le_antisymm hm.le_upperEnd hbegin
  have hmeven := hm.even_of_eq (.inr hx)
  have hneven := hn.even_of_eq (.inl (by rw [lowerEnd_succ, hx]))
  rw [mantissa_number_mod_two hf] at hmeven hneven
  omega

end BinaryFormat
end PolyIdeal.Decimal
