import PolyIdeal.Proofs.Decimal.Rounding

/-!
# The shortest decimal reads back

Whatever grid the search stops at, the decimal that it returns lies in the interval of the number,
so it rounds to the number. That the search stops at all is a matter of widths. A number with a
mantissa below `2 ^ 53` is at least `10 ^ 16` times as large as the grid of seventeen digits is
wide, and less than `2 ^ 53` times as large as its last place; so one of the two neighbours on that
grid is nearer to the number than either end of the interval (`exists_rounds_of_lt`).
-/

namespace PolyIdeal.Decimal

variable {b : Binary} {s : Scaled} {x : ℚ} {e : ℤ}

/-- The number that a scaled decimal stands for. -/
def Scaled.value (s : Scaled) : ℚ := s.digits * 10 ^ s.exponent

/-! ## Comparing fractions by their numerators -/

/-- A power with an exponent of either sign is a quotient of two with natural exponents. -/
theorem zpow_eq_div {base : ℚ} (hbase : base ≠ 0) (e : ℤ) :
    base ^ e = base ^ e.toNat / base ^ (-e).toNat := by
  rw [← zpow_natCast, ← zpow_natCast, ← zpow_sub₀ hbase]
  congr 1
  omega

namespace Scaled

/-- A decimal as a quotient of natural numbers. -/
theorem value_eq_div (s : Scaled) :
    s.value = (s.digits * tenTo s.exponent.toNat : ℕ) / (tenTo (-s.exponent).toNat : ℕ) := by
  unfold value
  rw [zpow_eq_div (by norm_num), mul_div_assoc']
  push_cast [tenTo, Nat.pow_eq]
  rfl

variable {v D : ℕ}

/-- A fraction is compared with a decimal on the common denominator. -/
theorem div_le_value_iff (s : Scaled) (hD : 0 < D) : (v / D : ℚ) ≤ s.value ↔
    v * tenTo (-s.exponent).toNat ≤ s.digits * (tenTo s.exponent.toNat * D) := by
  rw [value_eq_div, div_le_div_iff₀ (by exact_mod_cast hD)
    (by exact_mod_cast Nat.pow_pos (by norm_num))]
  norm_cast
  rw [Nat.mul_assoc]

/-- Comparisons of a decimal with a quotient are comparisons of natural numbers. -/
theorem value_le_div_iff (s : Scaled) (hD : 0 < D) : s.value ≤ (v / D : ℚ) ↔
    s.digits * (tenTo s.exponent.toNat * D) ≤ v * tenTo (-s.exponent).toNat := by
  rw [value_eq_div, div_le_div_iff₀ (by exact_mod_cast Nat.pow_pos (by norm_num))
    (by exact_mod_cast hD)]
  norm_cast
  rw [Nat.mul_assoc]

theorem div_lt_value_iff (s : Scaled) (hD : 0 < D) : (v / D : ℚ) < s.value ↔
    v * tenTo (-s.exponent).toNat < s.digits * (tenTo s.exponent.toNat * D) := by
  rw [← not_le, value_le_div_iff s hD, not_le]

theorem value_lt_div_iff (s : Scaled) (hD : 0 < D) : s.value < (v / D : ℚ) ↔
    s.digits * (tenTo s.exponent.toNat * D) < v * tenTo (-s.exponent).toNat := by
  rw [← not_le, div_le_value_iff s hD, not_le]

end Scaled

/-! ## The interval as numerators -/

namespace Binary

theorem denominator_pos (b : Binary) : 0 < b.target.denominator :=
  Nat.mul_pos (by norm_num) (Nat.two_pow_pos _)

/-- A numerator in quarters of the last place. -/
theorem quarters_div (b : Binary) (n : ℕ) :
    ((n * twoTo b.exponent.toNat : ℕ) / b.target.denominator : ℚ) = n / 4 * 2 ^ b.exponent := by
  have hpow : (2 : ℚ) ^ (-b.exponent).toNat ≠ 0 := by positivity
  rw [zpow_eq_div two_ne_zero]
  unfold target
  push_cast [twoTo, Nat.pow_eq]
  field_simp

/-- The value of the target stands for the number. -/
theorem target_value (b : Binary) :
    (b.target.value / b.target.denominator : ℚ) = b.value := by
  unfold value
  rw [show b.target.value = 4 * b.mantissa * twoTo b.exponent.toNat from rfl, quarters_div]
  push_cast
  ring

/-- The upper bound of the target stands for the upper end of what rounds to the number. -/
theorem target_upper (b : Binary) :
    (b.target.upper / b.target.denominator : ℚ) = b.upperEnd := by
  unfold upperEnd value marginAbove
  rw [show b.target.upper = (4 * b.mantissa + 2) * twoTo b.exponent.toNat from rfl, quarters_div]
  push_cast
  ring

/-- The lower bound of the target stands for the lower end of what rounds to the number. -/
theorem target_lower (hb : 0 < b.mantissa) :
    (b.target.lower / b.target.denominator : ℚ) = b.lowerEnd := by
  unfold lowerEnd value marginBelow
  rw [show b.target.lower = (4 * b.mantissa - if b.narrowBelow then 1 else 2) *
    twoTo b.exponent.toNat from rfl, quarters_div]
  split
  · rw [Nat.cast_sub (by omega)]
    push_cast
    ring
  · rw [Nat.cast_sub (by omega)]
    push_cast
    ring

/-- The test on numerators tells whether the decimal rounds to the number. -/
theorem holds_iff (hb : 0 < b.mantissa) (s : Scaled) :
    b.target.holds (tenTo s.exponent.toNat * b.target.denominator) (tenTo (-s.exponent).toNat)
      s.digits = true ↔ b.Rounds s.value := by
  have hD := b.denominator_pos
  unfold Rounds Target.holds
  rw [← target_lower hb, ← target_upper, s.div_le_value_iff hD, s.value_le_div_iff hD,
    s.div_lt_value_iff hD, s.value_lt_div_iff hD]
  rw [show b.target.closed = (b.mantissa % 2 == 0) from rfl]
  simp only [beq_iff_eq]
  split
  · rw [Bool.and_eq_true, decide_eq_true_eq, decide_eq_true_eq]
  · rw [Bool.and_eq_true, decide_eq_true_eq, decide_eq_true_eq]

/-! ## One grid -/

/-- What a grid offers rounds to the number. -/
theorem rounds_of_onGrid (hb : 0 < b.mantissa) (h : b.target.onGrid e = some s) :
    b.Rounds s.value := by
  unfold Target.onGrid at h
  simp only at h
  split at h
  next hbelow habove =>
    split at h
    · rw [← Option.some.inj h]
      exact (holds_iff hb ⟨_, e⟩).mp hbelow
    · rw [← Option.some.inj h]
      exact (holds_iff hb ⟨_, e⟩).mp habove
  next hbelow _ =>
    rw [← Option.some.inj h]
    exact (holds_iff hb ⟨_, e⟩).mp hbelow
  next _ habove =>
    rw [← Option.some.inj h]
    exact (holds_iff hb ⟨_, e⟩).mp habove
  next => cases h

/-- On a grid that is less than twice as wide as the smaller half gap, one of the two neighbours of
the number rounds to it. -/
theorem exists_rounds_of_lt (he : (10 : ℚ) ^ e < 2 * b.marginBelow) :
    ∃ d, (d = b.target.value * tenTo (-e).toNat / (tenTo e.toNat * b.target.denominator) ∨
      d = b.target.value * tenTo (-e).toNat / (tenTo e.toNat * b.target.denominator) + 1) ∧
        b.Rounds (Scaled.value ⟨d, e⟩) := by
  have hD := b.denominator_pos
  have hstep : 0 < tenTo e.toNat * b.target.denominator :=
    Nat.mul_pos (Nat.pow_pos (by norm_num)) hD
  set below := b.target.value * tenTo (-e).toNat / (tenTo e.toNat * b.target.denominator)
  have hbelow : Scaled.value ⟨below, e⟩ ≤ b.value := by
    rw [← target_value, Scaled.value_le_div_iff _ hD]
    exact Nat.div_mul_le_self _ _
  have habove : b.value < Scaled.value ⟨below + 1, e⟩ := by
    rw [← target_value, Scaled.div_lt_value_iff _ hD]
    exact (Nat.div_lt_iff_lt_mul hstep).mp (Nat.lt_succ_self below)
  have hwidth : Scaled.value ⟨below + 1, e⟩ = Scaled.value ⟨below, e⟩ + 10 ^ e := by
    unfold Scaled.value
    push_cast
    ring
  have hpow : (0 : ℚ) < 10 ^ e := by positivity
  have hle := b.marginBelow_le
  have hpos := b.marginBelow_pos
  -- the nearer neighbour is at most half a grid away
  rcases lt_or_ge (b.value - Scaled.value ⟨below, e⟩) b.marginBelow with hnear | hfar
  · refine ⟨below, .inl rfl, rounds_of_lt ?_ ?_⟩
    · unfold lowerEnd
      linarith
    · unfold upperEnd
      linarith
  · refine ⟨below + 1, .inr rfl, rounds_of_lt ?_ ?_⟩
    · unfold lowerEnd
      linarith
    · unfold upperEnd
      linarith

/-- A grid that is fine enough has a decimal that rounds to the number. -/
theorem exists_onGrid (hb : 0 < b.mantissa) (he : (10 : ℚ) ^ e < 2 * b.marginBelow) :
    ∃ s, b.target.onGrid e = some s := by
  obtain ⟨d, hd, hrounds⟩ := exists_rounds_of_lt he
  have hholds := (holds_iff hb ⟨d, e⟩).mpr hrounds
  cases hgrid : b.target.onGrid e with
  | some s => exact ⟨s, rfl⟩
  | none =>
    unfold Target.onGrid at hgrid
    simp only at hgrid
    split at hgrid
    next => split at hgrid <;> cases hgrid
    next => cases hgrid
    next => cases hgrid
    next hbelow habove =>
      rcases hd with rfl | rfl
      · exact absurd hholds (by rw [hbelow]; decide)
      · exact absurd hholds (by rw [habove]; decide)

end Binary

/-! ## The search over all grids -/

namespace Target

variable {t : Target} {k : ℤ} {d : ℕ}

theorem exists_onGrid_of_firstGrid {rounds digits : ℕ} (h : t.firstGrid k rounds digits = some s) :
    ∃ e, t.onGrid e = some s := by
  induction rounds generalizing digits with
  | zero => cases h
  | succ rounds ih =>
    unfold firstGrid at h
    split at h
    next found hfound => exact ⟨_, hfound.trans h⟩
    next => exact ih h

/-- The search ends at the latest where it can. -/
theorem exists_firstGrid {rounds digits : ℕ} (hle : digits ≤ d) (hlt : d < digits + rounds)
    (h : ∃ s, t.onGrid (k - d) = some s) : ∃ s, t.firstGrid k rounds digits = some s := by
  induction rounds generalizing digits with
  | zero => omega
  | succ rounds ih =>
    unfold firstGrid
    split
    next found hfound => exact ⟨found, rfl⟩
    next hnone =>
      refine ih (Nat.lt_of_le_of_ne hle fun heq => ?_) (by omega)
      obtain ⟨s, hs⟩ := h
      rw [← heq, hnone] at hs
      cases hs

end Target

/-- Searched downward, the magnitude is found or the search ends below it. -/
theorem Binary.le_magnitude {rounds : ℕ} {k : ℤ} (h : (10 : ℚ) ^ (k - rounds - 1) ≤ b.value) :
    (10 : ℚ) ^ (b.target.magnitude rounds k - 1) ≤ b.value := by
  induction rounds generalizing k with
  | zero => simpa [Target.magnitude] using h
  | succ rounds ih =>
    unfold Target.magnitude
    split
    next hfits =>
      have hone := (Scaled.value_le_div_iff ⟨1, k - 1⟩ b.denominator_pos).mpr
        (by rw [Nat.one_mul, neg_sub]; exact hfits)
      rw [target_value, Scaled.value, Nat.cast_one, one_mul] at hone
      exact hone
    next =>
      refine ih ?_
      rwa [show k - 1 - (rounds : ℤ) - 1 = k - ((rounds + 1 : ℕ) : ℤ) - 1 by push_cast; ring]

/-- Trailing zeros do not count. -/
theorem value_trim (steps : ℕ) (s : Scaled) : (trim steps s).value = s.value := by
  induction steps generalizing s with
  | zero => rfl
  | succ steps ih =>
    unfold trim
    split
    next h =>
      simp only [Bool.and_eq_true, beq_iff_eq] at h
      have hdigits : (s.digits : ℚ) = 10 * (s.digits / 10 : ℕ) := by
        exact_mod_cast (Nat.mul_div_cancel' (Nat.dvd_of_mod_eq_zero h.1)).symm
      rw [ih]
      unfold Scaled.value
      rw [hdigits, zpow_add_one₀ (by norm_num)]
      ring
    next => rfl

/-! ## The shortest decimal -/

/-- A positive number with at most 53 binary digits, and with a last place that 64 bits can hold. A
number with a smaller gap below it is a power of two. -/
structure Binary.InRange (b : Binary) : Prop where
  pos : 0 < b.mantissa
  lt : b.mantissa < 2 ^ 53
  narrow : b.narrowBelow = true → b.mantissa ≤ 2 ^ 52
  exponent : -1074 ≤ b.exponent

/-- Seventeen digits are enough. -/
theorem Binary.InRange.lt_marginBelow (h : b.InRange) {k : ℤ} (hk : (10 : ℚ) ^ (k - 1) ≤ b.value) :
    (10 : ℚ) ^ (k - maxDigits) < 2 * b.marginBelow := by
  have hsplit : (10 : ℚ) ^ (k - 1) = 10 ^ (k - maxDigits) * 10 ^ 16 := by
    rw [← zpow_natCast, ← zpow_add₀ (by norm_num)]
    congr 1
    simp only [maxDigits]
    ring
  have hpos : (0 : ℚ) < 2 ^ b.exponent := by positivity
  rw [hsplit, Binary.value] at hk
  unfold marginBelow
  split
  next hnarrow =>
    have hm : (b.mantissa : ℚ) ≤ 2 ^ 52 := by exact_mod_cast h.narrow hnarrow
    have hle : (b.mantissa : ℚ) * 2 ^ b.exponent ≤ 2 ^ 52 * 2 ^ b.exponent := by gcongr
    linarith
  next =>
    have hm : (b.mantissa : ℚ) ≤ 2 ^ 53 := by exact_mod_cast h.lt.le
    have hle : (b.mantissa : ℚ) * 2 ^ b.exponent ≤ 2 ^ 53 * 2 ^ b.exponent := by gcongr
    linarith

/-- The search for the magnitude goes down far enough. -/
theorem Binary.InRange.le_value (h : b.InRange) :
    (10 : ℚ) ^ ((highestMagnitude : ℤ) - magnitudes - 1) ≤ b.value := by
  have hone : (1 : ℚ) ≤ b.mantissa := by exact_mod_cast h.pos
  have hpow : (2 : ℚ) ^ 1074 ≤ 10 ^ 331 := by
    exact_mod_cast show (2 : ℕ) ^ 1074 ≤ 10 ^ 331 by decide +kernel
  have hsmall : (10 : ℚ) ^ ((highestMagnitude : ℤ) - magnitudes - 1) ≤ 2 ^ (-1074 : ℤ) := by
    rw [show (highestMagnitude : ℤ) - magnitudes - 1 = -((331 : ℕ) : ℤ) by decide,
      show (-1074 : ℤ) = -((1074 : ℕ) : ℤ) by rfl, zpow_neg, zpow_neg, zpow_natCast, zpow_natCast]
    exact inv_anti₀ (by positivity) hpow
  calc (10 : ℚ) ^ ((highestMagnitude : ℤ) - magnitudes - 1)
    _ ≤ 2 ^ (-1074 : ℤ) := hsmall
    _ ≤ 2 ^ b.exponent := zpow_le_zpow_right₀ (by norm_num) h.exponent
    _ ≤ b.value := le_mul_of_one_le_left (by positivity) hone

/-- The shortest decimal rounds to the number. -/
theorem Binary.InRange.rounds_shortest (h : b.InRange) : b.Rounds (shortest b).value := by
  have hgrid := exists_onGrid h.pos (h.lt_marginBelow (le_magnitude h.le_value))
  obtain ⟨s, hs⟩ := Target.exists_firstGrid (by decide : 1 ≤ maxDigits)
    (by decide : maxDigits < 1 + maxDigits) hgrid
  obtain ⟨e, he⟩ := Target.exists_onGrid_of_firstGrid hs
  unfold shortest
  simp only [hs, value_trim]
  exact rounds_of_onGrid h.pos he

end PolyIdeal.Decimal
