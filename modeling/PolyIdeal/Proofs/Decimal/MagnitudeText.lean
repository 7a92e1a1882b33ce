import PolyIdeal.Proofs.Decimal.Reading

/-!
# A number can be told from its text

The text of a finite number can be read, and what is read rounds to the number. No real rounds to
two numbers of a format, so no two of them have the same text: `magnitudeText_injective`. The text
of infinity is told from the others by its first letter. All these texts are plain (`isPlain`), so
that what stands around one of them does not run into it.
-/

namespace PolyIdeal.Decimal

/-- The characters that stand between numbers and names. -/
def separators : List Char := [' ', '*', '^', '+', '-']

theorem isDigit_of_mem_separators {c : Char} (h : c ∈ separators) : c.isDigit = false := by
  unfold separators at h
  fin_cases h <;> rfl

theorem not_mem_separators_of_isDigit {c : Char} (h : c.isDigit = true) : c ∉ separators :=
  fun hmem => Bool.false_ne_true ((isDigit_of_mem_separators hmem).symm.trans h)

/-- A text that can stand between blanks, signs and names, and that is not the text of zero. -/
structure IsPlain (cs : List Char) : Prop where
  /-- It begins with a digit or is the text of infinity, -/
  begins : cs = "inf".toList ∨ ∃ c cs', cs = c :: cs' ∧ c.isDigit = true
  /-- and does not contain any of these. -/
  not_mem : ∀ c ∈ cs, c ∉ separators
  ne_zero : cs ≠ ['0']

/-- It does not begin with the letter of a name. -/
theorem IsPlain.exists_cons {cs : List Char} (h : IsPlain cs) :
    ∃ c cs', cs = c :: cs' ∧ (c.isDigit = true ∨ c = 'i') := by
  rcases h.begins with rfl | ⟨c, cs', rfl, hdigit⟩
  · exact ⟨'i', ['n', 'f'], rfl, .inr rfl⟩
  · exact ⟨c, cs', rfl, .inl hdigit⟩

namespace BinaryFormat

variable {f : BinaryFormat} {m n : ℕ}

/-- A format whose numbers the search for the shortest decimal is made for. -/
structure Covered (f : BinaryFormat) : Prop where
  fractionBits_pos : 0 < f.fractionBits
  fractionBits_le : f.fractionBits ≤ 52
  le_minExponent : -1074 ≤ f.minExponent

theorem covered_double : double.Covered := ⟨by decide, by decide, by decide⟩

theorem covered_single : single.Covered := ⟨by decide, by decide, by decide⟩

/-- The bit pattern of a positive number or of infinity. -/
structure IsPositive (f : BinaryFormat) (n : ℕ) : Prop where
  pos : 0 < n
  lt : n < twoTo f.fractionBits * twoTo f.exponentBits
  fraction_eq_zero : n / twoTo f.fractionBits = f.specialExponent → n % twoTo f.fractionBits = 0

/-- Bit patterns of positive numbers are those of numbers in range. -/
theorem Covered.inRange_number (hf : f.Covered) (hn : 0 < n) : (f.number n).InRange := by
  have hfraction : n % twoTo f.fractionBits < twoTo f.fractionBits :=
    Nat.mod_lt _ (Nat.two_pow_pos _)
  have hle : twoTo f.fractionBits ≤ 2 ^ 52 := Nat.pow_le_pow_right (by norm_num) hf.fractionBits_le
  have hmin := hf.le_minExponent
  have hsplit := Nat.div_add_mod n (twoTo f.fractionBits)
  unfold number
  cases hexponent : n / twoTo f.fractionBits with
  | zero =>
    rw [hexponent, Nat.mul_zero, Nat.zero_add] at hsplit
    rw [decode_zero]
    exact ⟨by simp only; omega, by simp only; omega, by simp, hmin⟩
  | succ e =>
    rw [decode_succ]
    refine ⟨by simp only; omega, by simp only; omega, fun hnarrow => ?_, by simp only; omega⟩
    simp only [Bool.and_eq_true, beq_iff_eq] at hnarrow
    simp only
    omega

/-- The exponent field is all that stands in front of the fraction. -/
theorem IsPositive.magnitudeText_eq (h : f.IsPositive n) : f.magnitudeText n =
    if n / twoTo f.fractionBits = f.specialExponent then "inf"
    else (shortest (f.number n)).positional := by
  have hexponent : n / twoTo f.fractionBits % twoTo f.exponentBits = n / twoTo f.fractionBits :=
    Nat.mod_eq_of_lt (Nat.div_lt_of_lt_mul h.lt)
  have hne : ¬ (n / twoTo f.fractionBits = 0 ∧ n % twoTo f.fractionBits = 0) := fun hzero => by
    have hsplit := Nat.div_add_mod n (twoTo f.fractionBits)
    rw [hzero.1, hzero.2] at hsplit
    exact h.pos.ne' (by omega)
  unfold magnitudeText
  rw [hexponent]
  simp only
  split
  next hspecial => rw [if_pos (h.fraction_eq_zero hspecial)]
  next =>
    rw [if_neg (by simpa using hne)]
    rfl

/-- The text of a finite number can be read, and what is read rounds to the number. -/
theorem IsPositive.exists_denotes (h : f.IsPositive n) (hf : f.Covered)
    (hfinite : n / twoTo f.fractionBits ≠ f.specialExponent) :
    ∃ x, Denotes (f.magnitudeText n).toList x ∧ (f.number n).Rounds x := by
  rw [h.magnitudeText_eq, if_neg hfinite]
  exact ⟨_, Scaled.denotes_positional _, (hf.inRange_number h.pos).rounds_shortest⟩

theorem IsPositive.magnitudeText_of_special (h : f.IsPositive n)
    (hspecial : n / twoTo f.fractionBits = f.specialExponent) : f.magnitudeText n = "inf" := by
  rw [h.magnitudeText_eq, if_pos hspecial]

theorem not_denotes_inf {x : ℚ} : ¬ Denotes "inf".toList x := fun h => by
  obtain ⟨c, cs, heq, hdigit⟩ := h.exists_cons
  rw [← (List.cons.inj heq).1] at hdigit
  exact absurd hdigit (by decide)

/-- Different positive numbers have different texts. -/
theorem magnitudeText_injective (hf : f.Covered) (hm : f.IsPositive m) (hn : f.IsPositive n)
    (h : f.magnitudeText m = f.magnitudeText n) : m = n := by
  by_cases hmspecial : m / twoTo f.fractionBits = f.specialExponent
  · have htext := hm.magnitudeText_of_special hmspecial
    by_cases hnspecial : n / twoTo f.fractionBits = f.specialExponent
    · rw [← Nat.div_add_mod m (twoTo f.fractionBits), ← Nat.div_add_mod n (twoTo f.fractionBits),
        hmspecial, hnspecial, hm.fraction_eq_zero hmspecial, hn.fraction_eq_zero hnspecial]
    · obtain ⟨x, hx, -⟩ := hn.exists_denotes hf hnspecial
      rw [← h, htext] at hx
      exact (not_denotes_inf hx).elim
  · obtain ⟨x, hx, hmx⟩ := hm.exists_denotes hf hmspecial
    by_cases hnspecial : n / twoTo f.fractionBits = f.specialExponent
    · rw [h, hn.magnitudeText_of_special hnspecial] at hx
      exact (not_denotes_inf hx).elim
    · obtain ⟨y, hy, hny⟩ := hn.exists_denotes hf hnspecial
      rw [h] at hx
      rw [hx.unique hy] at hmx
      exact eq_of_rounds hf.fractionBits_pos hmx hny

/-- The text of a positive number is plain. -/
theorem IsPositive.isPlain (h : f.IsPositive n) (hf : f.Covered) :
    IsPlain (f.magnitudeText n).toList := by
  by_cases hspecial : n / twoTo f.fractionBits = f.specialExponent
  · rw [h.magnitudeText_of_special hspecial]
    refine ⟨.inl rfl, fun c (hc : c ∈ ['i', 'n', 'f']) => ?_, by decide⟩
    fin_cases hc <;> decide
  · obtain ⟨x, hx, hrounds⟩ := h.exists_denotes hf hspecial
    constructor
    case begins => exact .inr hx.exists_cons
    case not_mem =>
      intro c hc
      rcases hx.isDigit_or_eq c hc with h | rfl
      · exact not_mem_separators_of_isDigit h
      · decide
    case ne_zero =>
      intro hzero
      rw [hzero] at hx
      have hread : Denotes ['0'] (Nat.ofDigitChars 10 ['0'] 0 : ℕ) :=
        .whole (List.cons_ne_nil _ _) (List.forall_mem_singleton.mpr rfl)
      have hpos := hrounds.pos (hf.inRange_number h.pos).pos
      rw [hx.unique hread] at hpos
      exact absurd hpos (by decide)

end BinaryFormat

end PolyIdeal.Decimal
