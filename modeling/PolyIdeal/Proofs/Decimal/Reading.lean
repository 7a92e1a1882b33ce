import Mathlib.Data.List.TakeWhile
import PolyIdeal.Proofs.Decimal.Searching

/-!
# Reading positional notation

A text in positional notation consists of digits, with or without a point behind some of them. It
is read by taking all its digits as one whole number and moving the point back by the number of
digits behind it. What is read from the text of a decimal is the value of that decimal, however many
zeros had to be added (`denotes_positional`), and a text can be read in one way only. So equal texts
are texts of equal numbers.
-/

namespace PolyIdeal.Decimal

variable {cs ds : List Char} {s : Scaled} {x y : ℚ}

/-! ## What a text stands for -/

/-- A text in positional notation, and the number that it stands for. -/
inductive Denotes : List Char → ℚ → Prop
  | whole {cs : List Char} (hne : cs ≠ []) (hcs : ∀ c ∈ cs, c.isDigit = true) :
      Denotes cs (Nat.ofDigitChars 10 cs 0)
  | point {cs ds : List Char} (hne : cs ≠ []) (hcs : ∀ c ∈ cs, c.isDigit = true)
      (hds : ∀ c ∈ ds, c.isDigit = true) :
      Denotes (cs ++ '.' :: ds) (Nat.ofDigitChars 10 (cs ++ ds) 0 / 10 ^ ds.length)

theorem bne_point_of_isDigit (h : ∀ c ∈ cs, c.isDigit = true) : ∀ c ∈ cs, (c != '.') = true := by
  rintro c hc
  refine bne_iff_ne.mpr ?_
  rintro rfl
  exact absurd (h _ hc) (by decide)

/-- The number is all digits together, over a power of ten for those behind the point. -/
theorem Denotes.eq (h : Denotes cs x) : x = Nat.ofDigitChars 10 (cs.filter (· != '.')) 0 /
    10 ^ (cs.dropWhile (· != '.')).tail.length := by
  cases h with
  | whole _ hcs =>
    have hkeep := bne_point_of_isDigit hcs
    rw [List.filter_eq_self.mpr hkeep, List.dropWhile_eq_nil_iff.mpr hkeep, List.tail_nil,
      List.length_nil, pow_zero, div_one]
  | point _ hcs hds =>
    have hkeep := bne_point_of_isDigit hcs
    rw [List.filter_append, List.filter_cons_of_neg (by decide), List.filter_eq_self.mpr hkeep,
      List.filter_eq_self.mpr (bne_point_of_isDigit hds), List.dropWhile_append_of_pos hkeep,
      List.dropWhile_cons_of_neg (by decide), List.tail_cons]

/-- A text can be read in one way only. -/
theorem Denotes.unique (hx : Denotes cs x) (hy : Denotes cs y) : x = y := hx.eq.trans hy.eq.symm

/-- A text that denotes a number begins with a digit. -/
theorem Denotes.exists_cons (h : Denotes cs x) : ∃ c cs', cs = c :: cs' ∧ c.isDigit = true := by
  cases h with
  | whole hne hcs =>
    obtain ⟨c, cs', rfl⟩ := List.exists_cons_of_ne_nil hne
    exact ⟨c, cs', rfl, hcs c List.mem_cons_self⟩
  | point hne hcs _ =>
    obtain ⟨c, cs', rfl⟩ := List.exists_cons_of_ne_nil hne
    exact ⟨c, _, rfl, hcs c List.mem_cons_self⟩

/-- A text that denotes a number contains nothing but digits and a point. -/
theorem Denotes.isDigit_or_eq (h : Denotes cs x) : ∀ c ∈ cs, c.isDigit = true ∨ c = '.' := by
  cases h with
  | whole _ hcs => exact fun c hc => .inl (hcs c hc)
  | point _ hcs hds =>
    intro c hc
    rcases List.mem_append.mp hc with hc | hc
    · exact .inl (hcs c hc)
    · exact (List.mem_cons.mp hc).symm.imp_left (hds c)

/-! ## The text of a decimal -/

namespace Scaled

theorem toList_digitText (s : Scaled) : s.digitText.toList = Nat.toDigits 10 s.digits :=
  String.toList_ofList

theorem toList_zeros (n : ℕ) : (zeros n).toList = List.replicate n '0' := String.toList_ofList

theorem isDigit_toDigits (n : ℕ) : ∀ c ∈ Nat.toDigits 10 n, c.isDigit = true :=
  fun _ => Nat.isDigit_of_mem_toDigits (by norm_num) (by norm_num)

theorem isDigit_zeros (n : ℕ) : ∀ c ∈ List.replicate n '0', c.isDigit = true := fun c hc => by
  rw [List.eq_of_mem_replicate hc]
  rfl

/-- Moving the point of a whole number back. -/
theorem value_negSucc (digits e : ℕ) :
    value ⟨digits, .negSucc e⟩ = digits / 10 ^ (e + 1) := by
  rw [value, zpow_negSucc, div_eq_mul_inv]

/-- Zeros behind the digits. -/
theorem denotes_positional_ofNat (digits e : ℕ) :
    Denotes (positional ⟨digits, .ofNat e⟩).toList (value ⟨digits, .ofNat e⟩) := by
  have hvalue : value ⟨digits, .ofNat e⟩ =
      (Nat.ofDigitChars 10 (Nat.toDigits 10 digits ++ List.replicate e '0') 0 : ℕ) := by
    rw [Nat.ofDigitChars_append, Nat.ofDigitChars_replicate_zero, Nat.ofDigitChars_ten_toDigits,
      value, Int.ofNat_eq_natCast, zpow_natCast, mul_comm]
    push_cast
    rfl
  rw [positional, String.toList_append, toList_digitText, toList_zeros, hvalue]
  exact .whole (List.append_ne_nil_of_left_ne_nil Nat.toDigits_ne_nil _)
    (List.forall_mem_append.mpr ⟨isDigit_toDigits digits, isDigit_zeros e⟩)

/-- A point between the digits. -/
theorem denotes_positional_of_lt {digits e : ℕ}
    (hplaces : e + 1 < (Nat.toDigits 10 digits).length) :
    Denotes (positional ⟨digits, .negSucc e⟩).toList (value ⟨digits, .negSucc e⟩) := by
  have hdigits := isDigit_toDigits digits
  rw [positional, toList_digitText, value_negSucc]
  simp only
  rw [if_pos hplaces]
  set n := (Nat.toDigits 10 digits).length - (e + 1) with hn
  have hlength : ((Nat.toDigits 10 digits).drop n).length = e + 1 := by
    rw [List.length_drop]
    omega
  have hne : (Nat.toDigits 10 digits).take n ≠ [] := by
    rw [ne_eq, List.take_eq_nil_iff, not_or]
    exact ⟨by omega, Nat.toDigits_ne_nil⟩
  have hbehind : ∀ c ∈ (Nat.toDigits 10 digits).drop n, c.isDigit = true :=
    fun c hc => hdigits c (List.mem_of_mem_drop hc)
  have hpoint := Denotes.point hne (fun c hc => hdigits c (List.mem_of_mem_take hc)) hbehind
  rw [List.take_append_drop, Nat.ofDigitChars_ten_toDigits, hlength] at hpoint
  simp only [String.toList_append, String.toList_ofList, List.append_assoc]
  exact hpoint

/-- A zero in front of the point, and zeros behind it. -/
theorem denotes_positional_of_le {digits e : ℕ}
    (hplaces : (Nat.toDigits 10 digits).length ≤ e + 1) :
    Denotes (positional ⟨digits, .negSucc e⟩).toList (value ⟨digits, .negSucc e⟩) := by
  rw [positional, toList_digitText, value_negSucc]
  simp only
  rw [if_neg (Nat.not_lt.mpr hplaces)]
  set n := e + 1 - (Nat.toDigits 10 digits).length with hn
  have hlength : (List.replicate n '0' ++ Nat.toDigits 10 digits).length = e + 1 := by
    rw [List.length_append, List.length_replicate]
    omega
  have hread : Nat.ofDigitChars 10
      (['0'] ++ (List.replicate n '0' ++ Nat.toDigits 10 digits)) 0 = digits := by
    rw [Nat.ofDigitChars_append, Nat.ofDigitChars_append, Nat.ofDigitChars_replicate_zero]
    exact Nat.ofDigitChars_ten_toDigits
  have hpoint := Denotes.point (List.cons_ne_nil '0' []) (List.forall_mem_singleton.mpr rfl)
    (List.forall_mem_append.mpr ⟨isDigit_zeros n, isDigit_toDigits digits⟩)
  rw [hread, hlength] at hpoint
  rw [String.toList_append, String.toList_append, toList_zeros, toList_digitText,
    List.append_assoc]
  exact hpoint

/-- The text of a decimal stands for its value. -/
theorem denotes_positional (s : Scaled) : Denotes s.positional.toList s.value := by
  obtain ⟨digits, exponent⟩ := s
  cases exponent with
  | ofNat e => exact denotes_positional_ofNat digits e
  | negSucc e =>
    rcases Nat.lt_or_ge (e + 1) (Nat.toDigits 10 digits).length with hplaces | hplaces
    · exact denotes_positional_of_lt hplaces
    · exact denotes_positional_of_le hplaces

end Scaled

end PolyIdeal.Decimal
