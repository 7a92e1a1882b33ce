import Mathlib
import PolyIdeal.Proofs.Ordered.Arithmetic
import PolyIdeal.Proofs.Polynomial.Threshold

/-!
# Coefficients cut at a threshold

Over ordered scalars an operation computes each coefficient exactly and then cuts it: what is below
the threshold becomes zero (`Scalar.cut`). In a sum this is so although the merge does not look at
terms of the left operand that meet no partner, because these are significant already. So sums and
multiples by a term are known, coefficient by coefficient, from those of algebra.
-/

namespace PolyIdeal

/-! ## Cutting -/

namespace Scalar

variable {K : Type} [OrderedScalar K] {ε c : K}

/-- `c` if its magnitude is at least `ε`, and else zero. -/
def cut (ε c : K) : K := if ε ≤ |c| then c else 0

theorem cut_of_le (h : ε ≤ |c|) : cut ε c = c := if_pos h

theorem cut_of_lt (h : |c| < ε) : cut ε c = 0 := if_neg h.not_ge

@[simp] theorem cut_zero (ε : K) : cut ε 0 = 0 := ite_self 0

theorem cut_neg (ε c : K) : cut ε (-c) = -cut ε c := by
  unfold cut
  rw [abs_neg, apply_ite Neg.neg, neg_zero]

theorem cut_cut (ε c : K) : cut ε (cut ε c) = cut ε c := by
  rcases le_or_gt ε |c| with h | h
  · rw [cut_of_le h, cut_of_le h]
  · rw [cut_of_lt h, cut_zero]

/-- What is cut off is below the threshold. -/
theorem abs_cut_sub_lt (hε : 0 < ε) (c : K) : |cut ε c - c| < ε := by
  rcases le_or_gt ε |c| with h | h
  · rw [cut_of_le h, sub_self, abs_zero]
    exact hε
  · rwa [cut_of_lt h, zero_sub, abs_neg]

end Scalar

open Scalar

variable {K : Type} [OrderedScalar K] {n : ℕ} {o : TermOrder} {ts : List (Term K)} {ε : K}

/-! ## Coefficients of algebra -/

/-- Leaving terms out for their coefficients puts zeros in the place of these. -/
theorem coeff_exactMv_filter (keep : K → Bool) (ha : OfArity n ts) (hd : Descending o ts)
    (e : Fin n →₀ ℕ) : (exactMv n (ts.filter fun t => keep t.coeff)).coeff e =
      if keep ((exactMv n ts).coeff e) then (exactMv n ts).coeff e else 0 := by
  have haf := ha.sublist (List.filter_sublist (p := fun t : Term K => keep t.coeff))
  rcases exists_exps_or_coeff_eq_zero K e with ⟨m, hm, rfl⟩ | hzero
  · rw [coeff_exactMv haf (hd.sublist List.filter_sublist) hm, coeff_exactMv ha hd hm,
      coeffAt_filter keep ha hd]
    cases coeffAt ts m with
    | none => exact (ite_self 0).symm
    | some c =>
      rw [Option.filter_some, Option.getD_some]
      exact apply_ite (fun x : Option K => x.getD 0) _ _ _
  · rw [hzero _ haf, hzero ts ha, ite_self]

theorem exactMv_map_neg (ts : List (Term K)) :
    exactMv n (ts.map fun t => ⟨t.monomial, -t.coeff⟩) = -exactMv n ts := by
  induction ts with
  | nil => exact neg_zero.symm
  | cons t ts ih =>
    rw [List.map_cons, exactMv_cons, exactMv_cons, ih, neg_add, map_neg]

namespace Polynomial

variable {p q r : Polynomial K} {s : K}

/-- The coefficient of `p` at a vector of exponents, zero if there is none. -/
noncomputable def coeffOf (n : ℕ) (p : Polynomial K) (e : Fin n →₀ ℕ) : K :=
  (exactMv n p.terms).coeff e

/-! ## Operations -/

/-- The coefficient that a merge makes of two is their sum, cut. -/
theorem getD_mergeCoeff {a? : Option K} (b? : Option K)
    (ha : ∀ a ∈ a?, Scalar.significant ε a = true) :
    (mergeCoeff ε a? b?).getD 0 = cut ε (a?.getD 0 + b?.getD 0) := by
  have hfilter : ∀ c : K, ((some c).filter (Scalar.significant ε)).getD 0 = cut ε c := by
    intro c
    rw [Option.filter_some, cut]
    refine (apply_ite (fun x : Option K => x.getD 0) _ _ _).trans ?_
    exact if_congr significant_iff_le rfl rfl
  cases b? with
  | none =>
    rw [mergeCoeff_none_right, Option.getD_none, add_zero]
    cases a? with
    | none => exact (cut_zero ε).symm
    | some a => exact (cut_of_le (significant_iff_le.mp (ha a rfl))).symm
  | some b =>
    cases a? with
    | none =>
      rw [Option.getD_none, zero_add]
      exact hfilter b
    | some a => exact hfilter (a + b)

/-- In a multiple by a term each coefficient is cut. -/
theorem coeffOf_mulTerm {m : Monomial} {c : K} (hp : p.Fits n o) (h : p.mulTerm m c = .ok r)
    (e : Fin n →₀ ℕ) : r.coeffOf n e = cut p.epsilon
      ((MvPolynomial.monomial (m.exps n) c * exactMv n p.terms).coeff e) := by
  obtain ⟨-, ts, hts, rfl⟩ := mulTerm_eq_ok_iff.mp h
  have hshift := hts.exactMv_eq (hp.ofArity.sublist List.filter_sublist) fun x => mul_comm x c
  unfold coeffOf
  rw [hshift, MvPolynomial.coeff_monomial_mul', MvPolynomial.coeff_monomial_mul']
  split
  next =>
    rw [coeff_exactMv_filter (fun x => Scalar.significant p.epsilon (x * c)) hp.ofArity
      hp.descending]
    rcases le_or_gt p.epsilon |c * (exactMv n p.terms).coeff (e - m.exps n)| with hle | hlt
    · rw [cut_of_le hle, if_pos (significant_iff_le.mpr (by rwa [mul_comm]))]
    · rw [cut_of_lt hlt, if_neg, mul_zero]
      rw [significant_iff_le, mul_comm]
      exact hlt.not_ge
  next => rw [cut_zero]

/-! ## Stored coefficients -/

/-- A polynomial of a shape and a threshold whose coefficients are significant. -/
structure Stored (n : ℕ) (o : TermOrder) (ε : K) (p : Polynomial K) : Prop where
  fits : p.Fits n o
  epsilon_eq : p.epsilon = ε
  significant : p.Significant

namespace Stored

theorem ne_zero (hp : p.Stored n o ε) (hε : 0 < ε) : ∀ t ∈ p.terms, t.coeff ≠ 0 := by
  intro t ht hzero
  have hle := significant_iff_le.mp (hp.significant t ht)
  rw [hzero, abs_zero, hp.epsilon_eq] at hle
  exact hε.not_ge hle

/-- What is stored is not cut. -/
theorem cut_coeffOf (hp : p.Stored n o ε) (e : Fin n →₀ ℕ) :
    cut ε (p.coeffOf n e) = p.coeffOf n e := by
  by_cases hzero : p.coeffOf n e = 0
  · rw [hzero, cut_zero]
  · obtain ⟨t, ht, rfl⟩ := exists_of_coeff_exactMv_ne_zero hzero
    have hcoeff : p.coeffOf n (t.monomial.exps n) = t.coeff :=
      coeff_exactMv_of_mem hp.fits.ofArity hp.fits.descending ht
    rw [hcoeff]
    exact cut_of_le (significant_iff_le.mp (hp.epsilon_eq ▸ hp.significant t ht))

theorem addScaled (hp : p.Stored n o ε) (hq : q.Fits n o) (h : p.addScaled q s = .ok r) :
    r.Stored n o ε :=
  ⟨hp.fits.addScaled hq h, (epsilon_addScaled h).trans hp.epsilon_eq, hp.significant.addScaled h⟩

/-- In a sum each coefficient is cut. -/
theorem coeffOf_addScaled (hp : p.Stored n o ε) (hq : q.Fits n o) (h : p.addScaled q s = .ok r)
    (e : Fin n →₀ ℕ) : r.coeffOf n e = cut ε (p.coeffOf n e + s * q.coeffOf n e) := by
  have hf := hp.fits
  have hr := hf.addScaled hq h
  unfold coeffOf
  rcases exists_exps_or_coeff_eq_zero K e with ⟨m, hm, rfl⟩ | hzero
  · rw [coeff_exactMv hr.ofArity hr.descending hm, coeff_exactMv hf.ofArity hf.descending hm,
      coeff_exactMv hq.ofArity hq.descending hm, coeffAt_addScaled hf hq h, getD_mergeCoeff,
      hp.epsilon_eq]
    · cases coeffAt q.terms m with
      | none => rw [Option.map_none, Option.getD_none, mul_zero]
      | some b => rw [Option.map_some, Option.getD_some, Option.getD_some, mul_comm]
    · intro a ha
      exact hp.significant ⟨m, a⟩ ((mem_iff_coeffAt hf.ofArity hf.descending).mpr ha)
  · rw [hzero r.terms hr.ofArity, hzero p.terms hf.ofArity, hzero q.terms hq.ofArity, mul_zero,
      add_zero, cut_zero]

/-- Polynomials with the same coefficients are equal. -/
theorem eq_of_coeffOf_eq (hp : p.Stored n o ε) (hq : q.Stored n o ε) (hε : 0 < ε)
    (h : ∀ e, p.coeffOf n e = q.coeffOf n e) : p = q := by
  have hterms : p.terms = q.terms :=
    eq_of_exactMv_eq hp.fits.ofArity hp.fits.descending (hp.ne_zero hε) hq.fits.ofArity
      hq.fits.descending (hq.ne_zero hε) (MvPolynomial.ext _ _ h)
  have heq := (hp.fits.eq_iff_terms_eq hq.fits).mpr hterms
  rw [hq.epsilon_eq, ← hp.epsilon_eq] at heq
  exact heq

end Stored
end Polynomial
end PolyIdeal
