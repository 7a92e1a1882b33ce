import Mathlib
import PolyIdeal.Proofs.Exact.TermLists
import PolyIdeal.Proofs.Polynomial.Shape

/-!
# Arithmetic over exact scalars

`p.toMv n` is the polynomial that `p` stands for. Over exact scalars each operation is the one its
name promises, and `sPolynomial` differs from the S-polynomial of algebra by the product of the
leading coefficients only.

`p.Proper n o` adds to the shape of `p` that no coefficient is zero. Then the first term holds the
leading monomial and the leading coefficient.
-/

namespace PolyIdeal.Polynomial

variable {K : Type} [ExactScalar K] {n : ℕ} {o : TermOrder} {p q r : Polynomial K} {t u : Term K}
  {m : Monomial}

/-- The polynomial in `n` variables that `p` stands for. -/
noncomputable def toMv (n : ℕ) (p : Polynomial K) : MvPolynomial (Fin n) K := termsMv n p.terms

/-- A polynomial in `n` variables, ranked by `o`, without zero coefficients. -/
structure Proper (n : ℕ) (o : TermOrder) (p : Polynomial K) : Prop extends p.Fits n o where
  nonzero : Nonzero p.terms

instance [DecidableEq K] (n : ℕ) (o : TermOrder) (p : Polynomial K) : Decidable (p.Proper n o) :=
  decidable_of_iff (p.Fits n o ∧ Nonzero p.terms)
    ⟨fun h => ⟨h.1, h.2⟩, fun h => ⟨h.toFits, h.nonzero⟩⟩

/-! ## Leading terms -/

namespace Proper

/-- The leading coefficient of a polynomial in normal form is not zero. -/
theorem coeff_ne_zero (hp : p.Proper n o) (h : p.leadingTerm = .ok t) : t.coeff ≠ 0 := by
  exact hp.nonzero t (mem_of_leadingTerm h)

/-- The leading monomial is the leading monomial of the polynomial that is represented. -/
theorem degree_toMv (hp : p.Proper n o) (h : p.leadingTerm = .ok t) :
    (o.monomialOrder n).degree (p.toMv n) = t.monomial.exps n := by
  obtain ⟨ts, hts⟩ := leadingTerm_eq_ok_iff.mp h
  rw [toMv, hts]
  exact degree_termsMv_cons (hts ▸ hp.ofArity) (hts ▸ hp.descending) (hp.coeff_ne_zero h)

/-- The leading coefficient is the leading coefficient of the polynomial that is represented. -/
theorem leadingCoeff_toMv (hp : p.Proper n o) (h : p.leadingTerm = .ok t) :
    (o.monomialOrder n).leadingCoeff (p.toMv n) = t.coeff := by
  obtain ⟨ts, hts⟩ := leadingTerm_eq_ok_iff.mp h
  rw [toMv, hts]
  exact leadingCoeff_termsMv_cons (hts ▸ hp.ofArity) (hts ▸ hp.descending) (hp.coeff_ne_zero h)

/-- A polynomial in normal form that has terms does not represent zero. -/
theorem toMv_ne_zero (hp : p.Proper n o) (h : p.isZero = false) : p.toMv n ≠ 0 := by
  obtain ⟨t, ht⟩ := exists_leadingTerm h
  refine (o.monomialOrder n).leadingCoeff_ne_zero_iff.mp ?_
  rw [hp.leadingCoeff_toMv ht]
  exact hp.coeff_ne_zero ht

/-- A monomial of the polynomial is the monomial of one of its terms. -/
theorem mem_support_toMv_iff (hp : p.Proper n o) {e : Fin n →₀ ℕ} :
    e ∈ (p.toMv n).support ↔ ∃ t ∈ p.terms, t.monomial.exps n = e := by
  rw [MvPolynomial.mem_support_iff]
  constructor
  · exact exists_of_coeff_termsMv_ne_zero
  · rintro ⟨t, ht, rfl⟩
    rw [toMv, coeff_termsMv_of_mem hp.ofArity hp.descending ht]
    exact hp.nonzero t ht

/-- Divisibility by the leading monomial. -/
theorem leadDivides_iff (hp : p.Proper n o) (hp0 : p.isZero = false) (hm : m.arity = n) :
    p.leadDivides m = true ↔ (o.monomialOrder n).degree (p.toMv n) ≤ m.exps n := by
  obtain ⟨t, ts, hts⟩ := isZero_eq_false_iff.mp hp0
  have ht := leadingTerm_eq_ok_iff.mpr ⟨ts, hts⟩
  rw [hp.degree_toMv ht, ← Monomial.divides_iff (hp.leadingTerm_arity ht) hm, leadDivides, hts]

/-- Two proper polynomials with one value have the same terms. -/
theorem terms_eq (hp : p.Proper n o) (hq : q.Proper n o) (h : p.toMv n = q.toMv n) :
    p.terms = q.terms :=
  eq_of_termsMv_eq hp.ofArity hp.descending hp.nonzero hq.ofArity hq.descending hq.nonzero h

end Proper

theorem toMv_of_isZero (h : p.isZero = true) : p.toMv n = 0 := by
  rw [toMv, List.isEmpty_iff.mp h, termsMv_nil]

/-! ## Sums and multiples -/

/-- The scaled terms are those of the multiple. -/
theorem termsMv_scaledTerms (p : Polynomial K) (s : K) :
    termsMv n (p.scaledTerms s) = MvPolynomial.C s * p.toMv n := by
  rw [toMv, scaledTerms]
  induction p.terms with
  | nil => exact (mul_zero _).symm
  | cons t ts ih =>
    rw [List.map_cons, termsMv_cons, ih, termsMv_cons, mul_add]
    congr 1
    rw [Term.toMv, Term.toMv, MvPolynomial.C_mul_monomial, mul_comm]

/-- Over exact scalars a sum with a multiple drops nothing but zeros. -/
theorem toMv_addScaled {s : K} (hp : p.Fits n o) (hq : q.Fits n o) (h : p.addScaled q s = .ok r) :
    r.toMv n = p.toMv n + MvPolynomial.C s * q.toMv n := by
  obtain ⟨-, -, rfl⟩ := addScaled_eq_ok_iff.mp h
  rw [← termsMv_scaledTerms]
  exact termsMv_merge _ _ hp.ofArity (hq.ofArity_scaledTerms s)

theorem Proper.addScaled {s : K} (hp : p.Proper n o) (hq : q.Fits n o)
    (h : p.addScaled q s = .ok r) : r.Proper n o := by
  refine ⟨hp.toFits.addScaled hq h, ?_⟩
  obtain ⟨-, -, rfl⟩ := addScaled_eq_ok_iff.mp h
  exact nonzero_merge _ _ hp.nonzero

/-- The terms that multiplying by `c` makes insignificant contribute nothing. -/
theorem monomial_mul_termsMv_filter (ε c : K) (e : Fin n →₀ ℕ) (ts : List (Term K)) :
    MvPolynomial.monomial e c *
        termsMv n (ts.filter fun t => Scalar.significant ε (t.coeff * c)) =
      MvPolynomial.monomial e c * termsMv n ts := by
  induction ts with
  | nil => rfl
  | cons t ts ih =>
    rw [List.filter_cons]
    split
    next => rw [termsMv_cons, termsMv_cons, mul_add, mul_add, ih]
    next h =>
      rw [Scalar.significant_iff, not_not] at h
      rw [ih, termsMv_cons, mul_add, Term.toMv, MvPolynomial.monomial_mul, mul_comm c, h,
        MvPolynomial.monomial_zero, zero_add]

/-- The product with a term is the one of the polynomial ring. -/
theorem toMv_mulTerm {c : K} (hp : p.Fits n o) (h : p.mulTerm m c = .ok r) :
    r.toMv n = MvPolynomial.monomial (m.exps n) c * p.toMv n := by
  obtain ⟨-, ts, hts, rfl⟩ := mulTerm_eq_ok_iff.mp h
  have harity := hp.ofArity.sublist (List.filter_sublist
    (p := fun t => Scalar.significant p.epsilon (t.coeff * c)))
  rw [toMv, hts.termsMv_eq harity fun x => mul_comm x c, monomial_mul_termsMv_filter]
  rfl

/-- Multiplying keeps significant terms only. -/
theorem Proper.mulTerm {c : K} (hp : p.Fits n o) (h : p.mulTerm m c = .ok r) : r.Proper n o := by
  refine ⟨hp.mulTerm h, ?_⟩
  obtain ⟨-, ts, hts, rfl⟩ := mulTerm_eq_ok_iff.mp h
  intro u hu
  obtain ⟨t, ht, -, hcoeff⟩ := hts.exists_of_mem hu
  rw [hcoeff]
  exact Scalar.significant_iff.mp (List.mem_filter.mp ht).2

/-! ## S-polynomials -/

/-- Lifting multiplies by the quotient of the monomials and makes the leading coefficient 1. -/
theorem toMv_liftedTo (hp : p.Fits n o) (hm : m.arity = n) (h : p.liftedTo m t = .ok r) :
    r.toMv n =
      MvPolynomial.monomial (m.exps n - t.monomial.exps n) t.coeff⁻¹ * p.toMv n := by
  obtain ⟨u, hu, hr⟩ := liftedTo_eq_ok_iff.mp h
  have hexps : u.exps n = m.exps n - t.monomial.exps n := by
    rw [← Monomial.exps_div_add hm hu, add_tsub_cancel_right]
  rw [toMv_mulTerm hp hr, hexps, Scalar.reciprocal, one_div]

/-- The S-polynomial of algebra, divided by the leading coefficients. -/
theorem toMv_sPolynomial (hp : p.Proper n o) (hq : q.Proper n o) (h : p.sPolynomial q = .ok r) :
    (o.monomialOrder n).sPolynomial (p.toMv n) (q.toMv n) =
      MvPolynomial.C ((o.monomialOrder n).leadingCoeff (p.toMv n) *
        (o.monomialOrder n).leadingCoeff (q.toMv n)) * r.toMv n := by
  obtain ⟨-, t, ht, u, hu, m, hm, left, hleft, right, hright, hr⟩ := sPolynomial_eq_ok_iff.mp h
  have hta := hp.leadingTerm_arity ht
  have hma := (Monomial.arity_lcm hm).trans hta
  have hpt := hp.coeff_ne_zero ht
  have hqu := hq.coeff_ne_zero hu
  have hval : r.toMv n =
      MvPolynomial.monomial (m.exps n - t.monomial.exps n) t.coeff⁻¹ * p.toMv n -
        MvPolynomial.monomial (m.exps n - u.monomial.exps n) u.coeff⁻¹ * q.toMv n := by
    rw [toMv_addScaled (hp.liftedTo hleft) (hq.liftedTo hright) hr,
      toMv_liftedTo hp.toFits hma hleft, toMv_liftedTo hq.toFits hma hright, MvPolynomial.C_neg,
      MvPolynomial.C_1, neg_one_mul, sub_eq_add_neg]
  rw [MonomialOrder.sPolynomial_def, hp.degree_toMv ht, hq.degree_toMv hu, hp.leadingCoeff_toMv ht,
    hq.leadingCoeff_toMv hu, ← Monomial.exps_lcm hta hm, hval, mul_sub, ← mul_assoc, ← mul_assoc,
    MvPolynomial.C_mul_monomial, MvPolynomial.C_mul_monomial]
  congr 3
  · rw [mul_right_comm, mul_inv_cancel₀ hpt, one_mul]
  · rw [mul_inv_cancel_right₀ hqu]

theorem Proper.sPolynomial (hp : p.Fits n o) (hq : q.Fits n o) (h : p.sPolynomial q = .ok r) :
    r.Proper n o := by
  obtain ⟨-, t, -, u, -, m, -, left, hleft, right, hright, hr⟩ := sPolynomial_eq_ok_iff.mp h
  obtain ⟨_, -, hleft⟩ := liftedTo_eq_ok_iff.mp hleft
  exact (Proper.mulTerm hp hleft).addScaled (hq.liftedTo hright) hr

/-! ## Monic polynomials and changes of order -/

/-- Making a polynomial monic divides it by its leading coefficient. -/
theorem toMv_monic (hp : p.Proper n o) (h : p.monic = .ok r) :
    r.toMv n = MvPolynomial.C ((o.monomialOrder n).leadingCoeff (p.toMv n))⁻¹ * p.toMv n := by
  obtain ⟨t, ts, hts, rfl⟩ := monic_eq_ok_iff.mp h
  have ht := leadingTerm_eq_ok_iff.mpr ⟨ts, hts⟩
  have htail : termsMv n (ts.map fun u => (⟨u.monomial, u.coeff / t.coeff⟩ : Term K)) =
      MvPolynomial.C t.coeff⁻¹ * termsMv n ts := by
    have hscaled := termsMv_scaledTerms (n := n) { p with terms := ts } t.coeff⁻¹
    simp only [scaledTerms, ← div_eq_mul_inv] at hscaled
    exact hscaled
  have hhead : (⟨t.monomial, 1⟩ : Term K).toMv n = MvPolynomial.C t.coeff⁻¹ * t.toMv n := by
    rw [Term.toMv, Term.toMv, MvPolynomial.C_mul_monomial,
      inv_mul_cancel₀ (hp.coeff_ne_zero ht)]
  rw [hp.leadingCoeff_toMv ht, toMv, toMv, hts, termsMv_cons, termsMv_cons,
    termsMv_keepSignificant, htail, hhead, mul_add]

theorem Proper.monic (hp : p.Fits n o) (h : p.monic = .ok r) : r.Proper n o := by
  refine ⟨hp.monic h, ?_⟩
  obtain ⟨t, ts, -, rfl⟩ := monic_eq_ok_iff.mp h
  exact List.forall_mem_cons.mpr ⟨one_ne_zero, nonzero_keepSignificant _ _⟩

/-- A change of order does not change what is represented. -/
theorem toMv_reorder (h : p.reorder o = .ok q) : q.toMv n = p.toMv n := by
  obtain ⟨ts, hts, rfl⟩ := reorder_eq_ok_iff.mp h
  exact termsMv_normalTerms hts

theorem proper_reorder (harity : p.arity = n) (ha : OfArity n p.terms)
    (h : p.reorder o = .ok q) : q.Proper n o := by
  refine ⟨fits_reorder harity ha h, ?_⟩
  obtain ⟨ts, hts, rfl⟩ := reorder_eq_ok_iff.mp h
  rw [normalTerms_eq_ok hts]
  exact nonzero_keepSignificant _ _

end PolyIdeal.Polynomial
