import Mathlib
import PolyIdeal.Proofs.Ordered.Cutting
import PolyIdeal.Proofs.Polynomial.Overflow

/-!
# S-polynomials with a threshold

An S-polynomial cuts coefficients three times, once in each lifted copy and once in their
difference. What is lost is less than twice the threshold all the same: a coefficient of one copy
that is cut leaves the one of the other copy to stand alone, and what stands alone has been cut
already. The leading coefficients of both copies are one before they are cut and are equal
afterwards, so they cancel even where one is below the threshold.

At each monomial the value is an odd function of the two copies. So exchanging the operands changes
the sign of every term and nothing else.
-/

namespace PolyIdeal

open Scalar

variable {K : Type} [OrderedScalar K] {n : ℕ} {o : TermOrder}

/-! ## Cutting a difference -/

namespace Scalar

variable {ε : K}

/-- Two numbers that are cut, and their difference cut again, lose less than twice the threshold. -/
theorem abs_cut_cut_sub_lt (hε : 0 < ε) (a b : K) :
    |cut ε (cut ε a - cut ε b) - (a - b)| < 2 * ε := by
  have htwice : ε < 2 * ε := by linarith
  rcases le_or_gt ε |a| with ha | ha
  · rcases le_or_gt ε |b| with hb | hb
    · rw [cut_of_le ha, cut_of_le hb]
      exact (abs_cut_sub_lt hε (a - b)).trans htwice
    · -- `a` stands alone
      rw [cut_of_lt hb, sub_zero, cut_cut, cut_of_le ha, sub_sub_cancel]
      exact hb.trans htwice
  · rcases le_or_gt ε |b| with hb | hb
    · rw [cut_of_lt ha, zero_sub, cut_neg, cut_cut, cut_of_le hb]
      calc |-b - (a - b)| = |a| := by rw [← abs_neg]; ring_nf
        _ < 2 * ε := ha.trans htwice
    · rw [cut_of_lt ha, cut_of_lt hb, sub_zero, cut_zero, zero_sub, abs_neg]
      calc |a - b| ≤ |a| + |b| := abs_sub a b
        _ < 2 * ε := by linarith

theorem cut_cut_sub_swap (ε a b : K) :
    cut ε (cut ε b - cut ε a) = -cut ε (cut ε a - cut ε b) := by
  rw [← cut_neg, neg_sub]

end Scalar

namespace Polynomial

variable {p f g r : Polynomial K} {lead t u : Term K} {m : Monomial}

/-! ## Lifted copies -/

/-- The polynomial `(m / LM p) * p / LC p` of algebra, where `lead` is the leading term. -/
noncomputable def exactLift (n : ℕ) (p : Polynomial K) (m : Monomial) (lead : Term K) :
    MvPolynomial (Fin n) K :=
  MvPolynomial.monomial (m.exps n - lead.monomial.exps n) lead.coeff⁻¹ * exactMv n p.terms

theorem coeffOf_liftedTo (hp : p.Fits n o) (hm : m.arity = n) (h : p.liftedTo m lead = .ok r)
    (e : Fin n →₀ ℕ) : r.coeffOf n e = cut p.epsilon ((exactLift n p m lead).coeff e) := by
  obtain ⟨u, hu, hmul⟩ := liftedTo_eq_ok_iff.mp h
  have hexps : u.exps n = m.exps n - lead.monomial.exps n :=
    eq_tsub_of_add_eq (Monomial.exps_div_add hm hu)
  have hrec : Scalar.reciprocal lead.coeff = lead.coeff⁻¹ := one_div _
  rw [coeffOf_mulTerm hp hmul, hexps, hrec, exactLift]

theorem stored_liftedTo (hp : p.Fits n o) (h : p.liftedTo m lead = .ok r) :
    r.Stored n o p.epsilon := by
  obtain ⟨u, -, hmul⟩ := liftedTo_eq_ok_iff.mp h
  exact ⟨hp.mulTerm hmul, epsilon_mulTerm hmul, significant_mulTerm hmul⟩

/-- No monomial of a lifted copy is above the one it is lifted to. -/
theorem rank_le_of_mem_liftedTo (hp : p.Fits n o) (hm : m.arity = n)
    (hlead : p.leadingTerm = .ok lead) (h : p.liftedTo m lead = .ok r) :
    ∀ v ∈ r.terms, o.rank n v.monomial ≤ o.rank n m := by
  obtain ⟨u, hu, hmul⟩ := liftedTo_eq_ok_iff.mp h
  obtain ⟨-, ts, hts, rfl⟩ := mulTerm_eq_ok_iff.mp hmul
  intro v hv
  obtain ⟨t, ht, hvt, -⟩ := hts.exists_of_mem hv
  have htp : t ∈ p.terms := (List.mem_filter.mp ht).1
  have hle : o.rank n t.monomial ≤ o.rank n lead.monomial := hp.rank_le_leadingTerm hlead t htp
  rw [TermOrder.rank_mul o (hp.ofArity t htp) hvt, ← TermOrder.rank_div_add o hm hu, add_comm]
  exact add_le_add_right hle _

/-- A lifted copy of algebra leads with one. -/
theorem coeff_exactLift_lead (hp : p.Fits n o) (hlead : p.leadingTerm = .ok lead)
    (hzero : lead.coeff ≠ 0) (hle : lead.monomial.exps n ≤ m.exps n) :
    (exactLift n p m lead).coeff (m.exps n) = 1 := by
  rw [exactLift, MvPolynomial.coeff_monomial_mul', if_pos tsub_le_self, tsub_tsub_cancel_of_le hle,
    coeff_exactMv_of_mem hp.ofArity hp.descending (mem_of_leadingTerm hlead)]
  exact inv_mul_cancel₀ hzero

/-! ## Their difference -/

theorem stored_sPolynomial (hf : f.Fits n o) (hg : g.Fits n o) (h : f.sPolynomial g = .ok r) :
    r.Stored n o f.epsilon := by
  obtain ⟨-, t, -, u, -, m, -, left, hleft, right, hright, hr⟩ := sPolynomial_eq_ok_iff.mp h
  exact (stored_liftedTo hf hleft).addScaled (hg.liftedTo hright) hr

/-- An S-polynomial exists for exchanged operands too. -/
theorem exists_sPolynomial_swap (hf : f.Fits n o) (hg : g.Fits n o) (h : f.sPolynomial g = .ok r) :
    ∃ s, g.sPolynomial f = .ok s := by
  obtain ⟨-, t, ht, u, hu, m, hm, left, hleft, right, hright, hr⟩ := sPolynomial_eq_ok_iff.mp h
  obtain ⟨s, hs⟩ := exists_addScaled_swap (hf.liftedTo hleft) (hg.liftedTo hright) hr (-1)
  exact ⟨s, sPolynomial_eq_ok_iff.mpr ⟨hg.checkCompatible hf, u, hu, t, ht, m,
    Monomial.lcm_swap hm, right, hright, left, hleft, hs⟩⟩

section Leading

variable (hf : f.Fits n o) (hg : g.Fits n o) (ht : f.leadingTerm = .ok t)
  (hu : g.leadingTerm = .ok u) (hm : t.monomial.lcm u.monomial = .ok m)

include ht hu hm in
theorem exists_liftedTo (h : f.sPolynomial g = .ok r) : ∃ left right, f.liftedTo m t = .ok left ∧
    g.liftedTo m u = .ok right ∧ left.addScaled right (-1) = .ok r := by
  obtain ⟨-, t', ht', u', hu', m', hm', left, hleft, right, hright, hr⟩ :=
    sPolynomial_eq_ok_iff.mp h
  obtain rfl := Except.ok.inj (ht.symm.trans ht')
  obtain rfl := Except.ok.inj (hu.symm.trans hu')
  obtain rfl := Except.ok.inj (hm.symm.trans hm')
  exact ⟨left, right, hleft, hright, hr⟩

include hf hg ht hu hm

/-- Each coefficient is cut three times. -/
theorem coeffOf_sPolynomial (heq : g.epsilon = f.epsilon) (h : f.sPolynomial g = .ok r)
    (e : Fin n →₀ ℕ) : r.coeffOf n e = cut f.epsilon
      (cut f.epsilon ((exactLift n f m t).coeff e) -
        cut f.epsilon ((exactLift n g m u).coeff e)) := by
  have hma : m.arity = n := (Monomial.arity_lcm hm).trans (hf.leadingTerm_arity ht)
  obtain ⟨left, right, hleft, hright, hr⟩ := exists_liftedTo ht hu hm h
  rw [(stored_liftedTo hf hleft).coeffOf_addScaled (hg.liftedTo hright) hr,
    coeffOf_liftedTo hf hma hleft, coeffOf_liftedTo hg hma hright, heq, neg_one_mul,
    ← sub_eq_add_neg]

/-- No monomial is above the least common multiple. -/
theorem rank_le_of_mem_sPolynomial (h : f.sPolynomial g = .ok r) :
    ∀ v ∈ r.terms, o.rank n v.monomial ≤ o.rank n m := by
  have hma : m.arity = n := (Monomial.arity_lcm hm).trans (hf.leadingTerm_arity ht)
  obtain ⟨left, right, hleft, hright, hr⟩ := exists_liftedTo ht hu hm h
  obtain ⟨-, -, rfl⟩ := addScaled_eq_ok_iff.mp hr
  intro v hv
  obtain ⟨w, hw | hw, hwv⟩ := exists_of_mem_merge _ _ v hv
  · rw [← hwv]
    exact rank_le_of_mem_liftedTo hf hma ht hleft w hw
  · obtain ⟨w', hw', rfl⟩ := List.mem_map.mp hw
    rw [← hwv]
    exact rank_le_of_mem_liftedTo hg hma hu hright w' hw'

/-- The leading terms cancel. -/
theorem coeffOf_sPolynomial_lcm (heq : g.epsilon = f.epsilon) (ht0 : t.coeff ≠ 0)
    (hu0 : u.coeff ≠ 0) (h : f.sPolynomial g = .ok r) : r.coeffOf n (m.exps n) = 0 := by
  have hexps := Monomial.exps_lcm (hf.leadingTerm_arity ht) hm
  rw [coeffOf_sPolynomial hf hg ht hu hm heq h,
    coeff_exactLift_lead hf ht ht0 (hexps ▸ le_sup_left),
    coeff_exactLift_lead hg hu hu0 (hexps ▸ le_sup_right), sub_self, cut_zero]

/-- So every monomial is below the least common multiple. -/
theorem cmp_eq_lt_of_mem_sPolynomial (hε : 0 < f.epsilon) (heq : g.epsilon = f.epsilon)
    (ht0 : t.coeff ≠ 0) (hu0 : u.coeff ≠ 0) (h : f.sPolynomial g = .ok r) :
    ∀ v ∈ r.terms, o.cmp v.monomial m = .lt := by
  intro v hv
  have hr := stored_sPolynomial hf hg h
  have hva := hr.fits.ofArity v hv
  have hma : m.arity = n := (Monomial.arity_lcm hm).trans (hf.leadingTerm_arity ht)
  refine (TermOrder.cmp_eq_lt_iff o hva hma).mpr (lt_of_le_of_ne
    (rank_le_of_mem_sPolynomial hf hg ht hu hm h v hv) fun hrank => ?_)
  have hvm : v.monomial = m := TermOrder.rank_injective o hva hma hrank
  have hzero := coeffOf_sPolynomial_lcm hf hg ht hu hm heq ht0 hu0 h
  rw [← hvm] at hzero
  exact hr.ne_zero hε v hv
    ((coeff_exactMv_of_mem hr.fits.ofArity hr.fits.descending hv).symm.trans hzero)

/-- Exchanging the operands changes the sign of every term. -/
theorem terms_sPolynomial_swap {s : Polynomial K} (hε : 0 < f.epsilon)
    (heq : g.epsilon = f.epsilon) (h : f.sPolynomial g = .ok r) (h' : g.sPolynomial f = .ok s) :
    s.terms = r.terms.map fun v => ⟨v.monomial, -v.coeff⟩ := by
  have hr := stored_sPolynomial hf hg h
  have hs := stored_sPolynomial hg hf h'
  refine eq_of_exactMv_eq hs.fits.ofArity hs.fits.descending (hs.ne_zero (heq ▸ hε))
    (List.forall_mem_map.mpr hr.fits.ofArity) (List.pairwise_map.mpr hr.fits.descending)
    (List.forall_mem_map.mpr fun v hv => neg_ne_zero.mpr (hr.ne_zero hε v hv)) ?_
  rw [exactMv_map_neg]
  ext e
  rw [MvPolynomial.coeff_neg]
  show s.coeffOf n e = -r.coeffOf n e
  rw [coeffOf_sPolynomial hf hg ht hu hm heq h,
    coeffOf_sPolynomial hg hf hu ht (Monomial.lcm_swap hm) heq.symm h', heq, cut_cut_sub_swap]

end Leading

/-- What the S-polynomial `r` of `f` and `g` is, if these lead with `t` and `u` and `m` is the least
common multiple of the leading monomials. -/
structure IsSPolynomial (n : ℕ) (f g : Polynomial K) (t u : Term K) (m : Monomial)
    (r : Polynomial K) : Prop where
  /-- Every monomial is below the least common multiple. -/
  below : ∀ v ∈ r.terms, f.order.cmp v.monomial m = .lt
  /-- Each coefficient is that of algebra, up to less than twice the threshold. -/
  close : ∀ e : Fin n →₀ ℕ,
    |r.coeffOf n e - (exactLift n f m t - exactLift n g m u).coeff e| < 2 * f.epsilon
  /-- The operands exchanged, the S-polynomial exists as well and has the negative terms. -/
  antisymmetric : ∃ s, g.sPolynomial f = .ok s ∧
    s.terms = r.terms.map fun v => ⟨v.monomial, -v.coeff⟩

/-- Polynomials of one shape and one threshold, which is positive, and with leading coefficients
that are not zero have an S-polynomial, unless an exponent overflows. It cancels the leading terms,
is correct up to twice the threshold, and changes its sign with the order of the operands. -/
theorem Fits.isSPolynomial (hf : f.Fits n o) (hg : g.Fits n o) (hε : 0 < f.epsilon)
    (heq : g.epsilon = f.epsilon) (ht : f.leadingTerm = .ok t) (hu : g.leadingTerm = .ok u)
    (ht0 : t.coeff ≠ 0) (hu0 : u.coeff ≠ 0) :
    ∃ m, t.monomial.lcm u.monomial = .ok m ∧ OverflowOnly (f.sPolynomial g) ∧
      ∀ r, f.sPolynomial g = .ok r → IsSPolynomial n f g t u m r := by
  have hta := hf.leadingTerm_arity ht
  have hua := hg.leadingTerm_arity hu
  obtain ⟨m, hm⟩ : ∃ m, t.monomial.lcm u.monomial = .ok m :=
    ⟨_, Monomial.lcm_eq_ok_iff.mpr ⟨hta.trans hua.symm, rfl⟩⟩
  refine ⟨m, hm, overflowOnly_sPolynomial hf hg (isZero_of_leadingTerm ht)
    (isZero_of_leadingTerm hu), fun r hr => ?_⟩
  constructor
  case below =>
    rw [hf.order_eq]
    exact cmp_eq_lt_of_mem_sPolynomial hf hg ht hu hm hε heq ht0 hu0 hr
  case close =>
    intro e
    rw [coeffOf_sPolynomial hf hg ht hu hm heq hr, MvPolynomial.coeff_sub]
    exact abs_cut_cut_sub_lt hε _ _
  case antisymmetric =>
    obtain ⟨s, hs⟩ := exists_sPolynomial_swap hf hg hr
    exact ⟨s, hs, terms_sPolynomial_swap hf hg ht hu hm hε heq hr hs⟩

/-- The threshold one tenth cuts a coefficient in each lifted copy of `10 x y + 5 x + 3 y + 1/2` and
`10 y² + 9/2 y + 1/2`, and one in the difference. What is left is `3/10 y²`. -/
theorem isSPolynomial_tenths : ∃ f g r : Polynomial ℚ, f.Fits 2 .grlex ∧ g.Fits 2 .grlex ∧
    f.sPolynomial g = .ok r ∧ r.support = [⟨[0, 2]⟩] ∧
      IsSPolynomial 2 f g ⟨⟨[1, 1]⟩, 10⟩ ⟨⟨[0, 2]⟩, 10⟩ ⟨[1, 2]⟩ r := by
  let f : Polynomial ℚ := ⟨2, .grlex, 1 / 10,
    [⟨⟨[1, 1]⟩, 10⟩, ⟨⟨[1, 0]⟩, 5⟩, ⟨⟨[0, 1]⟩, 3⟩, ⟨⟨[0, 0]⟩, 1 / 2⟩]⟩
  let g : Polynomial ℚ := ⟨2, .grlex, 1 / 10,
    [⟨⟨[0, 2]⟩, 10⟩, ⟨⟨[0, 1]⟩, 9 / 2⟩, ⟨⟨[0, 0]⟩, 1 / 2⟩]⟩
  have hf : f.Fits 2 .grlex := by decide
  have hg : g.Fits 2 .grlex := by decide
  have hε : (0 : ℚ) < f.epsilon := by norm_num [f]
  have hlead : (10 : ℚ) ≠ 0 := by norm_num
  have hrun : (f.sPolynomial g).map support = .ok [⟨[0, 2]⟩] := by decide +kernel
  obtain ⟨r, hr, hsupport⟩ := map_eq_ok_iff.mp hrun
  obtain ⟨m, hm, -, hlaws⟩ := hf.isSPolynomial hg hε rfl rfl rfl hlead hlead
  obtain rfl : m = ⟨[1, 2]⟩ := Except.ok.inj (hm.symm.trans rfl)
  exact ⟨f, g, r, hf, hg, hr, hsupport, hlaws r hr⟩

end Polynomial
end PolyIdeal
