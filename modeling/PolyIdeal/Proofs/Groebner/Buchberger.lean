import Mathlib
import PolyIdeal.Proofs.Groebner.Combinations

/-!
# Buchberger's criterion

A set of members of an ideal is a Gröbner basis of it when the leading monomial of every other
member is divisible by one of theirs. `isGroebner_of_lcmRep` is the criterion: it suffices that
every two members of a generating set have an lcm representation.

The argument is a descent on a bound for the summands. If the highest summands of a combination
cancel, each can be traded against one and the same multiple, at the price of an S-polynomial,
which stays below; so the combination has a lower bound. The bound cannot descend forever, and
where the highest summands do not cancel they show the leading monomial.
-/

open MvPolynomial

namespace PolyIdeal.Groebner

variable {σ k : Type} [Field k] {m : MonomialOrder σ} {G : Set (MvPolynomial σ k)}
  {p : MvPolynomial σ k} {I : Ideal (MvPolynomial σ k)}

/-- Members of an ideal among whose leading monomials every leading monomial of the ideal has a
divisor. -/
structure IsGroebner (m : MonomialOrder σ) (I : Ideal (MvPolynomial σ k))
    (G : Set (MvPolynomial σ k)) : Prop where
  subset : ∀ g ∈ G, g ∈ I
  exists_degree_le : ∀ p ∈ I, p ≠ 0 → ∃ g ∈ G, g ≠ 0 ∧ m.degree g ≤ m.degree p

/-! ## Trading the highest summands -/

section Criterion

variable (hG : ∀ g ∈ G, g ≠ 0) (hrep : ∀ f ∈ G, ∀ g ∈ G, LcmRep m G f g)
include hG hrep

/-- The highest summands are worth their sum of coefficients times any one of them. -/
theorem sub_mem_combinations_Iio {g : MvPolynomial σ k} (hg : g ∈ G) (e : σ →₀ ℕ)
    (h : p ∈ combinations m G (Set.Iic (m.toSyn (e + m.degree g)))) :
    p - monomial e (p.coeff (e + m.degree g) / m.leadingCoeff g) * g ∈
      combinations m G (Set.Iio (m.toSyn (e + m.degree g))) := by
  have hlead : m.leadingCoeff g ≠ 0 := m.leadingCoeff_ne_zero_iff.mpr (hG g hg)
  induction h using Submodule.span_induction with
  | mem p hp =>
    obtain ⟨f, hf, d, hd, rfl⟩ := hp
    rcases eq_or_lt_of_le (Set.mem_Iic.mp hd) with heq | hlt
    · have hde : d + m.degree f = e + m.degree g := m.toSyn.injective heq
      have hcoeff : (monomial d 1 * f).coeff (e + m.degree g) = m.leadingCoeff f := by
        rw [← hde, coeff_monomial_mul, one_mul]
        rfl
      have hmul : monomial d 1 * f - monomial e (m.leadingCoeff f / m.leadingCoeff g) * g =
          (m.leadingCoeff g)⁻¹ •
            (monomial d (m.leadingCoeff g) * f - monomial e (m.leadingCoeff f) * g) := by
        rw [smul_sub, ← smul_mul_assoc, ← smul_mul_assoc, smul_monomial, smul_monomial, smul_eq_mul,
          smul_eq_mul, inv_mul_cancel₀ hlead, div_eq_inv_mul]
      rw [hcoeff, hmul]
      exact Submodule.smul_mem _ _ ((hrep f hf g hg).sub_mem hde)
    · have hlow : monomial d 1 * f ∈ combinations m G (Set.Iio (m.toSyn (e + m.degree g))) :=
        monomial_mul_mem hf hlt 1
      have hcoeff : (monomial d 1 * f).coeff (e + m.degree g) = 0 := by
        by_contra hne
        obtain ⟨B, hB, hle⟩ := exists_le_of_coeff_ne_zero hlow hne
        exact absurd hle (not_le.mpr hB)
      rw [hcoeff, zero_div, monomial_zero, zero_mul, sub_zero]
      exact hlow
  | zero =>
    rw [coeff_zero, zero_div, monomial_zero, zero_mul, sub_zero]
    exact Submodule.zero_mem _
  | add p q _ _ hp hq =>
    have hsum := Submodule.add_mem _ hp hq
    rw [coeff_add, add_div, (monomial e).map_add, add_mul, add_sub_add_comm]
    exact hsum
  | smul a p _ hp =>
    have hmul := Submodule.smul_mem _ a hp
    rw [smul_sub, ← smul_mul_assoc, smul_monomial, smul_eq_mul, ← mul_div_assoc] at hmul
    rw [coeff_smul, smul_eq_mul]
    exact hmul

/-- The leading monomial of a combination is divisible by that of a member, by descent on the
bound of the combination. -/
theorem exists_degree_le_of_combinations (B : m.syn) (h : p ∈ combinations m G (Set.Iic B))
    (hp : p ≠ 0) : ∃ g ∈ G, m.degree g ≤ m.degree p := by
  induction B using WellFoundedLT.induction with
  | ind B ih =>
    -- a combination below `B` has a smaller bound
    have hdescend : p ∈ combinations m G (Set.Iio B) → ∃ g ∈ G, m.degree g ≤ m.degree p :=
      fun hlow => by
        obtain ⟨C, hC, hle⟩ := (exists_bound hlow).resolve_left hp
        exact ih C hC hle
    by_cases htop : ∃ g ∈ G, ∃ e, m.toSyn (e + m.degree g) = B
    · obtain ⟨g, hg, e, rfl⟩ := htop
      by_cases hcoeff : p.coeff (e + m.degree g) = 0
      · have hlow := sub_mem_combinations_Iio hG hrep hg e h
        rw [hcoeff, zero_div, monomial_zero, zero_mul, sub_zero] at hlow
        exact hdescend hlow
      · -- the highest summands do not cancel
        obtain ⟨B, hB, hle⟩ := exists_le_of_coeff_ne_zero h (m.coeff_degree_ne_zero_iff.mpr hp)
        have hdeg : m.degree p = e + m.degree g := m.toSyn.injective
          (le_antisymm (hle.trans hB) (m.le_degree (mem_support_iff.mpr hcoeff)))
        exact ⟨g, hg, hdeg ▸ le_add_self⟩
    · refine hdescend (combinations_mono subset_rfl (fun g hg e he => ?_) h)
      exact lt_of_le_of_ne he fun heq => htop ⟨g, hg, e, heq⟩

/-- Buchberger's criterion, in terms of lcm representations. -/
theorem isGroebner_of_lcmRep : IsGroebner m (Ideal.span G) G where
  subset _ hg := Ideal.subset_span hg
  exists_degree_le p hp hp0 := by
    obtain ⟨B, -, hB⟩ := (exists_bound (combinations_of_mem_span (m := m) hp)).resolve_left hp0
    obtain ⟨g, hg, hle⟩ := exists_degree_le_of_combinations hG hrep B hB hp0
    exact ⟨g, hg, hG g hg, hle⟩

end Criterion

/-! ## What a Gröbner basis gives -/

/-- A member of the ideal whose monomials no leading monomial divides is zero. -/
theorem IsGroebner.eq_zero (hG : IsGroebner m I G) (hp : p ∈ I)
    (h : ∀ e ∈ p.support, ∀ g ∈ G, g ≠ 0 → ¬ m.degree g ≤ e) : p = 0 := by
  by_contra hp0
  obtain ⟨g, hg, hg0, hle⟩ := hG.exists_degree_le p hp hp0
  exact h _ (m.degree_mem_support hp0) g hg hg0 hle

/-- What no leading monomial of one Gröbner basis divides, none of another one does. -/
theorem IsGroebner.not_degree_le {H : Set (MvPolynomial σ k)} {e : σ →₀ ℕ}
    (hG : IsGroebner m I G) (hH : IsGroebner m I H)
    (h : ∀ g ∈ G, g ≠ 0 → ¬ m.degree g ≤ e) : ∀ g ∈ H, g ≠ 0 → ¬ m.degree g ≤ e := by
  intro g hg hg0 hle
  obtain ⟨f, hf, hf0, hfg⟩ := hG.exists_degree_le g (hH.subset g hg) hg0
  exact h f hf hf0 (hfg.trans hle)

/-- Other members of the ideal do as well if their leading monomials divide those of a Gröbner
basis. -/
theorem IsGroebner.of_degree_le {H : Set (MvPolynomial σ k)} (hG : IsGroebner m I G)
    (hH : ∀ h ∈ H, h ∈ I)
    (hle : ∀ g ∈ G, g ≠ 0 → ∃ h ∈ H, h ≠ 0 ∧ m.degree h ≤ m.degree g) : IsGroebner m I H where
  subset := hH
  exists_degree_le p hp hp0 := by
    obtain ⟨g, hg, hg0, hgp⟩ := hG.exists_degree_le p hp hp0
    obtain ⟨h, hh, hh0, hhg⟩ := hle g hg hg0
    exact ⟨h, hh, hh0, hhg.trans hgp⟩

/-- A Gröbner basis generates the ideal. -/
theorem IsGroebner.span_eq (hG : IsGroebner m I G) : Ideal.span G = I := by
  refine le_antisymm (Ideal.span_le.mpr hG.subset) fun p hp => ?_
  have hunit : ∀ b ∈ {g ∈ G | g ≠ 0}, IsUnit (m.leadingCoeff b) := fun b hb =>
    isUnit_iff_ne_zero.mpr (m.leadingCoeff_ne_zero_iff.mpr hb.2)
  obtain ⟨q, r, hqr, -, hr⟩ := m.div_set hunit p
  have hsum : Finsupp.linearCombination (MvPolynomial σ k)
      (fun b : {g ∈ G | g ≠ 0} => (b : MvPolynomial σ k)) q ∈ Ideal.span G := by
    rw [Finsupp.linearCombination_apply]
    refine Submodule.sum_mem _ fun b _ => ?_
    exact Ideal.mul_mem_left _ _ (Ideal.subset_span b.2.1)
  have hrI : r ∈ I := by
    rw [← sub_eq_iff_eq_add'.mpr hqr]
    exact Ideal.sub_mem _ hp (Ideal.span_le.mpr hG.subset hsum)
  rw [hG.eq_zero hrI fun e he g hg hg0 => hr e he g ⟨hg, hg0⟩, add_zero] at hqr
  rw [hqr]
  exact hsum

end PolyIdeal.Groebner
