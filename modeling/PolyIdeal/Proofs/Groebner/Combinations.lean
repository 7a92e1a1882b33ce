import Mathlib

/-!
# Combinations with bounded terms

An element of an ideal is a sum of multiples of generators, and the leading monomials of the
summands may be far larger than that of the sum. `combinations m G s` collects the sums all of
whose summands, monomials times members of `G`, have their leading monomial in the set `s` of
ranks. It is a subspace, so that every statement about such sums is an induction over their
summands. The sets that matter are the ranks up to a bound and the ranks below it.

The S-polynomial of two polynomials has an *lcm representation* when it is such a sum below the
least common multiple of their leading monomials. This is what completion establishes for every
pair, and it is weaker than reducing to zero: it survives when the generators grow, and it follows
from either criterion for needless pairs.
-/

open MvPolynomial

namespace PolyIdeal.Groebner

variable {σ k : Type} [Field k] {m : MonomialOrder σ} {G H : Set (MvPolynomial σ k)}
  {s t : Set m.syn} {f g p q : MvPolynomial σ k}

/-- The sums of multiples of members of `G` by monomials whose leading monomials lie in `s`. -/
noncomputable def combinations (m : MonomialOrder σ) (G : Set (MvPolynomial σ k)) (s : Set m.syn) :
    Submodule k (MvPolynomial σ k) :=
  Submodule.span k {p | ∃ g ∈ G, ∃ e, m.toSyn (e + m.degree g) ∈ s ∧ monomial e 1 * g = p}

theorem monomial_mul_mem (hg : g ∈ G) {e : σ →₀ ℕ} (h : m.toSyn (e + m.degree g) ∈ s) (c : k) :
    monomial e c * g ∈ combinations m G s := by
  have hsmul : monomial e c * g = c • (monomial e 1 * g) := by
    rw [← smul_mul_assoc, smul_monomial, smul_eq_mul, mul_one]
  rw [hsmul]
  exact Submodule.smul_mem _ c (Submodule.subset_span ⟨g, hg, e, h, rfl⟩)

/-- A multiple is admitted when each monomial of the factor is. -/
theorem mul_mem (hg : g ∈ G) (h : ∀ e ∈ q.support, m.toSyn (e + m.degree g) ∈ s) :
    q * g ∈ combinations m G s := by
  rw [q.as_sum, Finset.sum_mul]
  exact Submodule.sum_mem _ fun e he => monomial_mul_mem hg (h e he) _

/-- Each summand is admitted by the larger set and stems from the larger list. -/
theorem combinations_mono (hGH : G ⊆ H)
    (hst : ∀ g ∈ G, ∀ e, m.toSyn (e + m.degree g) ∈ s → m.toSyn (e + m.degree g) ∈ t) :
    combinations m G s ≤ combinations m H t := by
  refine Submodule.span_mono ?_
  rintro p ⟨g, hg, e, he, rfl⟩
  exact ⟨g, hGH hg, e, hst g hg e he, rfl⟩

theorem combinations_Iic_mono {B C : m.syn} (h : B ≤ C) :
    combinations m G (Set.Iic B) ≤ combinations m G (Set.Iic C) :=
  combinations_mono subset_rfl fun _ _ _ hB => le_trans hB h

/-- A multiple by a monomial moves the ranks by that of the monomial. -/
theorem monomial_mul_combinations (h : p ∈ combinations m G s) {e : σ →₀ ℕ} (c : k)
    (hst : ∀ B ∈ s, m.toSyn e + B ∈ t) : monomial e c * p ∈ combinations m G t := by
  induction h using Submodule.span_induction with
  | mem p hp =>
    obtain ⟨g, hg, d, hd, rfl⟩ := hp
    rw [← mul_assoc, monomial_mul, mul_one]
    refine monomial_mul_mem hg ?_ c
    rw [add_assoc, map_add]
    exact hst _ hd
  | zero =>
    rw [mul_zero]
    exact Submodule.zero_mem _
  | add p q _ _ hp hq =>
    rw [mul_add]
    exact Submodule.add_mem _ hp hq
  | smul a p _ hp =>
    rw [mul_smul_comm]
    exact Submodule.smul_mem _ a hp

/-- No monomial of such a sum ranks above all of `s`. -/
theorem exists_le_of_coeff_ne_zero (h : p ∈ combinations m G s) {b : σ →₀ ℕ}
    (hb : p.coeff b ≠ 0) : ∃ B ∈ s, m.toSyn b ≤ B := by
  contrapose! hb
  induction h using Submodule.span_induction with
  | mem p hp =>
    obtain ⟨g, -, e, he, rfl⟩ := hp
    refine m.coeff_eq_zero_of_lt ?_
    refine lt_of_le_of_lt (m.toSyn_degree_mul_le.trans ?_) (hb _ he)
    rw [map_add]
    exact add_le_add_left (m.degree_monomial_le 1) _
  | zero => exact coeff_zero b
  | add p q _ _ hp hq => rw [coeff_add, hp, hq, add_zero]
  | smul a p _ hp => rw [coeff_smul, hp, smul_zero]

/-- A sum that is not zero has summands, and one of them ranks highest. -/
theorem exists_bound (h : p ∈ combinations m G s) :
    p = 0 ∨ ∃ B ∈ s, p ∈ combinations m G (Set.Iic B) := by
  induction h using Submodule.span_induction with
  | mem p hp =>
    obtain ⟨g, hg, e, he, rfl⟩ := hp
    exact .inr ⟨_, he, monomial_mul_mem hg Set.self_mem_Iic 1⟩
  | zero => exact .inl rfl
  | add p q _ _ hp hq =>
    rcases hp with hp | ⟨B, hB, hp⟩
    · rw [hp, zero_add]
      exact hq
    rcases hq with hq | ⟨C, hC, hq⟩
    · rw [hq, add_zero]
      exact .inr ⟨B, hB, hp⟩
    refine .inr ⟨max B C, ?_, ?_⟩
    · rcases max_choice B C with h | h
      · rwa [h]
      · rwa [h]
    · exact Submodule.add_mem _ (combinations_Iic_mono (le_max_left B C) hp)
        (combinations_Iic_mono (le_max_right B C) hq)
  | smul a p _ hp =>
    rcases hp with hp | ⟨B, hB, hp⟩
    · exact .inl (by rw [hp, smul_zero])
    · exact .inr ⟨B, hB, Submodule.smul_mem _ a hp⟩

/-! ## The ideal -/

theorem mem_span_of_combinations (h : p ∈ combinations m G s) : p ∈ Ideal.span G := by
  induction h using Submodule.span_induction with
  | mem p hp =>
    obtain ⟨g, hg, e, -, rfl⟩ := hp
    exact Ideal.mul_mem_left _ _ (Ideal.subset_span hg)
  | zero => exact Ideal.zero_mem _
  | add p q _ _ hp hq => exact Ideal.add_mem _ hp hq
  | smul a p _ hp =>
    rw [smul_eq_C_mul]
    exact Ideal.mul_mem_left _ _ hp

/-- Without a bound the sums are the ideal. -/
theorem combinations_of_mem_span (h : p ∈ Ideal.span G) : p ∈ combinations m G Set.univ := by
  induction h using Submodule.span_induction with
  | mem g hg =>
    have hone : g = monomial 0 1 * g := (one_mul g).symm
    rw [hone]
    exact monomial_mul_mem hg (Set.mem_univ _) 1
  | zero => exact Submodule.zero_mem _
  | add p q _ _ hp hq => exact Submodule.add_mem _ hp hq
  | smul a p _ hp =>
    rw [smul_eq_mul, a.as_sum, Finset.sum_mul]
    exact Submodule.sum_mem _ fun e _ =>
      monomial_mul_combinations hp _ fun _ _ => Set.mem_univ _

/-! ## Lcm representations -/

/-- The S-polynomial of `f` and `g` is a sum of multiples of members of `G`, all of them below the
least common multiple of the leading monomials. -/
def LcmRep (m : MonomialOrder σ) (G : Set (MvPolynomial σ k)) (f g : MvPolynomial σ k) : Prop :=
  m.sPolynomial f g ∈ combinations m G (Set.Iio (m.toSyn (m.degree f ⊔ m.degree g)))

namespace LcmRep

theorem refl (f : MvPolynomial σ k) : LcmRep m G f f := by
  rw [LcmRep, m.sPolynomial_self]
  exact Submodule.zero_mem _

theorem symm (h : LcmRep m G f g) : LcmRep m G g f := by
  rw [LcmRep, m.sPolynomial_antisymm, sup_comm]
  exact Submodule.neg_mem _ h

theorem mono (h : LcmRep m G f g) (hGH : G ⊆ H) : LcmRep m H f g :=
  combinations_mono hGH (fun _ _ _ => id) h

/-- Multiples of `f` and `g` by monomials that meet in one leading monomial cancel below it. -/
theorem sub_mem (h : LcmRep m G f g) {d e : σ →₀ ℕ} (hde : d + m.degree f = e + m.degree g) :
    monomial d (m.leadingCoeff g) * f - monomial e (m.leadingCoeff f) * g ∈
      combinations m G (Set.Iio (m.toSyn (e + m.degree g))) := by
  have hL : m.degree f ⊔ m.degree g ≤ e + m.degree g :=
    sup_le (hde ▸ le_add_self) le_add_self
  -- both factors are one monomial times the factors of the S-polynomial
  have hd : e + m.degree g - m.degree f ⊔ m.degree g + (m.degree f ⊔ m.degree g - m.degree f) =
      d := by
    rw [tsub_add_tsub_cancel hL le_sup_left, ← hde, add_tsub_cancel_right]
  have he : e + m.degree g - m.degree f ⊔ m.degree g + (m.degree f ⊔ m.degree g - m.degree g) =
      e := by
    rw [tsub_add_tsub_cancel hL le_sup_right, add_tsub_cancel_right]
  have hmul : monomial d (m.leadingCoeff g) * f - monomial e (m.leadingCoeff f) * g =
      monomial (e + m.degree g - m.degree f ⊔ m.degree g) 1 * m.sPolynomial f g := by
    rw [m.sPolynomial_def, mul_sub, ← mul_assoc, ← mul_assoc, monomial_mul, monomial_mul, hd, he,
      one_mul, one_mul]
  rw [hmul]
  refine monomial_mul_combinations h 1 fun B hB => ?_
  have hsum : m.toSyn (e + m.degree g - m.degree f ⊔ m.degree g) +
      m.toSyn (m.degree f ⊔ m.degree g) = m.toSyn (e + m.degree g) := by
    rw [← map_add, tsub_add_cancel_of_le hL]
  exact (add_lt_add_right hB _).trans_eq hsum

/-! ## Criteria for needless pairs -/

theorem degree_lt_of_mem_tail {e : σ →₀ ℕ} (he : e ∈ (f - m.leadingTerm f).support) :
    m.toSyn e < m.toSyn (m.degree f) := by
  classical
  rw [mem_support_iff, coeff_sub, MonomialOrder.leadingTerm, coeff_monomial] at he
  split_ifs at he with heq
  · rw [← heq] at he
    exact absurd (sub_self _) he
  · rw [sub_zero] at he
    exact lt_of_le_of_ne (m.le_degree (mem_support_iff.mpr he))
      fun h => heq (m.toSyn.injective h).symm

/-- Polynomials without their leading terms, times each other's leading terms, stay below the
product of the leading monomials. When these are coprime that product is the least common
multiple. -/
theorem of_coprime (hf : f ∈ G) (hg : g ∈ G) (h : m.degree f ⊓ m.degree g = 0) :
    LcmRep m G f g := by
  have hL : m.degree f ⊔ m.degree g = m.degree f + m.degree g := by
    ext i
    have hi : min (m.degree f i) (m.degree g i) = 0 := DFunLike.congr_fun h i
    rw [Finsupp.sup_apply, Finsupp.add_apply]
    omega
  -- the tail of one polynomial times the other stays below the product of the leading monomials
  have htail : ∀ {a b : MvPolynomial σ k}, b ∈ G → (a - m.leadingTerm a) * b ∈
      combinations m G (Set.Iio (m.toSyn (m.degree a + m.degree b))) := fun {a b} hb => by
    refine mul_mem hb fun e he => ?_
    rw [map_add, map_add]
    exact add_lt_add_left (degree_lt_of_mem_tail he) _
  have hS : m.sPolynomial f g = (f - m.leadingTerm f) * g - (g - m.leadingTerm g) * f := by
    rw [m.sPolynomial_def, hL, add_tsub_cancel_left, add_tsub_cancel_right,
      MonomialOrder.leadingTerm, MonomialOrder.leadingTerm]
    ring
  rw [LcmRep, hL, hS]
  refine Submodule.sub_mem _ (htail hg) ?_
  rw [add_comm]
  exact htail hf

/-- A third polynomial whose leading monomial divides the least common multiple splits the
S-polynomial into two. -/
theorem of_chain {l : MvPolynomial σ k} (hf : LcmRep m G f l) (hg : LcmRep m G g l) (hl : l ≠ 0)
    (h : m.degree l ≤ m.degree f ⊔ m.degree g) : LcmRep m G f g := by
  have hl : m.leadingCoeff l ≠ 0 := m.leadingCoeff_ne_zero_iff.mpr hl
  -- all three multiples meet in the least common multiple
  have hsum : ∀ {d : σ →₀ ℕ}, d ≤ m.degree f ⊔ m.degree g →
      m.degree f ⊔ m.degree g - d + d = m.degree f ⊔ m.degree g :=
    fun hd => tsub_add_cancel_of_le hd
  have hfl := hf.sub_mem ((hsum le_sup_left).trans (hsum h).symm)
  have hgl := hg.sub_mem ((hsum le_sup_right).trans (hsum h).symm)
  rw [hsum h] at hfl hgl
  have hS : m.sPolynomial f g = (m.leadingCoeff l)⁻¹ •
      (m.leadingCoeff g • (monomial (m.degree f ⊔ m.degree g - m.degree f) (m.leadingCoeff l) * f -
          monomial (m.degree f ⊔ m.degree g - m.degree l) (m.leadingCoeff f) * l) -
        m.leadingCoeff f • (monomial (m.degree f ⊔ m.degree g - m.degree g) (m.leadingCoeff l) * g -
          monomial (m.degree f ⊔ m.degree g - m.degree l) (m.leadingCoeff g) * l)) := by
    rw [m.sPolynomial_def, eq_inv_smul_iff₀ hl]
    simp only [smul_sub, ← smul_mul_assoc, smul_monomial, smul_eq_mul]
    rw [mul_comm (m.leadingCoeff g) (m.leadingCoeff f), mul_comm (m.leadingCoeff l),
      mul_comm (m.leadingCoeff l)]
    ring
  rw [LcmRep, hS]
  exact Submodule.smul_mem _ _
    (Submodule.sub_mem _ (Submodule.smul_mem _ _ hfl) (Submodule.smul_mem _ _ hgl))

end LcmRep

end PolyIdeal.Groebner
