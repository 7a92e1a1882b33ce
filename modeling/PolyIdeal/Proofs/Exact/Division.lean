import Mathlib
import PolyIdeal.Proofs.Division.Totality
import PolyIdeal.Proofs.Exact.Polynomials
import PolyIdeal.Proofs.Groebner.Buchberger

/-!
# Division over exact scalars

A division subtracts multiples of the divisors, each of which leads with the term it cancels. So
dividend and remainder differ by a combination of the divisors whose summands rank no higher than
the terms of the dividend: `sub_remainder_mem`. For an S-polynomial they rank below the least
common multiple of the leading monomials, which makes the division an lcm representation. And
modulo a Gröbner basis every member of the ideal leaves nothing over.
-/

namespace PolyIdeal

variable {K : Type} [ExactScalar K] {n : ℕ} {o : TermOrder} {p q f g r S : Polynomial K}
  {D E : List (Polynomial K)}

/-- The polynomials in `n` variables that a list stands for. -/
def values (n : ℕ) (ps : List (Polynomial K)) : Set (MvPolynomial (Fin n) K) :=
  {a | ∃ p ∈ ps, p.toMv n = a}

/-- The ideal of a list of polynomials in `n` variables. -/
noncomputable def idealOf (n : ℕ) (ps : List (Polynomial K)) : Ideal (MvPolynomial (Fin n) K) :=
  Ideal.span (values n ps)

theorem toMv_mem_values (hp : p ∈ D) : p.toMv n ∈ values n D := ⟨p, hp, rfl⟩

theorem toMv_mem_idealOf (hp : p ∈ D) : p.toMv n ∈ idealOf n D :=
  Ideal.subset_span (toMv_mem_values hp)

theorem values_append (D E : List (Polynomial K)) :
    values n (D ++ E) = values n D ∪ values n E := by
  ext a
  simp only [values, List.mem_append, Set.mem_union, Set.mem_ofPred_eq, or_and_right, exists_or]

namespace PartialDivision

open Groebner

variable {t : Term K} {rest : List (Term K)} {known : Division K} {s : PartialDivision K}

/-- What is left and what has been put aside, together. -/
noncomputable def value (n : ℕ) (s : PartialDivision K) : MvPolynomial (Fin n) K :=
  termsMv n s.rest + s.result.remainder.toMv n

/-- A round subtracts a multiple of a divisor that leads with the leading term, or nothing. -/
theorem Round.value_sub_mem (hD : ∀ d ∈ D, d.Proper n o) (ha : OfArity n (t :: rest))
    {ranks : Set (o.monomialOrder n).syn} (ht : o.rank n t.monomial ∈ ranks)
    (h : Round p D t rest known s) :
    value n ⟨t :: rest, known⟩ - value n s ∈
      combinations (o.monomialOrder n) (values n D) ranks := by
  cases h with
  | retired hfirst hpush =>
    obtain ⟨-, rfl⟩ := Polynomial.pushTrailing_eq_ok_iff.mp hpush
    have hsame : value n ⟨t :: rest, known⟩ - value n ⟨rest, { known with
        remainder := { known.remainder with terms := known.remainder.terms ++ [t] } }⟩ = 0 := by
      simp only [value, Polynomial.toMv, termsMv_cons, termsMv_append, termsMv_nil]
      ring
    rw [hsame]
    exact Submodule.zero_mem _
  | @cancelled i d q q' lead m tail hfirst hd hq hlead hdiv htail hmerge hpush =>
    have hdD := List.mem_of_getElem? hd
    have hdproper := hD d hdD
    obtain ⟨ds, hds⟩ := Polynomial.leadingTerm_eq_ok_iff.mp hlead
    have hexps := Monomial.exps_div_add ha.head hdiv
    have hdtail : OfArity n d.terms.tail := hdproper.ofArity.sublist (List.tail_sublist _)
    have htailMv : termsMv n tail = -(MvPolynomial.monomial (m.exps n) (t.coeff / lead.coeff) *
        termsMv n d.terms.tail) := by
      rw [htail.termsMv_eq hdtail fun x => (neg_mul _ x).symm, ← neg_mul, map_neg]
    -- the multiple of the leading term is the term that is cancelled
    have hhead : MvPolynomial.monomial (m.exps n) (t.coeff / lead.coeff) * lead.toMv n =
        t.toMv n := by
      rw [Term.toMv, Term.toMv, MvPolynomial.monomial_mul, hexps,
        div_mul_cancel₀ _ (hdproper.coeff_ne_zero hlead)]
    have hmul : value n ⟨t :: rest, known⟩ - value n ⟨Polynomial.merge p.order p.epsilon rest tail,
        { known with quotients := known.quotients.set i q' }⟩ =
        MvPolynomial.monomial (m.exps n) (t.coeff / lead.coeff) * d.toMv n := by
      have hdMv : d.toMv n = lead.toMv n + termsMv n d.terms.tail := by
        rw [Polynomial.toMv, hds, termsMv_cons, List.tail_cons]
      have hta := (below_tail hdproper.toFits ha.head hlead hdiv htail).1
      simp only [value]
      rw [termsMv_cons, Polynomial.termsMv_merge _ _ ha.tail hta, htailMv, hdMv, mul_add, hhead]
      ring
    rw [hmul]
    refine monomial_mul_mem (toMv_mem_values hdD) ?_ _
    rw [hdproper.degree_toMv hlead, hexps]
    exact ht

end PartialDivision

open PartialDivision Groebner

namespace Polynomial

/-- Dividend and remainder differ by a combination of the divisors that ranks no higher than the
dividend. -/
theorem sub_remainder_mem (hp : p.Fits n o) (hD : ∀ d ∈ D, d.Proper n o)
    {ranks : Set (o.monomialOrder n).syn} (hranks : IsLowerSet ranks)
    (hmem : ∀ t ∈ p.terms, o.rank n t.monomial ∈ ranks) (h : p.remainder D = .ok r) :
    p.toMv n - r.toMv n ∈ combinations (o.monomialOrder n) (values n D) ranks := by
  obtain ⟨d, hd, rfl⟩ := remainder_eq_ok_iff.mp h
  have hfits : ∀ d ∈ D, d.Fits n o := fun d hd => (hD d hd).toFits
  obtain ⟨-, -, hend⟩ := run_invariant
    (P := fun s => Coherent n o D s ∧ (∀ t ∈ s.rest, o.rank n t.monomial ∈ ranks) ∧
      p.toMv n - value n s ∈ combinations (o.monomialOrder n) (values n D) ranks)
    (fun t rest known s hs hround => by
      obtain ⟨hcoherent, hrest, hsub⟩ := hs
      have ht := hrest t List.mem_cons_self
      have hbelow := (hround.below_rest hp hfits hcoherent.rest_ofArity
        hcoherent.rest_descending).2.2
      refine ⟨hcoherent.round hp hfits hround, fun u hu => hranks (hbelow u hu).le ht, ?_⟩
      rw [← sub_add_sub_cancel]
      exact Submodule.add_mem _ hsub (hround.value_sub_mem hD hcoherent.rest_ofArity ht))
    ⟨coherent_trivialDivision hp, hmem, by
      rw [value, toMv_of_isZero (p := (p.trivialDivision D).remainder) rfl, add_zero, toMv,
        sub_self]
      exact Submodule.zero_mem _⟩
    (divide_eq_ok_iff.mp hd).2
  rw [value, termsMv_nil, zero_add] at hend
  exact hend

/-- A remainder has no zero coefficients if the dividend has none. -/
theorem Proper.remainder (hp : p.Proper n o) (hD : ∀ d ∈ D, d.Fits n o)
    (h : p.remainder D = .ok r) : r.Proper n o := by
  refine ⟨hp.toFits.remainder hD h, ?_⟩
  obtain ⟨d, hd, rfl⟩ := remainder_eq_ok_iff.mp h
  refine (run_invariant (P := fun s => Nonzero s.rest ∧ Nonzero s.result.remainder.terms)
    (fun t rest known s hs hround => ?_) ⟨hp.nonzero, fun _ ht => absurd ht List.not_mem_nil⟩
    (divide_eq_ok_iff.mp hd).2).2
  obtain ⟨hrest, hremainder⟩ := hs
  cases hround with
  | retired hfirst hpush =>
    obtain ⟨-, rfl⟩ := pushTrailing_eq_ok_iff.mp hpush
    exact ⟨hrest.tail, List.forall_mem_append.mpr
      ⟨hremainder, List.forall_mem_singleton.mpr (hrest t List.mem_cons_self)⟩⟩
  | cancelled => exact ⟨nonzero_merge _ _ hrest.tail, hremainder⟩

/-- Modulo members of an ideal, a division stays in the residue class of the dividend. -/
theorem sub_remainder_mem_ideal {I : Ideal (MvPolynomial (Fin n) K)} (hp : p.Fits n o)
    (hD : ∀ d ∈ D, d.Proper n o) (hDI : ∀ d ∈ D, d.toMv n ∈ I) (h : p.remainder D = .ok r) :
    p.toMv n - r.toMv n ∈ I := by
  have hsub := mem_span_of_combinations
    (sub_remainder_mem hp hD isLowerSet_univ (fun _ _ => Set.mem_univ _) h)
  exact Ideal.span_le.mpr (by rintro _ ⟨d, hd, rfl⟩; exact hDI d hd) hsub

/-- Remainders of members of an ideal modulo members are members. -/
theorem remainder_mem {I : Ideal (MvPolynomial (Fin n) K)} (hp : p.Fits n o)
    (hD : ∀ d ∈ D, d.Proper n o) (hDI : ∀ d ∈ D, d.toMv n ∈ I) (h : p.remainder D = .ok r) :
    p.toMv n ∈ I ↔ r.toMv n ∈ I := by
  have hiff : p.toMv n - r.toMv n + r.toMv n ∈ I ↔ r.toMv n ∈ I :=
    I.add_mem_iff_right (sub_remainder_mem_ideal hp hD hDI h)
  rwa [sub_add_cancel] at hiff

/-- No monomial of a remainder is divisible by the leading monomial of a divisor. -/
theorem not_degree_le_of_remainder (hp : p.Proper n o) (hD : ∀ d ∈ D, d.Proper n o)
    (h : p.remainder D = .ok r) {e : Fin n →₀ ℕ} (he : e ∈ (r.toMv n).support) :
    ∀ g ∈ values n D, g ≠ 0 → ¬ (o.monomialOrder n).degree g ≤ e := by
  have hr := hp.remainder (fun d hd => (hD d hd).toFits) h
  rintro _ ⟨d, hd, rfl⟩ hd0 hle
  obtain ⟨t, ht, rfl⟩ := hr.mem_support_toMv_iff.mp he
  have hdz : d.isZero = false := Bool.eq_false_iff.mpr fun hz => hd0 (toMv_of_isZero hz)
  have hdvd := ((hD d hd).leadDivides_iff hdz (hr.ofArity t ht)).mpr hle
  rw [leadDivides_of_mem_remainder h ht hd] at hdvd
  cases hdvd

/-- Modulo a Gröbner basis every member of the ideal leaves nothing over. -/
theorem isZero_remainder {I : Ideal (MvPolynomial (Fin n) K)} (hp : p.Proper n o)
    (hD : ∀ d ∈ D, d.Proper n o) (hG : IsGroebner (o.monomialOrder n) I (values n D))
    (hpI : p.toMv n ∈ I) (h : p.remainder D = .ok r) : r.isZero = true := by
  have hr := hp.remainder (fun d hd => (hD d hd).toFits) h
  have hDI : ∀ d ∈ D, d.toMv n ∈ I := fun d hd => hG.subset _ (toMv_mem_values hd)
  by_contra hr0
  refine hr.toMv_ne_zero (Bool.eq_false_iff.mpr hr0) (hG.eq_zero ?_ ?_)
  · exact (remainder_mem hp.toFits hD hDI h).mp hpI
  · exact fun e he => not_degree_le_of_remainder hp hD h he

/-- Remainders modulo Gröbner bases of one ideal agree exactly on its residue classes. -/
theorem terms_remainder_eq_iff {I : Ideal (MvPolynomial (Fin n) K)} {s : Polynomial K}
    (hp : p.Proper n o) (hq : q.Proper n o) (hD : ∀ d ∈ D, d.Proper n o)
    (hE : ∀ d ∈ E, d.Proper n o) (hGD : IsGroebner (o.monomialOrder n) I (values n D))
    (hGE : IsGroebner (o.monomialOrder n) I (values n E)) (hr : p.remainder D = .ok r)
    (hs : q.remainder E = .ok s) : r.terms = s.terms ↔ p.toMv n - q.toMv n ∈ I := by
  have hpr := sub_remainder_mem_ideal hp.toFits hD
    (fun d hd => hGD.subset _ (toMv_mem_values hd)) hr
  have hqs := sub_remainder_mem_ideal hq.toFits hE
    (fun d hd => hGE.subset _ (toMv_mem_values hd)) hs
  have hclass : p.toMv n - q.toMv n ∈ I ↔ r.toMv n - s.toMv n ∈ I := by
    have hsplit : p.toMv n - q.toMv n =
        (p.toMv n - r.toMv n - (q.toMv n - s.toMv n)) + (r.toMv n - s.toMv n) := by ring
    rw [hsplit]
    exact I.add_mem_iff_right (I.sub_mem hpr hqs)
  rw [hclass]
  constructor
  · intro hterms
    rw [toMv, toMv, hterms, sub_self]
    exact I.zero_mem
  · intro hmem
    refine (hp.remainder (fun d hd => (hD d hd).toFits) hr).terms_eq
      (hq.remainder (fun d hd => (hE d hd).toFits) hs) (sub_eq_zero.mp (hGD.eq_zero hmem ?_))
    intro e he
    rcases Finset.mem_union.mp (MvPolynomial.support_sub (Fin n) _ _ he) with he | he
    · exact not_degree_le_of_remainder hp hD hr he
    · exact hGE.not_degree_le hGD (not_degree_le_of_remainder hq hE hs he)

/-! ## Divisions of S-polynomials -/

/-- The S-polynomial of two members of an ideal is a member. -/
theorem sPolynomial_mem {I : Ideal (MvPolynomial (Fin n) K)} (hf : f.Proper n o)
    (hg : g.Proper n o) (hf0 : f.isZero = false) (hg0 : g.isZero = false) (hfI : f.toMv n ∈ I)
    (hgI : g.toMv n ∈ I) (h : f.sPolynomial g = .ok S) : S.toMv n ∈ I := by
  have hlead := mul_ne_zero
    ((o.monomialOrder n).leadingCoeff_ne_zero_iff.mpr (hf.toMv_ne_zero hf0))
    ((o.monomialOrder n).leadingCoeff_ne_zero_iff.mpr (hg.toMv_ne_zero hg0))
  have hS : S.toMv n = MvPolynomial.C ((o.monomialOrder n).leadingCoeff (f.toMv n) *
      (o.monomialOrder n).leadingCoeff (g.toMv n))⁻¹ *
        (o.monomialOrder n).sPolynomial (f.toMv n) (g.toMv n) := by
    rw [toMv_sPolynomial hf hg h, ← mul_assoc, ← MvPolynomial.C_mul, inv_mul_cancel₀ hlead,
      MvPolynomial.C_1, one_mul]
  rw [hS, MonomialOrder.sPolynomial]
  exact I.mul_mem_left _ (I.sub_mem (I.mul_mem_left _ hfI) (I.mul_mem_left _ hgI))

/-- An S-polynomial ranks below the least common multiple of the leading monomials. -/
theorem rank_lt_of_mem_sPolynomial (hf : f.Proper n o) (hg : g.Proper n o) (hf0 : f.isZero = false)
    (hg0 : g.isZero = false) (h : f.sPolynomial g = .ok S) {t : Term K} (ht : t ∈ S.terms) :
    o.rank n t.monomial < (o.monomialOrder n).toSyn
      ((o.monomialOrder n).degree (f.toMv n) ⊔ (o.monomialOrder n).degree (g.toMv n)) := by
  have hval := toMv_sPolynomial hf hg h
  have hcoeff : t.monomial.exps n ∈
      ((o.monomialOrder n).sPolynomial (f.toMv n) (g.toMv n)).support := by
    rw [hval, MvPolynomial.mem_support_iff, MvPolynomial.coeff_C_mul]
    refine mul_ne_zero (mul_ne_zero ?_ ?_) ?_
    · exact (o.monomialOrder n).leadingCoeff_ne_zero_iff.mpr (hf.toMv_ne_zero hf0)
    · exact (o.monomialOrder n).leadingCoeff_ne_zero_iff.mpr (hg.toMv_ne_zero hg0)
    · exact MvPolynomial.mem_support_iff.mp
        ((Proper.sPolynomial hf.toFits hg.toFits h).mem_support_toMv_iff.mpr ⟨t, ht, rfl⟩)
  refine ((o.monomialOrder n).le_degree hcoeff).trans_lt ?_
  exact (o.monomialOrder n).degree_sPolynomial_lt_sup_degree
    (MvPolynomial.support_nonempty.mp ⟨_, hcoeff⟩)

/-- Dividing an S-polynomial gives an lcm representation, once the remainder is among the
generators. -/
theorem lcmRep_of_remainder (hf : f.Proper n o) (hg : g.Proper n o) (hf0 : f.isZero = false)
    (hg0 : g.isZero = false) (hD : ∀ d ∈ D, d.Proper n o) (hS : f.sPolynomial g = .ok S)
    (h : S.remainder D = .ok r) (hE : r.isZero = true ∨ r ∈ E) (hDE : values n D ⊆ values n E) :
    LcmRep (o.monomialOrder n) (values n E) (f.toMv n) (g.toMv n) := by
  have hSproper := Proper.sPolynomial hf.toFits hg.toFits hS
  have hlow : ∀ t ∈ S.terms, o.rank n t.monomial ∈ Set.Iio ((o.monomialOrder n).toSyn
      ((o.monomialOrder n).degree (f.toMv n) ⊔ (o.monomialOrder n).degree (g.toMv n))) :=
    fun t ht => rank_lt_of_mem_sPolynomial hf hg hf0 hg0 hS ht
  have hsub := sub_remainder_mem hSproper.toFits hD (isLowerSet_Iio _) hlow h
  have hr : r.toMv n ∈ combinations (o.monomialOrder n) (values n E) (Set.Iio
      ((o.monomialOrder n).toSyn
        ((o.monomialOrder n).degree (f.toMv n) ⊔ (o.monomialOrder n).degree (g.toMv n)))) := by
    rcases hE with hz | hmem
    · rw [toMv_of_isZero hz]
      exact Submodule.zero_mem _
    cases hz : r.isZero with
    | true =>
      rw [toMv_of_isZero hz]
      exact Submodule.zero_mem _
    | false =>
      have hrproper := hSproper.remainder (fun d hd => (hD d hd).toFits) h
      have hdeg := (o.monomialOrder n).coeff_degree_ne_zero_iff.mpr (hrproper.toMv_ne_zero hz)
      rw [← one_mul (r.toMv n)]
      refine monomial_mul_mem (e := 0) (toMv_mem_values hmem) ?_ 1
      rw [zero_add]
      -- the leading monomial of the remainder is one of the dividend or of the difference
      by_cases hSdeg : (S.toMv n).coeff ((o.monomialOrder n).degree (r.toMv n)) = 0
      · have hne : (S.toMv n - r.toMv n).coeff ((o.monomialOrder n).degree (r.toMv n)) ≠ 0 := by
          rw [MvPolynomial.coeff_sub, hSdeg, zero_sub]
          exact neg_ne_zero.mpr hdeg
        obtain ⟨B, hB, hle⟩ := exists_le_of_coeff_ne_zero hsub hne
        exact hle.trans_lt hB
      · obtain ⟨t, ht, heq⟩ := hSproper.mem_support_toMv_iff.mp
          (MvPolynomial.mem_support_iff.mpr hSdeg)
        rw [← heq]
        exact hlow t ht
  have hsum := Submodule.add_mem _ (combinations_mono hDE (fun _ _ _ => id) hsub) hr
  rw [sub_add_cancel] at hsum
  rw [LcmRep, toMv_sPolynomial hf hg hS, ← MvPolynomial.smul_eq_C_mul]
  exact Submodule.smul_mem _ _ hsum

end Polynomial
end PolyIdeal
