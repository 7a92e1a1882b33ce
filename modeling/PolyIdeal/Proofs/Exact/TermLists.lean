import Mathlib
import PolyIdeal.Proofs.Exact.Arithmetic
import PolyIdeal.Proofs.Polynomial.NormalForm

/-!
# Term lists as polynomials

`termsMv n ts` is the polynomial in `n` variables that a list of terms stands for, the sum of its
terms. Over exact scalars what the list operations do to it is plain algebra: dropping
insignificant terms, sorting and combining change nothing, merging adds, and shifting multiplies.

In a descending list without zero coefficients the coefficients can be read off, the first term
leads, and no other such list stands for the same polynomial.
-/

namespace PolyIdeal

variable {K : Type} [ExactScalar K] {n : ℕ} {o : TermOrder} {ε : K} {ts us : List (Term K)}
  {t u : Term K}

/-- A term as a polynomial in `n` variables. -/
noncomputable def Term.toMv (n : ℕ) (t : Term K) : MvPolynomial (Fin n) K :=
  MvPolynomial.monomial (t.monomial.exps n) t.coeff

/-- The sum of a list of terms. -/
noncomputable def termsMv (n : ℕ) (ts : List (Term K)) : MvPolynomial (Fin n) K :=
  (ts.map (Term.toMv n)).sum

@[simp] theorem termsMv_nil : termsMv n ([] : List (Term K)) = 0 := rfl

@[simp] theorem termsMv_cons (t : Term K) (ts : List (Term K)) :
    termsMv n (t :: ts) = t.toMv n + termsMv n ts := List.sum_cons

@[simp] theorem termsMv_append (ts us : List (Term K)) :
    termsMv n (ts ++ us) = termsMv n ts + termsMv n us := by
  rw [termsMv, List.map_append, List.sum_append]
  rfl

/-- The order of the terms does not matter. -/
theorem termsMv_perm (h : ts.Perm us) : termsMv n ts = termsMv n us := (h.map _).sum_eq

/-- No coefficient is zero. -/
def Nonzero (ts : List (Term K)) : Prop := ∀ t ∈ ts, t.coeff ≠ 0

instance [DecidableEq K] (ts : List (Term K)) : Decidable (Nonzero ts) :=
  inferInstanceAs (Decidable (∀ t ∈ ts, t.coeff ≠ 0))

/-- Fewer terms without a zero coefficient. -/
theorem Nonzero.sublist (h : Nonzero ts) (hs : us.Sublist ts) : Nonzero us :=
  fun t ht => h t (hs.subset ht)

theorem Nonzero.tail (h : Nonzero (t :: ts)) : Nonzero ts := h.sublist (List.sublist_cons_self t ts)

namespace Polynomial

/-! ## Insignificant terms are zero -/

/-- What is cut off in front is zero. -/
theorem termsMv_consSignificant (ε : K) (t : Term K) (ts : List (Term K)) :
    termsMv n (consSignificant ε t ts) = t.toMv n + termsMv n ts := by
  unfold consSignificant
  split
  next => exact termsMv_cons t ts
  next h =>
    rw [Scalar.significant_iff, not_not] at h
    rw [Term.toMv, h, MvPolynomial.monomial_zero, zero_add]

theorem nonzero_consSignificant (h : Nonzero ts) : Nonzero (consSignificant ε t ts) := by
  unfold consSignificant
  split
  next hsig => exact List.forall_mem_cons.mpr ⟨Scalar.significant_iff.mp hsig, h⟩
  next => exact h

/-- Only zeros are dropped. -/
theorem termsMv_keepSignificant (ε : K) (ts : List (Term K)) :
    termsMv n (keepSignificant ε ts) = termsMv n ts := by
  induction ts with
  | nil => rfl
  | cons t ts ih =>
    have hcons : keepSignificant ε (t :: ts) = consSignificant ε t (keepSignificant ε ts) :=
      List.filter_cons
    rw [hcons, termsMv_consSignificant, ih, termsMv_cons]

/-- All zeros are dropped. -/
theorem nonzero_keepSignificant (ε : K) (ts : List (Term K)) : Nonzero (keepSignificant ε ts) :=
  fun _ ht => Scalar.significant_iff.mp (List.mem_filter.mp ht).2

/-! ## Normal forms and merging -/

/-- A run of equal monomials is added up. -/
theorem termsMv_combineRun (t : Term K) (ts : List (Term K)) :
    termsMv n (combineRun t ts) = t.toMv n + termsMv n ts := by
  induction ts generalizing t with
  | nil => exact termsMv_cons t []
  | cons u ts ih =>
    rw [combineRun, termsMv_cons]
    split
    next h =>
      rw [ih, ← add_assoc]
      congr 1
      rw [Term.toMv, Term.toMv, Term.toMv, h]
      exact (MvPolynomial.monomial _).map_add _ _
    next => rw [termsMv_cons, ih]

/-- Combining terms with equal monomials leaves the sum as it is. -/
theorem termsMv_combineLike (ts : List (Term K)) : termsMv n (combineLike ts) = termsMv n ts := by
  cases ts with
  | nil => rfl
  | cons t ts => rw [combineLike, termsMv_combineRun, termsMv_cons]

/-- Bringing terms into normal form does not change their sum. -/
theorem termsMv_normalTerms (h : normalTerms o ε ts = .ok us) : termsMv n us = termsMv n ts := by
  rw [normalTerms_eq_ok h, termsMv_keepSignificant, termsMv_combineLike,
    termsMv_perm (sortDescending_perm o ts)]

/-- Merging adds. -/
theorem termsMv_merge (as bs : List (Term K)) : OfArity n as → OfArity n bs →
    termsMv n (merge o ε as bs) = termsMv n as + termsMv n bs := by
  induction as, bs using merge_induction (o := o) (ε := ε) with
  | rest_right bs => exact fun _ _ => by rw [termsMv_keepSignificant, termsMv_nil, zero_add]
  | rest_left a as => exact fun _ _ => by rw [termsMv_nil, add_zero]
  | left a as b bs _ ih =>
    intro ha hb
    rw [termsMv_cons, ih ha.tail hb, termsMv_cons a, add_assoc]
  | right a as b bs _ ih =>
    intro ha hb
    rw [termsMv_consSignificant, ih ha hb.tail, termsMv_cons b, add_left_comm]
  | both a as b bs hcmp ih =>
    intro ha hb
    have heq := (TermOrder.cmp_eq_eq_iff o ha.head hb.head).mp hcmp
    have hsum : (⟨a.monomial, a.coeff + b.coeff⟩ : Term K).toMv n = a.toMv n + b.toMv n := by
      rw [Term.toMv, Term.toMv, Term.toMv, ← heq]
      exact (MvPolynomial.monomial _).map_add _ _
    rw [termsMv_consSignificant, hsum, ih ha.tail hb.tail, termsMv_cons, termsMv_cons,
      add_add_add_comm]

/-- A merge keeps the coefficients of the left list and what is significant. -/
theorem nonzero_merge (as bs : List (Term K)) : Nonzero as → Nonzero (merge o ε as bs) := by
  induction as, bs using merge_induction (o := o) (ε := ε) with
  | rest_right bs => exact fun _ => nonzero_keepSignificant ε bs
  | rest_left a as => exact id
  | left a as b bs _ ih =>
    exact fun h => List.forall_mem_cons.mpr ⟨h a List.mem_cons_self, ih h.tail⟩
  | right a as b bs _ ih => exact fun h => nonzero_consSignificant (ih h)
  | both a as b bs _ ih => exact fun h => nonzero_consSignificant (ih h.tail)

end Polynomial

/-- Shifting by `m` and multiplying the coefficients by `c` is a product. -/
theorem Shifted.termsMv_eq {m : Monomial} {f : K → K} (h : Shifted m f ts us) (ha : OfArity n ts)
    {c : K} (hf : ∀ x, f x = c * x) :
    termsMv n us = MvPolynomial.monomial (m.exps n) c * termsMv n ts := by
  induction h with
  | nil => exact (mul_zero _).symm
  | @cons t u ts us hhead _ ih =>
    have hu : u.toMv n = MvPolynomial.monomial (m.exps n) c * t.toMv n := by
      rw [Term.toMv, Term.toMv, MvPolynomial.monomial_mul, Monomial.exps_mul ha.head hhead.1,
        hhead.2, hf, add_comm]
    rw [termsMv_cons, termsMv_cons, mul_add, hu, ih ha.tail]

/-! ## Reading coefficients off a descending list -/

/-- A monomial of the sum is the monomial of some term. -/
theorem exists_of_coeff_termsMv_ne_zero {e : Fin n →₀ ℕ} (h : (termsMv n ts).coeff e ≠ 0) :
    ∃ t ∈ ts, t.monomial.exps n = e := by
  classical
  induction ts with
  | nil => exact absurd (MvPolynomial.coeff_zero e) h
  | cons t ts ih =>
    by_cases ht : t.monomial.exps n = e
    · exact ⟨t, List.mem_cons_self, ht⟩
    · rw [termsMv_cons, MvPolynomial.coeff_add, Term.toMv, MvPolynomial.coeff_monomial, if_neg ht,
        zero_add] at h
      obtain ⟨u, hu, he⟩ := ih h
      exact ⟨u, List.mem_cons_of_mem t hu, he⟩

/-- Terms that rank below a monomial do not contribute to its coefficient. -/
theorem coeff_termsMv_of_below {m : Monomial} (h : Below o n (o.rank n m) ts) :
    (termsMv n ts).coeff (m.exps n) = 0 := by
  by_contra hne
  obtain ⟨t, ht, heq⟩ := exists_of_coeff_termsMv_ne_zero hne
  have hlt := h t ht
  rw [TermOrder.rank, heq] at hlt
  exact lt_irrefl _ hlt

/-- No other term has the monomial, so its coefficient is the one in the sum. -/
theorem coeff_termsMv_of_mem (ha : OfArity n ts) (hd : Descending o ts) (ht : t ∈ ts) :
    (termsMv n ts).coeff (t.monomial.exps n) = t.coeff := by
  classical
  induction ts with
  | nil => exact absurd ht List.not_mem_nil
  | cons u ts ih =>
    have hbelow := hd.below_tail ha
    rw [termsMv_cons, MvPolynomial.coeff_add, Term.toMv, MvPolynomial.coeff_monomial]
    rcases List.mem_cons.mp ht with rfl | ht
    · rw [if_pos rfl, coeff_termsMv_of_below hbelow, add_zero]
    · have hne : u.monomial.exps n ≠ t.monomial.exps n := fun h => by
        have hlt := hbelow t ht
        rw [TermOrder.rank, TermOrder.rank, h] at hlt
        exact lt_irrefl _ hlt
      rw [if_neg hne, zero_add, ih ha.tail hd.tail ht]

/-- The first term leads. -/
theorem degree_termsMv_cons (ha : OfArity n (t :: ts)) (hd : Descending o (t :: ts))
    (ht : t.coeff ≠ 0) : (o.monomialOrder n).degree (termsMv n (t :: ts)) = t.monomial.exps n := by
  have hcoeff := coeff_termsMv_of_mem ha hd List.mem_cons_self
  refine (o.monomialOrder n).toSyn.injective (le_antisymm ?_ ?_)
  · refine (o.monomialOrder n).degree_le_iff.mpr fun e he => ?_
    obtain ⟨u, hu, rfl⟩ := exists_of_coeff_termsMv_ne_zero (MvPolynomial.mem_support_iff.mp he)
    exact hd.rank_le_head ha u hu
  · refine (o.monomialOrder n).le_degree (MvPolynomial.mem_support_iff.mpr ?_)
    rw [hcoeff]
    exact ht

/-- The first term leads if its coefficient is not zero. -/
theorem leadingCoeff_termsMv_cons (ha : OfArity n (t :: ts)) (hd : Descending o (t :: ts))
    (ht : t.coeff ≠ 0) : (o.monomialOrder n).leadingCoeff (termsMv n (t :: ts)) = t.coeff := by
  rw [MonomialOrder.leadingCoeff, degree_termsMv_cons ha hd ht]
  exact coeff_termsMv_of_mem ha hd List.mem_cons_self

theorem termsMv_cons_ne_zero (ha : OfArity n (t :: ts)) (hd : Descending o (t :: ts))
    (ht : t.coeff ≠ 0) : termsMv n (t :: ts) ≠ 0 :=
  (o.monomialOrder n).leadingCoeff_ne_zero_iff.mp (by rwa [leadingCoeff_termsMv_cons ha hd ht])

/-- A polynomial has one descending list of nonzero terms. -/
theorem eq_of_termsMv_eq (hat : OfArity n ts) (hdt : Descending o ts) (hnt : Nonzero ts)
    (hau : OfArity n us) (hdu : Descending o us) (hnu : Nonzero us)
    (h : termsMv n ts = termsMv n us) : ts = us := by
  induction ts generalizing us with
  | nil =>
    cases us with
    | nil => rfl
    | cons u us => exact absurd h.symm (termsMv_cons_ne_zero hau hdu (hnu u List.mem_cons_self))
  | cons t ts ih =>
    have ht := hnt t List.mem_cons_self
    cases us with
    | nil => exact absurd h (termsMv_cons_ne_zero hat hdt ht)
    | cons u us =>
      have hu := hnu u List.mem_cons_self
      have hexps : t.monomial.exps n = u.monomial.exps n := by
        rw [← degree_termsMv_cons hat hdt ht, h, degree_termsMv_cons hau hdu hu]
      have hcoeff : t.coeff = u.coeff := by
        rw [← leadingCoeff_termsMv_cons hat hdt ht, h, leadingCoeff_termsMv_cons hau hdu hu]
      have htu : t = u := by
        cases t
        cases u
        exact congrArg₂ Term.mk (Monomial.eq_of_exps_eq hat.head hau.head hexps) hcoeff
      subst htu
      rw [termsMv_cons, termsMv_cons] at h
      rw [ih hat.tail hdt.tail hnt.tail hau.tail hdu.tail hnu.tail (add_left_cancel h)]

end PolyIdeal
