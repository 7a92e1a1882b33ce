import Mathlib
import PolyIdeal.Proofs.Exact.TermLists
import PolyIdeal.Proofs.Polynomial.Coefficients
import PolyIdeal.Scalar.Rational

/-!
# Exact arithmetic with a threshold

An ordered scalar is an element of an ordered field whose tests compare its magnitude with the
threshold. Arithmetic is exact then, and what separates a computation from algebra is only what it
leaves out. `exactMv n ts` is the polynomial of algebra that a list of terms stands for; its
coefficients are the same ones, but as exact scalars, of which zero alone is insignificant.

A merge leaves out sums that are insignificant (`mergeDrops`). Together with these it is a sum, and
at each monomial it leaves out one sum at most.
-/

namespace PolyIdeal

/-- Coefficients that form an ordered field, with tests that compare magnitudes with the
threshold. -/
class OrderedScalar (K : Type) extends
    Field K, LinearOrder K, IsStrictOrderedRing K, Scalar K where
  abs_ordered : ∀ c : K, abs c = |c|
  significant_ordered : ∀ ε c : K, significant ε c = true ↔ ε ≤ |c|
  negligible_ordered : ∀ ε c : K, negligible ε c = true ↔ |c| < ε

namespace Scalar

variable {K : Type} [OrderedScalar K] {ε c : K}

/-- A coefficient is significant if its magnitude reaches the threshold. -/
theorem significant_iff_le : significant ε c = true ↔ ε ≤ |c| :=
  OrderedScalar.significant_ordered ε c

theorem significant_eq_false_iff : significant ε c = false ↔ |c| < ε := by
  rw [Bool.eq_false_iff, ne_eq, significant_iff_le, not_le]

/-- It is negligible if its magnitude stays below. -/
theorem negligible_iff_lt : negligible ε c = true ↔ |c| < ε := OrderedScalar.negligible_ordered ε c

end Scalar

theorem Scalar.abs_rat (c : ℚ) : Rat.abs c = |c| := by
  unfold Rat.abs
  split
  next h => exact (abs_of_nonneg h).symm
  next h => exact (abs_of_neg (not_le.mp h)).symm

instance : OrderedScalar ℚ where
  __ := (inferInstance : Field ℚ)
  __ := (inferInstance : LinearOrder ℚ)
  __ := (inferInstance : IsStrictOrderedRing ℚ)
  __ := (inferInstance : Scalar ℚ)
  abs_ordered := Scalar.abs_rat
  significant_ordered ε c := by
    show (!Rat.blt (Rat.abs c) ε) = true ↔ ε ≤ |c|
    rw [Scalar.abs_rat, Bool.not_eq_true', Bool.eq_false_iff, ← not_lt]
    exact Iff.rfl
  negligible_ordered ε c := by
    show Rat.blt (Rat.abs c) ε = true ↔ |c| < ε
    rw [Scalar.abs_rat]
    exact Iff.rfl

/-! ## The polynomial that a list stands for -/

section Reading

variable {K : Type} [OrderedScalar K] {n : ℕ} {o : TermOrder} {as bs ts us : List (Term K)}
  {t : Term K} {m : Monomial}

/-- The same field, with tests that discard zero and nothing else. -/
abbrev OrderedScalar.exact (K : Type) [OrderedScalar K] : ExactScalar K where
  __ := (inferInstance : Field K)
  defaultEpsilon := Scalar.defaultEpsilon
  abs := Scalar.abs
  significant _ c := decide (c ≠ 0)
  negligible _ c := decide (c = 0)
  significant_exact _ _ := decide_eq_true_iff
  negligible_exact _ _ := decide_eq_true_iff

/-- The polynomial in `n` variables that a list of terms stands for. -/
noncomputable def exactMv (n : ℕ) (ts : List (Term K)) : MvPolynomial (Fin n) K :=
  @termsMv K (OrderedScalar.exact K) n ts

@[simp] theorem exactMv_nil : exactMv n ([] : List (Term K)) = 0 := rfl

@[simp] theorem exactMv_cons (t : Term K) (ts : List (Term K)) : exactMv n (t :: ts) =
    MvPolynomial.monomial (t.monomial.exps n) t.coeff + exactMv n ts :=
  @termsMv_cons K (OrderedScalar.exact K) n t ts

@[simp] theorem exactMv_append (ts us : List (Term K)) :
    exactMv n (ts ++ us) = exactMv n ts + exactMv n us :=
  @termsMv_append K (OrderedScalar.exact K) n ts us

/-- Shifting by `m` and multiplying the coefficients by `c` is a product. -/
theorem Shifted.exactMv_eq {f : K → K} (h : Shifted m f ts us) (ha : OfArity n ts) {c : K}
    (hf : ∀ x, f x = c * x) :
    exactMv n us = MvPolynomial.monomial (m.exps n) c * exactMv n ts :=
  @Shifted.termsMv_eq K (OrderedScalar.exact K) n ts us m f h ha c hf

/-- A monomial with a coefficient in the sum occurs. -/
theorem exists_of_coeff_exactMv_ne_zero {e : Fin n →₀ ℕ} (h : (exactMv n ts).coeff e ≠ 0) :
    ∃ t ∈ ts, t.monomial.exps n = e :=
  @exists_of_coeff_termsMv_ne_zero K (OrderedScalar.exact K) n ts e h

/-- No other term has the monomial, so its coefficient is the one in the sum. -/
theorem coeff_exactMv_of_mem (ha : OfArity n ts) (hd : Descending o ts) (ht : t ∈ ts) :
    (exactMv n ts).coeff (t.monomial.exps n) = t.coeff :=
  @coeff_termsMv_of_mem K (OrderedScalar.exact K) n o ts t ha hd ht

/-- In a descending list the coefficients of algebra are those that can be looked up. -/
theorem coeff_exactMv (ha : OfArity n ts) (hd : Descending o ts) (hm : m.arity = n) :
    (exactMv n ts).coeff (m.exps n) = (coeffAt ts m).getD 0 := by
  cases hc : coeffAt ts m with
  | some c =>
    have ht : (⟨m, c⟩ : Term K) ∈ ts := (mem_iff_coeffAt ha hd).mpr hc
    have hcoeff := coeff_exactMv_of_mem ha hd ht
    rwa [Option.getD_some]
  | none =>
    rw [Option.getD_none]
    by_contra hne
    obtain ⟨t, ht, he⟩ := exists_of_coeff_exactMv_ne_zero hne
    exact coeffAt_eq_none_iff.mp hc t ht (Monomial.eq_of_exps_eq (ha t ht) hm he)

/-- A vector that no monomial of the program has does not occur in any list. -/
theorem exists_exps_or_coeff_eq_zero (K : Type) [OrderedScalar K] (e : Fin n →₀ ℕ) :
    (∃ m : Monomial, m.arity = n ∧ m.exps n = e) ∨
      ∀ ts : List (Term K), OfArity n ts → (exactMv n ts).coeff e = 0 := by
  refine or_iff_not_imp_left.mpr fun he ts hts => ?_
  by_contra hne
  obtain ⟨t, ht, hte⟩ := exists_of_coeff_exactMv_ne_zero hne
  exact he ⟨t.monomial, hts t ht, hte⟩

/-- Sums of lists are equal if they agree at the monomials of the program; they have no others. -/
theorem exactMv_add_ext (hts : OfArity n ts) (hus : OfArity n us) (has : OfArity n as)
    (hbs : OfArity n bs)
    (h : ∀ m : Monomial, m.arity = n →
      (exactMv n ts + exactMv n us).coeff (m.exps n) =
        (exactMv n as + exactMv n bs).coeff (m.exps n)) :
    exactMv n ts + exactMv n us = exactMv n as + exactMv n bs := by
  ext e
  rcases exists_exps_or_coeff_eq_zero K e with ⟨m, hm, rfl⟩ | hzero
  · exact h m hm
  · rw [MvPolynomial.coeff_add, MvPolynomial.coeff_add, hzero ts hts, hzero us hus, hzero as has,
      hzero bs hbs]

/-- A polynomial of algebra has one descending list of nonzero terms. -/
theorem eq_of_exactMv_eq (hat : OfArity n ts) (hdt : Descending o ts) (hnt : ∀ t ∈ ts, t.coeff ≠ 0)
    (hau : OfArity n us) (hdu : Descending o us) (hnu : ∀ u ∈ us, u.coeff ≠ 0)
    (h : exactMv n ts = exactMv n us) : ts = us :=
  @eq_of_termsMv_eq K (OrderedScalar.exact K) n o ts us hat hdt hnt hau hdu hnu h

end Reading

/-! ## What a merge leaves out -/

namespace Polynomial

variable {K : Type} {n : ℕ} {o : TermOrder} {ε : K} {as bs : List (Term K)} {m : Monomial}

/-- A coefficient of the left list, if there is one, and one of the right list together. -/
def joinCoeff [Scalar K] (a? : Option K) (b : K) : K :=
  match a? with
  | some a => a + b
  | none => b

/-- What a merge tests: the terms of `bs`, with the coefficients of `as` added. A term that only
`as` has is not tested. -/
def mergeSums [Scalar K] (as bs : List (Term K)) : List (Term K) :=
  bs.map fun b => ⟨b.monomial, joinCoeff (coeffAt as b.monomial) b.coeff⟩

/-- The terms that a merge of `as` and `bs` leaves out. -/
def mergeDrops [Scalar K] (ε : K) (as bs : List (Term K)) : List (Term K) :=
  (mergeSums as bs).filter fun t => !Scalar.significant ε t.coeff

section Shape

variable [Scalar K]

theorem ofArity_mergeSums (hb : OfArity n bs) : OfArity n (mergeSums as bs) :=
  List.forall_mem_map.mpr hb

/-- The sums stand at the monomials of the right list. -/
theorem descending_mergeSums (hb : Descending o bs) : Descending o (mergeSums as bs) :=
  List.pairwise_map.mpr hb

theorem ofArity_mergeDrops (hb : OfArity n bs) : OfArity n (mergeDrops ε as bs) :=
  (ofArity_mergeSums hb).sublist List.filter_sublist

/-- The terms that are dropped stand at monomials of the right list. -/
theorem descending_mergeDrops (hb : Descending o bs) : Descending o (mergeDrops ε as bs) :=
  (descending_mergeSums hb).sublist List.filter_sublist

/-- A monomial of the right list has the sum of both coefficients. -/
theorem coeffAt_mergeSums (m : Monomial) :
    coeffAt (mergeSums as bs) m = (coeffAt bs m).map (joinCoeff (coeffAt as m)) := by
  induction bs with
  | nil => rfl
  | cons b bs ih =>
    show coeffAt (⟨b.monomial, joinCoeff (coeffAt as b.monomial) b.coeff⟩ :: mergeSums as bs) m = _
    rw [coeffAt_cons, coeffAt_cons, ih]
    by_cases hbm : b.monomial = m
    · rw [if_pos hbm, if_pos hbm, Option.map_some, hbm]
    · rw [if_neg hbm, if_neg hbm]

/-- What a merge leaves out at a monomial. -/
theorem coeffAt_mergeDrops (ha : OfArity n bs) (hd : Descending o bs) (m : Monomial) :
    coeffAt (mergeDrops ε as bs) m =
      ((coeffAt bs m).map (joinCoeff (coeffAt as m))).filter fun c => !Scalar.significant ε c := by
  rw [← coeffAt_mergeSums]
  exact coeffAt_filter (fun c => !Scalar.significant ε c) (ofArity_mergeSums ha)
    (descending_mergeSums hd) m

end Shape

variable [OrderedScalar K]

/-- Nothing significant is left out. -/
theorem abs_lt_of_mem_mergeDrops {t : Term K} (h : t ∈ mergeDrops ε as bs) : |t.coeff| < ε := by
  have hnot := (List.mem_filter.mp h).2
  rw [Bool.not_eq_true'] at hnot
  exact Scalar.significant_eq_false_iff.mp hnot

/-- What stays and what is left out of two coefficients add up to their sum. -/
theorem mergeCoeff_add_dropped (ε : K) (a? b? : Option K) :
    (mergeCoeff ε a? b?).getD 0 +
        ((b?.map (joinCoeff a?)).filter fun c => !Scalar.significant ε c).getD 0 =
      a?.getD 0 + b?.getD 0 := by
  cases b? with
  | none =>
    rw [mergeCoeff_none_right]
    rfl
  | some b =>
    rw [Option.map_some, Option.filter_some]
    cases a? with
    | none =>
      rw [mergeCoeff_none_left, Option.filter_some, joinCoeff]
      cases Scalar.significant ε b with
      | true => simp
      | false => simp
    | some a =>
      rw [mergeCoeff, Option.filter_some, joinCoeff]
      cases Scalar.significant ε (a + b) with
      | true => simp
      | false => simp

/-- A merge and what it leaves out are the sum of the two lists. -/
theorem exactMv_merge (haa : OfArity n as) (hab : OfArity n bs) (hda : Descending o as)
    (hdb : Descending o bs) :
    exactMv n (merge o ε as bs) + exactMv n (mergeDrops ε as bs) =
      exactMv n as + exactMv n bs := by
  apply exactMv_add_ext (ofArity_merge haa hab) (ofArity_mergeDrops hab) haa hab
  intro m hm
  rw [MvPolynomial.coeff_add, MvPolynomial.coeff_add,
    coeff_exactMv (ofArity_merge haa hab) (descending_merge as bs haa hab hda hdb) hm,
    coeff_exactMv (ofArity_mergeDrops hab) (descending_mergeDrops hdb) hm,
    coeff_exactMv haa hda hm, coeff_exactMv hab hdb hm, coeffAt_merge m as bs haa hab hda hdb,
    coeffAt_mergeDrops hab hdb]
  exact mergeCoeff_add_dropped ε (coeffAt as m) (coeffAt bs m)

/-- At each monomial a merge leaves out one coefficient at most, and it is insignificant. -/
theorem abs_coeff_mergeDrops_le (hε : 0 ≤ ε) (hab : OfArity n bs) (hdb : Descending o bs)
    (e : Fin n →₀ ℕ) : |(exactMv n (mergeDrops ε as bs)).coeff e| ≤ ε := by
  by_cases hzero : (exactMv n (mergeDrops ε as bs)).coeff e = 0
  · rw [hzero, abs_zero]
    exact hε
  · obtain ⟨t, ht, rfl⟩ := exists_of_coeff_exactMv_ne_zero hzero
    rw [coeff_exactMv_of_mem (ofArity_mergeDrops hab) (descending_mergeDrops hdb) ht]
    exact (abs_lt_of_mem_mergeDrops ht).le

end Polynomial

end PolyIdeal
