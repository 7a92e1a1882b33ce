import PolyIdeal.Polynomial.Agreement
import PolyIdeal.Proofs.Polynomial.Coefficients

/-!
# Approximate agreement, by monomial

`approxEq` walks through two lists of terms in step. On descending lists this amounts to a
comparison of coefficients: at each monomial both polynomials have a coefficient or neither has one,
and two coefficients differ by something negligible. Nothing is asked of the coefficients.
-/

namespace PolyIdeal

variable {K : Type} {n : ℕ} {o : TermOrder} {ts us : List (Term K)} {R : K → K → Prop}

/-- Lists that are related in step have related coefficients. -/
theorem rel_coeffAt_of_forall₂
    (h : List.Forall₂ (fun t u => t.monomial = u.monomial ∧ R t.coeff u.coeff) ts us)
    (m : Monomial) : Option.Rel R (coeffAt ts m) (coeffAt us m) := by
  induction h with
  | nil => exact .none
  | @cons t u ts us hhead _ ih =>
    obtain ⟨htu, hcoeff⟩ := hhead
    rw [coeffAt_cons, coeffAt_cons, ← htu]
    split
    next => exact .some hcoeff
    next => exact ih

theorem map_const_eq_of_rel {a? b? : Option K} (h : Option.Rel R a? b?) (c : K) :
    a?.map (fun _ => c) = b?.map fun _ => c := by
  cases h with
  | some _ => rfl
  | none => rfl

/-- Descending lists with coefficients at the same monomials have the same monomials in the same
places. -/
theorem map_monomial_eq_of_rel [Zero K] (hat : OfArity n ts) (hdt : Descending o ts)
    (hau : OfArity n us) (hdu : Descending o us)
    (h : ∀ m, Option.Rel R (coeffAt ts m) (coeffAt us m)) :
    ts.map Term.monomial = us.map Term.monomial := by
  -- with all coefficients made the same the lists are equal
  let blank (ts : List (Term K)) : List (Term K) := ts.map fun t => ⟨t.monomial, 0⟩
  have hmon : ∀ ts : List (Term K), (blank ts).map Term.monomial = ts.map Term.monomial := by
    intro ts
    rw [List.map_map]
    rfl
  have hblank : blank ts = blank us := by
    refine eq_of_coeffAt_eq (List.forall_mem_map.mpr hat) (List.pairwise_map.mpr hdt)
      (List.forall_mem_map.mpr hau) (List.pairwise_map.mpr hdu) fun m => ?_
    rw [coeffAt_map (fun _ => 0), coeffAt_map (fun _ => 0)]
    exact map_const_eq_of_rel (h m) 0
  rw [← hmon ts, hblank, hmon]

/-- Descending lists with related coefficients are related in step. -/
theorem forall₂_of_rel_coeffAt [Zero K] (hat : OfArity n ts) (hdt : Descending o ts)
    (hau : OfArity n us) (hdu : Descending o us)
    (h : ∀ m, Option.Rel R (coeffAt ts m) (coeffAt us m)) :
    List.Forall₂ (fun t u => t.monomial = u.monomial ∧ R t.coeff u.coeff) ts us := by
  have hmon := map_monomial_eq_of_rel hat hdt hau hdu h
  rw [← List.forall₂_eq_eq_eq, List.forall₂_map_left_iff, List.forall₂_map_right_iff,
    List.forall₂_iff_zip] at hmon
  refine List.forall₂_iff_zip.mpr ⟨hmon.1, fun {t u} htu => ⟨hmon.2 htu, ?_⟩⟩
  obtain ⟨ht, hu⟩ := List.of_mem_zip htu
  have hrel := h t.monomial
  rw [coeffAt_of_mem hat hdt ht, hmon.2 htu, coeffAt_of_mem hau hdu hu] at hrel
  cases hrel with
  | some hcoeff => exact hcoeff

namespace Polynomial

variable [Scalar K] {p q : Polynomial K}

theorem approxEq_iff_forall₂ : p.approxEq q = true ↔ p.order = q.order ∧
    List.Forall₂ (fun t u => t.monomial = u.monomial ∧
      Scalar.negligible p.epsilon (t.coeff - u.coeff) = true) p.terms q.terms := by
  -- one walk through both lists instead of two
  have hzip : ∀ ts us : List (Term K),
      (ts.map Term.monomial = us.map Term.monomial ∧ ((ts.zip us).all fun x =>
        Scalar.negligible p.epsilon (x.1.coeff - x.2.coeff)) = true) ↔
      List.Forall₂ (fun t u => t.monomial = u.monomial ∧
        Scalar.negligible p.epsilon (t.coeff - u.coeff) = true) ts us := by
    intro ts
    induction ts with
    | nil =>
      intro us
      cases us with
      | nil => simp
      | cons u us => simp
    | cons t ts ih =>
      intro us
      cases us with
      | nil => simp
      | cons u us =>
        rw [List.forall₂_cons, ← ih us, List.map_cons, List.map_cons, List.cons_eq_cons,
          List.zip_cons_cons, List.all_cons, Bool.and_eq_true, and_and_and_comm]
  unfold approxEq sameSupport support
  rw [Bool.and_eq_true, Bool.and_eq_true, beq_iff_eq, beq_iff_eq, and_assoc]
  exact and_congr_right fun _ => hzip p.terms q.terms

/-- Polynomials of one shape agree approximately if and only if their coefficients do, monomial by
monomial. -/
theorem Fits.approxEq_iff (hp : p.Fits n o) (hq : q.Fits n o) : p.approxEq q = true ↔
    ∀ m, Option.Rel (fun a b => Scalar.negligible p.epsilon (a - b) = true)
      (coeffAt p.terms m) (coeffAt q.terms m) := by
  rw [approxEq_iff_forall₂]
  constructor
  · exact fun h => rel_coeffAt_of_forall₂ h.2
  · intro h
    exact ⟨hp.order_eq.trans hq.order_eq.symm,
      forall₂_of_rel_coeffAt hp.ofArity hp.descending hq.ofArity hq.descending h⟩

end Polynomial
end PolyIdeal
