import PolyIdeal.Proofs.Exact.Operations

/-!
# Evaluation over exact scalars

The value of a term is its coefficient times a product of powers, taken variable by variable, and
the value of a polynomial is the sum over its terms in order. Over a field the order of the
operations does not matter, and the value is that of the polynomial that is stood for. A point is
given by one coordinate for each variable, as the list of them.
-/

namespace PolyIdeal

variable {K : Type} [ExactScalar K] {n : ℕ} {ts : List (Term K)} {p : Polynomial K}

theorem Scalar.power_eq_pow (c : K) (e : ℕ) : Scalar.power c e = c ^ e := by
  induction e with
  | zero => exact (pow_zero c).symm
  | succ e ih =>
    have hstep : Scalar.power c (e + 1) = Scalar.power c e * c := rfl
    rw [hstep, ih, pow_succ]

namespace Polynomial

/-- Multiplying with one power after the other is multiplying with their product. -/
theorem foldl_power (xs : List (UInt32 × K)) (v : K) :
    xs.foldl (fun v (e, x) => v * Scalar.power x e.toNat) v =
      v * (xs.map fun (e, x) => x ^ e.toNat).prod := by
  induction xs generalizing v with
  | nil => exact (mul_one v).symm
  | cons ex xs ih =>
    obtain ⟨e, x⟩ := ex
    rw [List.foldl_cons, ih, List.map_cons, List.prod_cons, ← mul_assoc]
    simp only [Scalar.power_eq_pow]

/-- The powers of the coordinates, variable by variable. -/
theorem map_zip_ofFn {m : Monomial} (hm : m.arity = n) (x : Fin n → K) :
    (m.exponents.zip (List.ofFn x)).map (fun (e, x) => x ^ e.toNat) =
      List.ofFn fun i => x i ^ m.exps n i := by
  have hlen : m.exponents.length = n := hm
  refine List.ext_getElem (by simp [hlen]) fun i hi hi' => ?_
  rw [List.length_ofFn] at hi'
  rw [List.getElem_map, List.getElem_zip, List.getElem_ofFn, List.getElem_ofFn,
    Monomial.exps_apply, Monomial.exponent_eq_get (hm ▸ hi')]
  rfl

theorem termValue_ofFn {t : Term K} (ht : t.monomial.arity = n) (x : Fin n → K) :
    termValue (List.ofFn x) t = MvPolynomial.eval x (t.toMv n) := by
  rw [termValue, foldl_power, map_zip_ofFn ht, List.prod_ofFn, Term.toMv,
    MvPolynomial.eval_monomial, Finsupp.prod_fintype _ _ fun i => pow_zero (x i)]

/-- Adding up the values of the terms evaluates their sum. -/
theorem foldl_termValue (ha : OfArity n ts) (x : Fin n → K) (v : K) :
    ts.foldl (fun acc t => acc + termValue (List.ofFn x) t) v =
      v + MvPolynomial.eval x (termsMv n ts) := by
  induction ts generalizing v with
  | nil => rw [List.foldl_nil, termsMv_nil, map_zero, add_zero]
  | cons t ts ih =>
    rw [List.foldl_cons, ih ha.tail, termValue_ofFn ha.head, termsMv_cons, map_add, add_assoc]

/-- A polynomial has the value of the polynomial that it stands for. -/
theorem eval_eq_ok (harity : p.arity = n) (ha : OfArity n p.terms) (x : Fin n → K) :
    p.eval (List.ofFn x) = .ok (MvPolynomial.eval x (p.toMv n)) := by
  have hlen : p.arity = (List.ofFn x).length := harity.trans List.length_ofFn.symm
  unfold eval
  rw [bind_of_eq_ok (checkArity_eq_ok_iff.mpr hlen), pure_eq_ok_iff, foldl_termValue ha, zero_add]
  rfl

end Polynomial
end PolyIdeal
