import PolyIdeal.Proofs.Exact.Division
import PolyIdeal.Proofs.Polynomial.Obtained

/-!
# The ring operations over exact scalars

What construction, scaling, products and the addition of a single term do to the polynomial that is
stood for. The product is a fold, and its equation is one of the accumulated sum; adding a term
replaces one term of the list, so its equation is about permutations.

All operations keep zero coefficients out, and quotients have none either. So over exact scalars
whatever is obtained is `Proper`.
-/

namespace PolyIdeal

variable {K : Type} [ExactScalar K] {n : ℕ} {o : TermOrder} {p q r : Polynomial K}
  {ts : List (Term K)} {t u : Term K} {m : Monomial} {c : K} {i : ℕ}

/-! ## Replacing one term -/

/-- A sum without one of its terms. -/
theorem termsMv_eraseIdx (h : ts[i]? = some t) :
    termsMv n ts = t.toMv n + termsMv n (ts.eraseIdx i) := by
  obtain ⟨hi, rfl⟩ := List.getElem?_eq_some_iff.mp h
  rw [← termsMv_cons]
  exact (termsMv_perm (List.getElem_cons_eraseIdx_perm hi)).symm

/-- A sum in which one term is exchanged. -/
theorem termsMv_set (hi : i < ts.length) (u : Term K) :
    termsMv n (ts.set i u) = u.toMv n + termsMv n (ts.eraseIdx i) := by
  rw [← termsMv_cons]
  exact termsMv_perm (List.set_perm_cons_eraseIdx hi u)

/-- A sum with one more term, wherever it is put. -/
theorem termsMv_insertIdx (hi : i ≤ ts.length) (u : Term K) :
    termsMv n (ts.insertIdx i u) = u.toMv n + termsMv n ts := by
  rw [← termsMv_cons]
  exact termsMv_perm (List.perm_insertIdx u ts hi)

namespace Polynomial

/-! ## Construction -/

/-- Terms in any order and with repetitions are added up. -/
theorem toMv_ofTerms (h : ofTerms ts n o = .ok r) : r.toMv n = termsMv n ts := by
  obtain ⟨-, us, hus, rfl⟩ := ofTerms_eq_ok_iff.mp h
  exact termsMv_normalTerms hus

/-- Terms in any order and with repetitions come out in normal form. -/
theorem proper_ofTerms (h : ofTerms ts n o = .ok r) : r.Proper n o := by
  refine ⟨fits_ofTerms h, ?_⟩
  obtain ⟨-, us, hus, rfl⟩ := ofTerms_eq_ok_iff.mp h
  rw [normalTerms_eq_ok hus]
  exact nonzero_keepSignificant _ _

/-- A single term, which is dropped only if its coefficient is zero. -/
theorem toMv_ofTerm (m : Monomial) (c : K) (o : TermOrder) :
    (ofTerm m c o).toMv n = MvPolynomial.monomial (m.exps n) c := by
  rw [toMv, ofTerm, termsMv_keepSignificant, termsMv_cons, termsMv_nil, add_zero]
  rfl

theorem proper_ofTerm (m : Monomial) (c : K) (o : TermOrder) :
    (ofTerm m c o).Proper m.arity o := ⟨fits_ofTerm m c o, nonzero_keepSignificant _ _⟩

theorem proper_const (c : K) (n : ℕ) (o : TermOrder) : (const c n o).Proper n o := by
  have h := proper_ofTerm (.one n) c o
  rwa [Monomial.arity_one] at h

theorem toMv_const (c : K) (o : TermOrder) : (const c n o).toMv n = MvPolynomial.C c := by
  rw [const, toMv_ofTerm, Monomial.exps_one]
  rfl

/-! ## Sums and products -/

/-- Scaling drops nothing but zeros, so it multiplies by the scalar. -/
theorem toMv_scale (p : Polynomial K) (s : K) :
    (p.scale s).toMv n = MvPolynomial.C s * p.toMv n := by
  rw [← termsMv_scaledTerms]
  exact termsMv_keepSignificant p.epsilon (p.scaledTerms s)

theorem Proper.scale (hp : p.Fits n o) (s : K) : (p.scale s).Proper n o :=
  ⟨hp.scale s, nonzero_keepSignificant _ _⟩

/-- Multiples by the terms of a list add up to the product with the list. -/
theorem toMv_foldlM_mulTerm {us : List (Term K)} {acc : Polynomial K} (hp : p.Fits n o)
    (hacc : acc.Fits n o) (h : us.foldlM
      (fun acc t => do acc.addScaled (← p.mulTerm t.monomial t.coeff) 1) acc = .ok r) :
    r.toMv n = acc.toMv n + p.toMv n * termsMv n us := by
  induction us generalizing acc with
  | nil =>
    obtain rfl := Except.ok.inj h
    rw [termsMv_nil, mul_zero, add_zero]
  | cons u us ih =>
    rw [List.foldlM_cons] at h
    obtain ⟨next, hnext, h⟩ := bind_eq_ok_iff.mp h
    obtain ⟨shifted, hshifted, hnext⟩ := bind_eq_ok_iff.mp hnext
    have hs := hp.mulTerm hshifted
    have hmul : MvPolynomial.monomial (u.monomial.exps n) u.coeff * p.toMv n =
        p.toMv n * u.toMv n := mul_comm _ _
    rw [ih (hacc.addScaled hs hnext) h, toMv_addScaled hacc hs hnext, toMv_mulTerm hp hshifted,
      hmul, MvPolynomial.C_1, one_mul, termsMv_cons, mul_add, ← add_assoc]

/-- The product of two polynomials is the one of the polynomial ring. -/
theorem toMv_mul (hp : p.Fits n o) (h : p.mul q = .ok r) :
    r.toMv n = p.toMv n * q.toMv n := by
  have hcleared : p.cleared.toMv n = 0 := rfl
  have hr := toMv_foldlM_mulTerm hp hp.cleared (mul_eq_ok_iff.mp h).2
  rwa [hcleared, zero_add] at hr

/-- The product of two polynomials is in normal form. -/
theorem Proper.mul (hp : p.Fits n o) (h : p.mul q = .ok r) : r.Proper n o := by
  refine foldlM_invariant (P := Proper n o) (fun acc next t _ hacc hnext => ?_)
    ⟨hp.cleared, fun _ ht => absurd ht List.not_mem_nil⟩ (mul_eq_ok_iff.mp h).2
  obtain ⟨shifted, hshifted, hnext⟩ := bind_eq_ok_iff.mp hnext
  exact hacc.addScaled (hp.mulTerm hshifted) hnext

/-! ## Adding a term -/

/-- Adjusting the coefficient of a monomial adds to it, also when nothing of the term is left. -/
theorem termsMv_adjustAt (ε : K) (h : ts[i]? = some t) :
    termsMv n (adjustAt ε ts i c) =
      termsMv n ts + MvPolynomial.monomial (t.monomial.exps n) c := by
  have hsum : MvPolynomial.monomial (t.monomial.exps n) (t.coeff + c) =
      t.toMv n + MvPolynomial.monomial (t.monomial.exps n) c :=
    (MvPolynomial.monomial _).map_add _ _
  have hi := (List.getElem?_eq_some_iff.mp h).1
  rw [adjustAt, h, termsMv_eraseIdx h]
  simp only
  split
  next hzero =>
    rw [Scalar.negligible_iff.mp hzero, MvPolynomial.monomial_zero] at hsum
    rw [add_right_comm, ← hsum, zero_add]
  next =>
    rw [termsMv_set hi, Term.toMv, hsum, add_right_comm]

/-- A coefficient that becomes zero leaves with its term. -/
theorem nonzero_adjustAt (ε : K) (h : Nonzero ts) (i : ℕ) (c : K) :
    Nonzero (adjustAt ε ts i c) := by
  unfold adjustAt
  cases ts[i]? with
  | none => exact h
  | some t =>
    simp only
    split
    next => exact h.sublist (List.eraseIdx_sublist ts i)
    next hsum =>
      intro u hu
      rcases List.mem_or_eq_of_mem_set hu with hu | rfl
      · exact h u hu
      · exact fun hzero => hsum (Scalar.negligible_iff.mpr hzero)

/-- Adding a term in place adds it: where its monomial stands already the coefficients are added,
and elsewhere it is put in. -/
theorem toMv_addTerm (hp : p.Fits n o) (h : p.addTerm m c = .ok r) :
    r.toMv n = p.toMv n + MvPolynomial.monomial (m.exps n) c := by
  obtain ⟨harity, hcase⟩ := addTerm_eq_ok_iff.mp h
  have hm : m.arity = n := harity.symm.trans hp.arity_eq
  rw [hp.order_eq] at hcase
  rcases hcase with ⟨i, hs, rfl⟩ | ⟨i, hs, rfl⟩
  · obtain ⟨t, ht, rfl⟩ := holds_of_locate hp.ofArity hp.descending hm hs
    exact termsMv_adjustAt p.epsilon ht
  · have hi := (holds_of_locate hp.ofArity hp.descending hm hs).1
    split
    next => exact (termsMv_insertIdx hi _).trans (add_comm _ _)
    next hc =>
      rw [Scalar.significant_iff, not_not] at hc
      rw [hc, MvPolynomial.monomial_zero, add_zero]

/-- A term added in place leaves a polynomial in normal form. -/
theorem Proper.addTerm (hp : p.Proper n o) (h : p.addTerm m c = .ok r) : r.Proper n o := by
  refine ⟨hp.toFits.addTerm h, ?_⟩
  obtain ⟨-, ⟨i, -, rfl⟩ | ⟨i, -, rfl⟩⟩ := addTerm_eq_ok_iff.mp h
  · exact nonzero_adjustAt p.epsilon hp.nonzero i c
  · split
    next hc =>
      intro t ht
      rcases List.eq_or_mem_of_mem_insertIdx ht with rfl | ht
      · exact Scalar.significant_iff.mp hc
      · exact hp.nonzero t ht
    next => exact hp.nonzero

/-! ## Whatever is obtained -/

/-- A quotient has no zero coefficients: what is left has none, and no divisor leads with one. -/
theorem Proper.quotients {D : List (Polynomial K)} {d : Division K} (hp : p.Proper n o)
    (hD : ∀ f ∈ D, f.Proper n o) (h : p.divide D = .ok d) : ∀ q ∈ d.quotients, q.Proper n o := by
  have hnonzero : ∀ q ∈ d.quotients, Nonzero q.terms := by
    refine (PartialDivision.run_invariant (P := fun s => Nonzero s.rest ∧
      ∀ q ∈ s.result.quotients, Nonzero q.terms) (fun t rest known s hs hround => ?_)
      ⟨hp.nonzero, fun q hq => ?_⟩ (divide_eq_ok_iff.mp h).2).2
    · obtain ⟨hrest, hquotients⟩ := hs
      cases hround with
      | retired => exact ⟨hrest.tail, hquotients⟩
      | @cancelled i f q q' lead m tail hfirst hf hq hlead hdiv htail hmerge hpush =>
        refine ⟨nonzero_merge _ _ hrest.tail, fun q'' hq'' => ?_⟩
        rcases List.mem_or_eq_of_mem_set hq'' with hq'' | rfl
        · exact hquotients q'' hq''
        · obtain ⟨-, rfl⟩ := pushTrailing_eq_ok_iff.mp hpush
          refine List.forall_mem_append.mpr ⟨hquotients q (List.mem_of_getElem? hq), ?_⟩
          refine List.forall_mem_singleton.mpr (div_ne_zero (hrest t List.mem_cons_self) ?_)
          exact (hD f (List.mem_of_getElem? hf)).coeff_ne_zero hlead
    · rw [List.eq_of_mem_replicate hq]
      exact fun _ ht => absurd ht List.not_mem_nil
  exact fun q hq => ⟨hp.toFits.quotients (fun f hf => (hD f hf).toFits) h q hq, hnonzero q hq⟩

theorem Proper.self (hp : p.Proper n o) : p.Proper p.arity p.order :=
  ⟨hp.toFits.self, hp.nonzero⟩

theorem Proper.of_checkCompatible (hq : q.Proper q.arity q.order)
    (h : p.checkCompatible q = .ok ()) : q.Proper p.arity p.order :=
  ⟨hq.toFits.of_checkCompatible h, hq.nonzero⟩

theorem Proper.withEpsilon (hp : p.Fits n o) (ε : K) : (p.withEpsilon ε).Proper n o :=
  ⟨hp.withEpsilon ε, nonzero_keepSignificant _ _⟩

/-- Over exact scalars no zero coefficient is ever stored. -/
theorem Obtained.proper {quotients : Bool} (hp : p.Obtained quotients) :
    p.Proper p.arity p.order := by
  induction hp with
  | ofTerms h => exact (proper_ofTerms h).self
  | zero n o => exact ⟨fits_zero n o, fun _ ht => absurd ht List.not_mem_nil⟩
  | ofTerm m c o => exact proper_ofTerm m c o
  | const c n o => exact (proper_const c n o).self
  | ofVariable h =>
    obtain ⟨m, -, h⟩ := bind_eq_ok_iff.mp h
    rw [← pure_eq_ok_iff.mp h]
    exact (proper_ofTerm m 1 _).self
  | withEpsilon _ ε ih => exact Proper.withEpsilon ih.toFits ε
  | reorder _ h ih => exact (proper_reorder rfl ih.ofArity h).self
  | addTerm _ h ih => exact (ih.addTerm h).self
  | addScaled _ _ h ihp ihq =>
    exact (ihp.addScaled (ihq.of_checkCompatible (addScaled_eq_ok_iff.mp h).1).toFits h).self
  | add _ _ h ihp ihq =>
    exact (ihp.addScaled (ihq.of_checkCompatible (addScaled_eq_ok_iff.mp h).1).toFits h).self
  | sub _ _ h ihp ihq =>
    exact (ihp.addScaled (ihq.of_checkCompatible (addScaled_eq_ok_iff.mp h).1).toFits h).self
  | neg _ ih => exact Proper.scale ih.toFits (-1)
  | scale _ s ih => exact Proper.scale ih.toFits s
  | mulTerm _ h ih => exact (Proper.mulTerm ih.toFits h).self
  | mul _ _ h ihp _ => exact (Proper.mul ihp.toFits h).self
  | monic _ h ih => exact (Proper.monic ih.toFits h).self
  | quotient _ _ _ h hq ihp ihD =>
    have hD := fun f hf => (ihD f hf).of_checkCompatible ((divide_eq_ok_iff.mp h).1 f hf)
    exact (ihp.quotients hD h _ hq).self
  | remainder _ _ h ihp ihD =>
    have hD := fun f hf => ((ihD f hf).of_checkCompatible ((divide_eq_ok_iff.mp h).1 f hf)).toFits
    exact (ihp.remainder hD (remainder_eq_ok_iff.mpr ⟨_, h, rfl⟩)).self
  | sPolynomial _ _ h ihp ihq =>
    have hq := (ihq.of_checkCompatible (sPolynomial_eq_ok_iff.mp h).1).toFits
    exact (Proper.sPolynomial ihp.toFits hq h).self

end Polynomial
end PolyIdeal
