import PolyIdeal.SPolynomial
import PolyIdeal.Proofs.Polynomial.Descending

/-!
# The shape of polynomials

`p.Fits n o` says that `p` is a polynomial in `n` variables ranked by `o`: it declares that arity
and that order, its monomials have the arity, and its terms descend. Everything a completion
handles has the shape of its basis, and each operation keeps it. Coefficients play no part.

An operation that can fail is opened by its `..._eq_ok_iff` lemma, which says what a success
consists of.
-/

namespace PolyIdeal.Polynomial

variable {K : Type} {n : ℕ} {o : TermOrder} {p q r : Polynomial K}

/-- A polynomial in `n` variables whose terms descend in the order `o`. -/
structure Fits (n : ℕ) (o : TermOrder) (p : Polynomial K) : Prop where
  arity_eq : p.arity = n
  order_eq : p.order = o
  ofArity : OfArity n p.terms
  descending : Descending o p.terms

instance (n : ℕ) (o : TermOrder) (p : Polynomial K) : Decidable (p.Fits n o) :=
  decidable_of_iff (p.arity = n ∧ p.order = o ∧ OfArity n p.terms ∧ Descending o p.terms)
    ⟨fun h => ⟨h.1, h.2.1, h.2.2.1, h.2.2.2⟩,
      fun h => ⟨h.arity_eq, h.order_eq, h.ofArity, h.descending⟩⟩

/-- Polynomials can be combined if they declare one arity and one order. -/
theorem checkCompatible_eq_ok_iff :
    p.checkCompatible q = .ok () ↔ p.arity = q.arity ∧ p.order = q.order := by
  unfold checkCompatible
  rw [bind_eq_ok_iff]
  constructor
  · rintro ⟨⟨⟩, harity, h⟩
    refine ⟨checkArity_eq_ok_iff.mp harity, ?_⟩
    split at h
    · assumption
    · cases h
  · rintro ⟨harity, horder⟩
    exact ⟨(), checkArity_eq_ok_iff.mpr harity, if_pos horder⟩

/-- The shape of a polynomial is the one it declares. -/
theorem Fits.self (hp : p.Fits n o) : p.Fits p.arity p.order := by
  obtain ⟨rfl, rfl, ha, hd⟩ := hp
  exact ⟨rfl, rfl, ha, hd⟩

/-- A polynomial has the shape of one it can be combined with. -/
theorem Fits.of_checkCompatible (hq : q.Fits q.arity q.order)
    (h : p.checkCompatible q = .ok ()) : q.Fits p.arity p.order := by
  obtain ⟨harity, horder⟩ := checkCompatible_eq_ok_iff.mp h
  rw [harity, horder]
  exact hq

theorem Fits.cleared (hp : p.Fits n o) : p.cleared.Fits n o :=
  ⟨hp.arity_eq, hp.order_eq, ofArity_nil, .nil⟩

/-- Polynomials of one shape can be combined. -/
theorem Fits.checkCompatible (hp : p.Fits n o) (hq : q.Fits n o) :
    p.checkCompatible q = .ok () :=
  checkCompatible_eq_ok_iff.mpr
    ⟨hp.arity_eq.trans hq.arity_eq.symm, hp.order_eq.trans hq.order_eq.symm⟩

/-- Polynomials of one shape are equal, thresholds aside, when their terms are. -/
theorem Fits.eq_iff_terms_eq (hp : p.Fits n o) (hq : q.Fits n o) :
    { p with epsilon := q.epsilon } = q ↔ p.terms = q.terms := by
  have harity := hp.arity_eq.trans hq.arity_eq.symm
  have horder := hp.order_eq.trans hq.order_eq.symm
  cases p
  cases q
  simp_all

/-- The leading term is the first one. -/
theorem leadingTerm_eq_ok_iff {t : Term K} :
    p.leadingTerm = .ok t ↔ ∃ ts, p.terms = t :: ts := by
  unfold leadingTerm
  cases p.terms with
  | nil => simp
  | cons u us => simp

theorem mem_of_leadingTerm {t : Term K} (h : p.leadingTerm = .ok t) : t ∈ p.terms := by
  obtain ⟨ts, hts⟩ := leadingTerm_eq_ok_iff.mp h
  exact hts ▸ List.mem_cons_self

/-- The leading monomial has an exponent for each variable. -/
theorem Fits.leadingTerm_arity (hp : p.Fits n o) {t : Term K} (h : p.leadingTerm = .ok t) :
    t.monomial.arity = n := hp.ofArity t (mem_of_leadingTerm h)

/-- The leading term bounds all terms. -/
theorem Fits.rank_le_leadingTerm (hp : p.Fits n o) {t : Term K} (h : p.leadingTerm = .ok t) :
    ∀ u ∈ p.terms, o.rank n u.monomial ≤ o.rank n t.monomial := by
  obtain ⟨ts, hts⟩ := leadingTerm_eq_ok_iff.mp h
  have harity := hp.ofArity
  have hdesc := hp.descending
  rw [hts] at harity hdesc ⊢
  exact hdesc.rank_le_head harity

/-- The leading monomial is the one of the first term. -/
theorem leadingMonomial_eq_ok_iff {m : Monomial} :
    p.leadingMonomial = .ok m ↔ ∃ t ts, p.terms = t :: ts ∧ t.monomial = m := by
  unfold leadingMonomial
  rw [bind_eq_ok_iff]
  simp only [leadingTerm_eq_ok_iff, pure_eq_ok_iff]
  constructor
  · rintro ⟨t, ⟨ts, h⟩, hm⟩
    exact ⟨t, ts, h, hm⟩
  · rintro ⟨t, ts, h, hm⟩
    exact ⟨t, ⟨ts, h⟩, hm⟩

theorem isZero_eq_false_iff : p.isZero = false ↔ ∃ t ts, p.terms = t :: ts := by
  unfold isZero
  cases p.terms with
  | nil => simp
  | cons t ts => simp

theorem isZero_of_leadingTerm {t : Term K} (h : p.leadingTerm = .ok t) : p.isZero = false := by
  obtain ⟨ts, hts⟩ := leadingTerm_eq_ok_iff.mp h
  exact isZero_eq_false_iff.mpr ⟨t, ts, hts⟩

/-- Only the zero polynomial has no leading term. -/
theorem exists_leadingTerm (h : p.isZero = false) : ∃ t, p.leadingTerm = .ok t := by
  obtain ⟨t, ts, hts⟩ := isZero_eq_false_iff.mp h
  exact ⟨t, leadingTerm_eq_ok_iff.mpr ⟨ts, hts⟩⟩

/-! ## Sums and multiples -/

section Operations

variable [Scalar K]

/-- A merge succeeds if it can rank the monomials that it compares. -/
theorem mergeTerms_eq_ok_iff {ε : K} {as bs cs : List (Term K)} :
    mergeTerms o ε as bs = .ok cs ↔ canMerge o as bs = true ∧ merge o ε as bs = cs := by
  unfold mergeTerms
  split <;> simp_all

/-- A merge does nothing but compare and add. -/
theorem overflowOnly_mergeTerms {ε : K} {as bs : List (Term K)} :
    OverflowOnly (mergeTerms o ε as bs) := by
  unfold mergeTerms
  split
  · exact .of_eq_ok rfl
  · exact .error

/-- A sum with a multiple, opened: the terms are those of a merge, cut at the left threshold. -/
theorem addScaled_eq_ok_iff {s : K} : p.addScaled q s = .ok r ↔
    p.checkCompatible q = .ok () ∧ canMerge p.order p.terms (q.scaledTerms s) = true ∧
      { p with terms := merge p.order p.epsilon p.terms (q.scaledTerms s) } = r := by
  unfold addScaled
  simp only [bind_eq_ok_iff, mergeTerms_eq_ok_iff, pure_eq_ok_iff]
  constructor
  · rintro ⟨⟨⟩, hc, _, ⟨hm, rfl⟩, h⟩
    exact ⟨hc, hm, h⟩
  · rintro ⟨hc, hm, h⟩
    exact ⟨(), hc, _, ⟨hm, rfl⟩, h⟩

/-- A sum has the threshold of the left operand. -/
theorem epsilon_addScaled {s : K} (h : p.addScaled q s = .ok r) : r.epsilon = p.epsilon := by
  obtain ⟨-, -, rfl⟩ := addScaled_eq_ok_iff.mp h
  rfl

theorem Fits.ofArity_scaledTerms (hp : p.Fits n o) (s : K) : OfArity n (p.scaledTerms s) := by
  intro t ht
  obtain ⟨u, hu, rfl⟩ := List.mem_map.mp ht
  exact hp.ofArity u hu

/-- A factor in front does not move the terms. -/
theorem Fits.descending_scaledTerms (hp : p.Fits n o) (s : K) :
    Descending o (p.scaledTerms s) :=
  List.pairwise_map.mpr hp.descending

/-- Sums have the shape of their operands. -/
theorem Fits.addScaled {s : K} (hp : p.Fits n o) (hq : q.Fits n o)
    (h : p.addScaled q s = .ok r) : r.Fits n o := by
  obtain ⟨-, -, rfl⟩ := addScaled_eq_ok_iff.mp h
  refine ⟨hp.arity_eq, hp.order_eq, ?_, ?_⟩
  · exact ofArity_merge hp.ofArity (hq.ofArity_scaledTerms s)
  · rw [hp.order_eq]
    exact descending_merge _ _ hp.ofArity (hq.ofArity_scaledTerms s) hp.descending
      (hq.descending_scaledTerms s)

/-- A sum of operands of one shape is refused only if an exponent overflows. -/
theorem overflowOnly_addScaled {s : K} (hp : p.Fits n o) (hq : q.Fits n o) :
    OverflowOnly (p.addScaled q s) := by
  unfold Polynomial.addScaled
  rw [bind_of_eq_ok (hp.checkCompatible hq)]
  exact overflowOnly_mergeTerms.bind fun _ _ => .of_eq_ok rfl

/-- Multiplying by a term keeps the terms that stay significant and shifts them. -/
theorem mulTerm_eq_ok_iff {m : Monomial} {c : K} : p.mulTerm m c = .ok r ↔
    p.arity = m.arity ∧ ∃ ts, Shifted m (· * c)
      (p.terms.filter fun t => Scalar.significant p.epsilon (t.coeff * c)) ts ∧
      { p with terms := ts } = r := by
  unfold mulTerm
  simp only [bind_eq_ok_iff, pure_eq_ok_iff]
  constructor
  · rintro ⟨⟨⟩, harity, ts, hts, h⟩
    exact ⟨checkArity_eq_ok_iff.mp harity, ts, mapM_shift_eq_ok_iff.mp hts, h⟩
  · rintro ⟨harity, ts, hts, h⟩
    exact ⟨(), checkArity_eq_ok_iff.mpr harity, ts, mapM_shift_eq_ok_iff.mpr hts, h⟩

theorem epsilon_mulTerm {m : Monomial} {c : K} (h : p.mulTerm m c = .ok r) :
    r.epsilon = p.epsilon := by
  obtain ⟨-, ts, -, rfl⟩ := mulTerm_eq_ok_iff.mp h
  rfl

/-- The terms of a product with a monomial descend as those of the polynomial do. -/
theorem Fits.mulTerm {m : Monomial} {c : K} (hp : p.Fits n o) (h : p.mulTerm m c = .ok r) :
    r.Fits n o := by
  obtain ⟨-, ts, hts, rfl⟩ := mulTerm_eq_ok_iff.mp h
  have harity := hp.ofArity.sublist (List.filter_sublist
    (p := fun t => Scalar.significant p.epsilon (t.coeff * c)))
  exact ⟨hp.arity_eq, hp.order_eq, hts.ofArity harity,
    hts.descending harity (hp.descending.sublist List.filter_sublist)⟩

/-- A product with a term of the right arity is refused only if an exponent overflows. -/
theorem overflowOnly_mulTerm {m : Monomial} {c : K} (hp : p.Fits n o) (hm : m.arity = n) :
    OverflowOnly (p.mulTerm m c) := by
  unfold Polynomial.mulTerm
  rw [bind_of_eq_ok (checkArity_eq_ok_iff.mpr (hp.arity_eq.trans hm.symm))]
  refine OverflowOnly.bind ?_ fun _ _ => .of_eq_ok rfl
  exact overflowOnly_mapM_shift (f := (· * c)) (hp.ofArity.sublist List.filter_sublist) hm

/-- Multiples have the shape of the polynomial. -/
theorem Fits.scale (hp : p.Fits n o) (s : K) : (p.scale s).Fits n o := by
  have hsub := keepSignificant_sublist p.epsilon (p.scaledTerms s)
  exact ⟨hp.arity_eq, hp.order_eq, (hp.ofArity_scaledTerms s).sublist hsub,
    (hp.descending_scaledTerms s).sublist hsub⟩

/-- The product of polynomials is a sum of multiples by terms, which may be any. -/
theorem mul_eq_ok_iff : p.mul q = .ok r ↔ p.checkCompatible q = .ok () ∧
    q.terms.foldlM (fun acc t => do acc.addScaled (← p.mulTerm t.monomial t.coeff) 1)
      p.cleared = .ok r := by
  unfold mul
  rw [bind_eq_ok_iff]
  exact ⟨fun ⟨⟨⟩, h⟩ => h, fun h => ⟨(), h⟩⟩

/-- Products have the shape of the left operand. -/
theorem Fits.mul (hp : p.Fits n o) (h : p.mul q = .ok r) : r.Fits n o := by
  refine foldlM_invariant (P := Fits n o) (fun acc next t _ hacc hnext => ?_)
    hp.cleared (mul_eq_ok_iff.mp h).2
  obtain ⟨shifted, hshifted, hnext⟩ := bind_eq_ok_iff.mp hnext
  exact hacc.addScaled (hp.mulTerm hshifted) hnext

/-! ## S-polynomials -/

/-- Lifting divides the monomials, then multiplies by the quotient and the inverse of the leading
coefficient. -/
theorem liftedTo_eq_ok_iff {m : Monomial} {lead : Term K} : p.liftedTo m lead = .ok r ↔
    ∃ u, m.div lead.monomial = .ok u ∧ p.mulTerm u (Scalar.reciprocal lead.coeff) = .ok r := by
  rw [liftedTo, bind_eq_ok_iff]

/-- An S-polynomial is the difference of the operands, lifted to the least common multiple of
their leading monomials. -/
theorem sPolynomial_eq_ok_iff : p.sPolynomial q = .ok r ↔
    p.checkCompatible q = .ok () ∧
      ∃ t, p.leadingTerm = .ok t ∧ ∃ u, q.leadingTerm = .ok u ∧
        ∃ m, t.monomial.lcm u.monomial = .ok m ∧ ∃ left, p.liftedTo m t = .ok left ∧
          ∃ right, q.liftedTo m u = .ok right ∧ left.addScaled right (-1) = .ok r := by
  unfold sPolynomial
  simp only [bind_eq_ok_iff]
  exact ⟨fun ⟨⟨⟩, h⟩ => h, fun h => ⟨(), h⟩⟩

theorem Fits.liftedTo {m : Monomial} {lead : Term K} (hp : p.Fits n o)
    (h : p.liftedTo m lead = .ok r) : r.Fits n o := by
  obtain ⟨_, -, h⟩ := liftedTo_eq_ok_iff.mp h
  exact hp.mulTerm h

/-- S-polynomials have the shape of their operands. -/
theorem Fits.sPolynomial (hp : p.Fits n o) (hq : q.Fits n o) (h : p.sPolynomial q = .ok r) :
    r.Fits n o := by
  obtain ⟨-, _, -, _, -, _, -, left, hleft, right, hright, h⟩ := sPolynomial_eq_ok_iff.mp h
  exact (hp.liftedTo hleft).addScaled (hq.liftedTo hright) h

/-- Lifting to a multiple of the leading monomial is refused only if an exponent overflows. -/
theorem overflowOnly_liftedTo {m : Monomial} {lead : Term K} (hp : p.Fits n o)
    (hm : m.arity = n) (hdvd : lead.monomial.divides m = true) :
    OverflowOnly (p.liftedTo m lead) := by
  have hdiv := Monomial.div_eq_ok_iff.mpr ⟨hdvd, rfl⟩
  unfold Polynomial.liftedTo
  rw [bind_of_eq_ok hdiv]
  exact overflowOnly_mulTerm hp ((Monomial.arity_div hdiv).trans hm)

/-- Two nonzero polynomials of one shape have an S-polynomial, unless an exponent overflows. -/
theorem overflowOnly_sPolynomial (hp : p.Fits n o) (hq : q.Fits n o) (hp0 : p.isZero = false)
    (hq0 : q.isZero = false) : OverflowOnly (p.sPolynomial q) := by
  obtain ⟨t, ht⟩ := exists_leadingTerm hp0
  obtain ⟨u, hu⟩ := exists_leadingTerm hq0
  have hta := hp.leadingTerm_arity ht
  have hua := hq.leadingTerm_arity hu
  have hlcm := Monomial.lcm_eq_ok_iff.mpr ⟨hta.trans hua.symm, rfl⟩
  have hma := (Monomial.arity_lcm hlcm).trans hta
  unfold Polynomial.sPolynomial
  rw [bind_of_eq_ok (hp.checkCompatible hq), bind_of_eq_ok ht, bind_of_eq_ok hu,
    bind_of_eq_ok hlcm]
  refine OverflowOnly.bind ?_ fun left hleft => OverflowOnly.bind ?_ fun right hright => ?_
  · refine overflowOnly_liftedTo hp hma ((Monomial.divides_iff hta hma).mpr ?_)
    rw [Monomial.exps_lcm hta hlcm]
    exact le_sup_left
  · refine overflowOnly_liftedTo hq hma ((Monomial.divides_iff hua hma).mpr ?_)
    rw [Monomial.exps_lcm hta hlcm]
    exact le_sup_right
  · exact overflowOnly_addScaled (hp.liftedTo hleft) (hq.liftedTo hright)

/-! ## Monic polynomials -/

/-- Making a polynomial monic, opened: the leading coefficient becomes 1, and the others are divided
by what it was and cut. -/
theorem monic_eq_ok_iff : p.monic = .ok r ↔ ∃ t ts, p.terms = t :: ts ∧
    { p with terms := ⟨t.monomial, 1⟩ ::
      keepSignificant p.epsilon (ts.map fun u => ⟨u.monomial, u.coeff / t.coeff⟩) } = r := by
  unfold monic
  cases p.terms with
  | nil => simp
  | cons t ts => simp

theorem epsilon_monic (h : p.monic = .ok r) : r.epsilon = p.epsilon := by
  obtain ⟨t, ts, -, rfl⟩ := monic_eq_ok_iff.mp h
  rfl

/-- A monic polynomial leads with the same monomial and the coefficient 1. -/
theorem leadingTerm_monic {t : Term K} (ht : p.leadingTerm = .ok t) (h : p.monic = .ok r) :
    r.leadingTerm = .ok ⟨t.monomial, 1⟩ := by
  obtain ⟨ts, hts⟩ := leadingTerm_eq_ok_iff.mp ht
  obtain ⟨u, us, hus, rfl⟩ := monic_eq_ok_iff.mp h
  rw [hts] at hus
  obtain ⟨rfl, -⟩ := List.cons.inj hus
  exact leadingTerm_eq_ok_iff.mpr ⟨_, rfl⟩

theorem Fits.monic (hp : p.Fits n o) (h : p.monic = .ok r) : r.Fits n o := by
  obtain ⟨t, ts, hts, rfl⟩ := monic_eq_ok_iff.mp h
  have harity := hp.ofArity
  have hdesc := hp.descending
  rw [hts] at harity hdesc
  -- the normalized list before small terms are left out
  have hall : Descending o
      (⟨t.monomial, 1⟩ :: ts.map fun u => (⟨u.monomial, u.coeff / t.coeff⟩ : Term K)) :=
    List.pairwise_cons.mpr ⟨List.forall_mem_map.mpr (List.pairwise_cons.mp hdesc).1,
      List.pairwise_map.mpr hdesc.tail⟩
  have hsub := (keepSignificant_sublist p.epsilon
    (ts.map fun u => (⟨u.monomial, u.coeff / t.coeff⟩ : Term K))).cons_cons ⟨t.monomial, 1⟩
  refine ⟨hp.arity_eq, hp.order_eq, OfArity.sublist ?_ hsub, hall.sublist hsub⟩
  exact List.forall_mem_cons.mpr ⟨harity.head, List.forall_mem_map.mpr harity.tail⟩

end Operations

end PolyIdeal.Polynomial
