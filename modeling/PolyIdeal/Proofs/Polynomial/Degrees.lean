import PolyIdeal.Proofs.Polynomial.Overflow

/-!
# Degrees under a graded order

A graded order ranks by degree first, so the leading monomial has the largest degree. What a bound
on the leading degrees buys is room: monomials up to a degree of 32 bits can be ranked, and products
of two can be formed if the sum of their degrees is in range. So operations on operands of bounded
degree do not overflow, and they come with a bound for the degrees of their result.
-/

namespace PolyIdeal

variable {K : Type} {n N : ℕ} {o : TermOrder} {ts us : List (Term K)} {a b m : Monomial}

/-- A graded order does not rank a monomial above one of smaller degree. -/
theorem TermOrder.degree_le_of_rank_le (ho : o.isGraded = true) (ha : a.arity = n)
    (hb : b.arity = n) (h : o.rank n a ≤ o.rank n b) : a.degree ≤ b.degree := by
  by_contra hlt
  have hdegree : Ord.compare a.degree b.degree = .gt := Nat.compare_eq_gt.mpr (Nat.not_le.mp hlt)
  have hgt : o.cmp a b = .gt := by
    cases o with
    | lex => cases ho
    | grlex => rw [cmp, hdegree, Ordering.gt_then]
    | grevlex => rw [cmp, hdegree, Ordering.gt_then]
  exact not_le.mpr ((cmp_eq_gt_iff o ha hb).mp hgt) h

/-- A degree of 32 bits can be computed. -/
theorem TermOrder.canRank_of_degree_lt (o : TermOrder) (h : m.degree < UInt32.size) :
    o.canRank m = true := by
  have hmeasurable : m.isMeasurable = true := decide_eq_true h
  rw [canRank, hmeasurable, Bool.or_true]

/-! ## Term lists of bounded degree -/

/-- No degree is above `N`. -/
def DegreeLE (N : ℕ) (ts : List (Term K)) : Prop := ∀ t ∈ ts, t.monomial.degree ≤ N

theorem DegreeLE.mono {M : ℕ} (h : DegreeLE N ts) (hle : N ≤ M) : DegreeLE M ts :=
  fun t ht => (h t ht).trans hle

/-- Terms with degrees in range can be ranked. -/
theorem DegreeLE.rankable (h : DegreeLE N ts) (hN : N < UInt32.size) : Rankable o ts :=
  fun t ht => TermOrder.canRank_of_degree_lt o ((h t ht).trans_lt hN)

/-- Under a graded order what lies below a monomial has no larger degree. -/
theorem DegreeLE.of_below (ho : o.isGraded = true) (ha : OfArity n ts) (hm : m.arity = n)
    (h : Below o n (o.rank n m) ts) : DegreeLE m.degree ts :=
  fun t ht => TermOrder.degree_le_of_rank_le ho (ha t ht) hm (h t ht).le

/-- Room for the products with `m`. -/
theorem DegreeLE.productsFit (ha : OfArity n ts) (hm : m.arity = n) (h : DegreeLE N ts)
    (hN : N + m.degree < UInt32.size) : ProductsFit m ts := by
  intro t ht
  have hle := h t ht
  exact Monomial.exists_mul ((ha t ht).trans hm.symm) (by omega)

/-- Products with a monomial have the degrees of the terms and of the monomial added up. -/
theorem DegreeLE.shifted {f : K → K} (h : DegreeLE N ts) (hs : Shifted m f ts us) :
    DegreeLE (N + m.degree) us := by
  intro u hu
  obtain ⟨t, ht, hmul, -⟩ := hs.exists_of_mem hu
  rw [Monomial.degree_mul hmul]
  exact Nat.add_le_add_right (h t ht) _

namespace Polynomial

variable {p q r : Polynomial K} {t : Term K}

/-- The degree of a polynomial is the largest of its terms. -/
theorem degree_le_iff : p.degree ≤ N ↔ DegreeLE N p.terms := by
  unfold degree support DegreeLE
  induction p.terms with
  | nil => simp
  | cons t ts ih =>
    rw [List.map_cons, List.map_cons, List.foldr_cons, max_le_iff, ih, List.forall_mem_cons]

theorem degreeLE_degree (p : Polynomial K) : DegreeLE p.degree p.terms := degree_le_iff.mp le_rfl

/-- The leading monomial has the largest degree. -/
theorem Fits.degreeLE_lead (ho : o.isGraded = true) (hp : p.Fits n o)
    (ht : p.leadingTerm = .ok t) : DegreeLE t.monomial.degree p.terms :=
  fun u hu => TermOrder.degree_le_of_rank_le ho (hp.ofArity u hu) (hp.leadingTerm_arity ht)
    (hp.rank_le_leadingTerm ht u hu)

/-- Does not overflow, and returns nothing of a degree above `N`. -/
structure StaysWithin (N : ℕ) (x : Except Fault (Polynomial K)) : Prop where
  inRange : InRange x
  degreeLE : ∀ r, x = .ok r → DegreeLE N r.terms

theorem StaysWithin.mono {M : ℕ} {x : Except Fault (Polynomial K)} (h : StaysWithin N x)
    (hle : N ≤ M) : StaysWithin M x := ⟨h.inRange, fun r hr => (h.degreeLE r hr).mono hle⟩

theorem StaysWithin.of_eq_ok {x : Except Fault (Polynomial K)} (h : x = .ok p)
    (hp : DegreeLE N p.terms) : StaysWithin N x :=
  ⟨.of_eq_ok h, fun _ hr => Except.ok.inj (h.symm.trans hr) ▸ hp⟩

/-- A step in range, and then one that stays within the bound. -/
theorem StaysWithin.bind {α : Type} {x : Except Fault α} {f : α → Except Fault (Polynomial K)}
    (hx : InRange x) (hf : ∀ a, x = .ok a → StaysWithin N (f a)) : StaysWithin N (x >>= f) := by
  refine ⟨hx.bind fun a ha => (hf a ha).inRange, fun r hr => ?_⟩
  obtain ⟨a, ha, hr⟩ := bind_eq_ok_iff.mp hr
  exact (hf a ha).degreeLE r hr

/-- Reading the leading term computes no exponents. -/
theorem inRange_leadingTerm (p : Polynomial K) : InRange p.leadingTerm := by
  unfold leadingTerm
  cases p.terms with
  | nil => exact .of_eq_error rfl Fault.noConfusion
  | cons t ts => exact .of_eq_ok rfl

/-- A comparison of arities and orders computes no exponents. -/
theorem inRange_checkCompatible (p q : Polynomial K) : InRange (p.checkCompatible q) := by
  refine (inRange_checkArity _ _).bind fun _ _ => ?_
  split
  · exact .of_eq_ok rfl
  · exact .of_eq_error rfl Fault.noConfusion

/-! ## Operations -/

section Operations

variable [Scalar K]

/-- A merge makes no new monomials. -/
theorem degreeLE_merge {ε : K} (ht : DegreeLE N ts) (hu : DegreeLE N us) :
    DegreeLE N (merge o ε ts us) := by
  intro v hv
  obtain ⟨w, hw, hwv⟩ := exists_of_mem_merge _ _ v hv
  rw [← hwv]
  exact hw.elim (ht w) (hu w)

/-- Terms with degrees in range can be merged. -/
theorem mergeTerms_of_degreeLE {ε : K} (ht : DegreeLE N ts) (hu : DegreeLE N us)
    (hN : N < UInt32.size) : mergeTerms o ε ts us = .ok (merge o ε ts us) :=
  mergeTerms_eq_ok_iff.mpr ⟨canMerge_of_rankable (ht.rankable hN) (hu.rankable hN), rfl⟩

/-- Sums stay within a common bound. -/
theorem staysWithin_addScaled (hp : DegreeLE N p.terms) (hq : DegreeLE N q.terms)
    (hN : N < UInt32.size) (s : K) : StaysWithin N (p.addScaled q s) := by
  have hq' : DegreeLE N (q.scaledTerms s) := List.forall_mem_map.mpr hq
  refine .bind (inRange_checkCompatible p q) fun _ _ => ?_
  rw [bind_of_eq_ok (mergeTerms_of_degreeLE hp hq' hN)]
  exact .of_eq_ok rfl (degreeLE_merge hp hq')

/-- A polynomial that is lifted to a leading monomial stays within the degree of that. -/
theorem staysWithin_liftedTo (ho : o.isGraded = true) (hp : p.Fits n o) (hm : m.arity = n)
    (ht : p.leadingTerm = .ok t) (hN : m.degree < UInt32.size) :
    StaysWithin m.degree (p.liftedTo m t) := by
  refine .bind (Monomial.inRange_div _ _) fun u hu => ?_
  have hlead := hp.degreeLE_lead ho ht
  have hdegree := Monomial.degree_div_add hu
  have hua := (Monomial.arity_div hu).trans hm
  obtain ⟨-, hroom, -⟩ := yields_iff.mp (yields_mulTerm (c := Scalar.reciprocal t.coeff) hp hua)
  obtain ⟨r, hr⟩ := hroom (hlead.productsFit hp.ofArity hua (by omega))
  obtain ⟨-, us, hus, rfl⟩ := mulTerm_eq_ok_iff.mp hr
  refine .of_eq_ok hr ?_
  rw [← hdegree, Nat.add_comm]
  exact DegreeLE.shifted (fun v hv => hlead v (List.mem_filter.mp hv).1) hus

/-- S-polynomials stay within the sum of the degrees. -/
theorem staysWithin_sPolynomial (ho : o.isGraded = true) (hp : p.Fits n o) (hq : q.Fits n o)
    (hN : p.degree + q.degree < UInt32.size) :
    StaysWithin (p.degree + q.degree) (p.sPolynomial q) := by
  refine .bind (inRange_checkCompatible p q) fun _ _ => ?_
  refine .bind p.inRange_leadingTerm fun t ht => .bind q.inRange_leadingTerm fun u hu => ?_
  refine .bind (Monomial.inRange_lcm _ _) fun m hm => ?_
  have hma := (Monomial.arity_lcm hm).trans (hp.leadingTerm_arity ht)
  -- all that is formed on the way is within the degree of the least common multiple
  have hmle : m.degree ≤ p.degree + q.degree := (Monomial.degree_lcm_le hm).trans <|
    Nat.add_le_add (p.degreeLE_degree t (mem_of_leadingTerm ht))
      (q.degreeLE_degree u (mem_of_leadingTerm hu))
  have hmlt := hmle.trans_lt hN
  have hleft := staysWithin_liftedTo ho hp hma ht hmlt
  have hright := staysWithin_liftedTo ho hq hma hu hmlt
  refine .bind hleft.inRange fun left hl => .bind hright.inRange fun right hr => ?_
  exact (staysWithin_addScaled (hleft.degreeLE left hl) (hright.degreeLE right hr) hmlt _).mono hmle

end Operations
end Polynomial
end PolyIdeal
