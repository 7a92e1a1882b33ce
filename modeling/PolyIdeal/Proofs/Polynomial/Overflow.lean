import PolyIdeal.Proofs.Fault.Room
import PolyIdeal.Proofs.Polynomial.Lookup
import PolyIdeal.Proofs.Polynomial.NormalForm

/-!
# Where exponents overflow

An operation on polynomials of one shape fails for one reason only: an exponent of a product, or a
degree that a graded order has to compute, does not fit a word. For each operation the room that it
needs is stated as a property of its operands. Comparisons need monomials that the order can rank
(`Rankable`), and a multiple needs products that fit (`ProductsFit`). A product of polynomials needs
both, since the multiples are added up.

With room the operation returns a polynomial of the shape. No law of the coefficients is used.
-/

namespace PolyIdeal

variable {K : Type} {n : ℕ} {o : TermOrder} {ts us : List (Term K)} {m : Monomial}

/-- The order can rank every monomial. -/
def Rankable (o : TermOrder) (ts : List (Term K)) : Prop :=
  ∀ t ∈ ts, o.canRank t.monomial = true

instance (o : TermOrder) (ts : List (Term K)) : Decidable (Rankable o ts) :=
  inferInstanceAs (Decidable (∀ t ∈ ts, o.canRank t.monomial = true))

/-- Every product with `m` fits. -/
def ProductsFit (m : Monomial) (ts : List (Term K)) : Prop :=
  ∀ t ∈ ts, ∃ x, t.monomial.mul m = .ok x

/-- Every product of two monomials fits, and the order can rank it. -/
def ProductsRankable (o : TermOrder) (ts us : List (Term K)) : Prop :=
  ∀ u ∈ us, ∀ t ∈ ts, ∃ x, t.monomial.mul u.monomial = .ok x ∧ o.canRank x = true

theorem ProductsRankable.productsFit {u : Term K} (h : ProductsRankable o ts us) (hu : u ∈ us) :
    ProductsFit u.monomial ts := fun t ht => (h u hu t ht).imp fun _ hx => hx.1

namespace Polynomial

/-! ## Looking up a monomial -/

section Search

variable {base size : ℕ}

/-- A comparison with a term that is there has a result if both monomials can be ranked. -/
theorem yields_probe {i : ℕ} (hi : i < ts.length) :
    Yields (Rankable o ts ∧ o.canRank m = true) (fun _ => True) (probe o ts m i) := by
  unfold probe TermOrder.compare
  rw [List.getElem?_eq_getElem hi]
  simp only
  split
  next => exact .of_eq_ok rfl trivial
  next h =>
    refine ⟨rfl, fun hroom => h ?_⟩
    rw [hroom.1 _ (List.getElem_mem hi), hroom.2]
    rfl

/-- The stretch stays inside of the list. -/
theorem yields_narrow {rounds : ℕ} (hsize : 0 < size) (hend : base + size ≤ ts.length) :
    Yields (Rankable o ts ∧ o.canRank m = true) (fun i => i < ts.length)
      (narrow o ts m rounds base size) := by
  induction rounds generalizing base size with
  | zero => exact .of_eq_ok rfl (by omega)
  | succ rounds ih =>
    rw [narrow]
    split
    next => exact .of_eq_ok rfl (by omega)
    next hlarge =>
      refine (yields_probe (by omega)).bind fun r _ _ => ih (by omega) ?_
      split
      next => omega
      next => omega

/-- Any monomial can be looked for in any list. -/
theorem yields_slot : Yields (Rankable o ts ∧ o.canRank m = true) (fun _ => True)
    (locate o ts m) := by
  unfold locate
  split
  next => exact .of_eq_ok rfl trivial
  next hne =>
    have hpos : 0 < ts.length := List.length_pos_iff.mpr fun h => hne (List.isEmpty_iff.mpr h)
    refine (yields_narrow hpos (Nat.zero_add _).le).bind fun i _ hi => ?_
    refine (yields_probe hi).bind fun r _ _ => ?_
    cases r with
    | lt => exact .of_eq_ok rfl trivial
    | eq => exact .of_eq_ok rfl trivial
    | gt => exact .of_eq_ok rfl trivial

/-- The search for a monomial ends at its slot. -/
theorem yields_locate (ha : OfArity n ts) (hd : Descending o ts) (hm : m.arity = n) :
    Yields (Rankable o ts ∧ o.canRank m = true) (Slot.Holds o n ts m) (locate o ts m) :=
  yields_slot.of_forall_ok fun _ hs => holds_of_locate ha hd hm hs

end Search

/-! ## Operations -/

section Operations

variable [Scalar K] {p q : Polynomial K}

/-- A term can be added in place if it can be looked for. -/
theorem yields_addTerm {c : K} (hp : p.Fits n o) (hm : m.arity = n) :
    Yields (Rankable o p.terms ∧ o.canRank m = true) (Fits n o) (p.addTerm m c) := by
  refine .of_forall_ok (fun r hr => hp.addTerm hr) ?_
  unfold Polynomial.addTerm
  rw [bind_of_eq_ok (checkArity_eq_ok_iff.mpr (hp.arity_eq.trans hm.symm)), hp.order_eq]
  refine (yields_locate hp.ofArity hp.descending hm).bind fun s _ _ => ?_
  cases s with
  | found i => exact .of_eq_ok rfl trivial
  | absent i =>
    simp only
    split
    next => exact .of_eq_ok rfl trivial
    next => exact .of_eq_ok rfl trivial

/-- Terms can be brought into normal form if each of them can be ranked. -/
theorem yields_normalTerms {ε : K} (ha : OfArity n ts) : Yields (Rankable o ts)
    (fun us => OfArity n us ∧ Descending o us) (normalTerms o ε ts) := by
  refine .of_forall_ok (fun us hus => descending_normalTerms ha hus) ?_
  unfold normalTerms
  split
  next => exact .of_eq_ok rfl trivial
  next h =>
    refine ⟨rfl, fun hroom => h ?_⟩
    rw [List.all_eq_true.mpr hroom, Bool.or_true]

/-- Polynomials can be made from terms that can be ranked. -/
theorem yields_ofTerms (ha : OfArity n ts) :
    Yields (Rankable o ts) (Fits n o) (ofTerms ts n o) := by
  refine .of_forall_ok (fun r hr => fits_ofTerms hr) ?_
  rw [ofTerms_of_ofArity ha]
  exact (yields_normalTerms ha).bind fun us _ _ => .of_eq_ok rfl trivial

/-- Polynomials can be brought into an order that can rank their terms. -/
theorem yields_reorder (harity : p.arity = n) (ha : OfArity n p.terms) :
    Yields (Rankable o p.terms) (Fits n o) (p.reorder o) := by
  refine .of_forall_ok (fun r hr => fits_reorder harity ha hr) ?_
  unfold reorder
  exact (yields_normalTerms ha).bind fun us _ _ => .of_eq_ok rfl trivial

omit [Scalar K] in
/-- Terms that can be ranked can be merged. -/
theorem canMerge_of_rankable (ht : Rankable o ts) (hu : Rankable o us) :
    canMerge o ts us = true := by
  cases ts with
  | nil => rfl
  | cons t ts =>
    cases us with
    | nil => rfl
    | cons u us =>
      rw [canMerge, ht t List.mem_cons_self, hu u List.mem_cons_self]
      rfl

omit [Scalar K] in
/-- A merge compares the same monomials from either side. -/
theorem canMerge_comm (o : TermOrder) (ts us : List (Term K)) :
    canMerge o ts us = canMerge o us ts := by
  cases ts with
  | nil =>
    cases us with
    | nil => rfl
    | cons u us => rfl
  | cons t ts =>
    cases us with
    | nil => rfl
    | cons u us => exact Bool.and_comm _ _

theorem canMerge_scaledTerms (o : TermOrder) (ts : List (Term K)) (p : Polynomial K) (s : K) :
    canMerge o ts (p.scaledTerms s) = canMerge o ts p.terms := by
  unfold scaledTerms
  cases ts with
  | nil => rfl
  | cons t ts =>
    cases p.terms with
    | nil => rfl
    | cons u us => rfl

/-- Sums overflow alike when their operands change places, whatever the factors are. -/
theorem exists_addScaled_swap {r : Polynomial K} {s : K} (hp : p.Fits n o) (hq : q.Fits n o)
    (h : p.addScaled q s = .ok r) (s' : K) : ∃ r', q.addScaled p s' = .ok r' := by
  obtain ⟨-, hmerge, -⟩ := addScaled_eq_ok_iff.mp h
  refine ⟨_, addScaled_eq_ok_iff.mpr ⟨hq.checkCompatible hp, ?_, rfl⟩⟩
  rw [canMerge_scaledTerms] at hmerge ⊢
  rw [canMerge_comm, hq.order_eq, ← hp.order_eq]
  exact hmerge

theorem rankable_scaledTerms (s : K) (h : Rankable o p.terms) : Rankable o (p.scaledTerms s) :=
  List.forall_mem_map.mpr h

/-- Sums of polynomials whose terms can be ranked have a result. -/
theorem yields_addScaled {s : K} (hp : p.Fits n o) (hq : q.Fits n o) :
    Yields (Rankable o p.terms ∧ Rankable o q.terms) (Fits n o) (p.addScaled q s) := by
  refine yields_iff.mpr ⟨overflowOnly_addScaled hp hq, fun hroom => ?_, fun r => hp.addScaled hq⟩
  refine ⟨_, addScaled_eq_ok_iff.mpr ⟨hp.checkCompatible hq, ?_, rfl⟩⟩
  rw [hp.order_eq]
  exact canMerge_of_rankable hroom.1 (rankable_scaledTerms s hroom.2)

/-- The terms of a sum can be ranked if those of its operands can. -/
theorem rankable_addScaled {s : K} {r : Polynomial K} (hp : Rankable o p.terms)
    (hq : Rankable o q.terms) (h : p.addScaled q s = .ok r) : Rankable o r.terms := by
  obtain ⟨-, -, rfl⟩ := addScaled_eq_ok_iff.mp h
  intro t ht
  obtain ⟨u, hu, hut⟩ := exists_of_mem_merge _ _ t ht
  rw [← hut]
  exact hu.elim (hp u) (rankable_scaledTerms s hq u)

/-- A product with a term has a result if the new exponents have room. -/
theorem yields_mulTerm {c : K} (hp : p.Fits n o) (hm : m.arity = n) :
    Yields (ProductsFit m p.terms) (Fits n o) (p.mulTerm m c) := by
  refine .of_forall_ok (fun r hr => hp.mulTerm hr) ?_
  unfold Polynomial.mulTerm
  rw [bind_of_eq_ok (checkArity_eq_ok_iff.mpr (hp.arity_eq.trans hm.symm))]
  refine Yields.bind (Yields.mapM (Q := fun _ => True) fun t ht => ?_) fun us _ _ =>
    .of_eq_ok rfl trivial
  have htp : t ∈ p.terms := (List.mem_filter.mp ht).1
  have hta : t.monomial.arity = m.arity := (hp.ofArity t htp).trans hm.symm
  refine Yields.bind (P := fun _ => True) ?_ fun x _ _ => .of_eq_ok rfl trivial
  exact yields_iff.mpr ⟨Monomial.overflowOnly_mul hta, fun hroom => hroom t htp,
    fun _ _ => trivial⟩

/-- Multiples by the terms of a factor have rankable monomials if the products have. -/
theorem rankable_mulTerm {u : Term K} {r : Polynomial K} (hu : u ∈ us)
    (hroom : ProductsRankable o p.terms us) (h : p.mulTerm u.monomial u.coeff = .ok r) :
    Rankable o r.terms := by
  obtain ⟨-, ts, hts, rfl⟩ := mulTerm_eq_ok_iff.mp h
  intro v hv
  obtain ⟨t, ht, hmul, -⟩ := hts.exists_of_mem hv
  obtain ⟨x, hx, hrank⟩ := hroom u hu t (List.mem_filter.mp ht).1
  rwa [Except.ok.inj (hmul.symm.trans hx)]

/-- While multiples are added up, the sum has rankable monomials. -/
theorem yields_mul (hp : p.Fits n o) (hq : q.Fits n o) :
    Yields (ProductsRankable o p.terms q.terms) (Fits n o) (p.mul q) := by
  unfold Polynomial.mul
  rw [bind_of_eq_ok (hp.checkCompatible hq)]
  refine Yields.mono (Yields.foldlM (I := fun us acc => (∀ u ∈ us, u ∈ q.terms) ∧
    acc.Fits n o ∧ (ProductsRankable o p.terms q.terms → Rankable o acc.terms))
    (fun u us acc hI => ?_) ?_) fun r _ hr => hr.2.1
  · obtain ⟨hus, hacc, hrank⟩ := hI
    have hu := hus u List.mem_cons_self
    have hmul := yields_mulTerm (c := u.coeff) hp (hq.ofArity u hu)
    refine (hmul.of_imp fun hroom => hroom.productsFit hu).bind fun shifted hs hshifted => ?_
    have hadd := (yields_addScaled (s := 1) hacc hshifted).of_imp
      fun hroom => ⟨hrank hroom, rankable_mulTerm hu hroom hs⟩
    refine hadd.mono fun next hnext hfits => ?_
    exact ⟨fun v hv => hus v (List.mem_cons_of_mem u hv), hfits,
      fun hroom => rankable_addScaled (hrank hroom) (rankable_mulTerm hu hroom hs) hnext⟩
  · exact ⟨fun u hu => hu, hp.cleared, fun _ t ht => absurd ht List.not_mem_nil⟩

end Operations
end Polynomial
end PolyIdeal
