import PolyIdeal.Proofs.Polynomial.Shape
import PolyIdeal.Proofs.StableSort

/-!
# Normal forms

Sorting, combining and dropping turns any list of terms of one arity into a descending one. The
sort leaves terms of one monomial next to each other, so combining neighbours leaves each
monomial once.
-/

namespace PolyIdeal.Polynomial

variable {K : Type} [Scalar K] {n : ℕ} {o : TermOrder} {ε : K} {ts us : List (Term K)}

/-- Normal form, opened: terms are sorted, combined and cut. -/
theorem normalTerms_eq_ok (h : normalTerms o ε ts = .ok us) :
    us = keepSignificant ε (combineLike (sortDescending o ts)) := by
  unfold normalTerms at h
  split at h
  · exact (Except.ok.inj h).symm
  · cases h

omit [Scalar K] in
/-- Sorting rearranges. -/
theorem sortDescending_perm (o : TermOrder) (ts : List (Term K)) :
    (sortDescending o ts).Perm ts := StableSort.perm_sort _ ts

omit [Scalar K] in
/-- Sorting terms of one arity puts larger monomials in front. -/
theorem pairwise_sortDescending (ha : OfArity n ts) : (sortDescending o ts).Pairwise
    fun t u => o.rank n u.monomial ≤ o.rank n t.monomial := by
  refine StableSort.pairwise_sort fun t ht u hu => ?_
  rw [beq_iff_eq, TermOrder.cmp_eq_gt_iff o (ha t ht) (ha u hu)]

/-- Combining a run keeps its monomial in front and adds no monomial. -/
theorem exists_of_mem_combineRun (t : Term K) (ts : List (Term K)) :
    ∀ v ∈ combineRun t ts, ∃ u ∈ t :: ts, u.monomial = v.monomial := by
  induction ts generalizing t with
  | nil => exact fun v hv => ⟨v, hv, rfl⟩
  | cons u ts ih =>
    intro v hv
    rw [combineRun] at hv
    split at hv
    · obtain ⟨w, hw, hwv⟩ := ih _ v hv
      rcases List.mem_cons.mp hw with rfl | hw
      · exact ⟨t, List.mem_cons_self, hwv⟩
      · exact ⟨w, .tail _ (.tail _ hw), hwv⟩
    · rcases List.mem_cons.mp hv with rfl | hv
      · exact ⟨v, List.mem_cons_self, rfl⟩
      · obtain ⟨w, hw, hwv⟩ := ih _ v hv
        exact ⟨w, .tail _ hw, hwv⟩

/-- In a sorted list the terms after a run rank strictly below it. -/
theorem descending_combineRun (t : Term K) (ts : List (Term K)) (ha : OfArity n (t :: ts))
    (hs : (t :: ts).Pairwise fun t u => o.rank n u.monomial ≤ o.rank n t.monomial) :
    Descending o (combineRun t ts) := by
  induction ts generalizing t with
  | nil => exact List.pairwise_singleton _ _
  | cons u ts ih =>
    obtain ⟨hfirst, hrest⟩ := List.pairwise_cons.mp hs
    rw [combineRun]
    split
    case isTrue heq =>
      refine ih _ ?_ (List.pairwise_cons.mpr ⟨fun v hv => hfirst v (.tail _ hv), ?_⟩)
      · exact List.forall_mem_cons.mpr ⟨ha.head, ha.tail.tail⟩
      · exact (List.pairwise_cons.mp hrest).2
    case isFalse hne =>
      refine descending_cons (n := n) ?_ (fun v hv => ?_) (ih u ha.tail hrest)
      · refine List.forall_mem_cons.mpr ⟨ha.head, fun v hv => ?_⟩
        obtain ⟨w, hw, hwv⟩ := exists_of_mem_combineRun u ts v hv
        rw [← hwv]
        exact ha.tail w hw
      · obtain ⟨w, hw, hwv⟩ := exists_of_mem_combineRun u ts v hv
        rw [← hwv]
        -- `u` is the largest of what follows, and it is not `t`
        have hut : o.rank n u.monomial < o.rank n t.monomial :=
          lt_of_le_of_ne (hfirst u List.mem_cons_self)
            fun h => hne (TermOrder.rank_injective o ha.tail.head ha.head h)
        rcases List.mem_cons.mp hw with rfl | hw
        · exact hut
        · exact ((List.pairwise_cons.mp hrest).1 w hw).trans_lt hut

theorem ofArity_combineLike (ha : OfArity n ts) : OfArity n (combineLike ts) := by
  cases ts with
  | nil => exact ofArity_nil
  | cons t ts =>
    intro v hv
    obtain ⟨w, hw, hwv⟩ := exists_of_mem_combineRun t ts v hv
    rw [← hwv]
    exact ha w hw

/-- Sorted terms descend once those with equal monomials are combined. -/
theorem descending_combineLike (ha : OfArity n ts)
    (hs : ts.Pairwise fun t u => o.rank n u.monomial ≤ o.rank n t.monomial) :
    Descending o (combineLike ts) := by
  cases ts with
  | nil => exact .nil
  | cons t ts => exact descending_combineRun t ts ha hs

/-- Normal terms descend and keep the arity. -/
theorem descending_normalTerms (ha : OfArity n ts) (h : normalTerms o ε ts = .ok us) :
    OfArity n us ∧ Descending o us := by
  obtain rfl := normalTerms_eq_ok h
  have hs : OfArity n (sortDescending o ts) :=
    fun t ht => ha t ((sortDescending_perm o ts).subset ht)
  have hsub := keepSignificant_sublist ε (combineLike (sortDescending o ts))
  exact ⟨(ofArity_combineLike hs).sublist hsub,
    (descending_combineLike hs (pairwise_sortDescending ha)).sublist hsub⟩

/-- A change of order, opened: the terms are brought into normal form anew. -/
theorem reorder_eq_ok_iff {p q : Polynomial K} : p.reorder o = .ok q ↔
    ∃ us, normalTerms o p.epsilon p.terms = .ok us ∧ { p with order := o, terms := us } = q := by
  unfold reorder
  simp only [bind_eq_ok_iff, pure_eq_ok_iff]

/-- Bringing a polynomial into an order gives it the shape of that order. Nothing is asked of how
its terms were ranked before. -/
theorem fits_reorder {p q : Polynomial K} (harity : p.arity = n) (ha : OfArity n p.terms)
    (h : p.reorder o = .ok q) : q.Fits n o := by
  obtain ⟨ts, hts, rfl⟩ := reorder_eq_ok_iff.mp h
  obtain ⟨hts, hd⟩ := descending_normalTerms ha hts
  exact ⟨harity, rfl, hts, hd⟩

/-! ## Construction -/

section Construction

variable {p : Polynomial K} {m : Monomial} {c : K}

/-- Building a polynomial from terms of its arity is bringing them into normal form. -/
theorem ofTerms_of_ofArity (ha : OfArity n ts) : ofTerms ts n o = (do
    let us ← normalTerms o Scalar.defaultEpsilon ts
    return { arity := n, order := o, epsilon := Scalar.defaultEpsilon, terms := us }) := by
  have hcheck : (ts.forM fun t => checkArity n t.monomial.arity) = .ok () :=
    forM_eq_ok_iff.mpr fun t ht => checkArity_eq_ok_iff.mpr (ha t ht).symm
  unfold ofTerms
  rw [bind_of_eq_ok hcheck]

/-- A polynomial made from terms, opened. -/
theorem ofTerms_eq_ok_iff : ofTerms ts n o = .ok p ↔ OfArity n ts ∧
    ∃ us, normalTerms o Scalar.defaultEpsilon ts = .ok us ∧
      { arity := n, order := o, epsilon := Scalar.defaultEpsilon, terms := us } = p := by
  unfold ofTerms OfArity
  rw [bind_eq_ok_iff]
  simp only [bind_eq_ok_iff, pure_eq_ok_iff]
  constructor
  · rintro ⟨⟨⟩, harity, h⟩
    exact ⟨fun t ht => (checkArity_eq_ok_iff.mp (forM_eq_ok_iff.mp harity t ht)).symm, h⟩
  · rintro ⟨harity, h⟩
    exact ⟨(), forM_eq_ok_iff.mpr fun t ht => checkArity_eq_ok_iff.mpr (harity t ht).symm, h⟩

/-- What is made from terms has the shape that was asked for. -/
theorem fits_ofTerms (h : ofTerms ts n o = .ok p) : p.Fits n o := by
  obtain ⟨ha, us, hus, rfl⟩ := ofTerms_eq_ok_iff.mp h
  obtain ⟨hua, hud⟩ := descending_normalTerms ha hus
  exact ⟨rfl, rfl, hua, hud⟩

theorem fits_zero (n : ℕ) (o : TermOrder) : (zero n o : Polynomial K).Fits n o :=
  ⟨rfl, rfl, ofArity_nil, .nil⟩

/-- A single term has the arity of its monomial. -/
theorem fits_ofTerm (m : Monomial) (c : K) (o : TermOrder) : (ofTerm m c o).Fits m.arity o := by
  have hsub := keepSignificant_sublist Scalar.defaultEpsilon [(⟨m, c⟩ : Term K)]
  refine ⟨rfl, rfl, OfArity.sublist ?_ hsub, Descending.sublist ?_ hsub⟩
  · exact List.forall_mem_singleton.mpr rfl
  · exact List.pairwise_singleton _ _

theorem Fits.withEpsilon (hp : p.Fits n o) (ε : K) : (p.withEpsilon ε).Fits n o :=
  have hsub := keepSignificant_sublist (Scalar.abs ε) p.terms
  ⟨hp.arity_eq, hp.order_eq, hp.ofArity.sublist hsub, hp.descending.sublist hsub⟩

end Construction

end PolyIdeal.Polynomial
