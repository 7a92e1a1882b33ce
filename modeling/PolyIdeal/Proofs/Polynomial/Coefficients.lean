import PolyIdeal.Proofs.Polynomial.Shape

/-!
# Coefficients by monomial

`coeffAt ts m` is the coefficient that a list of terms has at a monomial, if it has one. In a
descending list every monomial has at most one coefficient, and the list is known by its
coefficients: `eq_of_coeffAt_eq`. So an operation on descending lists is described by what it does
at one monomial, and the description of a merge is `mergeCoeff`.

The coefficients obey no law, and an absent coefficient is not a zero one: adding to nothing is not
adding to zero.
-/

namespace PolyIdeal

variable {K : Type} {n : ℕ} {o : TermOrder} {ε : K} {ts us : List (Term K)} {t : Term K}
  {m : Monomial}

/-- The coefficient at a monomial, if it occurs. -/
def coeffAt (ts : List (Term K)) (m : Monomial) : Option K :=
  (ts.find? fun t => t.monomial = m).map Term.coeff

@[simp] theorem coeffAt_nil (m : Monomial) : coeffAt ([] : List (Term K)) m = none := rfl

theorem coeffAt_cons (t : Term K) (ts : List (Term K)) (m : Monomial) :
    coeffAt (t :: ts) m = if t.monomial = m then some t.coeff else coeffAt ts m := by
  unfold coeffAt
  rw [List.find?_cons]
  by_cases h : t.monomial = m
  · rw [if_pos h, decide_eq_true h]
    rfl
  · rw [if_neg h, decide_eq_false h]

/-- A monomial without a coefficient does not occur. -/
theorem coeffAt_eq_none_iff : coeffAt ts m = none ↔ ∀ t ∈ ts, t.monomial ≠ m := by
  rw [coeffAt, Option.map_eq_none_iff, List.find?_eq_none]
  simp only [decide_eq_true_eq, ne_eq]

/-- No monomial occurs in terms below it. -/
theorem coeffAt_eq_none_of_below (h : Below o n (o.rank n m) ts) : coeffAt ts m = none :=
  coeffAt_eq_none_iff.mpr fun t ht heq => lt_irrefl _ (heq ▸ h t ht)

/-- No monomial occurs twice in a descending list, so each coefficient can be looked up. -/
theorem coeffAt_of_mem (ha : OfArity n ts) (hd : Descending o ts) (ht : t ∈ ts) :
    coeffAt ts t.monomial = some t.coeff := by
  unfold coeffAt
  cases hu : ts.find? fun u => u.monomial = t.monomial with
  | none => exact absurd (decide_eq_true rfl) (List.find?_eq_none.mp hu t ht)
  | some u =>
    have hmon : u.monomial = t.monomial := by simpa using List.find?_some hu
    rw [List.inj_on_of_nodup_map (hd.nodup_monomials ha) (List.mem_of_find?_eq_some hu) ht hmon]
    rfl

/-- The terms are the monomials with their coefficients. -/
theorem mem_iff_coeffAt (ha : OfArity n ts) (hd : Descending o ts) :
    t ∈ ts ↔ coeffAt ts t.monomial = some t.coeff := by
  refine ⟨coeffAt_of_mem ha hd, fun h => ?_⟩
  obtain ⟨u, hu, hcoeff⟩ := Option.map_eq_some_iff.mp h
  have hmon : u.monomial = t.monomial := by simpa using List.find?_some hu
  have hut : u = t := by
    cases u
    cases t
    exact congrArg₂ Term.mk hmon hcoeff
  exact hut ▸ List.mem_of_find?_eq_some hu

/-- If no monomial occurs twice, the order of the terms does not matter. -/
theorem coeffAt_perm (h : ts.Perm us) (hnodup : (ts.map Term.monomial).Nodup) (m : Monomial) :
    coeffAt ts m = coeffAt us m := by
  induction h with
  | nil => rfl
  | cons t _ ih => rw [coeffAt_cons, coeffAt_cons, ih (List.nodup_cons.mp hnodup).2]
  | swap t u ts =>
    rw [coeffAt_cons u, coeffAt_cons t, coeffAt_cons t, coeffAt_cons u]
    by_cases ht : t.monomial = m
    · have hu : u.monomial ≠ m := fun hu =>
        (List.nodup_cons.mp hnodup).1 (by rw [hu, ← ht]; exact List.mem_cons_self)
      rw [if_neg hu, if_pos ht, if_pos ht]
    · rw [if_neg ht, if_neg ht]
  | trans h _ ih ih' =>
    exact (ih hnodup).trans (ih' ((h.map Term.monomial).nodup_iff.mp hnodup))

/-- A descending list is known by its coefficients. -/
theorem eq_of_coeffAt_eq (hat : OfArity n ts) (hdt : Descending o ts) (hau : OfArity n us)
    (hdu : Descending o us) (h : ∀ m, coeffAt ts m = coeffAt us m) : ts = us := by
  have hperm : ts.Perm us := by
    refine (List.perm_ext_iff_of_nodup (hdt.nodup_monomials hat).of_map
      (hdu.nodup_monomials hau).of_map).mpr fun t => ?_
    rw [mem_iff_coeffAt hat hdt, mem_iff_coeffAt hau hdu, h]
  refine hperm.eq_of_pairwise (fun t u ht hu htu hut => ?_) hdt hdu
  -- no two terms lead each other
  have hlt := (TermOrder.cmp_eq_gt_iff o (hat t ht) (hau u hu)).mp htu
  have hgt := (TermOrder.cmp_eq_gt_iff o (hau u hu) (hat t ht)).mp hut
  exact absurd hgt hlt.asymm

/-- A polynomial is known by its coefficients and its threshold. -/
theorem Polynomial.Fits.eq_of_coeffAt_eq {p q : Polynomial K} (hp : p.Fits n o) (hq : q.Fits n o)
    (hε : p.epsilon = q.epsilon) (h : ∀ m, coeffAt p.terms m = coeffAt q.terms m) : p = q := by
  have heq := (hp.eq_iff_terms_eq hq).mpr
    (PolyIdeal.eq_of_coeffAt_eq hp.ofArity hp.descending hq.ofArity hq.descending h)
  rw [← hε] at heq
  exact heq

/-! ## Coefficients of shorter, scaled and shifted lists -/

/-- Leaving terms out for their coefficients leaves out these coefficients. -/
theorem coeffAt_filter (keep : K → Bool) (ha : OfArity n ts) (hd : Descending o ts)
    (m : Monomial) : coeffAt (ts.filter fun t => keep t.coeff) m =
      (coeffAt ts m).filter keep := by
  induction ts with
  | nil => rfl
  | cons t ts ih =>
    have ih := ih ha.tail hd.tail
    rw [List.filter_cons, coeffAt_cons]
    by_cases hm : t.monomial = m
    · have hnone : coeffAt ts m = none := coeffAt_eq_none_of_below (hm ▸ hd.below_tail ha)
      rw [hnone] at ih
      rw [if_pos hm, Option.filter_some]
      split
      next => rw [coeffAt_cons, if_pos hm]
      next => exact ih
    · rw [if_neg hm]
      split
      next => rw [coeffAt_cons, if_neg hm, ih]
      next => exact ih

/-- Coefficients change with their terms. -/
theorem coeffAt_map (f : K → K) (ts : List (Term K)) (m : Monomial) :
    coeffAt (ts.map fun t => ⟨t.monomial, f t.coeff⟩) m = (coeffAt ts m).map f := by
  induction ts with
  | nil => rfl
  | cons t ts ih =>
    rw [List.map_cons, coeffAt_cons, coeffAt_cons, ih, apply_ite (Option.map f), Option.map_some]

/-- A product with a monomial has the coefficients of the terms it comes from. -/
theorem Shifted.coeffAt {a u : Monomial} {f : K → K} (h : Shifted u f ts us) (ha : OfArity n ts)
    (haa : a.arity = n) (hm : a.mul u = .ok m) :
    coeffAt us m = (PolyIdeal.coeffAt ts a).map f := by
  induction h with
  | nil => rfl
  | @cons t v ts us hhead _ ih =>
    rw [coeffAt_cons, coeffAt_cons, ih ha.tail, apply_ite (Option.map f), Option.map_some, hhead.2]
    refine if_congr ⟨fun hv => ?_, fun ht => ?_⟩ rfl rfl
    · exact Monomial.eq_of_mul_eq ha.head haa (hv ▸ hhead.1) hm
    · exact Except.ok.inj ((ht ▸ hhead.1).symm.trans hm)

namespace Polynomial

variable [Scalar K]

theorem coeffAt_scaledTerms (p : Polynomial K) (s : K) (m : Monomial) :
    coeffAt (p.scaledTerms s) m = (coeffAt p.terms m).map (· * s) := coeffAt_map (· * s) _ _

/-- A multiple by a term has the coefficients that stay significant, at the shifted monomials. -/
theorem coeffAt_mulTerm {p r : Polynomial K} {a u : Monomial} {c : K} (hp : p.Fits n o)
    (h : p.mulTerm u c = .ok r) (haa : a.arity = n) (hm : a.mul u = .ok m) :
    coeffAt r.terms m =
      ((coeffAt p.terms a).map (· * c)).filter (Scalar.significant p.epsilon) := by
  obtain ⟨-, ts, hts, rfl⟩ := mulTerm_eq_ok_iff.mp h
  rw [hts.coeffAt (hp.ofArity.sublist List.filter_sublist) haa hm,
    coeffAt_filter (fun x => Scalar.significant p.epsilon (x * c)) hp.ofArity hp.descending]
  cases coeffAt p.terms a with
  | none => rfl
  | some x =>
    rw [Option.map_some, Option.filter_some, Option.filter_some]
    exact apply_ite (Option.map (· * c)) _ _ _

/-- The monomials of a multiple by a term are products with its monomial. -/
theorem exists_of_coeffAt_mulTerm {p r : Polynomial K} {u : Monomial} {c : K}
    (h : p.mulTerm u c = .ok r) (hm : coeffAt r.terms m ≠ none) :
    ∃ t ∈ p.terms, t.monomial.mul u = .ok m := by
  obtain ⟨-, ts, hts, rfl⟩ := mulTerm_eq_ok_iff.mp h
  obtain ⟨v, hv⟩ := not_forall.mp (mt coeffAt_eq_none_iff.mpr hm)
  obtain ⟨hv, hvm⟩ := Classical.not_imp.mp hv
  obtain ⟨t, ht, hmul, -⟩ := hts.exists_of_mem hv
  exact ⟨t, (List.mem_filter.mp ht).1, not_not.mp hvm ▸ hmul⟩

/-! ## Coefficients of a merge -/

/-- What a merge makes of the two coefficients of one monomial. A coefficient that only the left
list has is not tested. -/
def mergeCoeff (ε : K) : Option K → Option K → Option K
  | some a, some b => (some (a + b)).filter (Scalar.significant ε)
  | some a, none => some a
  | none, some b => (some b).filter (Scalar.significant ε)
  | none, none => none

/-- What stands on the left only is not cut. -/
@[simp] theorem mergeCoeff_none_right (ε : K) (a : Option K) : mergeCoeff ε a none = a := by
  cases a with
  | none => rfl
  | some a => rfl

/-- What stands on the right only is cut. -/
theorem mergeCoeff_none_left (ε : K) (b : Option K) :
    mergeCoeff ε none b = b.filter (Scalar.significant ε) := by
  cases b with
  | none => rfl
  | some b => rfl

/-- What is dropped has no coefficient any more. -/
theorem coeffAt_keepSignificant (ha : OfArity n ts) (hd : Descending o ts) (m : Monomial) :
    coeffAt (keepSignificant ε ts) m = (coeffAt ts m).filter (Scalar.significant ε) :=
  coeffAt_filter (Scalar.significant ε) ha hd m

theorem coeffAt_consSignificant (t : Term K) (hts : coeffAt ts t.monomial = none) (m : Monomial) :
    coeffAt (consSignificant ε t ts) m = if t.monomial = m then
      (some t.coeff).filter (Scalar.significant ε) else coeffAt ts m := by
  unfold consSignificant
  rw [Option.filter_some]
  split
  next => exact coeffAt_cons t ts m
  next =>
    split
    next h => exact h ▸ hts
    next => rfl

/-- Merging descending lists merges their coefficients. -/
theorem coeffAt_merge (m : Monomial) (as bs : List (Term K)) : OfArity n as → OfArity n bs →
    Descending o as → Descending o bs →
    coeffAt (merge o ε as bs) m = mergeCoeff ε (coeffAt as m) (coeffAt bs m) := by
  induction as, bs using merge_induction (o := o) (ε := ε) with
  | rest_right bs =>
    intro _ hab _ hdb
    rw [coeffAt_keepSignificant hab hdb, coeffAt_nil, mergeCoeff_none_left]
  | rest_left a as => exact fun _ _ _ _ => (mergeCoeff_none_right ε _).symm
  | left a as b bs hcmp ih =>
    intro haa hab hda hdb
    have hlt := (TermOrder.cmp_eq_gt_iff o haa.head hab.head).mp hcmp
    rw [coeffAt_cons, coeffAt_cons a as, ih haa.tail hab hda.tail hdb]
    split
    next h =>
      rw [coeffAt_eq_none_of_below (h ▸ below_cons hab hdb hlt), mergeCoeff_none_right]
    next => rfl
  | right a as b bs hcmp ih =>
    intro haa hab hda hdb
    have hlt := (TermOrder.cmp_eq_lt_iff o haa.head hab.head).mp hcmp
    have hbelow : Below o n (o.rank n b.monomial) (a :: as) := below_cons haa hda hlt
    have hrest : coeffAt (merge o ε (a :: as) bs) b.monomial = none :=
      coeffAt_eq_none_of_below (below_merge hbelow (hdb.below_tail hab))
    rw [coeffAt_consSignificant b hrest, coeffAt_cons b bs, ih haa hab.tail hda hdb.tail]
    split
    next h => rw [coeffAt_eq_none_of_below (h ▸ hbelow), mergeCoeff_none_left]
    next => rfl
  | both a as b bs hcmp ih =>
    intro haa hab hda hdb
    have heq := (TermOrder.cmp_eq_eq_iff o haa.head hab.head).mp hcmp
    have hrest : coeffAt (merge o ε as bs) a.monomial = none :=
      coeffAt_eq_none_of_below (below_merge (hda.below_tail haa) (heq ▸ hdb.below_tail hab))
    rw [coeffAt_consSignificant ⟨a.monomial, a.coeff + b.coeff⟩ hrest, coeffAt_cons a as,
      coeffAt_cons b bs, ← heq, ih haa.tail hab.tail hda.tail hdb.tail]
    split
    next => rfl
    next => rfl

/-- A sum with a multiple, one monomial at a time. -/
theorem coeffAt_addScaled {p q r : Polynomial K} {s : K} (hp : p.Fits n o) (hq : q.Fits n o)
    (h : p.addScaled q s = .ok r) (m : Monomial) : coeffAt r.terms m =
      mergeCoeff p.epsilon (coeffAt p.terms m) ((coeffAt q.terms m).map (· * s)) := by
  obtain ⟨-, -, rfl⟩ := addScaled_eq_ok_iff.mp h
  rw [← coeffAt_scaledTerms]
  exact coeffAt_merge m p.terms (q.scaledTerms s) hp.ofArity (hq.ofArity_scaledTerms s)
    (hp.order_eq ▸ hp.descending) (hp.order_eq ▸ hq.descending_scaledTerms s)

end Polynomial
end PolyIdeal
