import PolyIdeal.Basis.Reduced
import PolyIdeal.Proofs.Polynomial.Shape

/-!
# Generators that no other one makes redundant

`irredundant` keeps a generator when every leading monomial that divides its own is a later copy
of it. So no kept leading monomial divides another one, and every leading monomial is divisible by
a kept one: going from a redundant generator to one that makes it so lowers the leading monomial,
or else the position, and this ends.
-/

namespace PolyIdeal

variable {K : Type} {n : ℕ} {o : TermOrder}

namespace Basis

variable {gs : List (Polynomial K)} {leads : List Monomial} {i : ℕ} {m : Monomial}

/-- A generator stays when whatever divides its leading monomial is a copy of it further on. -/
theorem isRedundant_eq_false_iff : isRedundant leads i m = false ↔
    ∀ (j : ℕ) (k : Monomial), leads[j]? = some k → j ≠ i → k.divides m = true →
      k = m ∧ i ≤ j := by
  unfold isRedundant
  rw [List.any_eq_false]
  simp only [Prod.forall, List.mem_zipIdx_iff_getElem?, Bool.and_eq_true, bne_iff_ne,
    Bool.or_eq_true, decide_eq_true_eq, not_and, not_or, not_lt, not_not]
  constructor
  · exact fun h j k hj hne hdvd => h k j hj ⟨hne, hdvd⟩
  · exact fun h k j hj hk => h j k hj hk.1 hk.2

theorem mem_irredundant_iff {g : Polynomial K} : g ∈ irredundant gs leads ↔
    ∃ i m, gs[i]? = some g ∧ leads[i]? = some m ∧ isRedundant leads i m = false := by
  unfold irredundant
  simp only [List.mem_filterMap, Prod.exists, List.mem_zipIdx_iff_getElem?,
    List.getElem?_zip_eq_some]
  constructor
  · rintro ⟨f, m, i, ⟨hf, hm⟩, h⟩
    split at h
    next => cases h
    next hkeep => exact ⟨i, m, Option.some.inj h ▸ hf, hm, Bool.eq_false_iff.mpr hkeep⟩
  · rintro ⟨i, m, hg, hm, hkeep⟩
    exact ⟨g, m, i, ⟨hg, hm⟩, by rw [hkeep]; rfl⟩

/-- No kept leading monomial divides another one. -/
theorem pairwise_irredundant {R : Polynomial K → Polynomial K → Prop}
    (hR : ∀ (i j : ℕ) (g h : Polynomial K) (k m : Monomial), gs[i]? = some g →
      leads[i]? = some k → gs[j]? = some h → leads[j]? = some m → k.divides m = false →
        m.divides k = false → R g h) : (irredundant gs leads).Pairwise R := by
  unfold irredundant
  rw [List.pairwise_filterMap, List.pairwise_iff_getElem]
  intro i j hi hj hij g hg h hh
  simp only [List.getElem_zipIdx, Nat.zero_add] at hg hh
  rw [List.length_zipIdx] at hi hj
  obtain ⟨hgi, hki⟩ := List.getElem?_zip_eq_some.mp (List.getElem?_eq_getElem hi)
  obtain ⟨hgj, hkj⟩ := List.getElem?_zip_eq_some.mp (List.getElem?_eq_getElem hj)
  split at hg
  next => cases hg
  next hkeepi =>
    split at hh
    next => cases hh
    next hkeepj =>
      rw [Bool.not_eq_true, isRedundant_eq_false_iff] at hkeepi hkeepj
      -- of two copies only the first is kept, so a division in either direction is a contradiction
      refine hR i j g h _ _ (Option.some.inj hg ▸ hgi) hki (Option.some.inj hh ▸ hgj) hkj ?_ ?_
      · refine Bool.eq_false_iff.mpr fun hdvd => ?_
        exact absurd (hkeepj i _ hki hij.ne hdvd).2 (Nat.not_le.mpr hij)
      · refine Bool.eq_false_iff.mpr fun hdvd => ?_
        have heq := (hkeepi j _ hkj hij.ne' hdvd).1
        have hcopy := Monomial.divides_self ((gs.zip leads)[i]).2
        nth_rewrite 2 [← heq] at hcopy
        exact absurd (hkeepj i _ hki hij.ne hcopy).2 (Nat.not_le.mpr hij)

/-- Every leading monomial is divisible by a kept one. -/
theorem exists_irredundant (o : TermOrder) (harity : ∀ m ∈ leads, m.arity = n)
    (hm : leads[i]? = some m) : ∃ j k, leads[j]? = some k ∧ isRedundant leads j k = false ∧
      k.divides m = true := by
  have hma := harity m (List.mem_of_getElem? hm)
  -- descent on the rank of the monomial, and on the position among copies
  generalize hr : o.rank n m = R
  induction R using WellFoundedLT.induction generalizing i m with
  | ind R ihrank =>
    induction i using Nat.strong_induction_on generalizing m with
    | _ i ihpos =>
      cases hred : isRedundant leads i m with
      | false => exact ⟨i, m, hm, hred, Monomial.divides_self m⟩
      | true =>
        have hnot : ¬ isRedundant leads i m = false := by rw [hred]; exact Bool.noConfusion
        rw [isRedundant_eq_false_iff] at hnot
        push Not at hnot
        obtain ⟨j, k, hk, -, hdvd, hcopy⟩ := hnot
        have hka := harity k (List.mem_of_getElem? hk)
        have hle : o.rank n k ≤ R := by
          rw [← hr]
          exact (o.monomialOrder n).toSyn_monotone ((Monomial.divides_iff hka hma).mp hdvd)
        by_cases hkm : k = m
        · subst hkm
          exact ihpos j (hcopy rfl) hk hka hr
        · have hlt : o.rank n k < R := lt_of_le_of_ne hle fun heq =>
            hkm (TermOrder.rank_injective o hka hma (heq.trans hr.symm))
          obtain ⟨l, k', hk', hkeep, hdvd'⟩ := ihrank _ hlt hk hka rfl
          refine ⟨l, k', hk', hkeep, ?_⟩
          have hka' := harity k' (List.mem_of_getElem? hk')
          exact (Monomial.divides_iff hka' hma).mpr
            (((Monomial.divides_iff hka' hka).mp hdvd').trans
              ((Monomial.divides_iff hka hma).mp hdvd))

/-! ## Minimizing -/

theorem minimize_eq_ok_iff [Scalar K] {b c : Basis K} : b.minimize = .ok c ↔
    b.isEmpty = false ∧ ∃ gs leads, b.generators.mapM Polynomial.monic = .ok gs ∧
      gs.mapM Polynomial.leadingMonomial = .ok leads ∧
        { b with generators := irredundant gs leads } = c := by
  unfold minimize
  cases b.isEmpty with
  | true => simp
  | false =>
    simp only [Bool.false_eq_true, if_false, bind_eq_ok_iff, pure_eq_ok_iff, true_and,
      exists_and_left]

end Basis
end PolyIdeal
