import PolyIdeal.Proofs.Basis.Leads

/-!
# Reducing succeeds unless an exponent overflows

Minimizing and reducing a basis take leading terms, divide, and make polynomials monic. None of
this fails on generators that are not zero, so minimizing always succeeds when there are any. The
one step of a reduction at which this is in doubt is a remainder that is to be made monic: since the
basis is minimal, no other generator can cancel the leading term, and the remainder is not zero
either.
-/

namespace PolyIdeal

variable {K : Type} {n : ℕ} {o : TermOrder}

namespace Polynomial

variable {p : Polynomial K}

theorem exists_monic [Scalar K] (h : p.isZero = false) : ∃ q, p.monic = .ok q := by
  obtain ⟨t, ts, hts⟩ := isZero_eq_false_iff.mp h
  exact ⟨_, monic_eq_ok_iff.mpr ⟨t, ts, hts, rfl⟩⟩

theorem exists_leadingMonomial (h : p.isZero = false) : ∃ m, p.leadingMonomial = .ok m := by
  obtain ⟨t, ts, hts⟩ := isZero_eq_false_iff.mp h
  exact ⟨_, leadingMonomial_eq_ok_iff.mpr ⟨t, ts, hts, rfl⟩⟩

end Polynomial

namespace Basis

variable {b : Basis K} {done todo : List (Polynomial K)}

theorem overflowOnly_sortByLead (o : TermOrder) (gs : List (Polynomial K)) :
    OverflowOnly (sortByLead o gs) := by
  unfold sortByLead
  split
  · exact .of_eq_ok rfl
  · exact .error

variable [Scalar K]

/-- Without generators minimizing fails, and that is the only way. -/
theorem Fits.minimize_eq_ok (hb : b.Fits n o) (hne : b.isEmpty = false) :
    ∃ c, b.minimize = .ok c := by
  obtain ⟨gs, hgs⟩ : ∃ gs, b.generators.mapM Polynomial.monic = .ok gs :=
    exists_mapM_eq_ok fun g hg => Polynomial.exists_monic (hb.nonzero g hg)
  obtain ⟨leads, hleads⟩ : ∃ leads, gs.mapM Polynomial.leadingMonomial = .ok leads := by
    apply exists_mapM_eq_ok
    intro g hg
    obtain ⟨f, -, hmonic⟩ := exists_mem_of_mapM hgs hg
    exact Polynomial.exists_leadingMonomial (Polynomial.isZero_monic hmonic)
  exact ⟨_, minimize_eq_ok_iff.mpr ⟨hne, gs, leads, hgs, hleads, rfl⟩⟩

/-- Generators whose leading monomials are apart can be reduced modulo each other. -/
theorem overflowOnly_reduceEach (hfits : ∀ g ∈ done ++ todo, g.Fits n o)
    (hnonzero : ∀ g ∈ todo, g.isZero = false)
    (hapart : (done ++ todo).Pairwise Polynomial.LeadsApart) :
    OverflowOnly (reduceEach done todo) := by
  induction todo generalizing done with
  | nil => exact .of_eq_ok rfl
  | cons g todo ih =>
    obtain ⟨hdone, hrest⟩ := List.forall_mem_append.mp hfits
    obtain ⟨hg, htodo⟩ := List.forall_mem_cons.mp hrest
    obtain ⟨hgz, hnonzero⟩ := List.forall_mem_cons.mp hnonzero
    have hothers := List.forall_mem_append.mpr ⟨hdone, htodo⟩
    rw [reduceEach]
    refine (Polynomial.overflowOnly_remainder hg hothers).bind fun r hr => ?_
    -- the leading term of `g` is still there
    obtain ⟨t, ht⟩ := Polynomial.exists_leadingTerm hgz
    obtain ⟨ts, hts⟩ := Polynomial.leadingTerm_eq_ok_iff.mp
      (leadingTerm_remainder_of_leadsApart hapart ht hr)
    obtain ⟨g', hg'⟩ := Polynomial.exists_monic (Polynomial.isZero_eq_false_iff.mpr ⟨t, ts, hts⟩)
    rw [bind_of_eq_ok hg']
    refine ih ?_ hnonzero
      (pairwise_leadsApart_replace (leadingMonomial_reduced hapart hgz hr hg') hapart)
    refine List.forall_mem_append.mpr ⟨List.forall_mem_append.mpr ⟨hdone, ?_⟩, htodo⟩
    exact List.forall_mem_singleton.mpr ((hg.remainder hothers hr).monic hg')

/-- A basis with generators can be reduced, unless an exponent overflows. -/
theorem Fits.overflowOnly_reduce (hb : b.Fits n o) (hne : b.isEmpty = false) :
    OverflowOnly b.reduce := by
  obtain ⟨c, hc⟩ := hb.minimize_eq_ok hne
  obtain ⟨hfits, hapart, -⟩ := hb.minimize hc
  have heach : OverflowOnly (reduceEach [] c.generators) :=
    overflowOnly_reduceEach hfits.generators hfits.nonzero hapart
  unfold reduce
  rw [bind_of_eq_ok hc]
  exact heach.bind fun gs _ => (overflowOnly_sortByLead _ gs).bind fun _ _ => .of_eq_ok rfl

end Basis
end PolyIdeal
