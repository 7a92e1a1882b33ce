import PolyIdeal.Proofs.Basis.Leads
import PolyIdeal.Proofs.StableSort

/-!
# Sorting generators by their leading monomials

The sort compares supports of length one, which amounts to comparing the ranks of leading monomials.
It puts larger ranks in front, and returns a list in which they descend strictly as it is. Whether
the leading monomials can be ranked does not depend on the order of the generators.
-/

namespace PolyIdeal.Basis

variable {K : Type} {n : ℕ} {o : TermOrder} {gs hs : List (Polynomial K)} {f g : Polynomial K}

/-- The leading monomial of `f` leads that of `g`. -/
def LeadsOver (o : TermOrder) (f g : Polynomial K) : Prop :=
  ∃ k m, f.leadingMonomial = .ok k ∧ g.leadingMonomial = .ok m ∧ o.cmp k m = .gt

/-- The rank of the leading monomial, and the least rank for the zero polynomial. -/
noncomputable def leadRank (n : ℕ) (o : TermOrder) (g : Polynomial K) : (o.monomialOrder n).syn :=
  match g.terms with
  | [] => 0
  | t :: _ => o.rank n t.monomial

theorem leadRank_of_leadingTerm {t : Term K} (h : g.leadingTerm = .ok t) :
    leadRank n o g = o.rank n t.monomial := by
  obtain ⟨ts, hts⟩ := Polynomial.leadingTerm_eq_ok_iff.mp h
  unfold leadRank
  rw [hts]

theorem leadsOver_iff_of_leadingTerm {t u : Term K} (ht : f.leadingTerm = .ok t)
    (hu : g.leadingTerm = .ok u) : LeadsOver o f g ↔ o.cmp t.monomial u.monomial = .gt := by
  have hk : f.leadingMonomial = .ok t.monomial := bind_of_eq_ok ht _
  have hm : g.leadingMonomial = .ok u.monomial := bind_of_eq_ok hu _
  unfold LeadsOver
  rw [hk, hm]
  constructor
  · rintro ⟨k, m, hk, hm, hgt⟩
    rwa [Except.ok.inj hk, Except.ok.inj hm]
  · intro hgt
    exact ⟨t.monomial, u.monomial, rfl, rfl, hgt⟩

/-- On polynomials of one shape that are not zero, leading is having the larger rank. -/
theorem leadsOver_iff (hf : f.Fits n o) (hg : g.Fits n o) (hfz : f.isZero = false)
    (hgz : g.isZero = false) : LeadsOver o f g ↔ leadRank n o g < leadRank n o f := by
  obtain ⟨t, ht⟩ := Polynomial.exists_leadingTerm hfz
  obtain ⟨u, hu⟩ := Polynomial.exists_leadingTerm hgz
  rw [leadRank_of_leadingTerm ht, leadRank_of_leadingTerm hu, leadsOver_iff_of_leadingTerm ht hu]
  exact TermOrder.cmp_eq_gt_iff o (hf.leadingTerm_arity ht) (hg.leadingTerm_arity hu)

/-- The comparison that the sort runs. -/
theorem cmpSupports_eq_gt_iff (hfz : f.isZero = false) (hgz : g.isZero = false) :
    (o.cmpSupports (f.support.take 1) (g.support.take 1) == .gt) = true ↔ LeadsOver o f g := by
  obtain ⟨t, ts, hts⟩ := Polynomial.isZero_eq_false_iff.mp hfz
  obtain ⟨u, us, hus⟩ := Polynomial.isZero_eq_false_iff.mp hgz
  have hcmp : o.cmpSupports (f.support.take 1) (g.support.take 1) =
      o.cmp t.monomial u.monomial := by
    rw [Polynomial.support, Polynomial.support, hts, hus]
    exact Ordering.then_eq
  rw [hcmp, beq_iff_eq, leadsOver_iff_of_leadingTerm
    (Polynomial.leadingTerm_eq_ok_iff.mpr ⟨ts, hts⟩)
    (Polynomial.leadingTerm_eq_ok_iff.mpr ⟨us, hus⟩)]

theorem canRankLeads_perm (h : gs.Perm hs) : canRankLeads o gs = canRankLeads o hs := by
  unfold canRankLeads
  rw [h.length_eq, h.all_eq]

theorem sortByLead_eq_ok_iff : sortByLead o gs = .ok hs ↔ canRankLeads o gs = true ∧
    StableSort.sort (fun g h => o.cmpSupports (g.support.take 1) (h.support.take 1) == .gt) gs =
      hs := by
  unfold sortByLead
  cases canRankLeads o gs with
  | true => simp
  | false => simp

/-- Larger leading monomials come first. -/
theorem pairwise_leadRank_of_sortByLead (hfits : ∀ g ∈ gs, g.Fits n o)
    (hnonzero : ∀ g ∈ gs, g.isZero = false) (h : sortByLead o gs = .ok hs) :
    hs.Pairwise fun f g => leadRank n o g ≤ leadRank n o f := by
  obtain ⟨-, rfl⟩ := sortByLead_eq_ok_iff.mp h
  apply StableSort.pairwise_sort
  intro f hf g hg
  rw [cmpSupports_eq_gt_iff (hnonzero f hf) (hnonzero g hg)]
  exact leadsOver_iff (hfits f hf) (hfits g hg) (hnonzero f hf) (hnonzero g hg)

/-- Leading monomials that are apart descend strictly after sorting. -/
theorem pairwise_leadsOver_of_sortByLead (hfits : ∀ g ∈ gs, g.Fits n o)
    (hnonzero : ∀ g ∈ gs, g.isZero = false) (hapart : gs.Pairwise Polynomial.LeadsApart)
    (h : sortByLead o gs = .ok hs) : hs.Pairwise (LeadsOver o) := by
  have hperm := perm_of_sortByLead h
  have hapart : hs.Pairwise Polynomial.LeadsApart :=
    (hperm.pairwise_iff Polynomial.LeadsApart.symm).mpr hapart
  have hsorted := pairwise_leadRank_of_sortByLead hfits hnonzero h
  apply (hsorted.and hapart).imp_of_mem
  rintro f g hf hg ⟨hle, hapart⟩
  have hf := hperm.subset hf
  have hg := hperm.subset hg
  apply (leadsOver_iff (hfits f hf) (hfits g hg) (hnonzero f hf) (hnonzero g hg)).mpr
  refine lt_of_le_of_ne hle fun heq => ?_
  -- one rank means one monomial, which divides itself
  obtain ⟨t, ht⟩ := Polynomial.exists_leadingTerm (hnonzero f hf)
  obtain ⟨u, hu⟩ := Polynomial.exists_leadingTerm (hnonzero g hg)
  rw [leadRank_of_leadingTerm ht, leadRank_of_leadingTerm hu] at heq
  have hsame : u.monomial = t.monomial := TermOrder.rank_injective o
    ((hfits g hg).leadingTerm_arity hu) ((hfits f hf).leadingTerm_arity ht) heq
  have hnot := hapart.symm.leadDivides_eq_false hu
  rw [Polynomial.leadDivides_of_leadingMonomial (bind_of_eq_ok ht _), hsame,
    Monomial.divides_self] at hnot
  cases hnot

/-- A list whose leading monomials descend strictly stays as it is. -/
theorem sortByLead_eq_self (hfits : ∀ g ∈ gs, g.Fits n o) (hnonzero : ∀ g ∈ gs, g.isZero = false)
    (hranks : canRankLeads o gs = true) (hdesc : gs.Pairwise (LeadsOver o)) :
    sortByLead o gs = .ok gs := by
  apply sortByLead_eq_ok_iff.mpr
  refine ⟨hranks, StableSort.sort_eq_self (hdesc.imp_of_mem fun {f g} hf hg hover => ?_)⟩
  apply Bool.eq_false_iff.mpr
  intro hback
  rw [cmpSupports_eq_gt_iff (hnonzero g hg) (hnonzero f hf),
    leadsOver_iff (hfits g hg) (hfits f hf) (hnonzero g hg) (hnonzero f hf)] at hback
  rw [leadsOver_iff (hfits f hf) (hfits g hg) (hnonzero f hf) (hnonzero g hg)] at hover
  exact hover.asymm hback

end PolyIdeal.Basis
