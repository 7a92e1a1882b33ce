import Mathlib
import PolyIdeal.Proofs.Basis.Sorting
import PolyIdeal.Proofs.Exact.Bases

/-!
# Reduced Gröbner bases

Minimizing a Gröbner basis keeps enough generators, since every leading monomial is divisible by
one that is kept. Reducing a generator modulo the others keeps its leading monomial, which none of
them divides; so one sweep from the first to the last suffices, although the generators change
under it. What comes out is `Reduced`: monic, no monomial of a generator divisible by the leading
monomial of another, and in descending order.

An ideal has only one such list of terms: `Reduced.unique`.
-/

namespace PolyIdeal

open Groebner

variable {K : Type} [ExactScalar K] {n : ℕ} {o : TermOrder} {p r : Polynomial K}
  {gs hs done todo : List (Polynomial K)} {I : Ideal (MvPolynomial (Fin n) K)}

namespace Polynomial

/-- The exponents of the leading monomial. -/
noncomputable def lead (n : ℕ) (o : TermOrder) (p : Polynomial K) : Fin n →₀ ℕ :=
  (o.monomialOrder n).degree (p.toMv n)

theorem Proper.lead_eq {m : Monomial} (hp : p.Proper n o) (h : p.leadingMonomial = .ok m) :
    p.lead n o = m.exps n ∧ m.arity = n := by
  obtain ⟨t, ts, hts, rfl⟩ := leadingMonomial_eq_ok_iff.mp h
  have ht := leadingTerm_eq_ok_iff.mpr ⟨ts, hts⟩
  exact ⟨hp.degree_toMv ht, hp.leadingTerm_arity ht⟩

theorem Proper.toSyn_lead {t : Term K} (hp : p.Proper n o) (ht : p.leadingTerm = .ok t) :
    (o.monomialOrder n).toSyn (p.lead n o) = o.rank n t.monomial :=
  congrArg _ (hp.degree_toMv ht)

theorem Proper.leadRank_eq (hp : p.Proper n o) (hz : p.isZero = false) :
    Basis.leadRank n o p = (o.monomialOrder n).toSyn (p.lead n o) := by
  obtain ⟨t, ht⟩ := exists_leadingTerm hz
  rw [Basis.leadRank_of_leadingTerm ht, hp.toSyn_lead ht]

/-- Making a polynomial monic changes its leading coefficient only up to units. -/
theorem Proper.lead_monic (hp : p.Proper n o) (h : p.monic = .ok r) :
    r.Proper n o ∧ r.isZero = false ∧ r.lead n o = p.lead n o ∧
      (o.monomialOrder n).leadingCoeff (r.toMv n) = 1 := by
  obtain ⟨t, ts, hts, -⟩ := monic_eq_ok_iff.mp h
  have ht := leadingTerm_eq_ok_iff.mpr ⟨ts, hts⟩
  have hr := leadingTerm_monic ht h
  have hrproper := Proper.monic hp.toFits h
  exact ⟨hrproper, isZero_of_leadingTerm hr,
    (hrproper.degree_toMv hr).trans (hp.degree_toMv ht).symm, hrproper.leadingCoeff_toMv hr⟩

end Polynomial

/-! ## Lists that are Gröbner bases -/

/-- Nonzero polynomials of one shape that form a Gröbner basis of `I`. -/
structure GroebnerList (n : ℕ) (o : TermOrder) (I : Ideal (MvPolynomial (Fin n) K))
    (gs : List (Polynomial K)) : Prop where
  proper : ∀ g ∈ gs, g.Proper n o
  nonzero : ∀ g ∈ gs, g.isZero = false
  groebner : IsGroebner (o.monomialOrder n) I (values n gs)

theorem GroebnerList.mem (hgs : GroebnerList n o I gs) {g : Polynomial K} (hg : g ∈ gs) :
    g.toMv n ∈ I := hgs.groebner.subset _ (toMv_mem_values hg)

/-- Other members of the ideal whose leading monomials divide those of the list. -/
theorem GroebnerList.of_lead_le (hgs : GroebnerList n o I gs) (hproper : ∀ h ∈ hs, h.Proper n o)
    (hnonzero : ∀ h ∈ hs, h.isZero = false) (hI : ∀ h ∈ hs, h.toMv n ∈ I)
    (hle : ∀ g ∈ gs, ∃ h ∈ hs, h.lead n o ≤ g.lead n o) : GroebnerList n o I hs := by
  refine ⟨hproper, hnonzero, hgs.groebner.of_degree_le ?_ ?_⟩
  · rintro _ ⟨h, hh, rfl⟩
    exact hI h hh
  · rintro _ ⟨g, hg, rfl⟩ -
    obtain ⟨h, hh, hhg⟩ := hle g hg
    exact ⟨h.toMv n, toMv_mem_values hh, (hproper h hh).toMv_ne_zero (hnonzero h hh), hhg⟩

/-- Neither leading monomial divides the other. -/
def Apart (n : ℕ) (o : TermOrder) (g h : Polynomial K) : Prop :=
  ¬ g.lead n o ≤ h.lead n o ∧ ¬ h.lead n o ≤ g.lead n o

theorem Apart.symm {g h : Polynomial K} (hgh : Apart n o g h) : Apart n o h g := ⟨hgh.2, hgh.1⟩

/-- A Gröbner basis of monic polynomials, no leading monomial dividing another one. -/
structure Minimal (n : ℕ) (o : TermOrder) (I : Ideal (MvPolynomial (Fin n) K))
    (gs : List (Polynomial K)) : Prop extends GroebnerList n o I gs where
  monic : ∀ g ∈ gs, (o.monomialOrder n).leadingCoeff (g.toMv n) = 1
  apart : gs.Pairwise (Apart n o)

/-! ## Minimizing -/

/-- The monic generators are a Gröbner basis as well, with the same leading monomials. -/
theorem GroebnerList.mapM_monic (hgs : GroebnerList n o I gs)
    (h : gs.mapM Polynomial.monic = .ok hs) : GroebnerList n o I hs ∧
      ∀ g ∈ hs, (o.monomialOrder n).leadingCoeff (g.toMv n) = 1 := by
  have hmonic : ∀ g' ∈ hs, g'.Proper n o ∧ g'.isZero = false ∧ g'.toMv n ∈ I ∧
      (o.monomialOrder n).leadingCoeff (g'.toMv n) = 1 := fun g' hg' => by
    obtain ⟨g, hg, hmonic⟩ := exists_mem_of_mapM h hg'
    obtain ⟨hproper, hnonzero, -, hone⟩ := (hgs.proper g hg).lead_monic hmonic
    refine ⟨hproper, hnonzero, ?_, hone⟩
    rw [Polynomial.toMv_monic (hgs.proper g hg) hmonic]
    exact I.mul_mem_left _ (hgs.mem hg)
  refine ⟨hgs.of_lead_le (fun g' hg' => (hmonic g' hg').1) (fun g' hg' => (hmonic g' hg').2.1)
    (fun g' hg' => (hmonic g' hg').2.2.1) ?_, fun g' hg' => (hmonic g' hg').2.2.2⟩
  intro g hg
  obtain ⟨i, hi⟩ := List.mem_iff_getElem?.mp hg
  obtain ⟨g', hg', hmonic⟩ := exists_getElem?_of_mapM h hi
  exact ⟨g', List.mem_of_getElem? hg', ((hgs.proper g hg).lead_monic hmonic).2.2.1.le⟩

/-- Leaving out the redundant generators keeps a Gröbner basis, and keeps the others apart. -/
theorem GroebnerList.irredundant {leads : List Monomial} (hgs : GroebnerList n o I gs)
    (h : gs.mapM Polynomial.leadingMonomial = .ok leads) :
    GroebnerList n o I (Basis.irredundant gs leads) ∧ Basis.irredundant gs leads ⊆ gs ∧
      (Basis.irredundant gs leads).Pairwise (Apart n o) := by
  have hlead : ∀ {i : ℕ} {g : Polynomial K} {m : Monomial}, gs[i]? = some g →
      leads[i]? = some m → g.lead n o = m.exps n ∧ m.arity = n := fun hi hm => by
    obtain ⟨m', hm', hleading⟩ := exists_getElem?_of_mapM h hi
    obtain rfl := Option.some.inj (hm'.symm.trans hm)
    exact (hgs.proper _ (List.mem_of_getElem? hi)).lead_eq hleading
  have harity : ∀ m ∈ leads, m.arity = n := fun m hm => by
    obtain ⟨i, hi⟩ := List.mem_iff_getElem?.mp hm
    obtain ⟨g, hg, -⟩ := exists_getElem?_of_mapM_right h hi
    exact (hlead hg hi).2
  have hsub : Basis.irredundant gs leads ⊆ gs := fun g hg => by
    obtain ⟨i, m, hi, -⟩ := Basis.mem_irredundant_iff.mp hg
    exact List.mem_of_getElem? hi
  refine ⟨hgs.of_lead_le (fun g hg => hgs.proper g (hsub hg))
    (fun g hg => hgs.nonzero g (hsub hg)) (fun g hg => hgs.mem (hsub hg)) ?_, hsub, ?_⟩
  · intro g hg
    obtain ⟨i, hi⟩ := List.mem_iff_getElem?.mp hg
    obtain ⟨m, hm, -⟩ := exists_getElem?_of_mapM h hi
    obtain ⟨j, k, hk, hkeep, hdvd⟩ := Basis.exists_irredundant o harity hm
    obtain ⟨g', hg', -⟩ := exists_getElem?_of_mapM_right h hk
    refine ⟨g', Basis.mem_irredundant_iff.mpr ⟨j, k, hg', hk, hkeep⟩, ?_⟩
    rw [(hlead hg' hk).1, (hlead hi hm).1]
    exact (Monomial.divides_iff (hlead hg' hk).2 (hlead hi hm).2).mp hdvd
  · refine Basis.pairwise_irredundant fun i j g g' k m hg hk hg' hm hkm hmk => ?_
    obtain ⟨hgk, hka⟩ := hlead hg hk
    obtain ⟨hgm, hma⟩ := hlead hg' hm
    rw [Apart, hgk, hgm, ← Monomial.divides_iff hka hma, ← Monomial.divides_iff hma hka, hkm, hmk]
    exact ⟨Bool.noConfusion, Bool.noConfusion⟩

theorem GroebnerList.minimize {b c : Basis K} (hb : GroebnerList n o I b.generators)
    (h : b.minimize = .ok c) :
    c.arity = b.arity ∧ c.order = b.order ∧ Minimal n o I c.generators := by
  obtain ⟨-, ms, leads, hms, hleads, rfl⟩ := Basis.minimize_eq_ok_iff.mp h
  obtain ⟨hgroebner, hmonic⟩ := hb.mapM_monic hms
  obtain ⟨hkept, hsub, hapart⟩ := hgroebner.irredundant hleads
  exact ⟨rfl, rfl, ⟨hkept, fun g hg => hmonic g (hsub hg), hapart⟩⟩

/-! ## Reducing generators modulo each other -/

/-- A monomial of `g` that the leading monomial of a member divides is divided by that of `g`
alone. -/
def Irreducible (n : ℕ) (o : TermOrder) (gs : List (Polynomial K)) (g : Polynomial K) : Prop :=
  ∀ e ∈ (g.toMv n).support, ∀ h ∈ gs, h.lead n o ≤ e → h.lead n o = g.lead n o

section Replacing

variable {g g' : Polynomial K} (hgs : Minimal n o I (done ++ g :: todo))
  (hr : g.remainder (done ++ todo) = .ok r)
include hgs hr

omit hr in
/-- The generators besides `g` are nonzero members of the ideal, apart from `g`. -/
theorem Minimal.others : ∀ d ∈ done ++ todo,
    d.Proper n o ∧ d.isZero = false ∧ d.toMv n ∈ I ∧ Apart n o g d := by
  obtain ⟨hapart, -⟩ := List.pairwise_cons.mp ((List.pairwise_middle Apart.symm).mp hgs.apart)
  intro d hd
  have hmem : d ∈ done ++ g :: todo :=
    List.mem_append.mpr ((List.mem_append.mp hd).imp_right (List.mem_cons_of_mem g))
  exact ⟨hgs.proper d hmem, hgs.nonzero d hmem, hgs.mem hmem, hapart d hd⟩

/-- The leading term of a generator is not divisible by any other one, so it leads the
remainder. -/
theorem Minimal.lead_remainder : r.Proper n o ∧ r.lead n o = g.lead n o := by
  have hgmem : g ∈ done ++ g :: todo := List.mem_append_right _ List.mem_cons_self
  have hgproper := hgs.proper g hgmem
  obtain ⟨t, ht⟩ := Polynomial.exists_leadingTerm (hgs.nonzero g hgmem)
  have hfree : ∀ d ∈ done ++ todo, d.leadDivides t.monomial = false := fun d hd => by
    obtain ⟨hdproper, hd0, -, hapart⟩ := hgs.others d hd
    refine Bool.eq_false_iff.mpr fun hdvd => hapart.2 ?_
    rw [hdproper.leadDivides_iff hd0 (hgproper.leadingTerm_arity ht), ← hgproper.degree_toMv ht]
      at hdvd
    exact hdvd
  have hrproper := hgproper.remainder (fun d hd => (hgs.others d hd).1.toFits) hr
  have hrt := Polynomial.leadingTerm_remainder ht hfree hr
  exact ⟨hrproper, (hrproper.degree_toMv hrt).trans (hgproper.degree_toMv ht).symm⟩

/-- A generator reduced modulo the others, and made monic, takes its place. -/
theorem Minimal.replace (hg' : r.monic = .ok g') : g'.lead n o = g.lead n o ∧
    Irreducible n o (done ++ g' :: todo) g' ∧ Minimal n o I (done ++ g' :: todo) := by
  have hgmem : g ∈ done ++ g :: todo := List.mem_append_right _ List.mem_cons_self
  have hothers := hgs.others
  obtain ⟨hrproper, hrlead⟩ := hgs.lead_remainder hr
  obtain ⟨hg'proper, hg'nonzero, hlead, hone⟩ := hrproper.lead_monic hg'
  rw [hrlead] at hlead
  have hg'val := Polynomial.toMv_monic hrproper hg'
  have hg'mem : g'.toMv n ∈ I := by
    rw [hg'val]
    exact I.mul_mem_left _ ((Polynomial.remainder_mem (hgs.proper g hgmem).toFits
      (fun d hd => (hothers d hd).1) (fun d hd => (hothers d hd).2.2.1) hr).mp (hgs.mem hgmem))
  have hsplit : ∀ {P : Polynomial K → Prop}, (∀ h ∈ done ++ todo, P h) → P g' →
      ∀ h ∈ done ++ g' :: todo, P h := fun hP hg' h hh => by
    rcases List.mem_append.mp hh with hh | hh
    · exact hP h (List.mem_append_left _ hh)
    · rcases List.mem_cons.mp hh with rfl | hh
      · exact hg'
      · exact hP h (List.mem_append_right _ hh)
  refine ⟨hlead, fun e he => hsplit (fun d hd hle => ?_) fun _ => rfl, ⟨?_, ?_, ?_⟩⟩
  · -- the monomials of `g'` are those of the remainder
    have hre : e ∈ (r.toMv n).support := by
      rw [hg'val, MvPolynomial.mem_support_iff, MvPolynomial.coeff_C_mul] at he
      exact MvPolynomial.mem_support_iff.mpr (right_ne_zero_of_mul he)
    obtain ⟨u, hu, rfl⟩ := hrproper.mem_support_toMv_iff.mp hre
    have hdvd := ((hothers d hd).1.leadDivides_iff (hothers d hd).2.1
      (hrproper.ofArity u hu)).mpr hle
    rw [Polynomial.leadDivides_of_mem_remainder hr hu hd] at hdvd
    cases hdvd
  · refine hgs.of_lead_le (hsplit (fun d hd => (hothers d hd).1) hg'proper)
      (hsplit (fun d hd => (hothers d hd).2.1) hg'nonzero)
      (hsplit (fun d hd => (hothers d hd).2.2.1) hg'mem) fun d hd => ?_
    rcases List.mem_append.mp hd with hd | hd
    · exact ⟨d, List.mem_append_left _ hd, le_rfl⟩
    · rcases List.mem_cons.mp hd with rfl | hd
      · exact ⟨g', List.mem_append_right _ List.mem_cons_self, hlead.le⟩
      · exact ⟨d, List.mem_append_right _ (List.mem_cons_of_mem _ hd), le_rfl⟩
  · refine hsplit (fun d hd => ?_) hone
    exact hgs.monic d
      (List.mem_append.mpr ((List.mem_append.mp hd).imp_right (List.mem_cons_of_mem g)))
  · obtain ⟨-, hrest⟩ := List.pairwise_cons.mp ((List.pairwise_middle Apart.symm).mp hgs.apart)
    refine (List.pairwise_middle Apart.symm).mpr (List.pairwise_cons.mpr ⟨fun d hd => ?_, hrest⟩)
    rw [Apart, hlead]
    exact (hothers d hd).2.2.2

end Replacing

/-- What is done stays irreducible while the rest is replaced, since leading monomials stay. -/
theorem Minimal.reduceEach (h : Minimal n o I (done ++ todo))
    (hdone : ∀ d ∈ done, Irreducible n o (done ++ todo) d)
    (hr : Basis.reduceEach done todo = .ok gs) :
    Minimal n o I gs ∧ ∀ g ∈ gs, Irreducible n o gs g := by
  have hend := Basis.reduceEach_invariant (P := fun done todo => Minimal n o I (done ++ todo) ∧
    ∀ d ∈ done, Irreducible n o (done ++ todo) d) ?_ ⟨h, hdone⟩ hr
  · rwa [List.append_nil] at hend
  · rintro done g todo r g' ⟨h, hdone⟩ hrem hmonic
    obtain ⟨hlead, hirreducible, hminimal⟩ := h.replace hrem hmonic
    rw [List.append_assoc, List.singleton_append]
    refine ⟨hminimal, List.forall_mem_append.mpr ⟨fun d hd e he h' hh' hle => ?_,
      List.forall_mem_singleton.mpr hirreducible⟩⟩
    rcases List.mem_append.mp hh' with hh' | hh'
    · exact hdone d hd e he h' (List.mem_append_left _ hh') hle
    · rcases List.mem_cons.mp hh' with rfl | hh'
      · rw [hlead] at hle ⊢
        exact hdone d hd e he g (List.mem_append_right _ List.mem_cons_self) hle
      · exact hdone d hd e he h' (List.mem_append_right _ (List.mem_cons_of_mem _ hh')) hle

/-! ## Reduced bases -/

/-- Monic polynomials in descending order, no monomial of one divisible by the leading monomial
of another, that form a Gröbner basis of `I`. -/
structure Reduced (n : ℕ) (o : TermOrder) (I : Ideal (MvPolynomial (Fin n) K))
    (gs : List (Polynomial K)) : Prop extends Minimal n o I gs where
  irreducible : ∀ g ∈ gs, Irreducible n o gs g
  descending : gs.Pairwise fun g h =>
    (o.monomialOrder n).toSyn (h.lead n o) < (o.monomialOrder n).toSyn (g.lead n o)

/-- Reducing a Gröbner basis makes it a reduced one. -/
theorem GroebnerList.reduce {b c : Basis K} (hb : GroebnerList n o I b.generators)
    (horder : b.order = o) (h : b.reduce = .ok c) :
    c.arity = b.arity ∧ c.order = b.order ∧ Reduced n o I c.generators := by
  obtain ⟨d, gs, hs, hd, hgs, hhs, rfl⟩ := Basis.reduce_eq_ok_iff.mp h
  obtain ⟨hdarity, hdorder, hminimal⟩ := hb.minimize hd
  have hnone : ∀ f ∈ ([] : List (Polynomial K)), Irreducible n o ([] ++ d.generators) f :=
    fun _ hf => absurd hf List.not_mem_nil
  obtain ⟨hgsminimal, hirreducible⟩ := Minimal.reduceEach hminimal hnone hgs
  rw [hdorder, horder] at hhs
  have hperm := Basis.perm_of_sortByLead hhs
  have hmem : ∀ {g}, g ∈ hs → g ∈ gs := fun hg => hperm.subset hg
  have hsorted : hs.Pairwise fun g h =>
      (o.monomialOrder n).toSyn (h.lead n o) ≤ (o.monomialOrder n).toSyn (g.lead n o) := by
    refine (Basis.pairwise_leadRank_of_sortByLead (fun g hg => (hgsminimal.proper g hg).toFits)
      hgsminimal.nonzero hhs).imp_of_mem fun {g h} hg hh hle => ?_
    rwa [(hgsminimal.proper h (hmem hh)).leadRank_eq (hgsminimal.nonzero h (hmem hh)),
      (hgsminimal.proper g (hmem hg)).leadRank_eq (hgsminimal.nonzero g (hmem hg))] at hle
  have happart : hs.Pairwise (Apart n o) := (hperm.pairwise_iff Apart.symm).mpr hgsminimal.apart
  refine ⟨hdarity, hdorder, ⟨⟨hgsminimal.of_lead_le (fun g hg => hgsminimal.proper g (hmem hg))
    (fun g hg => hgsminimal.nonzero g (hmem hg)) (fun g hg => hgsminimal.mem (hmem hg))
    fun g hg => ⟨g, hperm.symm.subset hg, le_rfl⟩, fun g hg => hgsminimal.monic g (hmem hg),
    happart⟩, fun g hg e he h hh => hirreducible g (hmem hg) e he h (hmem hh), ?_⟩⟩
  refine (hsorted.and happart).imp fun {g h} hgh => lt_of_le_of_ne hgh.1 fun heq => ?_
  exact hgh.2.1 ((o.monomialOrder n).toSyn.injective heq).ge

/-! ## Uniqueness -/

namespace Reduced

/-- The leading monomials of a reduced basis are the minimal ones of the ideal. -/
theorem exists_lead_eq (hgs : Reduced n o I gs) (hhs : Reduced n o I hs) {g : Polynomial K}
    (hg : g ∈ gs) : ∃ h ∈ hs, h.lead n o = g.lead n o := by
  have hgproper := hgs.proper g hg
  have hgne := hgproper.toMv_ne_zero (hgs.nonzero g hg)
  obtain ⟨_, ⟨h, hh, rfl⟩, hh0, hle⟩ := hhs.groebner.exists_degree_le _ (hgs.mem hg) hgne
  obtain ⟨_, ⟨g', hg', rfl⟩, -, hle'⟩ := hgs.groebner.exists_degree_le _ (hhs.mem hh) hh0
  have hsame := hgs.irreducible g hg _ ((o.monomialOrder n).degree_mem_support hgne) g' hg'
    (hle'.trans hle)
  exact ⟨h, hh, le_antisymm hle (hsame ▸ hle')⟩

/-- In a monomial other than the leading one of `g`, no leading monomial of the basis divides. -/
theorem not_lead_le (hgs : Reduced n o I gs) {g h : Polynomial K} (hg : g ∈ gs) (hh : h ∈ gs)
    {e : Fin n →₀ ℕ} (he : e ∈ (g.toMv n).support) (hne : e ≠ g.lead n o) :
    ¬ h.lead n o ≤ e := fun hle => by
  have hlead := hgs.irreducible g hg e he h hh hle
  rw [hlead] at hle
  exact hne ((o.monomialOrder n).toSyn.injective
    (le_antisymm ((o.monomialOrder n).le_degree he) ((o.monomialOrder n).toSyn_monotone hle)))

/-- Generators with one leading monomial have one value: their difference is in the ideal and has
no monomial that a leading monomial divides. -/
theorem toMv_eq (hgs : Reduced n o I gs) (hhs : Reduced n o I hs) {g h : Polynomial K}
    (hg : g ∈ gs) (hh : h ∈ hs) (hlead : h.lead n o = g.lead n o) : g.toMv n = h.toMv n := by
  refine sub_eq_zero.mp (hgs.groebner.eq_zero (I.sub_mem (hgs.mem hg) (hhs.mem hh)) ?_)
  rintro e he _ ⟨l, hl, rfl⟩ - hle
  have hne : e ≠ g.lead n o := by
    rintro rfl
    refine MvPolynomial.mem_support_iff.mp he ?_
    have hgone : (g.toMv n).coeff (g.lead n o) = 1 := hgs.monic g hg
    have hhone : (h.toMv n).coeff (h.lead n o) = 1 := hhs.monic h hh
    rw [MvPolynomial.coeff_sub, hgone, ← hlead, hhone, sub_self]
  rcases Finset.mem_union.mp (MvPolynomial.support_sub _ _ _ he) with heg | heh
  · exact hgs.not_lead_le hg hl heg hne hle
  · obtain ⟨l', hl', hlead'⟩ := hgs.exists_lead_eq hhs hl
    refine hhs.not_lead_le hh hl' heh (hlead ▸ hne) ?_
    rw [hlead']
    exact hle

/-- The leading monomials come in the same order. -/
theorem map_lead_eq (hgs : Reduced n o I gs) (hhs : Reduced n o I hs) :
    gs.map (·.lead n o) = hs.map (·.lead n o) := by
  let toSyn := (o.monomialOrder n).toSyn
  have : Std.Antisymm fun d e : Fin n →₀ ℕ => toSyn e < toSyn d :=
    ⟨fun _ _ hde hed => absurd hed hde.asymm⟩
  have : Std.Irrefl fun d e : Fin n →₀ ℕ => toSyn e < toSyn d := ⟨fun _ => lt_irrefl _⟩
  refine List.Pairwise.eq_of_mem_iff (r := fun d e => toSyn e < toSyn d)
    (List.pairwise_map.mpr hgs.descending) (List.pairwise_map.mpr hhs.descending) fun d => ?_
  constructor
  · intro hd
    obtain ⟨g, hg, rfl⟩ := List.mem_map.mp hd
    obtain ⟨h, hh, hlead⟩ := hgs.exists_lead_eq hhs hg
    exact List.mem_map.mpr ⟨h, hh, hlead⟩
  · intro hd
    obtain ⟨h, hh, rfl⟩ := List.mem_map.mp hd
    obtain ⟨g, hg, hlead⟩ := hhs.exists_lead_eq hgs hh
    exact List.mem_map.mpr ⟨g, hg, hlead⟩

/-- An ideal has one reduced Gröbner basis. -/
theorem unique (hgs : Reduced n o I gs) (hhs : Reduced n o I hs) :
    gs.map Polynomial.terms = hs.map Polynomial.terms := by
  have hleads := hgs.map_lead_eq hhs
  have hlen : gs.length = hs.length := by simpa using congrArg List.length hleads
  refine List.ext_getElem (by simpa using hlen) fun i hi hj => ?_
  rw [List.length_map] at hi hj
  have hlead := List.getElem_of_eq hleads (by simpa using hi)
  simp only [List.getElem_map] at hlead ⊢
  have hgmem := List.getElem_mem hi
  have hhmem := List.getElem_mem hj
  exact (hgs.proper _ hgmem).terms_eq (hhs.proper _ hhmem) (hgs.toMv_eq hhs hgmem hhmem hlead.symm)

end Reduced

end PolyIdeal
