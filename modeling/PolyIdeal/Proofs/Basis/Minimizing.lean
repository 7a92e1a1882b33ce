import PolyIdeal.Proofs.Basis.Reducing
import PolyIdeal.Scalar.Rational

/-!
# What minimizing keeps

A generator stays when no leading monomial divides its own properly and no earlier generator has
the same one. The program decides this by looking for another generator that divides, where a copy
only counts when it stands earlier; redundant generators take part in this like all others, and
still every leading monomial has a divisor among those that stay.

Minimizing makes the generators monic before it compares them. This changes no leading monomial,
so what stays can be told from the given generators. The result is minimal already: if dividing by
one changes no coefficient, minimizing it again gives it back.
-/

namespace PolyIdeal

variable {K : Type} {n : ℕ} {o : TermOrder}

namespace Polynomial

variable [Scalar K] {p q : Polynomial K}

theorem keepSignificant_keepSignificant (ε : K) (ts : List (Term K)) :
    keepSignificant ε (keepSignificant ε ts) = keepSignificant ε ts := by
  unfold keepSignificant
  rw [List.filter_filter]
  simp only [Bool.and_self]

/-- A monic polynomial stays as it is when it is made monic again. -/
theorem monic_monic (hone : ∀ x : K, x / 1 = x) (h : p.monic = .ok q) : q.monic = .ok q := by
  obtain ⟨t, ts, -, rfl⟩ := monic_eq_ok_iff.mp h
  apply monic_eq_ok_iff.mpr
  refine ⟨_, _, rfl, ?_⟩
  simp only [hone, List.map_id', keepSignificant_keepSignificant]

end Polynomial

namespace Basis

variable {gs hs : List (Polynomial K)} {leads : List Monomial} {i : ℕ} {m : Monomial}

/-! ## The positions that stay -/

/-- No leading monomial divides the one at position `i` properly, and none before it is the
same. -/
def Stays (gs : List (Polynomial K)) (i : ℕ) : Prop :=
  ∃ m, (gs.map Polynomial.leadingMonomial)[i]? = some (.ok m) ∧
    (∀ k, .ok k ∈ gs.map Polynomial.leadingMonomial → k.divides m = true → k = m) ∧
      ∀ j < i, (gs.map Polynomial.leadingMonomial)[j]? ≠ some (.ok m)

/-- The generators that the program keeps, each with its leading monomial and its position. -/
def staying (gs : List (Polynomial K)) (leads : List Monomial) :
    List ((Polynomial K × Monomial) × ℕ) :=
  (gs.zip leads).zipIdx.filter fun x => !isRedundant leads x.2 x.1.2

theorem map_staying (gs : List (Polynomial K)) (leads : List Monomial) :
    (staying gs leads).map (fun x => x.1.1) = irredundant gs leads := by
  unfold staying irredundant
  rw [← List.filterMap_eq_map', List.filterMap_filter]
  apply List.filterMap_congr
  rintro ⟨⟨g, m⟩, i⟩ -
  show (if !isRedundant leads i m then some g else none) =
    if isRedundant leads i m then none else some g
  cases isRedundant leads i m with
  | false => rfl
  | true => rfl

theorem mem_staying_iff {g : Polynomial K} : ((g, m), i) ∈ staying gs leads ↔
    (gs[i]? = some g ∧ leads[i]? = some m) ∧ isRedundant leads i m = false := by
  unfold staying
  rw [List.mem_filter, List.mem_zipIdx_iff_getElem?, List.getElem?_zip_eq_some,
    Bool.not_eq_true']

/-- The generators that stay keep their order. -/
theorem pairwise_staying (gs : List (Polynomial K)) (leads : List Monomial) :
    ((staying gs leads).map Prod.snd).Pairwise (· < ·) := by
  have hpositions : ((gs.zip leads).zipIdx.map Prod.snd).Pairwise (· < ·) := by
    rw [List.zipIdx_map_snd]
    exact List.pairwise_lt_range'
  exact hpositions.sublist (List.filter_sublist.map Prod.snd)

/-- Another leading monomial that divides is a proper divisor or a copy. -/
theorem isRedundant_eq_false_iff_of_getElem? (hm : leads[i]? = some m) :
    isRedundant leads i m = false ↔
      (∀ k ∈ leads, k.divides m = true → k = m) ∧ ∀ j < i, leads[j]? ≠ some m := by
  rw [isRedundant_eq_false_iff]
  constructor
  · intro hkeep
    constructor
    · intro k hk hdvd
      obtain ⟨j, hj⟩ := List.mem_iff_getElem?.mp hk
      by_cases hji : j = i
      · exact Option.some.inj (hj.symm.trans (hji ▸ hm))
      · exact (hkeep j k hj hji hdvd).1
    · intro j hji hj
      exact absurd (hkeep j m hj hji.ne (Monomial.divides_self m)).2 (not_le.mpr hji)
  · rintro ⟨hproper, hfirst⟩ j k hk hji hdvd
    have heq : k = m := hproper k (List.mem_of_getElem? hk) hdvd
    refine ⟨heq, not_lt.mp fun hlt => ?_⟩
    exact hfirst j hlt (heq ▸ hk)

/-- The program keeps exactly the generators that stay. -/
theorem mem_map_staying_iff (h : gs.mapM Polynomial.leadingMonomial = .ok leads) :
    i ∈ (staying gs leads).map Prod.snd ↔ Stays gs i := by
  have hlead : ∀ (j : ℕ) (k : Monomial),
      (leads.map Except.ok : List (Except Fault Monomial))[j]? = some (.ok k) ↔
        leads[j]? = some k := by
    intro j k
    simp
  have hmem : ∀ k : Monomial,
      .ok k ∈ (leads.map Except.ok : List (Except Fault Monomial)) ↔ k ∈ leads := by
    intro k
    simp
  have hlength := (mapM_eq_ok_iff.mp h).length_eq
  unfold Stays
  rw [mapM_eq_ok_iff_map_eq.mp h]
  simp only [hlead, hmem, ne_eq]
  constructor
  · intro hi
    obtain ⟨⟨⟨g, m⟩, i⟩, hstay, rfl⟩ := List.mem_map.mp hi
    obtain ⟨⟨hg, hm⟩, hkeep⟩ := mem_staying_iff.mp hstay
    exact ⟨m, hm, (isRedundant_eq_false_iff_of_getElem? hm).mp hkeep⟩
  · rintro ⟨m, hm, hstays⟩
    have hkeep := (isRedundant_eq_false_iff_of_getElem? hm).mpr hstays
    obtain ⟨hi, -⟩ := List.getElem?_eq_some_iff.mp hm
    have hg : gs[i]? = some gs[i] := List.getElem?_eq_getElem (hlength ▸ hi)
    exact List.mem_map.mpr ⟨_, mem_staying_iff.mpr ⟨⟨hg, hm⟩, hkeep⟩, rfl⟩

/-- Leading monomials that are apart do not divide each other. -/
theorem divides_eq_false_of_pairwise {j : ℕ} {k : Monomial}
    (h : gs.mapM Polynomial.leadingMonomial = .ok leads)
    (hapart : gs.Pairwise Polynomial.LeadsApart) (hm : leads[i]? = some m) (hk : leads[j]? = some k)
    (hji : j ≠ i) : k.divides m = false := by
  obtain ⟨f, hf, hfk⟩ := exists_getElem?_of_mapM_right h hk
  obtain ⟨g, hg, hgm⟩ := exists_getElem?_of_mapM_right h hm
  obtain ⟨hj, rfl⟩ := List.getElem?_eq_some_iff.mp hf
  obtain ⟨hi, rfl⟩ := List.getElem?_eq_some_iff.mp hg
  have hindexed := List.pairwise_iff_getElem.mp hapart
  rcases lt_or_gt_of_ne hji with hlt | hgt
  · exact (hindexed j i hj hi hlt k m hfk hgm).1
  · exact (hindexed i j hi hj hgt m k hgm hfk).2

/-- No generator is redundant if the leading monomials are apart: a divisor would have to stand at
the same position. -/
theorem isRedundant_eq_false_of_pairwise (h : gs.mapM Polynomial.leadingMonomial = .ok leads)
    (hapart : gs.Pairwise Polynomial.LeadsApart) (hm : leads[i]? = some m) :
    isRedundant leads i m = false := by
  apply isRedundant_eq_false_iff.mpr
  intro j k hk hji hdvd
  rw [divides_eq_false_of_pairwise h hapart hm hk hji] at hdvd
  cases hdvd

/-- Of generators whose leading monomials are apart, all stay. -/
theorem irredundant_of_pairwise (h : gs.mapM Polynomial.leadingMonomial = .ok leads)
    (hapart : gs.Pairwise Polynomial.LeadsApart) : irredundant gs leads = gs := by
  have hall : staying gs leads = (gs.zip leads).zipIdx := by
    apply List.filter_eq_self.mpr
    rintro ⟨⟨g, m⟩, i⟩ hmem
    rw [List.mem_zipIdx_iff_getElem?, List.getElem?_zip_eq_some] at hmem
    rw [Bool.not_eq_true']
    exact isRedundant_eq_false_of_pairwise h hapart hmem.2
  have hlength : gs.length ≤ leads.length := (mapM_eq_ok_iff.mp h).length_eq.le
  rw [← map_staying, hall]
  calc (gs.zip leads).zipIdx.map (Prod.fst ∘ Prod.fst)
      = ((gs.zip leads).zipIdx.map Prod.fst).map Prod.fst := by rw [List.map_map]
    _ = gs := by rw [List.zipIdx_map_fst, List.map_fst_zip hlength]

/-- Every leading monomial has a divisor among those that stay. -/
theorem exists_leadDivides_irredundant (hgs : ∀ g ∈ gs, g.Fits n o)
    (h : gs.mapM Polynomial.leadingMonomial = .ok leads) (hm : leads[i]? = some m) :
    ∃ g ∈ irredundant gs leads, g.leadDivides m = true := by
  obtain ⟨j, k, hk, hkeep, hdvd⟩ := exists_irredundant o (arity_of_mem_leads hgs h) hm
  obtain ⟨g, hg, hgk⟩ := exists_getElem?_of_mapM_right h hk
  refine ⟨g, mem_irredundant_iff.mpr ⟨j, k, hg, hk, hkeep⟩, ?_⟩
  rw [Polynomial.leadDivides_of_leadingMonomial hgk]
  exact hdvd

/-! ## Minimizing -/

section Minimizing

variable [Scalar K] {b c : Basis K}

/-- What `minimize` makes of the basis `b`. -/
structure IsMinimization (b c : Basis K) : Prop where
  arity_eq : c.arity = b.arity
  order_eq : c.order = b.order
  /-- Exactly the generators that stay are kept, in their order and made monic. -/
  kept : ∃ is : List ℕ, is.Pairwise (· < ·) ∧ (∀ i, i ∈ is ↔ Stays b.generators i) ∧
    List.Forall₂ (fun i g => ∃ f t, b.generators[i]? = some f ∧ f.monic = .ok g ∧
      f.leadingTerm = .ok t ∧ g.leadingTerm = .ok ⟨t.monomial, 1⟩) is c.generators
  /-- No leading monomial divides another one. -/
  apart : c.generators.Pairwise Polynomial.LeadsApart
  /-- Every leading monomial of `b` is divisible by one that is kept. -/
  covers : ∀ f ∈ b.generators, ∀ m, f.leadingMonomial = .ok m →
    ∃ g ∈ c.generators, g.leadDivides m = true
  /-- Minimizing again changes nothing. -/
  again : (∀ x : K, x / 1 = x) → c.minimize = .ok c

/-- Monic generators whose leading monomials are apart are minimal. -/
theorem minimize_eq_self (hne : b.isEmpty = false)
    (hmonic : ∀ g ∈ b.generators, g.monic = .ok g)
    (hapart : b.generators.Pairwise Polynomial.LeadsApart) : b.minimize = .ok b := by
  have hgs : b.generators.mapM Polynomial.monic = .ok b.generators :=
    mapM_eq_ok_iff.mpr (List.forall₂_same.mpr hmonic)
  obtain ⟨leads, hleads⟩ : ∃ leads, b.generators.mapM Polynomial.leadingMonomial = .ok leads := by
    apply exists_mapM_eq_ok
    intro g hg
    exact Polynomial.exists_leadingMonomial (Polynomial.isZero_monic (hmonic g hg))
  apply minimize_eq_ok_iff.mpr
  refine ⟨hne, b.generators, leads, hgs, hleads, ?_⟩
  rw [irredundant_of_pairwise hleads hapart]

/-- Every leading monomial has a divisor among those that are left. -/
theorem Fits.exists_leadDivides_minimize (hb : b.Fits n o) (h : b.minimize = .ok c) :
    ∀ f ∈ b.generators, ∀ m, f.leadingMonomial = .ok m →
      ∃ g ∈ c.generators, g.leadDivides m = true := by
  obtain ⟨-, gs, leads, hgs, hleads, rfl⟩ := minimize_eq_ok_iff.mp h
  intro f hf m hm
  have hmem : .ok m ∈ gs.map Polynomial.leadingMonomial := by
    rw [map_leadingMonomial_of_mapM_monic hgs]
    exact List.mem_map.mpr ⟨f, hf, hm⟩
  obtain ⟨g, hg, hgm⟩ := List.mem_map.mp hmem
  obtain ⟨i, hi⟩ := List.mem_iff_getElem?.mp hg
  obtain ⟨m', hm', hgm'⟩ := exists_getElem?_of_mapM hleads hi
  obtain rfl := Except.ok.inj (hgm.symm.trans hgm')
  exact exists_leadDivides_irredundant (hb.fits_monic hgs) hleads hm'

theorem Fits.isEmpty_minimize (hb : b.Fits n o) (h : b.minimize = .ok c) : c.isEmpty = false := by
  obtain ⟨hne, -⟩ := minimize_eq_ok_iff.mp h
  obtain ⟨f, hf⟩ := List.exists_mem_of_ne_nil _ (List.isEmpty_eq_false_iff.mp hne)
  obtain ⟨m, hm⟩ := Polynomial.exists_leadingMonomial (hb.nonzero f hf)
  obtain ⟨g, hg, -⟩ := hb.exists_leadDivides_minimize h f hf m hm
  exact List.isEmpty_eq_false_iff.mpr (List.ne_nil_of_mem hg)

/-- Each generator that stays is made monic. -/
theorem forall₂_staying (hb : b.Fits n o) (hgs : b.generators.mapM Polynomial.monic = .ok gs) :
    List.Forall₂ (fun i g => ∃ f t, b.generators[i]? = some f ∧ f.monic = .ok g ∧
        f.leadingTerm = .ok t ∧ g.leadingTerm = .ok ⟨t.monomial, 1⟩)
      ((staying gs leads).map Prod.snd) (irredundant gs leads) := by
  rw [← map_staying, List.forall₂_map_left_iff, List.forall₂_map_right_iff, List.forall₂_same]
  rintro ⟨⟨g, m⟩, i⟩ hstay
  obtain ⟨f, hf, hmonic⟩ := exists_getElem?_of_mapM_right hgs (mem_staying_iff.mp hstay).1.1
  obtain ⟨t, ht⟩ := Polynomial.exists_leadingTerm (hb.nonzero f (List.mem_of_getElem? hf))
  exact ⟨f, t, hf, hmonic, ht, Polynomial.leadingTerm_monic ht hmonic⟩

/-- A basis with generators can be minimized, whatever its coefficients are. -/
theorem Fits.exists_minimize (hb : b.Fits n o) (hne : b.isEmpty = false) :
    ∃ c, b.minimize = .ok c ∧ IsMinimization b c := by
  obtain ⟨c, hc⟩ := hb.minimize_eq_ok hne
  obtain ⟨-, gs, leads, hgs, hleads, rfl⟩ := minimize_eq_ok_iff.mp hc
  have hapart := pairwise_leadsApart_irredundant hleads
  refine ⟨_, hc, rfl, rfl, ?_, hapart, hb.exists_leadDivides_minimize hc, ?_⟩
  · refine ⟨_, pairwise_staying gs leads, fun i => ?_, forall₂_staying hb hgs⟩
    -- the monic generators have the same leading monomials
    rw [mem_map_staying_iff hleads]
    unfold Stays
    rw [map_leadingMonomial_of_mapM_monic hgs]
  · intro hone
    refine minimize_eq_self (hb.isEmpty_minimize hc) ?_ hapart
    intro g hg
    obtain ⟨f, -, hmonic⟩ := exists_monic_of_mem_minimize hc g hg
    exact Polynomial.monic_monic hone hmonic

end Minimizing

/-- The leading monomials `x y²`, `x y` twice, `x³` and `x²`. The first `x y` has a tail that is
insignificant once the polynomial is monic. -/
def ladder : Basis ℚ := ⟨2, .grlex,
  [⟨2, .grlex, 1 / 100, [⟨⟨[1, 2]⟩, 3⟩, ⟨⟨[0, 0]⟩, 1⟩]⟩,
    ⟨2, .grlex, 1 / 100, [⟨⟨[1, 1]⟩, 50⟩, ⟨⟨[0, 1]⟩, 1 / 10⟩]⟩,
    ⟨2, .grlex, 1 / 100, [⟨⟨[1, 1]⟩, 1⟩, ⟨⟨[1, 0]⟩, 1⟩]⟩,
    ⟨2, .grlex, 1 / 100, [⟨⟨[3, 0]⟩, 1⟩]⟩,
    ⟨2, .grlex, 1 / 100, [⟨⟨[2, 0]⟩, 2⟩, ⟨⟨[0, 1]⟩, 1⟩]⟩]⟩

/-- Of the ladder the first `x y` and `x²` are left. -/
theorem exists_minimize_ladder : ladder.Fits 2 .grlex ∧ ladder.isEmpty = false ∧
    ∃ c, ladder.minimize = .ok c ∧ IsMinimization ladder c ∧
      c.generators.map Polynomial.support = [[⟨[1, 1]⟩], [⟨[2, 0]⟩, ⟨[0, 1]⟩]] := by
  have hfits : ladder.Fits 2 .grlex := by decide
  have hrun : ladder.minimize.map (fun c => c.generators.map Polynomial.support) =
      .ok [[⟨[1, 1]⟩], [⟨[2, 0]⟩, ⟨[0, 1]⟩]] := by decide +kernel
  obtain ⟨c, hc, hmin⟩ := hfits.exists_minimize rfl
  obtain ⟨c', hc', hsupport⟩ := map_eq_ok_iff.mp hrun
  obtain rfl := Except.ok.inj (hc.symm.trans hc')
  exact ⟨hfits, rfl, c, hc, hmin, hsupport⟩

end Basis
end PolyIdeal
