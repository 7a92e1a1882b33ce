import PolyIdeal.Proofs.Basis.Irredundant
import PolyIdeal.Proofs.Basis.Room

/-!
# Leading monomials of reduced bases

Reducing a basis changes coefficients and tails. Of the leading monomials it drops those that
another one divides and keeps the others, whatever the coefficients are: a generator of a minimal
basis leads with a term that no other generator can cancel, so it still leads the remainder. A
reduced basis therefore leaves the same monomials uncovered as the basis it was made from, and no
two of its generators have the same leading monomial.

Two bases that agree approximately have the same supports, hence the same leading monomials.
-/

namespace PolyIdeal

variable {K : Type} {n : ℕ} {o : TermOrder} {gs hs done todo : List (Polynomial K)}
  {p q r : Polynomial K}

/-- The uncovered vectors are determined by the leading monomials. -/
theorem uncovered_congr (h : ∀ m, .ok m ∈ gs.map Polynomial.leadingMonomial ↔
    .ok m ∈ hs.map Polynomial.leadingMonomial) : uncovered n gs = uncovered n hs := by
  have hmem : ∀ (ps : List (Polynomial K)) (w : Fin n → Fin UInt32.size), w ∈ uncovered n ps ↔
      ∀ m, .ok m ∈ ps.map Polynomial.leadingMonomial → ¬ m.exps n ≤ Monomial.ofWords w := by
    intro ps w
    rw [mem_uncovered]
    constructor
    · intro hw m hm
      obtain ⟨g, hg, hgm⟩ := List.mem_map.mp hm
      exact hw g hg m hgm
    · exact fun hw g hg m hm => hw m (List.mem_map.mpr ⟨g, hg, hm⟩)
  ext w
  rw [hmem, hmem]
  exact forall_congr' fun m => by rw [h m]

namespace Polynomial

/-- Neither of the two leading monomials divides the other one. -/
def LeadsApart (p q : Polynomial K) : Prop :=
  ∀ a b, p.leadingMonomial = .ok a → q.leadingMonomial = .ok b →
    a.divides b = false ∧ b.divides a = false

theorem LeadsApart.symm (h : p.LeadsApart q) : q.LeadsApart p :=
  fun a b ha hb => (h b a hb ha).symm

/-- A generator whose leading monomial is apart does not divide a leading term. -/
theorem LeadsApart.leadDivides_eq_false {t : Term K} (h : p.LeadsApart q)
    (ht : p.leadingTerm = .ok t) : q.leadDivides t.monomial = false := by
  obtain ⟨ts, hts⟩ := leadingTerm_eq_ok_iff.mp ht
  refine Bool.eq_false_iff.mpr fun hdvd => ?_
  obtain ⟨u, us, hus, hdvd⟩ := leadDivides_eq_true_iff.mp hdvd
  have hapart := (h _ _ (leadingMonomial_eq_ok_iff.mpr ⟨t, ts, hts, rfl⟩)
    (leadingMonomial_eq_ok_iff.mpr ⟨u, us, hus, rfl⟩)).2
  rw [hdvd] at hapart
  cases hapart

theorem leadingMonomial_congr (h : p.support = q.support) :
    p.leadingMonomial = q.leadingMonomial := by
  unfold support at h
  unfold leadingMonomial leadingTerm
  cases hp : p.terms with
  | nil =>
    rw [hp, List.map_nil, eq_comm, List.map_eq_nil_iff] at h
    rw [h]
  | cons t ts =>
    rw [hp, List.map_cons, eq_comm, List.map_eq_cons_iff] at h
    obtain ⟨u, us, hq, hu, -⟩ := h
    rw [hq]
    exact congrArg Except.ok hu.symm

theorem leadDivides_of_leadingMonomial {k : Monomial} (h : p.leadingMonomial = .ok k)
    (m : Monomial) : p.leadDivides m = k.divides m := by
  obtain ⟨t, ts, hts, rfl⟩ := leadingMonomial_eq_ok_iff.mp h
  unfold leadDivides
  rw [hts]

variable [Scalar K]

theorem leadingMonomial_monic (h : p.monic = .ok r) : r.leadingMonomial = p.leadingMonomial := by
  obtain ⟨t, ts, hts, rfl⟩ := monic_eq_ok_iff.mp h
  unfold leadingMonomial leadingTerm
  rw [hts]
  rfl

theorem isZero_monic (h : p.monic = .ok r) : r.isZero = false := by
  obtain ⟨t, ts, -, rfl⟩ := monic_eq_ok_iff.mp h
  rfl

end Polynomial

namespace Basis

/-! ## Keeping the irredundant generators -/

theorem arity_of_mem_leads {leads : List Monomial} (hgs : ∀ g ∈ gs, g.Fits n o)
    (h : gs.mapM Polynomial.leadingMonomial = .ok leads) : ∀ m ∈ leads, m.arity = n := by
  intro m hm
  obtain ⟨g, hg, hleading⟩ := exists_mem_of_mapM h hm
  obtain ⟨t, ts, hts, rfl⟩ := Polynomial.leadingMonomial_eq_ok_iff.mp hleading
  exact (hgs g hg).ofArity t (hts ▸ List.mem_cons_self)

/-- The generators that are left out leave nothing more uncovered. -/
theorem uncovered_irredundant {leads : List Monomial} (hgs : ∀ g ∈ gs, g.Fits n o)
    (h : gs.mapM Polynomial.leadingMonomial = .ok leads) :
    uncovered n (irredundant gs leads) = uncovered n gs := by
  have hlead : ∀ {i : ℕ} {g : Polynomial K} {m : Monomial}, gs[i]? = some g →
      leads[i]? = some m → g.leadingMonomial = .ok m := fun hi hm => by
    obtain ⟨m', hm', hleading⟩ := exists_getElem?_of_mapM h hi
    rwa [Option.some.inj (hm'.symm.trans hm)] at hleading
  have harity := arity_of_mem_leads hgs h
  ext w
  rw [mem_uncovered, mem_uncovered]
  constructor
  · -- a generator that was left out has one that divides it among those that stay
    intro hw g hg m hm hle
    obtain ⟨i, hi⟩ := List.mem_iff_getElem?.mp hg
    obtain ⟨m', hm', hleading⟩ := exists_getElem?_of_mapM h hi
    obtain rfl := Except.ok.inj (hm.symm.trans hleading)
    obtain ⟨j, k, hk, hkeep, hdvd⟩ := exists_irredundant o harity hm'
    obtain ⟨g', hg', hleading'⟩ := exists_getElem?_of_mapM_right h hk
    refine hw g' (mem_irredundant_iff.mpr ⟨j, k, hg', hk, hkeep⟩) k hleading' ?_
    exact ((Monomial.divides_iff (harity k (List.mem_of_getElem? hk))
      (harity m (List.mem_of_getElem? hm'))).mp hdvd).trans hle
  · intro hw g hg
    obtain ⟨i, m, hi, -⟩ := mem_irredundant_iff.mp hg
    exact hw g (List.mem_of_getElem? hi)

theorem pairwise_leadsApart_irredundant {leads : List Monomial}
    (h : gs.mapM Polynomial.leadingMonomial = .ok leads) :
    (irredundant gs leads).Pairwise Polynomial.LeadsApart := by
  refine pairwise_irredundant fun i j g g' k m hg hk hg' hm hkm hmk a b ha hb => ?_
  obtain ⟨k', hk', hleading⟩ := exists_getElem?_of_mapM h hg
  obtain ⟨m', hm', hleading'⟩ := exists_getElem?_of_mapM h hg'
  obtain rfl := Option.some.inj (hk'.symm.trans hk)
  obtain rfl := Option.some.inj (hm'.symm.trans hm)
  obtain rfl := Except.ok.inj (ha.symm.trans hleading)
  obtain rfl := Except.ok.inj (hb.symm.trans hleading')
  exact ⟨hkm, hmk⟩

/-! ## Reducing -/

variable [Scalar K] {b c : Basis K}

theorem map_leadingMonomial_of_mapM_monic (h : gs.mapM Polynomial.monic = .ok hs) :
    hs.map Polynomial.leadingMonomial = gs.map Polynomial.leadingMonomial := by
  rw [mapM_eq_ok_iff] at h
  induction h with
  | nil => rfl
  | cons hmonic _ ih =>
    rw [List.map_cons, List.map_cons, ih, Polynomial.leadingMonomial_monic hmonic]

section Apart

variable {g g' : Polynomial K}

/-- None of the other generators can cancel the leading term of a generator. -/
theorem leadingTerm_remainder_of_leadsApart {t : Term K}
    (hapart : (done ++ g :: todo).Pairwise Polynomial.LeadsApart) (ht : g.leadingTerm = .ok t)
    (h : g.remainder (done ++ todo) = .ok r) : r.leadingTerm = .ok t := by
  have hothers := (List.pairwise_cons.mp
    ((List.pairwise_middle Polynomial.LeadsApart.symm).mp hapart)).1
  exact Polynomial.leadingTerm_remainder ht
    (fun d hd => (hothers d hd).leadDivides_eq_false ht) h

omit [Scalar K] in
/-- A generator can be replaced by one with the same leading monomial. -/
theorem pairwise_leadsApart_replace (hlead : g'.leadingMonomial = g.leadingMonomial)
    (hapart : (done ++ g :: todo).Pairwise Polynomial.LeadsApart) :
    (done ++ [g'] ++ todo).Pairwise Polynomial.LeadsApart := by
  obtain ⟨hothers, hrest⟩ :=
    List.pairwise_cons.mp ((List.pairwise_middle Polynomial.LeadsApart.symm).mp hapart)
  rw [List.append_assoc, List.singleton_append]
  refine (List.pairwise_middle Polynomial.LeadsApart.symm).mpr
    (List.pairwise_cons.mpr ⟨fun d hd a b ha hb => ?_, hrest⟩)
  exact hothers d hd a b (hlead ▸ ha) hb

/-- The monic remainder of a generator modulo the others keeps its leading monomial. -/
theorem leadingMonomial_reduced (hapart : (done ++ g :: todo).Pairwise Polynomial.LeadsApart)
    (hg : g.isZero = false) (hr : g.remainder (done ++ todo) = .ok r) (hg' : r.monic = .ok g') :
    g'.leadingMonomial = g.leadingMonomial := by
  obtain ⟨t, ht⟩ := Polynomial.exists_leadingTerm hg
  rw [Polynomial.leadingMonomial_monic hg']
  unfold Polynomial.leadingMonomial
  rw [leadingTerm_remainder_of_leadsApart hapart ht hr, ht]

end Apart

/-- What every replacement of a generator by its monic remainder keeps holds in the end. -/
theorem reduceEach_invariant {P : List (Polynomial K) → List (Polynomial K) → Prop}
    (step : ∀ done g todo r g', P done (g :: todo) → g.remainder (done ++ todo) = .ok r →
      r.monic = .ok g' → P (done ++ [g']) todo)
    (hP : P done todo) (h : reduceEach done todo = .ok hs) : P hs [] := by
  induction todo generalizing done with
  | nil =>
    cases h
    exact hP
  | cons g todo ih =>
    rw [reduceEach] at h
    obtain ⟨r, hr, h⟩ := bind_eq_ok_iff.mp h
    obtain ⟨g', hg', h⟩ := bind_eq_ok_iff.mp h
    exact ih (step done g todo r g' hP hr hg') h

/-- Reducing generators modulo each other keeps their leading monomials, in place: none of the
others can cancel the leading term of a generator. -/
theorem map_leadingMonomial_reduceEach (hnonzero : ∀ g ∈ todo, g.isZero = false)
    (hapart : (done ++ todo).Pairwise Polynomial.LeadsApart)
    (h : reduceEach done todo = .ok hs) :
    hs.map Polynomial.leadingMonomial = (done ++ todo).map Polynomial.leadingMonomial := by
  -- on what is left to reduce: `done` and `todo` together keep their leading monomials apart
  have hend := (reduceEach_invariant (P := fun done' todo' =>
    (∀ g ∈ todo', g.isZero = false) ∧ (done' ++ todo').Pairwise Polynomial.LeadsApart ∧
      (done' ++ todo').map Polynomial.leadingMonomial =
        (done ++ todo).map Polynomial.leadingMonomial) ?_ ⟨hnonzero, hapart, rfl⟩ h).2.2
  · rwa [List.append_nil] at hend
  · rintro done' g todo' r g' ⟨hnonzero, hapart, hmap⟩ hr hg'
    obtain ⟨hg, hnonzero⟩ := List.forall_mem_cons.mp hnonzero
    have hlead := leadingMonomial_reduced hapart hg hr hg'
    refine ⟨hnonzero, pairwise_leadsApart_replace hlead hapart, ?_⟩
    rw [← hmap]
    simp only [List.map_append, List.map_cons, List.append_assoc, List.singleton_append, hlead]

omit [Scalar K] in
theorem perm_of_sortByLead (h : sortByLead o gs = .ok hs) : hs.Perm gs := by
  unfold sortByLead at h
  split at h
  next =>
    rw [← Except.ok.inj h]
    exact StableSort.perm_sort _ gs
  next => cases h

/-- Each generator of a minimal basis was one before it was made monic. -/
theorem exists_monic_of_mem_minimize (h : b.minimize = .ok c) :
    ∀ g ∈ c.generators, ∃ f ∈ b.generators, f.monic = .ok g := by
  obtain ⟨-, ms, leads, hms, -, rfl⟩ := minimize_eq_ok_iff.mp h
  intro g hg
  obtain ⟨i, m, hi, -⟩ := mem_irredundant_iff.mp hg
  exact exists_mem_of_mapM hms (List.mem_of_getElem? hi)

theorem Fits.fits_monic (hb : b.Fits n o) (h : b.generators.mapM Polynomial.monic = .ok gs) :
    ∀ g ∈ gs, g.Fits n o := by
  intro g hg
  obtain ⟨f, hf, hfg⟩ := exists_mem_of_mapM h hg
  exact (hb.generators f hf).monic hfg

/-- A minimal basis has monic generators whose leading monomials are apart, and leaves the same
monomials uncovered. -/
theorem Fits.minimize (hb : b.Fits n o) (h : b.minimize = .ok c) :
    c.Fits n o ∧ c.generators.Pairwise Polynomial.LeadsApart ∧
      uncovered n c.generators = uncovered n b.generators := by
  have hmonic : ∀ g ∈ c.generators, g.Fits n o ∧ g.isZero = false := fun g hg => by
    obtain ⟨f, hf, hfg⟩ := exists_monic_of_mem_minimize h g hg
    exact ⟨(hb.generators f hf).monic hfg, Polynomial.isZero_monic hfg⟩
  obtain ⟨-, ms, leads, hms, hleads, rfl⟩ := minimize_eq_ok_iff.mp h
  refine ⟨⟨hb.arity_eq, hb.order_eq, fun g hg => (hmonic g hg).1, fun g hg => (hmonic g hg).2⟩,
    pairwise_leadsApart_irredundant hleads, ?_⟩
  rw [uncovered_irredundant (hb.fits_monic hms) hleads]
  exact uncovered_congr fun m => by rw [map_leadingMonomial_of_mapM_monic hms]

theorem reduce_eq_ok_iff : b.reduce = .ok c ↔ ∃ d gs hs, b.minimize = .ok d ∧
    reduceEach [] d.generators = .ok gs ∧ sortByLead d.order gs = .ok hs ∧
      { d with generators := hs } = c := by
  unfold reduce
  simp only [bind_eq_ok_iff, pure_eq_ok_iff, exists_and_left]

/-- A reduced basis leaves the same monomials uncovered, and each of its generators has a leading
monomial of its own. -/
theorem Fits.uncovered_reduce (hb : b.Fits n o) (h : b.reduce = .ok c) :
    uncovered n c.generators = uncovered n b.generators ∧
      (c.generators.map Polynomial.leadingMonomial).Nodup := by
  obtain ⟨d, rs, ss, hd, hrs, hss, rfl⟩ := reduce_eq_ok_iff.mp h
  obtain ⟨hdfits, hapart, huncovered⟩ := hb.minimize hd
  have hreduced : rs.map Polynomial.leadingMonomial =
      ([] ++ d.generators).map Polynomial.leadingMonomial :=
    map_leadingMonomial_reduceEach hdfits.nonzero hapart hrs
  have hperm := (perm_of_sortByLead hss).map Polynomial.leadingMonomial
  constructor
  · calc uncovered n ss = uncovered n rs := uncovered_congr fun m => hperm.mem_iff
      _ = uncovered n d.generators := uncovered_congr fun m => by rw [hreduced, List.nil_append]
      _ = uncovered n b.generators := huncovered
  · rw [hperm.nodup_iff, hreduced, List.nil_append]
    refine List.pairwise_map.mpr (hapart.imp_of_mem fun {g g'} hg _ hgg' hsame => ?_)
    obtain ⟨t, ts, hts⟩ := Polynomial.isZero_eq_false_iff.mp (hdfits.nonzero g hg)
    have ht := Polynomial.leadingMonomial_eq_ok_iff.mpr ⟨t, ts, hts, rfl⟩
    have hself := (hgg' _ _ ht (hsame ▸ ht)).1
    rw [Monomial.divides_self] at hself
    cases hself

/-! ## Approximate agreement -/

/-- Of two bases that agree approximately, one with distinct leading monomials, both have the same
ones. -/
theorem uncovered_of_approxEq (h : b.approxEq c = true)
    (hc : (c.generators.map Polynomial.leadingMonomial).Nodup) :
    uncovered n b.generators = uncovered n c.generators := by
  obtain ⟨hsize, hall⟩ := Bool.and_eq_true_iff.mp h
  have hlength : b.generators.length = c.generators.length := by simpa [size] using hsize
  have hsub : c.generators.map Polynomial.leadingMonomial ⊆
      b.generators.map Polynomial.leadingMonomial := by
    intro x hx
    obtain ⟨g, hg, rfl⟩ := List.mem_map.mp hx
    obtain ⟨f, hf, happrox⟩ := List.any_eq_true.mp (List.all_eq_true.mp hall g hg)
    exact List.mem_map.mpr
      ⟨f, hf, Polynomial.leadingMonomial_congr (Polynomial.support_eq_of_approxEq happrox)⟩
  -- as many leading monomials on both sides, and those of `c` are distinct
  have hperm := (hc.subperm hsub).perm_of_length_le (by
    rw [List.length_map, List.length_map, hlength])
  exact uncovered_congr fun m => hperm.symm.mem_iff

end Basis
end PolyIdeal
