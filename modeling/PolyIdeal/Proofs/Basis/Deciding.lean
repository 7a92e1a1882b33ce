import PolyIdeal.Proofs.Basis.Interreducing

/-!
# What the deciders make of minimal and reduced bases

`isMinimal` and `isReduced` do not look at how a basis was made. On the result of `minimize` no
division between leading monomials is left for them to find, and on that of `reduce` none into a
term of another generator either. What is left is the test for monic generators. It does not ask
whether a leading coefficient is one, but whether its difference from one is insignificant at the
threshold of the generator. After both operations the leading coefficients are one, so the answer
depends on thresholds alone: it is yes exactly if each generator that stays has a threshold at which
`1 - 1` is insignificant. A threshold of zero is not one of these, since a magnitude of zero is at
least zero.
-/

namespace PolyIdeal

variable {K : Type} [Scalar K] {n : ℕ} {o : TermOrder}

namespace Polynomial

variable {p q : Polynomial K}

/-- Whether a leading coefficient of one counts as approximately one. -/
def acceptsOne (p : Polynomial K) : Bool := !Scalar.significant p.epsilon (1 - 1 : K)

theorem acceptsOne_congr (h : p.epsilon = q.epsilon) : p.acceptsOne = q.acceptsOne := by
  unfold acceptsOne
  rw [h]

/-- Over floating-point numbers this takes a threshold above zero, or one that is no number. -/
theorem acceptsOne_iff_float {p : Polynomial Float} :
    p.acceptsOne = true ↔ ¬ p.epsilon ≤ 0 := by
  have hzero : (1 - 1 : Float).abs = 0 := by decide +kernel
  show (!decide (p.epsilon ≤ (1 - 1 : Float).abs)) = true ↔ _
  rw [hzero, Bool.not_eq_true', decide_eq_false_iff_not]

end Polynomial

open PolyIdeal.Polynomial

namespace Basis

variable {b c d : Basis K} {done todo gs : List (Polynomial K)} {leads : List Monomial}

/-! ## Leading monomials that are apart -/

omit [Scalar K] in
theorem isAntichain_of_pairwise (h : gs.mapM Polynomial.leadingMonomial = .ok leads)
    (hapart : gs.Pairwise LeadsApart) : isAntichain leads = true := by
  unfold isAntichain
  simp only [List.all_eq_true, Prod.forall, List.mem_zipIdx_iff_getElem?, Bool.or_eq_true,
    beq_iff_eq, Bool.not_eq_true']
  intro m i hm k j hk
  exact or_iff_not_imp_left.mpr fun hij => divides_eq_false_of_pairwise h hapart hk hm hij

omit [Scalar K] in
theorem isReducedAt_of_pairwise {i : ℕ} {g : Polynomial K}
    (h : gs.mapM Polynomial.leadingMonomial = .ok leads) (hreduced : gs.Pairwise TermsApart)
    (hg : gs[i]? = some g) : isReducedAt leads i g = true := by
  unfold isReducedAt
  simp only [List.all_eq_true, Prod.forall, List.mem_zipIdx_iff_getElem?, Bool.or_eq_true,
    beq_iff_eq, Bool.not_eq_true']
  intro m hm k j hk
  refine or_iff_not_imp_left.mpr fun hij => ?_
  obtain ⟨f, hf, hfk⟩ := exists_getElem?_of_mapM_right h hk
  rw [← leadDivides_of_leadingMonomial hfk]
  obtain ⟨hi, rfl⟩ := List.getElem?_eq_some_iff.mp hg
  obtain ⟨hj, rfl⟩ := List.getElem?_eq_some_iff.mp hf
  have hindexed := List.pairwise_iff_getElem.mp hreduced
  rcases lt_or_gt_of_ne hij with hlt | hgt
  · exact (hindexed i j hi hj hlt).1 m hm
  · exact (hindexed j i hj hi hgt).2 m hm

/-! ## The answers -/

theorem isMonic_eq_ok {g : Polynomial K} (h : g.leadingCoeff = .ok 1) :
    isMonic g = .ok g.acceptsOne := by
  unfold isMonic
  rw [bind_of_eq_ok h]
  rfl

omit [Scalar K] in
theorem exists_leadingMonomials (h : ∀ g ∈ b.generators, g.isZero = false) :
    ∃ leads, b.leadingMonomials = .ok leads :=
  exists_mapM_eq_ok fun g hg => exists_leadingMonomial (h g hg)

/-- On generators that lead with one, their leading monomials apart, the decider for minimal bases
looks at thresholds only. -/
theorem isMinimal_eq_ok (hnonzero : ∀ g ∈ b.generators, g.isZero = false)
    (hone : ∀ g ∈ b.generators, g.leadingCoeff = .ok 1)
    (hapart : b.generators.Pairwise LeadsApart) :
    b.isMinimal = .ok (b.generators.all acceptsOne) := by
  obtain ⟨leads, hleads⟩ := exists_leadingMonomials hnonzero
  have hall : b.generators.allM isMonic = .ok (b.generators.all acceptsOne) :=
    allM_eq_ok fun g hg => isMonic_eq_ok (hone g hg)
  unfold isMinimal
  rw [bind_of_eq_ok hleads, bind_of_eq_ok hall, isAntichain_of_pairwise hleads hapart]
  cases b.generators.all acceptsOne with
  | false => rfl
  | true => rfl

/-- If moreover no leading monomial divides a term of another generator, the decider for reduced
bases gives the same answer. -/
theorem isReduced_eq_isMinimal (hnonzero : ∀ g ∈ b.generators, g.isZero = false)
    (hone : ∀ g ∈ b.generators, g.leadingCoeff = .ok 1)
    (hapart : b.generators.Pairwise LeadsApart) (hreduced : b.generators.Pairwise TermsApart) :
    b.isReduced = b.isMinimal := by
  obtain ⟨leads, hleads⟩ := exists_leadingMonomials hnonzero
  have hminimal := isMinimal_eq_ok hnonzero hone hapart
  unfold isReduced
  rw [bind_of_eq_ok hminimal, hminimal]
  cases b.generators.all acceptsOne with
  | false => rfl
  | true =>
    rw [if_pos rfl, bind_of_eq_ok hleads, pure_eq_ok_iff, List.all_eq_true]
    rintro ⟨g, i⟩ hg
    exact isReducedAt_of_pairwise hleads hreduced (List.mem_zipIdx_iff_getElem?.mp hg)

/-! ## Thresholds of the results -/

/-- Each generator that stays has a threshold at which one is accepted. -/
def StayingAccept (b : Basis K) : Prop :=
  ∀ i f, Stays b.generators i → b.generators[i]? = some f → f.acceptsOne = true

/-- Minimizing keeps the thresholds of the generators that stay. -/
theorem all_acceptsOne_minimize (h : b.minimize = .ok c) :
    c.generators.all acceptsOne = true ↔ b.StayingAccept := by
  obtain ⟨-, gs, leads, hgs, hleads, rfl⟩ := minimize_eq_ok_iff.mp h
  -- the monic generators have the same leading monomials, hence the same positions stay
  have hstays : ∀ i, Stays b.generators i ↔ i ∈ (staying gs leads).map Prod.snd := by
    intro i
    rw [mem_map_staying_iff hleads]
    unfold Stays
    rw [map_leadingMonomial_of_mapM_monic hgs]
  rw [List.all_eq_true]
  constructor
  · intro hall i f hi hf
    obtain ⟨⟨⟨g, m⟩, i⟩, hstay, rfl⟩ := List.mem_map.mp ((hstays i).mp hi)
    obtain ⟨⟨hg, hm⟩, hkeep⟩ := mem_staying_iff.mp hstay
    obtain ⟨f', hf', hmonic⟩ := exists_getElem?_of_mapM_right hgs hg
    obtain rfl := Option.some.inj (hf'.symm.trans hf)
    rw [← acceptsOne_congr (epsilon_monic hmonic)]
    exact hall g (mem_irredundant_iff.mpr ⟨i, m, hg, hm, hkeep⟩)
  · intro haccept g hg
    obtain ⟨i, m, hgi, hm, hkeep⟩ := mem_irredundant_iff.mp hg
    obtain ⟨f, hf, hmonic⟩ := exists_getElem?_of_mapM_right hgs hgi
    have hi : i ∈ (staying gs leads).map Prod.snd :=
      List.mem_map.mpr ⟨_, mem_staying_iff.mpr ⟨⟨hgi, hm⟩, hkeep⟩, rfl⟩
    rw [acceptsOne_congr (epsilon_monic hmonic)]
    exact haccept i f ((hstays i).mpr hi) hf

/-- Replacing generators by their monic remainders keeps the thresholds, in place. -/
theorem map_epsilon_reduceEach (h : reduceEach done todo = .ok gs) :
    gs.map Polynomial.epsilon = (done ++ todo).map Polynomial.epsilon := by
  have hend := reduceEach_invariant (P := fun done' todo' =>
    (done' ++ todo').map Polynomial.epsilon = (done ++ todo).map Polynomial.epsilon) ?_ rfl h
  · rwa [List.append_nil] at hend
  · intro done' g todo' r g' hmap hr hg'
    rw [← hmap]
    simp only [List.map_append, List.map_cons, List.append_assoc, List.singleton_append,
      (epsilon_monic hg').trans (epsilon_remainder hr)]

/-- Reducing keeps the thresholds that minimizing leaves. -/
theorem all_acceptsOne_reduce (hd : b.minimize = .ok d) (h : b.reduce = .ok c) :
    c.generators.all acceptsOne = d.generators.all acceptsOne := by
  obtain ⟨d', gs, hs, hd', hgs, hhs, rfl⟩ := reduce_eq_ok_iff.mp h
  obtain rfl := Except.ok.inj (hd'.symm.trans hd)
  have hmap : ∀ ps : List (Polynomial K), ps.all acceptsOne =
      (ps.map Polynomial.epsilon).all fun ε => !Scalar.significant ε (1 - 1 : K) := by
    intro ps
    rw [List.all_map]
    rfl
  calc hs.all acceptsOne = gs.all acceptsOne := (perm_of_sortByLead hhs).all_eq
    _ = d'.generators.all acceptsOne := by
      rw [hmap, hmap, map_epsilon_reduceEach hgs, List.nil_append]

/-! ## Deciding what was made -/

theorem Fits.isMinimal_minimize (hb : b.Fits n o) (h : b.minimize = .ok c) :
    c.isMinimal = .ok (c.generators.all acceptsOne) := by
  obtain ⟨hc, hapart, -⟩ := hb.minimize h
  refine isMinimal_eq_ok hc.nonzero (fun g hg => ?_) hapart
  obtain ⟨f, -, hmonic⟩ := exists_monic_of_mem_minimize h g hg
  exact leadingCoeff_monic hmonic

theorem Fits.isReduced_reduce (hb : b.Fits n o) (h : b.reduce = .ok c) :
    c.isReduced = .ok (c.generators.all acceptsOne) := by
  obtain ⟨d, gs, hs, hd, hgs, hhs, rfl⟩ := reduce_eq_ok_iff.mp h
  obtain ⟨hdfits, hdapart, -⟩ := hb.minimize hd
  have hall : Interreducing n o hs [] :=
    (interreducing_reduceEach hdfits.generators hdfits.nonzero hdapart hgs).perm
      (perm_of_sortByLead hhs).symm
  obtain ⟨hnonzero, -⟩ := List.forall_mem_append.mp hall.nonzero
  have hapart : hs.Pairwise LeadsApart := (List.pairwise_append.mp hall.apart).1
  have hone : ∀ g ∈ hs, g.leadingCoeff = .ok 1 := by
    intro g hg
    obtain ⟨r, hr⟩ := hall.monic g hg
    exact leadingCoeff_monic hr
  exact (isReduced_eq_isMinimal hnonzero hone hapart hall.reduced).trans
    (isMinimal_eq_ok hnonzero hone hapart)

/-- Each decider accepts what the operation makes exactly if every generator that stays has a
threshold at which one is accepted as a leading coefficient. -/
theorem Fits.decides_iff (hb : b.Fits n o) :
    (∀ c, b.minimize = .ok c →
      ∃ verdict, c.isMinimal = .ok verdict ∧ (verdict = true ↔ b.StayingAccept)) ∧
    ∀ c, b.reduce = .ok c →
      ∃ verdict, c.isReduced = .ok verdict ∧ (verdict = true ↔ b.StayingAccept) := by
  constructor
  · intro c hc
    exact ⟨_, hb.isMinimal_minimize hc, all_acceptsOne_minimize hc⟩
  · intro c hc
    obtain ⟨d, -, -, hd, -⟩ := reduce_eq_ok_iff.mp hc
    refine ⟨_, hb.isReduced_reduce hc, ?_⟩
    rw [all_acceptsOne_reduce hd hc]
    exact all_acceptsOne_minimize hd

/-- The generators `2 x + 1`, at the threshold `ε`, and `y`. -/
def lineAt (ε : Float) : Basis Float := ⟨2, .grlex,
  [⟨2, .grlex, ε, [⟨⟨[1, 0]⟩, 2⟩, ⟨⟨[0, 0]⟩, 1⟩]⟩, ⟨2, .grlex, 1, [⟨⟨[0, 1]⟩, 1⟩]⟩]⟩

/-- At the threshold zero neither decider accepts what was made: one minus one is zero, which is
at least zero. At the threshold one half both do. -/
theorem decides_lineAt : (lineAt 0).Fits 2 .grlex ∧ (lineAt 0.5).Fits 2 .grlex ∧
    (∃ c d, (lineAt 0).minimize = .ok c ∧ c.isMinimal = .ok false ∧
      (lineAt 0).reduce = .ok d ∧ d.isReduced = .ok false) ∧
    ∃ c d, (lineAt 0.5).minimize = .ok c ∧ c.isMinimal = .ok true ∧
      (lineAt 0.5).reduce = .ok d ∧ d.isReduced = .ok true := by
  have hzero : (lineAt 0).Fits 2 .grlex := by decide +kernel
  have hhalf : (lineAt 0.5).Fits 2 .grlex := by decide +kernel
  have hstays : Stays (lineAt 0).generators 0 := by
    refine ⟨⟨[1, 0]⟩, rfl, fun k hk hdvd => ?_, fun j hj => absurd hj (Nat.not_lt_zero j)⟩
    have hcase : k = ⟨[1, 0]⟩ ∨ k = ⟨[0, 1]⟩ := by
      simpa [lineAt, Polynomial.leadingMonomial, Polynomial.leadingTerm, bind, Except.bind, pure,
        Except.pure] using hk
    rcases hcase with rfl | rfl
    · rfl
    · exact absurd hdvd (by decide)
  have hnot : ¬ (lineAt 0).StayingAccept := fun haccept =>
    absurd (haccept 0 _ hstays rfl) (by decide +kernel)
  have hall : (lineAt 0.5).StayingAccept := by
    have hgens : ∀ f ∈ (lineAt 0.5).generators, f.acceptsOne = true := by decide +kernel
    exact fun i f _ hf => hgens f (List.mem_of_getElem? hf)
  have hruns : ((do
      let _ ← (lineAt 0).minimize
      let _ ← (lineAt 0).reduce
      let _ ← (lineAt 0.5).minimize
      let _ ← (lineAt 0.5).reduce
      return ()) : Except Fault Unit) = .ok () := by decide +kernel
  obtain ⟨c, hc, hruns⟩ := bind_eq_ok_iff.mp hruns
  obtain ⟨d, hd, hruns⟩ := bind_eq_ok_iff.mp hruns
  obtain ⟨c', hc', hruns⟩ := bind_eq_ok_iff.mp hruns
  obtain ⟨d', hd', -⟩ := bind_eq_ok_iff.mp hruns
  refine ⟨hzero, hhalf, ⟨c, d, hc, ?_, hd, ?_⟩, c', d', hc', ?_, hd', ?_⟩
  · obtain ⟨verdict, hv, hiff⟩ := hzero.decides_iff.1 c hc
    rw [hv, Bool.eq_false_iff.mpr (mt hiff.mp hnot)]
  · obtain ⟨verdict, hv, hiff⟩ := hzero.decides_iff.2 d hd
    rw [hv, Bool.eq_false_iff.mpr (mt hiff.mp hnot)]
  · obtain ⟨verdict, hv, hiff⟩ := hhalf.decides_iff.1 c' hc'
    rw [hv, hiff.mpr hall]
  · obtain ⟨verdict, hv, hiff⟩ := hhalf.decides_iff.2 d' hd'
    rw [hv, hiff.mpr hall]

end Basis
end PolyIdeal
