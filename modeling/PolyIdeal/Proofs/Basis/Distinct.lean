import PolyIdeal.Proofs.Completion.Growth
import PolyIdeal.Proofs.Completion.Outcomes

/-!
# No generator twice

A polynomial is held against the generators only when it is inserted. Minimizing, reducing and
completing rewrite or append generators without looking again, and agreement is neither transitive
nor, between different thresholds, symmetric. Still no generator ever agrees with a later one.

What is appended has passed the test or is a remainder, which passes it whatever the coefficients
are. And from the first rewriting on, the leading monomials are apart: polynomials that agree have
the same support, so generators with leading monomials of their own do not agree in either
direction. The steps of a reduction keep the leading monomials, so this also holds of what a
reduction that fails halfway leaves behind.
-/

namespace PolyIdeal

variable {K : Type} [Scalar K] {n : ℕ} {o : TermOrder} {p q : Polynomial K}

/-- Generators whose leading monomials are apart do not agree. -/
theorem Polynomial.LeadsApart.approxEq_eq_false (hapart : p.LeadsApart q) (hp : p.isZero = false) :
    p.approxEq q = false := by
  refine Bool.eq_false_iff.mpr fun happrox => ?_
  obtain ⟨m, hm⟩ := exists_leadingMonomial hp
  have hself := (hapart m m hm
    ((leadingMonomial_congr (support_eq_of_approxEq happrox)).symm.trans hm)).1
  rw [Monomial.divides_self] at hself
  cases hself

namespace Basis

variable {b c : Basis K} {ps done todo gs : List (Polynomial K)} {settings : Settings}

/-! ## Operations in place

Inserting, minimizing and reducing change the basis that they are given. An insertion or a
minimization that fails has changed nothing: it fails for a polynomial of another arity or order,
or for a basis without generators. A reduction can fail after some generators have been replaced,
or when all of them have been and only the sorting is left. -/

/-- The basis after an insertion, whether it has succeeded or not. -/
def afterInsert (b : Basis K) (p : Polynomial K) : Basis K :=
  match b.insert p with
  | .ok (c, _) => c
  | .error _ => b

/-- The basis after a minimization, whether it has succeeded or not. -/
def afterMinimize (b : Basis K) : Basis K :=
  match b.minimize with
  | .ok c => c
  | .error _ => b

/-- The generators after the replacements of a reduction, or when the first of them has failed. -/
def afterReduceEach (done : List (Polynomial K)) :
    (todo : List (Polynomial K)) → List (Polynomial K)
  | [] => done
  | g :: todo =>
      match g.remainder (done ++ todo) >>= Polynomial.monic with
      | .ok g' => afterReduceEach (done ++ [g']) todo
      | .error _ => done ++ g :: todo

/-- The basis after a reduction, whether it has succeeded or not. -/
def afterReduce (b : Basis K) : Basis K :=
  match b.minimize, b.reduce with
  | _, .ok c => c
  | .ok d, .error _ => { d with generators := afterReduceEach [] d.generators }
  | .error _, .error _ => b

/-- Replacements that succeed leave the generators that they return. -/
theorem afterReduceEach_of_reduceEach (h : reduceEach done todo = .ok gs) :
    afterReduceEach done todo = gs := by
  induction todo generalizing done with
  | nil => exact Except.ok.inj h
  | cons g todo ih =>
    rw [reduceEach] at h
    obtain ⟨r, hr, h⟩ := bind_eq_ok_iff.mp h
    obtain ⟨g', hg', h⟩ := bind_eq_ok_iff.mp h
    rw [afterReduceEach, bind_of_eq_ok hr, hg']
    exact ih h

/-- What each replacement keeps holds wherever the replacements stop. -/
theorem afterReduceEach_invariant {P : List (Polynomial K) → Prop}
    (step : ∀ done g todo r g', P (done ++ g :: todo) → g.remainder (done ++ todo) = .ok r →
      r.monic = .ok g' → P (done ++ [g'] ++ todo))
    (hP : P (done ++ todo)) : P (afterReduceEach done todo) := by
  induction todo generalizing done with
  | nil => rwa [List.append_nil] at hP
  | cons g todo ih =>
    rw [afterReduceEach]
    split
    next g' h =>
      obtain ⟨r, hr, hg'⟩ := bind_eq_ok_iff.mp h
      exact ih (step done g todo r g' hP hr hg')
    next => exact hP

/-! ## Bases that can be reached -/

/-- The bases that a sequence of operations can end in. -/
inductive Reached : Basis K → Prop
  | empty (n : ℕ) (o : TermOrder) : Reached (empty n o)
  | ofList {b : Basis K} {ps : List (Polynomial K)} (hps : ∀ p ∈ ps, p.Obtained true)
      (h : ofList ps = .ok b) : Reached b
  | insert {b : Basis K} {p : Polynomial K} (hb : Reached b) (hp : p.Obtained true) :
      Reached (b.afterInsert p)
  | minimize {b : Basis K} (hb : Reached b) : Reached b.afterMinimize
  | reduce {b : Basis K} (hb : Reached b) : Reached b.afterReduce
  | complete {b : Basis K} {settings : Settings} {c : Completion K} (hb : Reached b)
      (h : b.complete settings = .ok c) : Reached c.basis
  /-- A completion can be stopped after any number of steps, and a step can fail in its midst. -/
  | stopped {b : Basis K} (hb : Reached b) (settings : Settings) (k i : ℕ) :
      Reached ((Run.start settings b).basisAt k i)
  | groebnerBasis {b : Basis K} {ps : List (Polynomial K)} {settings : Settings}
      (hps : ∀ p ∈ ps, p.Obtained true) (h : groebnerBasis ps settings = .ok b) : Reached b
  | reducedGroebnerBasis {b : Basis K} {ps : List (Polynomial K)} {settings : Settings}
      (hps : ∀ p ∈ ps, p.Obtained true) (h : reducedGroebnerBasis ps settings = .ok b) : Reached b

/-! ## Bases without duplicates -/

/-- The generators are nonzero, have the arity and the order of the basis, and none agrees
approximately with a later one. They are obtained, so they can be used again. -/
structure IsDeduplicated (b : Basis K) : Prop where
  obtained : ∀ g ∈ b.generators, g.Obtained true
  nonzero : ∀ g ∈ b.generators, g.isZero = false
  arity_eq : ∀ g ∈ b.generators, g.arity = b.arity
  order_eq : ∀ g ∈ b.generators, g.order = b.order
  distinct : b.generators.Pairwise fun f g => f.approxEq g = false

theorem isDeduplicated_empty (n : ℕ) (o : TermOrder) : (empty n o : Basis K).IsDeduplicated where
  obtained _ hg := absurd hg List.not_mem_nil
  nonzero _ hg := absurd hg List.not_mem_nil
  arity_eq _ hg := absurd hg List.not_mem_nil
  order_eq _ hg := absurd hg List.not_mem_nil
  distinct := .nil

namespace IsDeduplicated

/-- A basis without duplicates has a shape. -/
theorem fits (hb : b.IsDeduplicated) : b.Fits b.arity b.order where
  arity_eq := rfl
  order_eq := rfl
  generators g hg := hb.arity_eq g hg ▸ hb.order_eq g hg ▸ (hb.obtained g hg).fits
  nonzero := hb.nonzero

/-- One more polynomial that is not contained yet. -/
theorem append (hb : b.IsDeduplicated) (hp : p.Obtained true) (hfits : p.Fits b.arity b.order)
    (hz : p.isZero = false) (hnew : b.contains p = false) :
    ({ b with generators := b.generators ++ [p] } : Basis K).IsDeduplicated where
  obtained := List.forall_mem_append.mpr ⟨hb.obtained, List.forall_mem_singleton.mpr hp⟩
  nonzero := List.forall_mem_append.mpr ⟨hb.nonzero, List.forall_mem_singleton.mpr hz⟩
  arity_eq := List.forall_mem_append.mpr
    ⟨hb.arity_eq, List.forall_mem_singleton.mpr hfits.arity_eq⟩
  order_eq := List.forall_mem_append.mpr
    ⟨hb.order_eq, List.forall_mem_singleton.mpr hfits.order_eq⟩
  distinct := List.pairwise_append.mpr ⟨hb.distinct, List.pairwise_singleton .., fun g hg =>
    List.forall_mem_singleton.mpr (Bool.eq_false_iff.mpr (List.any_eq_false.mp hnew g hg))⟩

/-- Inserting adds no duplicate. -/
theorem insert {added : Bool} (hb : b.IsDeduplicated) (hp : p.Obtained true)
    (h : b.insert p = .ok (c, added)) : c.IsDeduplicated := by
  obtain ⟨hfit, ⟨-, rfl, -⟩ | ⟨hskip, rfl, -⟩⟩ := insert_eq_ok_iff.mp h
  · exact hb
  · obtain ⟨hz, hnew⟩ := Bool.or_eq_false_iff.mp hskip
    obtain ⟨harity, horder⟩ := checkFits_eq_ok_iff.mp hfit
    exact hb.append hp (harity ▸ horder ▸ hp.fits) hz hnew

/-- A completion appends remainders only, and those pass the test. -/
theorem grows {limit : Option ℕ} (hb : b.IsDeduplicated) (h : Grows limit b c) :
    c.IsDeduplicated := by
  induction h with
  | refl => exact hb
  | append _ hf hg hpair hr _ ih =>
    obtain ⟨s, hs, hrem⟩ := pairRemainder_eq_ok_iff.mp hpair
    obtain ⟨d, hd, rfl⟩ := Polynomial.remainder_eq_ok_iff.mp hrem
    have hso := Polynomial.Obtained.sPolynomial (ih.obtained _ hf) (ih.obtained _ hg) hs
    exact ih.append (hso.remainder ih.obtained hd)
      (ih.fits.pairRemainder (ih.fits.generators _ hf) (ih.fits.generators _ hg) hpair) hr
      (contains_remainder hrem hr)

/-- A basis made from a list has no duplicates. -/
theorem ofList (hps : ∀ p ∈ ps, p.Obtained true) (h : ofList ps = .ok b) : b.IsDeduplicated :=
  ofList_invariant isDeduplicated_empty (fun _ _ _ p hp hb hi => hb.insert (hps p hp) hi) h

/-- A basis made from a list in a chosen order has no duplicates. -/
theorem ofListIn (hps : ∀ p ∈ ps, p.Obtained true) (h : ofListIn o ps = .ok b) :
    b.IsDeduplicated :=
  ofListIn_invariant isDeduplicated_empty
    (fun _ _ _ _ p hp hb hq hi => hb.insert ((hps p hp).reorder hq) hi) h

end IsDeduplicated

/-! ## Generators whose leading monomials are apart -/

/-- What minimizing establishes and every replacement of a reduction keeps. -/
structure Separated (n : ℕ) (o : TermOrder) (gs : List (Polynomial K)) : Prop where
  obtained : ∀ g ∈ gs, g.Obtained true
  fits : ∀ g ∈ gs, g.Fits n o
  nonzero : ∀ g ∈ gs, g.isZero = false
  apart : gs.Pairwise Polynomial.LeadsApart

namespace Separated

/-- Generators with leading monomials that are apart are no duplicates. -/
theorem isDeduplicated (hgs : Separated n o gs) : (⟨n, o, gs⟩ : Basis K).IsDeduplicated where
  obtained := hgs.obtained
  nonzero := hgs.nonzero
  arity_eq g hg := (hgs.fits g hg).arity_eq
  order_eq g hg := (hgs.fits g hg).order_eq
  distinct := hgs.apart.imp_of_mem fun hf _ hfg => hfg.approxEq_eq_false (hgs.nonzero _ hf)

theorem perm {hs : List (Polynomial K)} (hgs : Separated n o gs) (h : hs.Perm gs) :
    Separated n o hs where
  obtained g hg := hgs.obtained g (h.subset hg)
  fits g hg := hgs.fits g (h.subset hg)
  nonzero g hg := hgs.nonzero g (h.subset hg)
  apart := (h.pairwise_iff Polynomial.LeadsApart.symm).mpr hgs.apart

/-- A generator can be replaced by its monic remainder modulo the others. -/
theorem replace {g r g' : Polynomial K} (h : Separated n o (done ++ g :: todo))
    (hr : g.remainder (done ++ todo) = .ok r) (hg' : r.monic = .ok g') :
    Separated n o (done ++ [g'] ++ todo) := by
  have hothers : ∀ f ∈ done ++ todo, f ∈ done ++ g :: todo := fun f hf =>
    List.perm_middle.symm.subset (List.mem_cons_of_mem g hf)
  have hg : g ∈ done ++ g :: todo := List.mem_append_right done List.mem_cons_self
  have hreplaced : ∀ {P : Polynomial K → Prop}, (∀ f ∈ done ++ g :: todo, P f) → P g' →
      ∀ f ∈ done ++ [g'] ++ todo, P f := by
    intro P hall hnew f hf
    rw [List.append_assoc, List.singleton_append] at hf
    rcases List.mem_cons.mp (List.perm_middle.subset hf) with rfl | hf
    · exact hnew
    · exact hall f (hothers f hf)
  obtain ⟨d, hd, rfl⟩ := Polynomial.remainder_eq_ok_iff.mp hr
  constructor
  case obtained =>
    refine hreplaced h.obtained (.monic ?_ hg')
    exact (h.obtained g hg).remainder (fun f hf => h.obtained f (hothers f hf)) hd
  case fits =>
    refine hreplaced h.fits (.monic ?_ hg')
    exact (h.fits g hg).remainder (fun f hf => h.fits f (hothers f hf)) hr
  case nonzero => exact hreplaced h.nonzero (Polynomial.isZero_monic hg')
  case apart =>
    exact pairwise_leadsApart_replace (leadingMonomial_reduced h.apart (h.nonzero g hg) hr hg')
      h.apart

end Separated

namespace IsDeduplicated

/-- The generators of a minimal basis are separated. -/
theorem separated_minimize (hb : b.IsDeduplicated) (h : b.minimize = .ok c) :
    Separated c.arity c.order c.generators := by
  obtain ⟨hfits, hapart, -⟩ := hb.fits.minimize h
  refine ⟨fun g hg => ?_, fun g hg => ?_, hfits.nonzero, hapart⟩
  · obtain ⟨f, hf, hfg⟩ := exists_monic_of_mem_minimize h g hg
    exact (hb.obtained f hf).monic hfg
  · rw [hfits.arity_eq, hfits.order_eq]
    exact hfits.generators g hg

/-- Wherever the replacements stop, the generators are still separated. -/
theorem separated_afterReduceEach (hb : b.IsDeduplicated) (h : b.minimize = .ok c) :
    Separated c.arity c.order (afterReduceEach [] c.generators) :=
  afterReduceEach_invariant (fun _ _ _ _ _ hgs hr hg' => hgs.replace hr hg')
    (hb.separated_minimize h)

/-- A minimization that fails leaves the basis as it was, and one that succeeds separates it. -/
theorem afterMinimize (hb : b.IsDeduplicated) : b.afterMinimize.IsDeduplicated := by
  unfold Basis.afterMinimize
  split
  next c h => exact (hb.separated_minimize h).isDeduplicated
  next => exact hb

/-- A reduced basis has no duplicates. -/
theorem reduce (hb : b.IsDeduplicated) (h : b.reduce = .ok c) : c.IsDeduplicated := by
  obtain ⟨d, gs, hs, hd, hgs, hhs, rfl⟩ := reduce_eq_ok_iff.mp h
  have hall := hb.separated_afterReduceEach hd
  rw [afterReduceEach_of_reduceEach hgs] at hall
  exact (hall.perm (perm_of_sortByLead hhs)).isDeduplicated

/-- A basis whose reduction stopped halfway has no duplicates. -/
theorem afterReduce (hb : b.IsDeduplicated) : b.afterReduce.IsDeduplicated := by
  unfold Basis.afterReduce
  split
  next h => exact hb.reduce h
  next d _ h _ => exact (hb.separated_afterReduceEach h).isDeduplicated
  next => exact hb

theorem afterInsert (hb : b.IsDeduplicated) (hp : p.Obtained true) :
    (b.afterInsert p).IsDeduplicated := by
  unfold Basis.afterInsert
  split
  next h => exact hb.insert hp h
  next => exact hb

/-- Both entry points complete what they gather, and may reduce the result. -/
theorem completedBasis (hps : ∀ p ∈ ps, p.Obtained true) (h : completedBasis ps settings = .ok b) :
    b.IsDeduplicated := by
  obtain ⟨start, hstart, h⟩ := bind_eq_ok_iff.mp h
  obtain ⟨c, hc, h⟩ := bind_eq_ok_iff.mp h
  obtain rfl := pure_eq_ok_iff.mp h
  exact (IsDeduplicated.ofListIn hps hstart).grows (grows_of_complete hc)

end IsDeduplicated

/-- No operation brings in a zero generator, one of another arity or order, or one that an earlier
generator agrees with: for coefficients of any kind, and for operations that fail as well. -/
theorem isDeduplicated_of_reached (hb : b.Reached) : b.IsDeduplicated := by
  induction hb with
  | empty n o => exact isDeduplicated_empty n o
  | ofList hps h => exact .ofList hps h
  | insert _ hp ih => exact ih.afterInsert hp
  | minimize _ ih => exact ih.afterMinimize
  | reduce _ ih => exact ih.afterReduce
  | complete _ h ih => exact ih.grows (grows_of_complete h)
  | stopped _ settings k i ih => exact ih.grows (Run.grows_start settings _ k i)
  | groebnerBasis hps h =>
    obtain ⟨c, hc, h⟩ := bind_eq_ok_iff.mp h
    have hdedup := IsDeduplicated.completedBasis hps hc
    split at h
    next => exact hdedup.reduce h
    next => exact pure_eq_ok_iff.mp h ▸ hdedup
  | reducedGroebnerBasis hps h =>
    obtain ⟨c, hc, h⟩ := bind_eq_ok_iff.mp h
    split at h
    next => cases h
    next => exact (IsDeduplicated.completedBasis hps hc).reduce h

/-- Of `x`, `1.00006 x` and `1.00012 x` the second agrees with both others. It is left out because
the first is there, and the third is not. A polynomial in another number of variables is refused.
Reducing leaves one of the two generators. -/
theorem isDeduplicated_multiples : ∃ b : Basis ℚ, b.Reached ∧ b.size = 2 ∧ b.IsDeduplicated ∧
    b.afterReduce.size = 1 ∧ b.afterReduce.IsDeduplicated := by
  have hps : ∀ p ∈ [(.ofTerm ⟨[1, 0]⟩ 1 .lex : Polynomial ℚ),
      .ofTerm ⟨[1, 0]⟩ (100006 / 100000) .lex, .ofTerm ⟨[1, 0]⟩ (100012 / 100000) .lex],
      p.Obtained true := by
    simp only [List.forall_mem_cons]
    exact ⟨.ofTerm .., .ofTerm .., .ofTerm .., fun p hp => absurd hp List.not_mem_nil⟩
  have hrun : (Basis.ofList [(.ofTerm ⟨[1, 0]⟩ 1 .lex : Polynomial ℚ),
      .ofTerm ⟨[1, 0]⟩ (100006 / 100000) .lex, .ofTerm ⟨[1, 0]⟩ (100012 / 100000) .lex]).map
        (fun b => ((b.afterInsert (.ofTerm ⟨[1]⟩ 1 .lex)).size,
          (b.afterInsert (.ofTerm ⟨[1]⟩ 1 .lex)).afterReduce.size)) = .ok (2, 1) := by
    decide +kernel
  obtain ⟨b, hb, hsizes⟩ := map_eq_ok_iff.mp hrun
  obtain ⟨hsize, hreduced⟩ := Prod.mk.inj hsizes
  have hreached : (b.afterInsert (.ofTerm ⟨[1]⟩ 1 .lex)).Reached :=
    .insert (.ofList hps hb) (.ofTerm ..)
  exact ⟨_, hreached, hsize, isDeduplicated_of_reached hreached, hreduced,
    isDeduplicated_of_reached hreached.reduce⟩

end Basis
end PolyIdeal
