import Mathlib
import PolyIdeal.Proofs.Completion.Sweeping
import PolyIdeal.Proofs.Completion.Taking
import PolyIdeal.Proofs.Exact.Bases

/-!
# Completion over exact scalars

A completion that ends has computed a Gröbner basis of the ideal it began with.

For a worklist the invariant is `Sound`: every pair of generators that is not pending has an lcm
representation. A step accounts for the pair it takes in one of four ways. Coprime leading
monomials give a representation by algebra. A third generator gives one because its pairs with the
two are not pending, hence have one by the invariant; this is why a skip has to look at the queue.
And a division gives one, either at once or by the generator it adds. New pairs are pending. When
the queue is empty, no pair is.

Sweeps are simpler: they keep the ideal, and the last one has seen every pair reduce to zero.
-/

namespace PolyIdeal

open Groebner

variable {K : Type} [ExactScalar K] {n : ℕ} {o : TermOrder}

/-! ## Worklists -/

namespace Worklist

variable {w w' : Worklist K} {pair : CriticalPair} {queue : PairQueue} {v : Verdict K}
  {f g : Polynomial K} {I : Ideal (MvPolynomial (Fin n) K)}

/-- The generators generate `I`, and every pair that is not pending has an lcm representation. -/
structure Sound (n : ℕ) (o : TermOrder) (I : Ideal (MvPolynomial (Fin n) K)) (w : Worklist K) :
    Prop where
  proper : w.basis.Proper n o
  listed : w.queue.Listed
  ideal_eq : idealOf n w.basis.generators = I
  lcmRep : ∀ {p : CriticalPair} {f g : Polynomial K}, w.basis.generators[p.low]? = some f →
    w.basis.generators[p.high]? = some g → w.queue.contains p = false →
      LcmRep (o.monomialOrder n) (values n w.basis.generators) (f.toMv n) (g.toMv n)

theorem sound_start {b : Basis K} (hb : b.Proper n o) (settings : Settings) :
    Sound n o (idealOf n b.generators) (start settings b) where
  proper := hb
  listed := PairQueue.listed_ofAll _
  ideal_eq := rfl
  lcmRep _ hg hnot := absurd (contains_start hg) (Bool.eq_false_iff.mp hnot)

/-- Two generators whose positions do not form a pending pair, after the step has taken another
pair from the queue. -/
theorem Sound.lcmRep_of_joins (hw : Sound n o I w) (hpop : w.queue.pop? = some (pair, queue))
    {i k : ℕ} {l : Polynomial K} (hik : i ≠ k)
    (hpair : ¬ (pair.low = i ∧ pair.high = k ∨ pair.low = k ∧ pair.high = i))
    (hi : w.basis.generators[i]? = some f) (hk : w.basis.generators[k]? = some l)
    (hjoins : queue.joins i k = false) :
    LcmRep (o.monomialOrder n) (values n w.basis.generators) (f.toMv n) (l.toMv n) := by
  have hnot := (PairQueue.joins_eq_false_iff hik).mp hjoins
  have hbefore : ∀ p : CriticalPair, (p.low = i ∧ p.high = k ∨ p.low = k ∧ p.high = i) →
      w.queue.contains p = false := fun p hp => by
    refine Bool.eq_false_iff.mpr fun hin => Bool.eq_false_iff.mp (hnot p hp) ?_
    exact (DistinctQueue.contains_rest hpop).mpr ⟨fun heq => hpair (heq ▸ hp), hin⟩
  rcases Nat.lt_or_gt_of_ne hik with hlt | hlt
  · exact hw.lcmRep (p := ⟨i, k, hlt⟩) hi hk (hbefore _ (.inl ⟨rfl, rfl⟩))
  · exact (hw.lcmRep (p := ⟨k, i, hlt⟩) hk hi (hbefore _ (.inr ⟨rfl, rfl⟩))).symm

/-- Whatever the verdict on a pair, it gives the pair an lcm representation. -/
theorem Sound.lcmRep_of_judged (hw : Sound n o I w) (hpop : w.queue.pop? = some (pair, queue))
    (hf : w.basis.generators[pair.low]? = some f) (hg : w.basis.generators[pair.high]? = some g)
    (h : Judged { w with queue } pair f g v) :
    LcmRep (o.monomialOrder n) (values n (w.basis.generators ++ v.added)) (f.toMv n)
      (g.toMv n) := by
  have hfmem := List.mem_of_getElem? hf
  have hgmem := List.mem_of_getElem? hg
  have hfproper := hw.proper.proper f hfmem
  have hgproper := hw.proper.proper g hgmem
  have hsub : values n w.basis.generators ⊆ values n (w.basis.generators ++ v.added) := by
    rw [values_append]
    exact Set.subset_union_left
  cases h with
  | @coprime t u ht hu _ hcoprime =>
    refine (LcmRep.of_coprime (toMv_mem_values hfmem) (toMv_mem_values hgmem) ?_).mono hsub
    rw [hfproper.degree_toMv ht, hgproper.degree_toMv hu]
    exact Monomial.inf_exps_eq_zero (hfproper.leadingTerm_arity ht)
      (hgproper.leadingTerm_arity hu) hcoprime
  | @linked t u m ht hu hm _ hchain =>
    obtain ⟨k, l, hk, hlow, hhigh, hdvd, hjoinsLow, hjoinsHigh⟩ := chainCriterion_iff.mp hchain
    have hlmem := List.mem_of_getElem? hk
    have hlproper := hw.proper.proper l hlmem
    have hfl := hw.lcmRep_of_joins hpop hlow.symm (by have := pair.low_lt_high; omega) hf hk
      hjoinsLow
    have hgl := hw.lcmRep_of_joins hpop hhigh.symm (by have := pair.low_lt_high; omega) hg hk
      hjoinsHigh
    refine (LcmRep.of_chain hfl hgl (hlproper.toMv_ne_zero (hw.proper.nonzero l hlmem)) ?_).mono
      hsub
    have hta := hfproper.leadingTerm_arity ht
    rw [hfproper.degree_toMv ht, hgproper.degree_toMv hu, ← Monomial.exps_lcm hta hm]
    exact (hlproper.leadDivides_iff (hw.proper.nonzero l hlmem)
      ((Monomial.arity_lcm hm).trans hta)).mp hdvd
  | settled hreduces =>
    obtain ⟨r, hr, hz⟩ := hreduces
    exact hw.proper.lcmRep_of_pairRemainder hfmem hgmem hr (.inl hz) hsub
  | remainder hr hz =>
    exact hw.proper.lcmRep_of_pairRemainder hfmem hgmem hr
      (.inr (List.mem_append_right _ List.mem_cons_self)) hsub

theorem Sound.step (hw : Sound n o I w) (h : w.step.2 = .ok true) : Sound n o I w.step.1 := by
  obtain ⟨pair, queue, v, htaken⟩ := exists_taken h
  obtain ⟨f, g, hf, hg, hjudged⟩ := htaken.exists_judged
  have hbasis : w.step.1.basis.Proper n o ∧
      idealOf n w.step.1.basis.generators = idealOf n w.basis.generators := by
    rw [htaken.basis_eq]
    cases hjudged with
    | remainder hr hz =>
      obtain ⟨hrproper, hmem⟩ := hw.proper.pairRemainder_mem (List.mem_of_getElem? hf)
        (List.mem_of_getElem? hg) hr
      exact hw.proper.append hrproper hz hmem
    | _ => simpa [Verdict.added] using hw.proper
  refine ⟨hbasis.1, htaken.listed hw.listed, hbasis.2.trans hw.ideal_eq, ?_⟩
  intro p f' g' hf' hg' hnot
  obtain ⟨hf', hg', hcases⟩ := htaken.of_not_pending hf' hg' hnot
  rw [htaken.basis_eq]
  rcases hcases with rfl | hbefore
  · obtain rfl : f = f' := Option.some.inj (hf.symm.trans hf')
    obtain rfl : g = g' := Option.some.inj (hg.symm.trans hg')
    exact hw.lcmRep_of_judged htaken.pop hf hg hjudged
  · refine (hw.lcmRep hf' hg' hbefore).mono ?_
    rw [values_append]
    exact Set.subset_union_left

/-- A worklist that ends has computed a Gröbner basis. -/
theorem isGroebner_of_finish {b : Basis K} {settings : Settings} {c : Completion K}
    (hb : b.Proper n o) (h : (Run.worklist (start settings b)).finish = .ok c) :
    c.basis.Proper n o ∧ IsGroebner (o.monomialOrder n) (idealOf n b.generators)
      (values n c.basis.generators) := by
  obtain ⟨last, hlast, hfalse, rfl⟩ := Run.exists_last_worklist
    (fun w hw => Sound.step hw) (sound_start hb settings) h
  obtain ⟨hpop, hsame⟩ := step_eq_ok_false hfalse
  rw [hsame, ← hlast.ideal_eq]
  refine ⟨hlast.proper, hlast.proper.isGroebner fun {i j f g} hij hf hg => ?_⟩
  exact hlast.lcmRep (p := ⟨i, j, hij⟩) hf hg (hlast.listed.not_contains hpop _)

end Worklist

/-! ## Sweeps -/

namespace Sweep

variable {s s' : Sweep K} {I : Ideal (MvPolynomial (Fin n) K)}

/-- The generators generate `I`. -/
structure Sound (n : ℕ) (o : TermOrder) (I : Ideal (MvPolynomial (Fin n) K)) (s : Sweep K) :
    Prop where
  proper : s.basis.Proper n o
  ideal_eq : idealOf n s.basis.generators = I

theorem Sound.visit (hs : Sound n o I s) {f g : Polynomial K} (hf : f ∈ s.basis.generators)
    (hg : g ∈ s.basis.generators) (h : s.visit f g = (s', .ok ())) :
    Sound n o I s' ∧ s.basis.generators ⊆ s'.basis.generators := by
  cases (visit_eq_ok h).1 with
  | reduced _ hbasis =>
    rw [hbasis]
    exact ⟨⟨hbasis ▸ hs.proper, hbasis ▸ hs.ideal_eq⟩, List.Subset.refl _⟩
  | appended hpair hr hbasis =>
    obtain ⟨hrproper, hmem⟩ := hs.proper.pairRemainder_mem hf hg hpair
    obtain ⟨hproper, hideal⟩ := hs.proper.append hrproper hr hmem
    refine ⟨⟨hbasis ▸ hproper, ?_⟩, ?_⟩
    · rw [hbasis]
      exact hideal.trans hs.ideal_eq
    · rw [hbasis]
      exact List.subset_append_left _ _

theorem Sound.step (hs : Sound n o I s) {changed : Bool} (h : s.step.2 = .ok changed) :
    Sound n o I s.step.1 := by
  obtain ⟨before, after, -, hall, -, -⟩ := step_eq_ok h
  have hbegun : Sound n o I
      { s with counters := { s.counters with passes := s.counters.passes + 1 } } :=
    ⟨hs.proper, hs.ideal_eq⟩
  -- the pairs are those of the generators at the beginning, which are still there
  refine (visitAll_invariant
    (P := fun s' => Sound n o I s' ∧ s.basis.generators ⊆ s'.basis.generators)
    (fun s₁ s₂ x hx hs₁ hvisit => ?_) ⟨hbegun, List.Subset.refl _⟩ hall).1
  obtain ⟨hsound, hsub⟩ := hs₁
  obtain ⟨i, j, -, hf, hg⟩ := mem_laterPairs_iff.mp hx
  obtain ⟨hsound', hsub'⟩ := hsound.visit (hsub (List.mem_of_getElem? hf))
    (hsub (List.mem_of_getElem? hg)) hvisit
  exact ⟨hsound', List.Subset.trans hsub hsub'⟩

/-- Sweeps that end have computed a Gröbner basis. -/
theorem isGroebner_of_finish {b : Basis K} {settings : Settings} {c : Completion K}
    (hb : b.Proper n o) (h : (Run.sweep (start settings b)).finish = .ok c) :
    c.basis.Proper n o ∧ IsGroebner (o.monomialOrder n) (idealOf n b.generators)
      (values n c.basis.generators) := by
  obtain ⟨last, hlast, hfalse, rfl⟩ := Run.exists_last_sweep
    (fun s hs htrue => Sound.step hs htrue) (s := start settings b) ⟨hb, rfl⟩ h
  obtain ⟨hsame, hgroebner⟩ := isGroebner_of_step hfalse
  have hbasis : (Run.sweep last.step.1).completion.basis = last.basis := hsame
  have hideal : idealOf n b.generators = idealOf n last.basis.generators := hlast.ideal_eq.symm
  rw [hbasis, hideal]
  exact ⟨hlast.proper, hlast.proper.isGroebner_of_eq_ok hgroebner⟩

end Sweep

/-- A completion that ends has computed a Gröbner basis, whatever the settings. -/
theorem Basis.Proper.complete {b : Basis K} {settings : Settings} {c : Completion K}
    (hb : b.Proper n o) (h : b.complete settings = .ok c) :
    c.basis.Proper n o ∧ IsGroebner (o.monomialOrder n) (idealOf n b.generators)
      (values n c.basis.generators) := by
  unfold Basis.complete Run.start at h
  cases hstrategy : settings.strategy with
  | sweep =>
    rw [hstrategy] at h
    exact Sweep.isGroebner_of_finish hb h
  | worklist =>
    rw [hstrategy] at h
    exact Worklist.isGroebner_of_finish hb h

end PolyIdeal
