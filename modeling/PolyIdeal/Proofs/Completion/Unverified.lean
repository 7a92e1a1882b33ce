import PolyIdeal.Proofs.Completion.History
import PolyIdeal.Proofs.Completion.Repetition
import PolyIdeal.Scalar.Rational

/-!
# What a worklist leaves unverified

A worklist looks at each pair once. A pair whose S-polynomial left nothing over at that time still
leaves nothing over at the end, whatever the coefficients are, since a basis only grows at its
end. The other pairs are not looked at again: those that a criterion skipped, and those whose
remainder became a generator. That they reduce to zero is a theorem of exact arithmetic. With a
threshold it can fail, because the terms that are dropped differ between the two ways of computing
the same sum.

So the completed basis passes the check exactly when the pairs left open pass it:
`isGroebner_complete_iff`. A basis where they do not is `skewForms`.
-/

namespace PolyIdeal

variable {K : Type} [Scalar K] {n : ℕ} {o : TermOrder}

namespace Worklist

/-- The step from `w` takes `pair` and does not find that it reduces to zero: a criterion skips
it, or its remainder becomes a generator. -/
def LeavesOpen (w : Worklist K) (pair : CriticalPair) : Prop :=
  ∃ queue v, w.queue.pop? = some (pair, queue) ∧
    ({ w with queue } : Worklist K).judge pair = .ok v ∧ v ≠ .settled

/-- Every pair that is not pending has been left open or reduces to zero. -/
structure ReducesUnlessOpen (n : ℕ) (o : TermOrder) (isOpen : CriticalPair → Prop)
    (w : Worklist K) : Prop where
  fits : w.basis.Fits n o
  listed : w.queue.Listed
  reduces : ∀ {p : CriticalPair} {f g : Polynomial K}, w.basis.generators[p.low]? = some f →
    w.basis.generators[p.high]? = some g → w.queue.contains p = false →
      isOpen p ∨ w.basis.ReducesPair f g

variable {w : Worklist K} {isOpen : CriticalPair → Prop}

theorem reducesUnlessOpen_start {b : Basis K} (hb : b.Fits n o) (settings : Settings) :
    ReducesUnlessOpen n o isOpen (start settings b) where
  fits := hb
  listed := PairQueue.listed_ofAll _
  reduces _ hg hnot := absurd (contains_start hg) (Bool.eq_false_iff.mp hnot)

/-- A step leaves the pair it takes open or finds that it reduces, and queues the pairs it makes. -/
theorem ReducesUnlessOpen.step (hw : ReducesUnlessOpen n o isOpen w)
    (hopen : ∀ p, w.LeavesOpen p → isOpen p) (h : w.step.2 = .ok true) :
    ReducesUnlessOpen n o isOpen w.step.1 := by
  obtain ⟨pair, queue, v, htaken⟩ := exists_taken h
  obtain ⟨hfits, hadded⟩ := htaken.fits hw.fits
  refine ⟨hfits, htaken.listed hw.listed, fun {p f g} hf hg hnot => ?_⟩
  obtain ⟨hf, hg, hcases⟩ := htaken.of_not_pending hf hg hnot
  rw [htaken.basis_eq]
  have hffits := hw.fits.generators f (List.mem_of_getElem? hf)
  have hgfits := hw.fits.generators g (List.mem_of_getElem? hg)
  rcases hcases with rfl | hbefore
  · obtain ⟨f', g', hf', hg', hjudged⟩ := htaken.exists_judged
    obtain rfl : f' = f := Option.some.inj (hf'.symm.trans hf)
    obtain rfl : g' = g := Option.some.inj (hg'.symm.trans hg)
    cases hv : hjudged with
    | settled hreduces => exact .inr (Basis.ReducesPair.append hffits hgfits hadded hreduces)
    | _ => exact .inl (hopen p ⟨queue, _, htaken.pop, htaken.judged, by simp⟩)
  · exact (hw.reduces hf hg hbefore).imp_right (.append hffits hgfits hadded)

/-- The check on a completed basis comes down to the pairs that the run left open. -/
theorem isGroebner_complete_iff {b : Basis K} {settings : Settings} {c : Completion K}
    (hb : b.Fits n o) (hstrategy : settings.strategy = .worklist)
    (h : b.complete settings = .ok c) :
    c.basis.isGroebner = .ok true ↔
      ∀ (k : ℕ) (p : CriticalPair) (f g : Polynomial K),
        ((start settings b).after k).LeavesOpen p → c.basis.generators[p.low]? = some f →
          c.basis.generators[p.high]? = some g → c.basis.ReducesPair f g := by
  rw [Basis.complete, Run.start, hstrategy] at h
  -- the invariant names the step at which a pair was left open, so it keeps the state's number
  obtain ⟨last, ⟨-, -, hlast⟩, hfalse, rfl⟩ := Run.exists_last_worklist
    (P := fun w => ∃ k, w = (start settings b).after k ∧
      ReducesUnlessOpen n o (fun p => ∃ k, ((start settings b).after k).LeavesOpen p) w)
    (by
      rintro _ ⟨k, rfl, hw⟩ htrue
      exact ⟨k + 1, (after_succ _ k).symm, hw.step (fun p hp => ⟨k, hp⟩) htrue⟩)
    ⟨0, rfl, reducesUnlessOpen_start hb settings⟩ h
  obtain ⟨hpop, hsame⟩ := step_eq_ok_false hfalse
  rw [hsame, Basis.isGroebner_eq_ok_true_iff]
  constructor
  · exact fun hall k p f g _ hf hg => hall p.low_lt_high hf hg
  · intro hall i j f g hij hf hg
    rcases hlast.reduces (p := ⟨i, j, hij⟩) hf hg (hlast.listed.not_contains hpop _) with
      ⟨k, hk⟩ | hreduces
    · exact hall k _ f g hk hf hg
    · exact hreduces

/-- The forms `x - 0.0005 z + 0.0012 w` and `y + 0.1 z + 0.1 w`. Their leading monomials are
coprime, but the products of their small coefficients straddle the threshold. -/
def skewForms : Basis Rat :=
  ⟨4, .lex,
    [⟨4, .lex, 1 / 10000,
      [⟨⟨[1, 0, 0, 0]⟩, 1⟩, ⟨⟨[0, 0, 1, 0]⟩, -5 / 10000⟩, ⟨⟨[0, 0, 0, 1]⟩, 12 / 10000⟩]⟩,
    ⟨4, .lex, 1 / 10000,
      [⟨⟨[0, 1, 0, 0]⟩, 1⟩, ⟨⟨[0, 0, 1, 0]⟩, 1 / 10⟩, ⟨⟨[0, 0, 0, 1]⟩, 1 / 10⟩]⟩]⟩

theorem fits_skewForms : skewForms.Fits 4 .lex := by decide

/-- The product criterion skips the only pair of the skew forms, and the completed basis fails the
check: a pair was left open that does not reduce to zero. -/
theorem not_isGroebner_skewForms : ∃ c, skewForms.complete {} = .ok c ∧
    c.basis.isGroebner = .ok false ∧
      ¬ ∀ (k : ℕ) (p : CriticalPair) (f g : Polynomial Rat),
        ((start {} skewForms).after k).LeavesOpen p → c.basis.generators[p.low]? = some f →
          c.basis.generators[p.high]? = some g → c.basis.ReducesPair f g := by
  have hrun : (skewForms.complete {}).map (·.basis.isGroebner) = .ok (.ok false) := by
    decide +kernel
  obtain ⟨c, hc, hfalse⟩ := map_eq_ok_iff.mp hrun
  refine ⟨c, hc, hfalse, fun hall => ?_⟩
  have htrue := (isGroebner_complete_iff fits_skewForms rfl hc).mpr hall
  rw [hfalse] at htrue
  cases htrue

end Worklist
end PolyIdeal
