import Mathlib.Logic.Function.Iterate
import PolyIdeal.Proofs.Completion.Taking

/-!
# The history of a worklist

The states of a worklist are numbered by the steps that lead to them, and a step counts whether
it succeeds or fails. Over such a history a pair of generators is queued when the second of them
arrives, is pending for a while, and leaves once. So at any moment every pair of the present
generators is either pending or was taken by an earlier step, and no pair is taken twice.
-/

namespace PolyIdeal

variable {K : Type} [Scalar K]

namespace Worklist

variable {w : Worklist K} {p : CriticalPair} {s t : ℕ}

/-- The state after `k` steps. -/
def after (w : Worklist K) (k : ℕ) : Worklist K := (fun w => w.step.1)^[k] w

theorem after_succ (w : Worklist K) (k : ℕ) : w.after (k + 1) = (w.after k).step.1 :=
  Function.iterate_succ_apply' _ k w

/-- Step number `t` takes the pair `p` from the queue. -/
def PopsAt (w : Worklist K) (t : ℕ) (p : CriticalPair) : Prop :=
  ∃ queue, (w.after t).queue.pop? = some (p, queue)

/-- A step takes a pair, or there is none and nothing changes. -/
theorem after_cases (w : Worklist K) (t : ℕ) :
    ((w.after t).queue.pop? = none ∧ w.after (t + 1) = w.after t) ∨
      ∃ pair queue added, Pops (w.after t) (w.after (t + 1)) pair queue added := by
  rw [after_succ]
  rcases step_cases (w.after t) with ⟨hnone, hsame, -⟩ | ⟨_, _, _, htaken, -⟩ |
    ⟨_, _, _, hfailed, -⟩
  · exact .inl ⟨hnone, hsame⟩
  · exact .inr ⟨_, _, _, htaken.pops⟩
  · exact .inr ⟨_, _, _, hfailed.pops⟩

theorem WellQueued.after (hw : w.WellQueued) (t : ℕ) : (w.after t).WellQueued := by
  induction t with
  | zero => exact hw
  | succ t ih =>
    rcases after_cases w t with ⟨-, hsame⟩ | ⟨pair, queue, added, hpops⟩
    · rw [hsame]
      exact ih
    · exact hpops.wellQueued ih

/-- The pair that a step takes was pending until then. -/
theorem PopsAt.contains (h : w.PopsAt t p) (hw : w.WellQueued) :
    (w.after t).queue.contains p = true := by
  obtain ⟨queue, hpop⟩ := h
  exact (hw.after t).faithful.contains_first hpop

/-- A pair that has left does not come back: its generators are there already, and a pair is
queued only when the second of them arrives. -/
theorem PopsAt.not_contains (h : w.PopsAt s p) (hw : w.WellQueued) (hst : s < t) :
    p.high < (w.after t).basis.size ∧ (w.after t).queue.contains p = false := by
  -- on the steps since: a step removes pairs and adds only pairs of a generator that was not there
  induction t, hst using Nat.le_induction with
  | base =>
    have hhigh := (hw.after s).high_lt (h.contains hw)
    obtain ⟨queue, hpop⟩ := h
    rcases after_cases w s with ⟨hnone, -⟩ | ⟨pair, queue', added, hpops⟩
    · rw [hpop] at hnone
      cases hnone
    · obtain ⟨rfl, rfl⟩ := Prod.mk.inj (Option.some.inj (hpop.symm.trans hpops.pop))
      exact hpops.not_pending_iff.mpr ⟨hhigh, .inl rfl⟩
  | succ t _ ih =>
    rcases after_cases w t with ⟨-, hsame⟩ | ⟨pair, queue, added, hpops⟩
    · rw [hsame]
      exact ih
    · exact hpops.not_pending_iff.mpr (ih.imp_right .inr)

/-- No pair is taken twice. -/
theorem PopsAt.unique (hw : w.WellQueued) (hs : w.PopsAt s p) (ht : w.PopsAt t p) : s = t := by
  by_contra hne
  rcases Nat.lt_or_gt_of_ne hne with hlt | hlt
  · exact Bool.eq_false_iff.mp (hs.not_contains hw hlt).2 (ht.contains hw)
  · exact Bool.eq_false_iff.mp (ht.not_contains hw hlt).2 (hs.contains hw)

/-- Every pair of the present generators is pending or has been taken. -/
theorem contains_or_popsAt (settings : Settings) (b : Basis K) {t : ℕ}
    (hp : p.high < ((start settings b).after t).basis.size) :
    ((start settings b).after t).queue.contains p = true ∨
      ∃ s < t, (start settings b).PopsAt s p := by
  induction t with
  | zero => exact .inl (PairQueue.contains_ofAll.mpr hp)
  | succ t ih =>
    have hearlier : (∃ s < t, (start settings b).PopsAt s p) →
        ∃ s < t + 1, (start settings b).PopsAt s p :=
      fun ⟨s, hs, hpops⟩ => ⟨s, Nat.lt_succ_of_lt hs, hpops⟩
    rcases after_cases (start settings b) t with ⟨-, hsame⟩ | ⟨pair, queue, added, hpops⟩
    · rw [hsame] at hp ⊢
      exact (ih hp).imp_right hearlier
    · -- not pending after the step: taken by it, or not pending before it either
      refine or_iff_not_imp_left.mpr fun hnot => ?_
      obtain ⟨hold, rfl | hbefore⟩ := hpops.not_pending_iff.mp ⟨hp, Bool.eq_false_iff.mpr hnot⟩
      · exact ⟨t, Nat.lt_succ_self t, queue, hpops.pop⟩
      · exact hearlier ((ih hold).resolve_left (Bool.eq_false_iff.mp hbefore))

end Worklist
end PolyIdeal
