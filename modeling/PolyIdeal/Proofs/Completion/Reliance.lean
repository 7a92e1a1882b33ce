import PolyIdeal.Proofs.Completion.History
import PolyIdeal.Scalar.Rational

/-!
# What a pair skipped by the chain criterion relies on

The chain criterion skips a pair on account of a third generator: the pairs of the two with that
generator are taken to have been dealt with. It only asks whether they are pending, which is also
false of a pair that was never queued. It is sound because every pair of the present generators
has been queued, so that one which is not pending was taken by an earlier step.

The step numbers therefore go down from a skipped pair to the pairs it relies on, whichever third
generator is looked at, and no pair is taken twice. So two pairs never account for each other, and
as long as no step fails the reliance ends at pairs that were dealt with for themselves.
-/

namespace PolyIdeal

variable {K : Type} [Scalar K]

/-- The pair of two positions, in either order. -/
def CriticalPair.Joins (q : CriticalPair) (a b : ℕ) : Prop :=
  q.low = a ∧ q.high = b ∨ q.low = b ∧ q.high = a

namespace Worklist

variable {w : Worklist K} {p q : CriticalPair} {s t k : ℕ} {v : Verdict K}

/-- Step number `t` takes the pair `p` and finds the verdict `v`. -/
def FindsAt (w : Worklist K) (t : ℕ) (p : CriticalPair) (v : Verdict K) : Prop :=
  ∃ queue, (w.after t).queue.pop? = some (p, queue) ∧
    ({ w.after t with queue } : Worklist K).judge p = .ok v

/-- Step number `t` skips the pair `p` by the chain criterion, and generator number `k` meets the
criterion: it is a third one, its leading monomial divides the least common multiple of the two
others, and neither of the pairs with it is left in the queue. -/
structure LinkedThrough (w : Worklist K) (t : ℕ) (p : CriticalPair) (k : ℕ) : Prop where
  finds : w.FindsAt t p .linked
  ne_low : k ≠ p.low
  ne_high : k ≠ p.high
  leads : ∃ f g h lcm, (w.after t).basis.generators[p.low]? = some f ∧
    (w.after t).basis.generators[p.high]? = some g ∧
    (w.after t).basis.generators[k]? = some h ∧
    (do (← f.leadingMonomial).lcm (← g.leadingMonomial)) = .ok lcm ∧ h.leadDivides lcm = true
  not_pending : ∀ queue : PairQueue, (w.after t).queue.pop? = some (p, queue) →
    queue.joins p.low k = false ∧ queue.joins p.high k = false

/-- The pair `p` is skipped by the chain criterion, and `q` is one of the two pairs with a third
generator that account for it. -/
def ReliesOn (w : Worklist K) (p q : CriticalPair) : Prop :=
  ∃ t k, w.LinkedThrough t p k ∧ (q.Joins p.low k ∨ q.Joins p.high k)

/-- The pair was dealt with: by the product criterion, by reducing to zero, by a generator that
was appended, or else through pairs that were. -/
inductive Grounded (w : Worklist K) : CriticalPair → Prop
  | coprime {p : CriticalPair} {t : ℕ} (h : w.FindsAt t p .coprime) : Grounded w p
  | settled {p : CriticalPair} {t : ℕ} (h : w.FindsAt t p .settled) : Grounded w p
  | answered {p : CriticalPair} {t : ℕ} {r : Polynomial K} (h : w.FindsAt t p (.remainder r))
      (happend : (w.after (t + 1)).basis.generators = (w.after t).basis.generators ++ [r]) :
      Grounded w p
  | linked {p : CriticalPair} {t : ℕ} (h : w.FindsAt t p .linked) (hsome : ∃ q, w.ReliesOn p q)
      (hall : ∀ q, w.ReliesOn p q → Grounded w q) : Grounded w p

theorem FindsAt.popsAt (h : w.FindsAt t p v) : w.PopsAt t p := by
  obtain ⟨queue, hpop, -⟩ := h
  exact ⟨queue, hpop⟩

/-- The chain criterion skips a pair on account of some generator. -/
theorem FindsAt.exists_linkedThrough (h : w.FindsAt t p .linked) : ∃ k, w.LinkedThrough t p k := by
  obtain ⟨queue, hpop, hjudge⟩ := h
  obtain ⟨f, g, hf, hg, hjudged⟩ := judge_eq_ok hjudge
  cases hjudged with
  | @linked a b m ha hb hm huse hchain =>
    obtain ⟨k, h, hk, hlow, hhigh, hdvd, hjl, hjh⟩ := chainCriterion_iff.mp hchain
    obtain ⟨as, has⟩ := Polynomial.leadingTerm_eq_ok_iff.mp ha
    obtain ⟨bs, hbs⟩ := Polynomial.leadingTerm_eq_ok_iff.mp hb
    refine ⟨k, ⟨queue, hpop, hjudge⟩, hlow, hhigh, ⟨f, g, h, m, hf, hg, hk, ?_, hdvd⟩, ?_⟩
    · rw [bind_of_eq_ok (Polynomial.leadingMonomial_eq_ok_iff.mpr ⟨a, as, has, rfl⟩),
        bind_of_eq_ok (Polynomial.leadingMonomial_eq_ok_iff.mpr ⟨b, bs, hbs, rfl⟩), hm]
    · intro queue' hpop'
      obtain ⟨-, rfl⟩ := Prod.mk.inj (Option.some.inj (hpop.symm.trans hpop'))
      exact ⟨hjl, hjh⟩

/-- A pair with a third generator that is not left in the queue was not pending before either. -/
theorem not_contains_of_joins {queue : PairQueue} {a : ℕ}
    (hpop : (w.after t).queue.pop? = some (p, queue)) (hq : q.Joins a k) (hak : a ≠ k)
    (hlow : k ≠ p.low) (hhigh : k ≠ p.high) (hjoins : queue.joins a k = false) :
    (w.after t).queue.contains q = false := by
  have hne : q ≠ p := by
    rintro rfl
    rcases hq with ⟨-, rfl⟩ | ⟨rfl, -⟩
    · exact hhigh rfl
    · exact hlow rfl
  have hnot := (PairQueue.joins_eq_false_iff hak).mp hjoins q hq
  refine Bool.eq_false_iff.mpr fun hin => Bool.eq_false_iff.mp hnot ?_
  exact (DistinctQueue.contains_rest hpop).mpr ⟨hne, hin⟩

section Start

variable {settings : Settings} {b : Basis K}

/-- The pairs that a skipped pair relies on were taken before it. -/
theorem LinkedThrough.popsAt_earlier (h : (start settings b).LinkedThrough t p k)
    (hq : q.Joins p.low k ∨ q.Joins p.high k) : ∃ s < t, (start settings b).PopsAt s q := by
  obtain ⟨queue, hpop, -⟩ := h.finds
  obtain ⟨f, g, third, m, hf, hg, hthird, -⟩ := h.leads
  have hlow := (List.getElem?_eq_some_iff.mp hf).1
  have hhigh := (List.getElem?_eq_some_iff.mp hg).1
  have hk := (List.getElem?_eq_some_iff.mp hthird).1
  obtain ⟨hjl, hjh⟩ := h.not_pending queue hpop
  have hsize : q.high < ((start settings b).after t).basis.size := by
    unfold Basis.size
    rcases hq with (⟨-, heq⟩ | ⟨-, heq⟩) | (⟨-, heq⟩ | ⟨-, heq⟩) <;> omega
  -- the criterion looks at the queue without `p`, and `q` is not `p`
  have hnot : ((start settings b).after t).queue.contains q = false := by
    rcases hq with hq | hq
    · exact not_contains_of_joins hpop hq h.ne_low.symm h.ne_low h.ne_high hjl
    · exact not_contains_of_joins hpop hq h.ne_high.symm h.ne_low h.ne_high hjh
  exact (contains_or_popsAt settings b hsize).resolve_left (Bool.eq_false_iff.mp hnot)

/-- Reliance goes back in time. Only one step takes a pair, so the step at which a pair is skipped
is the same in every reliance that starts from it. -/
theorem exists_popsAt_of_reliesOn (hp : (start settings b).PopsAt t p)
    (h : (start settings b).ReliesOn p q) : ∃ s < t, (start settings b).PopsAt s q := by
  obtain ⟨t', k, hlinked, hq⟩ := h
  obtain rfl := PopsAt.unique (wellQueued_start settings b) hp hlinked.finds.popsAt
  exact hlinked.popsAt_earlier hq

/-- No pair can be followed back for ever. -/
theorem wellFounded_reliesOn (settings : Settings) (b : Basis K) :
    WellFounded fun q p => (start settings b).ReliesOn p q := by
  -- on the number of the step that takes the pair; a pair that no step takes relies on none
  have hpopped : ∀ t p, (start settings b).PopsAt t p →
      Acc (fun q p => (start settings b).ReliesOn p q) p := by
    intro t
    induction t using Nat.strong_induction_on with
    | _ t ih =>
      intro p hp
      refine ⟨p, fun q hq => ?_⟩
      obtain ⟨s, hs, hqs⟩ := exists_popsAt_of_reliesOn hp hq
      exact ih s hs q hqs
  refine ⟨fun p => ⟨p, fun q hq => ?_⟩⟩
  obtain ⟨t, k, hlinked, hq'⟩ := hq
  obtain ⟨s, -, hqs⟩ := hlinked.popsAt_earlier hq'
  exact hpopped s q hqs

/-- As long as no step fails, every pair that was taken was dealt with. -/
theorem grounded_of_popsAt {T : ℕ}
    (hok : ∀ s < T, ∀ e, ((start settings b).after s).step.2 ≠ .error e) (ht : t < T)
    (hp : (start settings b).PopsAt t p) : (start settings b).Grounded p := by
  induction t using Nat.strong_induction_on generalizing p with
  | _ t ih =>
    obtain ⟨queue, hpop⟩ := id hp
    rcases step_cases ((start settings b).after t) with ⟨hnone, -, -⟩ | ⟨_, _, v, htaken, -⟩ |
      ⟨_, _, e, -, herror⟩
    · rw [hpop] at hnone
      cases hnone
    · obtain ⟨rfl, rfl⟩ := Prod.mk.inj (Option.some.inj (hpop.symm.trans htaken.pop))
      have hfinds : (start settings b).FindsAt t p v := ⟨queue, hpop, htaken.judged⟩
      cases v with
      | coprime => exact .coprime hfinds
      | settled => exact .settled hfinds
      | remainder r =>
        refine .answered hfinds ?_
        rw [after_succ, htaken.basis_eq]
        rfl
      | linked =>
        obtain ⟨k, hlinked⟩ := hfinds.exists_linkedThrough
        -- it relies on one pair at least, and all that it relies on were taken before
        refine .linked hfinds ⟨⟨min p.low k, max p.low k, ?_⟩, t, k, hlinked, .inl ?_⟩ ?_
        · have hne := hlinked.ne_low
          omega
        · unfold CriticalPair.Joins
          simp only
          omega
        · intro q hq
          obtain ⟨s, hs, hqs⟩ := exists_popsAt_of_reliesOn hp hq
          exact ih s hs (hs.trans ht) hqs
    · exact absurd herror (hok t ht e)

/-- The chain criterion is never circular. Whenever a step skips a pair by it, some third
generator meets it; for every generator that does, both pairs with it were pending in, and taken
by, strictly earlier steps. So reliance is well founded, in runs with failed steps too. In a run
without them it starts from every pair that is taken and ends at pairs that were coprime, reduced
to zero, or were answered by a new generator. No law of the coefficients is assumed. -/
theorem reliance_grounded (settings : Settings) (b : Basis K) :
    (∀ t p, (start settings b).FindsAt t p .linked →
      ∃ k, (start settings b).LinkedThrough t p k) ∧
    (∀ t p k q, (start settings b).LinkedThrough t p k → q.Joins p.low k ∨ q.Joins p.high k →
      ∃ s < t, ((start settings b).after s).queue.contains q = true ∧
        (start settings b).PopsAt s q) ∧
    (WellFounded fun q p => (start settings b).ReliesOn p q) ∧
    ∀ T, (∀ s < T, ∀ e, ((start settings b).after s).step.2 ≠ .error e) →
      ∀ t < T, ∀ p, (start settings b).PopsAt t p → (start settings b).Grounded p := by
  refine ⟨fun t p h => h.exists_linkedThrough, fun t p k q h hq => ?_,
    wellFounded_reliesOn settings b, fun T hok t ht p hp => grounded_of_popsAt hok ht hp⟩
  obtain ⟨s, hs, hpops⟩ := h.popsAt_earlier hq
  exact ⟨s, hs, hpops.contains (wellQueued_start settings b), hpops⟩

end Start

/-- The monomials `x * y`, `x ^ 2 * y` and `x * y ^ 2`. The first divides the least common
multiple of the other two. -/
def threeMonomials : Basis Rat :=
  ⟨2, .lex, [⟨2, .lex, 1 / 10000, [⟨⟨[1, 1]⟩, 1⟩]⟩, ⟨2, .lex, 1 / 10000, [⟨⟨[2, 1]⟩, 1⟩]⟩,
    ⟨2, .lex, 1 / 10000, [⟨⟨[1, 2]⟩, 1⟩]⟩]⟩

/-- The third step skips the pair of the last two monomials, which relies on the two pairs taken
before it. -/
theorem reliance_threeMonomials :
    (start {} threeMonomials).FindsAt 2 ⟨1, 2, by decide⟩ .linked ∧
      (∃ k, (start {} threeMonomials).LinkedThrough 2 ⟨1, 2, by decide⟩ k) ∧
        (∀ s < 3, ((start {} threeMonomials).after s).step.2 = .ok true) ∧
          (start {} threeMonomials).Grounded ⟨1, 2, by decide⟩ := by
  have hjudge : (match ((start {} threeMonomials).after 2).queue.pop? with
      | some (p, queue) =>
        decide (p = ⟨1, 2, by decide⟩) &&
          match ({ (start {} threeMonomials).after 2 with queue } : Worklist Rat).judge p with
          | .ok .linked => true
          | _ => false
      | none => false) = true := by decide +kernel
  have hfinds : (start {} threeMonomials).FindsAt 2 ⟨1, 2, by decide⟩ .linked := by
    split at hjudge
    next p queue hpop =>
      obtain ⟨hp, hlinked⟩ := Bool.and_eq_true_iff.mp hjudge
      obtain rfl := of_decide_eq_true hp
      refine ⟨queue, hpop, ?_⟩
      split at hlinked
      next h => exact h
      next => cases hlinked
    next => cases hjudge
  have hsteps : ∀ s < 3, ((start {} threeMonomials).after s).step.2 = .ok true := by
    decide +kernel
  obtain ⟨hexists, -, -, hgrounded⟩ := reliance_grounded {} threeMonomials
  refine ⟨hfinds, hexists 2 _ hfinds, hsteps,
    hgrounded 3 (fun s hs e he => ?_) 2 (by decide) _ hfinds.popsAt⟩
  rw [hsteps s hs] at he
  cases he

end Worklist
end PolyIdeal
