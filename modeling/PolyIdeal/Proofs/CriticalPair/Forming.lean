import PolyIdeal.CriticalPair.Criteria
import PolyIdeal.Proofs.Fault.Outcome

/-!
# Pairs are formed from distinct positions

`CriticalPair.of` refuses to form a pair from one position. A completion forms pairs on two
occasions: a new generator with each earlier one, and a generator that might stand between the two
of a pair with each of them. Here both are written with `CriticalPair.of` in every place, so that a
refusal would be reported, and neither ever reports one.
-/

namespace PolyIdeal

/-- The pairs of generator number `n` are formed without a refusal. -/
theorem CriticalPair.mapM_of (n : ℕ) :
    (List.range n).mapM (fun k => CriticalPair.of k n) = .ok (CriticalPair.withEarlier n) := by
  rw [mapM_eq_ok_iff, List.forall₂_iff_get]
  refine ⟨by simp [withEarlier], fun i hi hi' => ?_⟩
  have hlt : i < n := by simpa using hi
  simp [withEarlier, of, hlt]

namespace PairQueue

/-- Whether the pair of two positions is pending, if they form one. -/
def joinsFormed (q : PairQueue) (a b : ℕ) : Except Fault Bool := do
  return q.contains (← CriticalPair.of a b)

theorem joinsFormed_of_ne (q : PairQueue) {a b : ℕ} (h : a ≠ b) :
    q.joinsFormed a b = .ok (q.joins a b) := by
  unfold joinsFormed joins CriticalPair.of
  split
  next => rfl
  next =>
    split
    next => rfl
    next => omega

end PairQueue

variable {K : Type}

/-- `linksPair`, with the pairs that it asks for formed one by one. -/
def linksPairFormed (pair : CriticalPair) (lcm : Monomial) (queue : PairQueue) (k : ℕ)
    (g : Polynomial K) : Except Fault Bool := do
  if k != pair.low && k != pair.high && g.leadDivides lcm then
    if ← queue.joinsFormed pair.low k then return false
    else return !(← queue.joinsFormed pair.high k)
  else return false

/-- `chainCriterion`, with the pairs that it asks for formed one by one. -/
def chainCriterionFormed (pair : CriticalPair) (lcm : Monomial)
    (generators : List (Polynomial K)) (queue : PairQueue) : Except Fault Bool :=
  generators.zipIdx.anyM fun (g, k) => linksPairFormed pair lcm queue k g

theorem linksPairFormed_eq (pair : CriticalPair) (lcm : Monomial) (queue : PairQueue) (k : ℕ)
    (g : Polynomial K) :
    linksPairFormed pair lcm queue k g = .ok (linksPair pair lcm queue k g) := by
  unfold linksPairFormed linksPair
  split
  next h =>
    rw [h]
    simp only [Bool.and_eq_true, bne_iff_ne] at h
    rw [queue.joinsFormed_of_ne h.1.1.symm, queue.joinsFormed_of_ne h.1.2.symm]
    cases queue.joins pair.low k <;> rfl
  next h =>
    rw [Bool.eq_false_iff.mpr h]
    rfl

/-- The chain criterion never asks for a pair of a generator with itself. -/
theorem chainCriterionFormed_eq (pair : CriticalPair) (lcm : Monomial)
    (generators : List (Polynomial K)) (queue : PairQueue) :
    chainCriterionFormed pair lcm generators queue =
      .ok (chainCriterion pair lcm generators queue) := by
  unfold chainCriterionFormed chainCriterion
  simp only [linksPairFormed_eq]
  exact List.anyM_pure

end PolyIdeal
