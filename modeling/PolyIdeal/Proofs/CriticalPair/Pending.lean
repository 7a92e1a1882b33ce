import Mathlib.Data.List.FinRange
import Mathlib.Data.Nat.Choose.Basic
import PolyIdeal.CriticalPair.Criteria
import PolyIdeal.Proofs.DistinctQueue

/-!
# Which pairs are pending

A pair of generators number `i < j` is formed when generator `j` arrives. The queue of all pairs
of `n` generators therefore holds the pairs whose larger position is below `n`, each once, and the
pairs that generator `n` adds are those whose larger position is `n`. A third generator stands
between the two of a pair if neither of its pairs with them is pending: `chainCriterion_iff`.
-/

namespace PolyIdeal

namespace CriticalPair

/-- The pairs of generator `n` are those with the larger position `n`. -/
theorem mem_withEarlier_iff {n : ℕ} {p : CriticalPair} : p ∈ withEarlier n ↔ p.high = n := by
  unfold withEarlier
  rw [List.mem_ofFn]
  constructor
  · rintro ⟨k, rfl⟩
    rfl
  · rintro rfl
    exact ⟨⟨p.low, p.low_lt_high⟩, rfl⟩

theorem length_withEarlier (n : ℕ) : (withEarlier n).length = n := List.length_ofFn

/-- The pairs of `n` generators are those with the larger position below `n`. -/
theorem mem_all_iff {n : ℕ} {p : CriticalPair} : p ∈ all n ↔ p.high < n := by
  unfold all
  simp only [List.mem_flatMap, List.mem_range, mem_withEarlier_iff]
  exact ⟨fun ⟨m, hm, hp⟩ => hp ▸ hm, fun h => ⟨p.high, h, rfl⟩⟩

/-- The pairs of a new generator stand behind those of the others. -/
theorem all_succ (n : ℕ) : all (n + 1) = all n ++ withEarlier n := by
  rw [all, List.range_succ, List.flatMap_append, List.flatMap_singleton]
  rfl

theorem nodup_withEarlier (n : ℕ) : (withEarlier n).Nodup := by
  refine List.nodup_ofFn.mpr fun k l h => ?_
  exact Fin.ext (congrArg low h)

/-- No pair occurs twice. -/
theorem nodup_all (n : ℕ) : (all n).Nodup := by
  induction n with
  | zero => exact List.nodup_nil
  | succ n ih =>
    rw [all_succ]
    refine List.nodup_append.mpr ⟨ih, nodup_withEarlier n, fun p hp q hq hpq => ?_⟩
    rw [mem_all_iff] at hp
    rw [mem_withEarlier_iff, ← hpq] at hq
    omega

/-- There are as many pairs as ways to choose two of `n`. -/
theorem length_all (n : ℕ) : (all n).length = n * (n - 1) / 2 := by
  induction n with
  | zero => rfl
  | succ n ih => rw [all_succ, List.length_append, ih, length_withEarlier, Nat.triangle_succ]

/-- Each pair of `n` generators stands once in the list of all of them. -/
theorem count_all {n : ℕ} {p : CriticalPair} (h : p.high < n) : (all n).count p = 1 :=
  List.count_eq_one_of_mem (nodup_all n) (mem_all_iff.mpr h)

end CriticalPair

namespace PairQueue

open DistinctQueue

variable {q : PairQueue} {p : CriticalPair}

/-- The queue of all pairs of `n` generators. -/
theorem contains_ofAll {n : ℕ} : (ofAll n).contains p = true ↔ p.high < n := by
  rw [ofAll, contains_extend, CriticalPair.mem_all_iff, contains_empty]
  simp

theorem listed_ofAll (n : ℕ) : (ofAll n).Listed := listed_empty.extend _

theorem faithful_ofAll (n : ℕ) : (ofAll n).Faithful := faithful_empty.extend _

/-- The pairs are queued in the order of the list. -/
theorem toList_ofAll (n : ℕ) : (ofAll n).toList = CriticalPair.all n :=
  toList_extend (CriticalPair.nodup_all n) fun p _ => contains_empty p

/-! ## Pairs by position -/

/-- Two positions that do not form a pending pair. -/
theorem joins_eq_false_iff {a b : ℕ} (hab : a ≠ b) : q.joins a b = false ↔
    ∀ p : CriticalPair, (p.low = a ∧ p.high = b ∨ p.low = b ∧ p.high = a) →
      q.contains p = false := by
  unfold joins CriticalPair.of
  rcases Nat.lt_or_gt_of_ne hab with hlt | hlt
  · rw [dif_pos hlt]
    constructor
    · rintro h ⟨low, high, hp⟩ (⟨rfl, rfl⟩ | ⟨rfl, rfl⟩)
      · exact h
      · exact absurd hlt (Nat.lt_asymm hp)
    · exact fun h => h ⟨a, b, hlt⟩ (.inl ⟨rfl, rfl⟩)
  · rw [dif_neg (Nat.lt_asymm hlt), dif_pos hlt]
    constructor
    · rintro h ⟨low, high, hp⟩ (⟨rfl, rfl⟩ | ⟨rfl, rfl⟩)
      · exact absurd hlt (Nat.lt_asymm hp)
      · exact h
    · exact fun h => h ⟨b, a, hlt⟩ (.inr ⟨rfl, rfl⟩)

end PairQueue

/-! ## The chain criterion -/

/-- The chain criterion names a third generator whose pairs with the two are not pending. -/
theorem chainCriterion_iff {K : Type} {pair : CriticalPair} {lcm : Monomial}
    {gs : List (Polynomial K)} {queue : PairQueue} : chainCriterion pair lcm gs queue = true ↔
      ∃ k g, gs[k]? = some g ∧ k ≠ pair.low ∧ k ≠ pair.high ∧ g.leadDivides lcm = true ∧
        queue.joins pair.low k = false ∧ queue.joins pair.high k = false := by
  unfold chainCriterion linksPair
  simp only [List.any_eq_true, Prod.exists, List.mem_zipIdx_iff_getElem?, Bool.and_eq_true,
    bne_iff_ne, Bool.not_eq_true']
  constructor
  · rintro ⟨g, k, hk, ⟨⟨⟨hlow, hhigh⟩, hdvd⟩, hl⟩, hh⟩
    exact ⟨k, g, hk, hlow, hhigh, hdvd, hl, hh⟩
  · rintro ⟨k, g, hk, hlow, hhigh, hdvd, hl, hh⟩
    exact ⟨g, k, hk, ⟨⟨⟨hlow, hhigh⟩, hdvd⟩, hl⟩, hh⟩

end PolyIdeal
