import Mathlib.Data.List.Sort
import PolyIdeal.StableSort

/-!
# Sorted lists come out sorted

The sort is `List.insertionSort` at the relation "is not preceded by", and what the library knows
of that sort carries over. The relation compares ranks in a linear order only on the entries of the
list at hand; on others it need not even be transitive. So it is the list of ranks to which the
library's theorem applies: larger ranks come out in front, `pairwise_sort`. Ascending sorts are the
same statement in the dual order. If no two different entries have the same rank, sorting leaves
nothing of the order of the input: `sort_eq_of_perm`.

Entries that do not precede each other stay in input order. Picked out of the sorted list, they are
what they were in the input: `filter_sort`.
-/

namespace PolyIdeal.StableSort

variable {α R : Type} {precedes : α → α → Bool}

theorem insert_eq_orderedInsert (x : α) (ys : List α) :
    insert precedes x ys = ys.orderedInsert (fun x y => precedes y x = false) x := by
  induction ys with
  | nil => rfl
  | cons y ys ih =>
    rw [insert, List.orderedInsert_cons, ih]
    cases precedes y x <;> rfl

/-- The sort is the library's insertion sort. -/
theorem sort_eq_insertionSort (xs : List α) :
    sort precedes xs = xs.insertionSort fun x y => precedes y x = false := by
  induction xs with
  | nil => rfl
  | cons x xs ih => rw [sort, ih, insert_eq_orderedInsert, List.insertionSort_cons]

/-- Sorting rearranges. -/
theorem perm_sort (precedes : α → α → Bool) (xs : List α) : (sort precedes xs).Perm xs := by
  rw [sort_eq_insertionSort]
  exact List.perm_insertionSort _ xs

/-- A list in which nothing precedes what stands in front of it is sorted. -/
theorem sort_eq_self {xs : List α} (h : xs.Pairwise fun x y => precedes y x = false) :
    sort precedes xs = xs := by
  rw [sort_eq_insertionSort]
  exact h.insertionSort_eq

/-! ## Ranks -/

section Ranks

variable [LinearOrder R] {rank : α → R} {xs ys : List α}

/-- A sort by rank puts larger ranks in front. -/
theorem pairwise_sort
    (hr : ∀ x ∈ xs, ∀ y ∈ xs, precedes x y = true ↔ rank y < rank x) :
    (sort precedes xs).Pairwise fun x y => rank y ≤ rank x := by
  have hranks : (sort precedes xs).map rank = (xs.map rank).insertionSort (· ≥ ·) := by
    rw [sort_eq_insertionSort]
    refine List.map_insertionSort _ _ rank xs fun x hx y hy => ?_
    rw [← Bool.not_eq_true, hr y hy x hx, not_lt]
  have hsorted := List.pairwise_insertionSort (· ≥ ·) (xs.map rank)
  rwa [← hranks, List.pairwise_map] at hsorted

/-- If entries of one rank are equal, the sort forgets the order of the input. -/
theorem sort_eq_of_perm
    (hr : ∀ x ∈ xs, ∀ y ∈ xs, precedes x y = true ↔ rank y < rank x)
    (hinj : ∀ x ∈ xs, ∀ y ∈ xs, rank x = rank y → x = y) (h : xs.Perm ys) :
    sort precedes xs = sort precedes ys := by
  have hys := h.symm.subset
  have hxsort := pairwise_sort hr
  have hysort : (sort precedes ys).Pairwise fun x y => rank y ≤ rank x :=
    pairwise_sort fun x hx y hy => hr x (hys hx) y (hys hy)
  have hperm := (perm_sort precedes xs).trans (h.trans (perm_sort precedes ys).symm)
  refine hperm.eq_of_pairwise (fun x y hx hy hxy hyx => ?_) hxsort hysort
  exact hinj x ((perm_sort precedes xs).subset hx) y (hys ((perm_sort precedes ys).subset hy))
    (le_antisymm hyx hxy)

end Ranks

/-! ## Stability -/

/-- What is picked out of a sorted list stands as it did in the input, if nothing that is picked
precedes anything else that is. -/
theorem filter_sort {P : α → Bool} {xs : List α}
    (h : ∀ x ∈ xs, ∀ y ∈ xs, P x = true → P y = true → precedes x y = false) :
    (sort precedes xs).filter P = xs.filter P := by
  have hpicked : (xs.filter P).Pairwise fun x y => precedes y x = false := by
    refine List.pairwise_of_forall_mem_list fun x hx y hy => ?_
    obtain ⟨hx, hPx⟩ := List.mem_filter.mp hx
    obtain ⟨hy, hPy⟩ := List.mem_filter.mp hy
    exact h y hy x hx hPy hPx
  have hsub : (xs.filter P).Sublist (sort precedes xs) := by
    rw [sort_eq_insertionSort]
    exact List.sublist_insertionSort hpicked List.filter_sublist
  have hfilter := hsub.filter P
  simp only [List.filter_filter, Bool.and_self] at hfilter
  exact (hfilter.eq_of_length ((perm_sort precedes xs).filter P).length_eq.symm).symm

end PolyIdeal.StableSort
