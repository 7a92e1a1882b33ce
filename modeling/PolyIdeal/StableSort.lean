/-!
# Stable sorting

A sort that keeps the input order of elements neither of which precedes the other. It takes the
strict relation *precedes*, so "largest first" and "smallest first" are the same function at two
relations. Lists of terms and of generators are short, and insertion recurses on the list, so that
closed instances can be evaluated inside proofs; a merge sort, which recurses on a length, cannot.
The theory is that of the library's `List.insertionSort`.
-/

namespace PolyIdeal.StableSort

variable {α : Type}

/-- Puts `x` behind the leading run of elements that precede it. -/
def insert (precedes : α → α → Bool) (x : α) : List α → List α
  | [] => [x]
  | y :: ys => if precedes y x then y :: insert precedes x ys else x :: y :: ys

/-- Sorts a list; elements that do not precede each other stay in input order. -/
def sort (precedes : α → α → Bool) : List α → List α
  | [] => []
  | x :: xs => insert precedes x (sort precedes xs)

end PolyIdeal.StableSort
