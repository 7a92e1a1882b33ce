import PolyIdeal.CriticalPair.Basic
import PolyIdeal.DistinctQueue

/-!
# The queues of pending pairs

A completion queues critical pairs: `PairQueue`. The same queue takes any two positions as they
stand: `PositionQueue`. A question names two positions; what is looked up is the pair that `Pair.of`
forms from them, which has the smaller one first.
-/

namespace PolyIdeal

/-- Pending critical pairs. -/
abbrev PairQueue := DistinctQueue CriticalPair

namespace PairQueue

/-- The queue without pairs. -/
abbrev empty : PairQueue := DistinctQueue.empty

/-- The queue of all pairs of `n` generators. -/
def ofAll (n : Nat) : PairQueue := empty.extend (CriticalPair.all n)

/-- Whether two positions form a pending pair; a position with itself never does. -/
def joins (q : PairQueue) (a b : Nat) : Bool :=
  match CriticalPair.of a b with
  | .ok p => q.contains p
  | .error _ => false

end PairQueue

/-- Pending pairs of positions, whatever their order. -/
abbrev PositionQueue := DistinctQueue Pair

namespace PositionQueue

/-- The queue without pairs. -/
abbrev empty : PositionQueue := DistinctQueue.empty

/-- The queue of all pairs of `n` generators. -/
def ofAll (n : Nat) : PositionQueue := empty.extend ((CriticalPair.all n).map CriticalPair.toPair)

/-- Whether two positions, given in either order, form a pending pair. -/
def joins (q : PositionQueue) (a b : Nat) : Except Fault Bool := do
  return q.contains (← Pair.of a b)

end PositionQueue

end PolyIdeal
