import PolyIdeal.CriticalPair.Queue
import PolyIdeal.Polynomial.Basic

/-!
# Criteria for needless pairs

Two conditions under which the S-polynomial of a pair need not be computed. By the product
criterion, coprime leading monomials always give one that reduces to zero. By the chain criterion
a pair is implied by two others if a third generator's leading monomial divides the least common
multiple of the pair's own, and both pairs with that generator are no longer pending.
-/

namespace PolyIdeal

/-- Whether the leading monomials of a pair have no variable in common. -/
def productCriterion (a b : Monomial) : Bool := a.isCoprime b

/-- Whether generator number `k` stands between the two of the pair: its leading monomial divides
`lcm`, and its pairs with them are settled. -/
def linksPair {K : Type} (pair : CriticalPair) (lcm : Monomial) (queue : PairQueue)
    (k : Nat) (g : Polynomial K) : Bool :=
  k != pair.low && k != pair.high && g.leadDivides lcm
    && !queue.joins pair.low k && !queue.joins pair.high k

/-- Whether some generator stands between the two of the pair. -/
def chainCriterion {K : Type} (pair : CriticalPair) (lcm : Monomial)
    (generators : List (Polynomial K)) (queue : PairQueue) : Bool :=
  generators.zipIdx.any fun (g, k) => linksPair pair lcm queue k g

end PolyIdeal
