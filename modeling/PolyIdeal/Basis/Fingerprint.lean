import PolyIdeal.Basis.Basic
import PolyIdeal.Monomial.Text

/-!
# Fingerprints

The fingerprint of a basis is the sorted list of the supports of its generators. It forgets
coefficients and the order of the generators, and it is what a sweep compares to see whether it
has changed anything.

Supports are ranked like words, monomial by monomial, a shorter one before its continuations.
Ranking two or more of them compares every leading monomial at least once. In a graded order no
later monomial of a support has a larger degree, so the leading ones decide whether the
comparison can be made.
-/

namespace PolyIdeal

/-- The sorted supports of a basis. -/
structure Fingerprint where
  supports : List (List Monomial)
deriving DecidableEq

/-- Compares supports like words. -/
def TermOrder.cmpSupports (o : TermOrder) : List Monomial → List Monomial → Ordering
  | x :: xs, y :: ys => (o.cmp x y).then (o.cmpSupports xs ys)
  | [], [] => .eq
  | [], _ :: _ => .lt
  | _ :: _, [] => .gt

namespace Basis

variable {K : Type}

/-- Whether the leading monomials of the generators can be ranked against each other. -/
def canRankLeads (order : TermOrder) (gs : List (Polynomial K)) : Bool :=
  gs.length < 2 || gs.all fun g => g.support.head?.all order.canRank

/-- The sorted supports of the generators. -/
def fingerprint (b : Basis K) : Except Fault Fingerprint :=
  if canRankLeads b.order b.generators then
    .ok ⟨StableSort.sort (fun s t => b.order.cmpSupports s t == .lt)
      (b.generators.map Polynomial.support)⟩
  else
    .error .exponentOverflow

end Basis

/-- A list in brackets. -/
def bracketed (items : List String) : String := "[" ++ ", ".intercalate items ++ "]"

/-- The fingerprint with its exponents spelled out. -/
def Fingerprint.text (f : Fingerprint) : String :=
  "Fingerprint(" ++
    bracketed (f.supports.map fun s => bracketed (s.map Monomial.exponentText)) ++ ")"

end PolyIdeal
