import PolyIdeal.Polynomial.Basic

/-!
# Merging descending term lists

Sums of polynomials are merges of their term lists. The merge is not symmetric: a term of the
left list that meets no partner is kept as it stands, while a term of the right list and a sum of
two partners stay only if they are significant.

`merge` compares monomials on degrees of any size. The algorithms use `mergeTerms`, which first
asks whether the order can rank what it has to. Nothing is compared unless both lists have terms,
and in a descending list of a graded order no degree is larger than the first, so the two leading
monomials decide.
-/

namespace PolyIdeal.Polynomial

variable {K : Type} [Scalar K]

/-- Puts `t` in front if it is significant. -/
def consSignificant (ε : K) (t : Term K) (ts : List (Term K)) : List (Term K) :=
  if Scalar.significant ε t.coeff then t :: ts else ts

/-- Merges `a :: as` with a second list, where `mergeRest` merges `as` with one. -/
def mergeCons (o : TermOrder) (ε : K) (a : Term K) (as : List (Term K))
    (mergeRest : List (Term K) → List (Term K)) : List (Term K) → List (Term K)
  | [] => a :: as
  | b :: bs =>
      match o.cmp a.monomial b.monomial with
      | .gt => a :: mergeRest (b :: bs)
      | .lt => consSignificant ε b (mergeCons o ε a as mergeRest bs)
      | .eq => consSignificant ε ⟨a.monomial, a.coeff + b.coeff⟩ (mergeRest bs)

/-- Merges two descending lists, adding the coefficients of common monomials. -/
def merge (o : TermOrder) (ε : K) : List (Term K) → List (Term K) → List (Term K)
  | [], bs => keepSignificant ε bs
  | a :: as, bs => mergeCons o ε a as (merge o ε as) bs

omit [Scalar K] in
/-- Whether the order can rank every monomial that merging two descending lists compares. -/
def canMerge (o : TermOrder) : List (Term K) → List (Term K) → Bool
  | a :: _, b :: _ => o.canRank a.monomial && o.canRank b.monomial
  | _, _ => true

/-- Merges two descending lists, provided the order can rank their monomials. -/
def mergeTerms (o : TermOrder) (ε : K) (as bs : List (Term K)) :
    Except Fault (List (Term K)) :=
  if canMerge o as bs then .ok (merge o ε as bs) else .error .exponentOverflow

end PolyIdeal.Polynomial
