import PolyIdeal.Polynomial.Basic

/-!
# When polynomials agree

Three notions, from strict to loose. Equality compares everything that a polynomial is made of,
its threshold included, with the equality of the coefficients. Two polynomials agree
approximately when they are ranked alike, have the same monomials, and coefficients that differ
by less than the *left* threshold. They have the same support when their lists of monomials are
the same.
-/

namespace PolyIdeal

instance {K : Type} [BEq K] : BEq (Term K) where
  beq t u := t.monomial == u.monomial && t.coeff == u.coeff

instance {K : Type} [BEq K] : BEq (Polynomial K) where
  beq p q :=
    p.terms == q.terms && p.arity == q.arity && p.order == q.order && p.epsilon == q.epsilon

namespace Polynomial

variable {K : Type}

/-- Whether both list the same monomials in the same places. -/
def sameSupport (p q : Polynomial K) : Bool := p.support == q.support

/-- Whether both have one order, the same monomials, and nearly the same coefficients. -/
def approxEq [Scalar K] (p q : Polynomial K) : Bool :=
  p.order == q.order && p.sameSupport q &&
    (p.terms.zip q.terms).all fun (t, u) =>
      Scalar.negligible p.epsilon (t.coeff - u.coeff)

end Polynomial

end PolyIdeal
