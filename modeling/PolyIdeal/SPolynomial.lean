import PolyIdeal.Polynomial.Arithmetic

/-!
# S-polynomials

The S-polynomial of `f` and `g` is the smallest combination that cancels their leading terms:
with `L` the least common multiple of the leading monomials it is
`(L / LM f) * f / LC f - (L / LM g) * g / LC g`. The second shifted copy is cut at the threshold
of `g`, everything else at that of `f`.
-/

namespace PolyIdeal.Polynomial

variable {K : Type} [Scalar K]

/-- `p` divided by its leading coefficient and shifted so that `m` leads. -/
def liftedTo (p : Polynomial K) (m : Monomial) (lead : Term K) : Except Fault (Polynomial K) := do
  p.mulTerm (← m.div lead.monomial) (Scalar.reciprocal lead.coeff)

/-- The S-polynomial of `f` and `g`. -/
def sPolynomial (f g : Polynomial K) : Except Fault (Polynomial K) := do
  f.checkCompatible g
  let leadF ← f.leadingTerm
  let leadG ← g.leadingTerm
  let lcm ← leadF.monomial.lcm leadG.monomial
  let left ← f.liftedTo lcm leadF
  let right ← g.liftedTo lcm leadG
  left.addScaled right (-1)

end PolyIdeal.Polynomial
