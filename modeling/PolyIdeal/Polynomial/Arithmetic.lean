import PolyIdeal.Polynomial.Merging

/-!
# Arithmetic of polynomials

The ring operations, each relative to the threshold of its left operand. The order in which
coefficients are combined is part of the meaning, because coefficients may round: a sum adds the
right coefficient, times the scale, to the left one, and a product adds one shifted copy of the
left operand per term of the right one, leading term first.
-/

namespace PolyIdeal.Polynomial

variable {K : Type} [Scalar K]

/-- The terms of `s * p`, none dropped. -/
def scaledTerms (p : Polynomial K) (s : K) : List (Term K) :=
  p.terms.map fun t => ⟨t.monomial, t.coeff * s⟩

/-- `p + s * q`. -/
def addScaled (p q : Polynomial K) (s : K) : Except Fault (Polynomial K) := do
  p.checkCompatible q
  return { p with terms := ← mergeTerms p.order p.epsilon p.terms (q.scaledTerms s) }

/-- `p + q`. -/
def add (p q : Polynomial K) : Except Fault (Polynomial K) := p.addScaled q 1

/-- `p - q`. -/
def sub (p q : Polynomial K) : Except Fault (Polynomial K) := p.addScaled q (-1)

/-- `s * p`. -/
def scale (p : Polynomial K) (s : K) : Polynomial K :=
  { p with terms := keepSignificant p.epsilon (p.scaledTerms s) }

/-- `-p`. -/
def neg (p : Polynomial K) : Polynomial K := p.scale (-1)

/-- `c * m * p`. Terms that the factor makes insignificant are dropped before any exponents are
added, so they cannot overflow. The others stay in place, since an order respects products. -/
def mulTerm (p : Polynomial K) (m : Monomial) (c : K) : Except Fault (Polynomial K) := do
  checkArity p.arity m.arity
  let kept := p.terms.filter fun t => Scalar.significant p.epsilon (t.coeff * c)
  let terms ← kept.mapM fun t => do
    return (⟨← t.monomial.mul m, t.coeff * c⟩ : Term K)
  return { p with terms }

/-- `p * q`, one shifted copy of `p` per term of `q`. -/
def mul (p q : Polynomial K) : Except Fault (Polynomial K) := do
  p.checkCompatible q
  q.terms.foldlM (fun acc t => do acc.addScaled (← p.mulTerm t.monomial t.coeff) 1) p.cleared

/-- `p` over its leading coefficient. The new leading coefficient is one by decree, whatever the
quotient of the old one by itself would be. -/
def monic (p : Polynomial K) : Except Fault (Polynomial K) :=
  match p.terms with
  | [] => .error .noLeadingTerm
  | t :: ts =>
      let tail := ts.map fun u => (⟨u.monomial, u.coeff / t.coeff⟩ : Term K)
      .ok { p with terms := ⟨t.monomial, 1⟩ :: keepSignificant p.epsilon tail }

/-! ## Values -/

/-- The value of a term: its coefficient times the powers of the coordinates, in order. -/
def termValue (point : List K) (t : Term K) : K :=
  (t.monomial.exponents.zip point).foldl
    (fun v (e, x) => v * Scalar.power x e.toNat) t.coeff

/-- The value of `p` at a point, the terms added up in order. -/
def eval (p : Polynomial K) (point : List K) : Except Fault K := do
  checkArity p.arity point.length
  return p.terms.foldl (fun acc t => acc + termValue point t) 0

end PolyIdeal.Polynomial
