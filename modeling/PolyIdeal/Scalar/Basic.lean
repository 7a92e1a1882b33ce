/-!
# Coefficients

The algorithms ask very little of their coefficients: the arithmetic operations, a magnitude,
and two tests against a threshold `ε`. No law is assumed, so that floating-point numbers, with
their rounding, infinities and values that are not numbers, are coefficients like any others.

The two tests are separate because neither is the negation of the other: a value that is not a
number passes neither. `significant ε c` decides whether a term stays, `negligible ε c` whether
two coefficients count as equal.
-/

namespace PolyIdeal

/-- Coefficient arithmetic with a zero threshold; no law is assumed. -/
class Scalar (K : Type) extends Zero K, One K, Neg K, Add K, Sub K, Mul K, Div K where
  /-- The threshold a polynomial starts with. -/
  defaultEpsilon : K
  /-- The magnitude of a coefficient. -/
  abs : K → K
  /-- `significant ε c` holds when the magnitude of `c` is at least `ε`. -/
  significant : K → K → Bool
  /-- `negligible ε c` holds when the magnitude of `c` is below `ε`. -/
  negligible : K → K → Bool

namespace Scalar

variable {K : Type} [Scalar K]

/-- The reciprocal, as a quotient. -/
def reciprocal (c : K) : K := 1 / c

/-- The power `c ^ e`, built from one by multiplying with `c` on the right `e` times. -/
def power (c : K) (e : Nat) : K := e.repeat (fun acc => acc * c) 1

end Scalar

/-! ## Floating-point coefficients -/

instance : Scalar Float where
  zero := 0
  one := 1
  defaultEpsilon := 1e-4
  abs := Float.abs
  significant ε c := decide (ε ≤ c.abs)
  negligible ε c := decide (c.abs < ε)

instance : Scalar Float32 where
  zero := 0
  one := 1
  defaultEpsilon := 1e-4
  abs := Float32.abs
  significant ε c := decide (ε ≤ c.abs)
  negligible ε c := decide (c.abs < ε)

end PolyIdeal
