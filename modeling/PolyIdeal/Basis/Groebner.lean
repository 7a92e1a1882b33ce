import PolyIdeal.Basis.Basic
import PolyIdeal.CriticalPair.Basic
import PolyIdeal.SPolynomial

/-!
# The Gröbner property

A basis is a Gröbner basis when the S-polynomial of every two generators leaves no remainder.
This is a finite check, and it stops at the first pair that fails it.
-/

namespace PolyIdeal.Basis

variable {K : Type} [Scalar K]

/-- The remainder of the S-polynomial of `f` and `g`. -/
def pairRemainder (b : Basis K) (f g : Polynomial K) : Except Fault (Polynomial K) := do
  b.remainder (← f.sPolynomial g)

/-- Whether the S-polynomial of every two generators leaves no remainder. -/
def isGroebner (b : Basis K) : Except Fault Bool :=
  (laterPairs b.generators).allM fun (f, g) => do
    return (← b.pairRemainder f g).isZero

end PolyIdeal.Basis
